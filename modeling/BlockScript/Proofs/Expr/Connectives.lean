import BlockScript.Proofs.Machine

/-!
# Connectives and their truth tables

There are six connectives and two nodes for them. The other four are written out, and the operands
of two of these occur twice in the tree, so it is not obvious that a chain of them means what its
truth tables say, or that an operand in it is evaluated when it should be.

What a chain means is said by a loop that goes through its operands from left to right (`walk`). It
has the value of everything so far in hand and evaluates the next operand unless that value decides
the step already. Trees of `or`, `nor`, `and` and `nand` do exactly this, whatever the operands do.
An operand of `xor` or `xnor` may be evaluated twice, and a tree of these does the same as the loop
where the second time cannot be told from the first: where operands assign nothing.
-/

namespace BlockScript

namespace Value

/-- The opposite truth value. -/
def opposite (v : Value) : Value := .bool !v.truthy

@[simp] theorem truthy_bool (b : Bool) : (bool b).truthy = b := rfl

@[simp] theorem truthy_opposite (v : Value) : v.opposite.truthy = !v.truthy := rfl

end Value

open Value (opposite)

/-- The connectives. -/
inductive Connective where
  | or | nor | xor | xnor | and | nand

namespace Connective

/-- The word for a connective. -/
def keyword : Connective → Keyword
  | or => .or
  | nor => .nor
  | xor => .xor
  | xnor => .xnor
  | and => .and
  | nand => .nand

/-- The level of a connective. -/
def rank : Connective → Rank
  | or | nor => .or
  | xor | xnor => .xor
  | and | nand => .and

/-- The tree of a connective between two operands. -/
def node : Connective → Expr → Expr → Nat → Expr
  | or => (Expr.logical · .or)
  | nor => Expr.nor
  | xor => Expr.xor
  | xnor => Expr.xnor
  | and => (Expr.logical · .and)
  | nand => Expr.nand

/-- **The truth tables.** -/
def table : Connective → Bool → Bool → Bool
  | or, p, q => p || q
  | nor, p, q => !(p || q)
  | xor, p, q => p ^^ q
  | xnor, p, q => !(p ^^ q)
  | and, p, q => p && q
  | nand, p, q => !(p && q)

/-- Whether the left side alone decides what the table says. -/
def decides (op : Connective) (p : Bool) : Bool := op.table p true == op.table p false

/-- The value of a connective whose operands have these values. -/
def join : Connective → Value → Value → Value
  | or, _, w | and, _, w => w
  | nor, _, w | nand, _, w => w.opposite
  | xor, v, w => if v.truthy then w.opposite else w
  | xnor, v, w => .bool (v.truthy == w.truthy)

/-- One step from left to right. A value that decides the step takes the place of the operand. -/
def step (op : Connective) (v : Value) (right : Eval Value) : Eval Value :=
  if op.decides v.truthy then pure (op.join v v) else op.join v <$> right

variable {op : Connective} {v w : Value} {right : Eval Value} {env : Environment}

/-- Where both operands are needed, the value is as true as the table says. -/
theorem truthy_join (h : op.decides v.truthy = false) :
    (op.join v w).truthy = op.table v.truthy w.truthy := by
  revert h
  cases op <;> cases hv : v.truthy <;> simp [decides, table, join, hv]

/-- Where the left one decides, it does so whatever the right one is. -/
theorem truthy_join_self (h : op.decides v.truthy = true) (q : Bool) :
    (op.join v v).truthy = op.table v.truthy q := by
  revert h
  cases op <;> cases hv : v.truthy <;> simp [decides, table, join, hv]

private theorem step_of_ok (h : right env = .ok w env) :
    ∃ u, op.step v right env = .ok u env ∧ u.truthy = op.table v.truthy w.truthy := by
  rw [step]
  split
  · next hdecided => exact ⟨op.join v v, rfl, truthy_join_self hdecided w.truthy⟩
  · next hopen =>
    exact ⟨op.join v w, map_eq_ok_iff.mpr ⟨w, h, rfl⟩, truthy_join (Bool.eq_false_iff.mpr hopen)⟩

private theorem step_of_decides (h : op.decides v.truthy = true) :
    op.step v right env = .ok (op.join v v) env := by
  rw [step, if_pos h]
  rfl

private theorem step_of_error {err : RuntimeError} (hopen : op.decides v.truthy = false)
    (h : right env = .error err env) : op.step v right env = .error err env := by
  rw [step, hopen]
  simp [Functor.map, EStateM.map, h]

private theorem step_or : or.step v right = if v.truthy then pure v else right := by
  have hjoin : or.join v = id := rfl
  simp [step, decides, table, hjoin]

private theorem step_and : and.step v right = if !v.truthy then pure v else right := by
  have hjoin : and.join v = id := rfl
  cases hv : v.truthy <;> simp [step, decides, table, hjoin, hv]

private theorem step_xor :
    xor.step v right = if v.truthy then opposite <$> right else right := by
  have hjoin : xor.join v = if v.truthy then opposite else id := by
    funext w
    cases hv : v.truthy <;> simp [join, hv]
  cases hv : v.truthy <;> simp [step, decides, table, hjoin, hv]

/-- A connective that always has the opposite truth value takes the same step and turns the result
round. -/
theorem step_of_opposite {op' : Connective} (hdecides : op.decides v.truthy = op'.decides v.truthy)
    (hjoin : ∀ w, op.join v w = opposite (op'.join v w)) :
    op.step v right = opposite <$> op'.step v right := by
  have hcomp : op.join v = opposite ∘ op'.join v := funext hjoin
  rw [step, step, hdecides, hcomp]
  split
  · rw [map_pure, Function.comp_apply]
  · rw [comp_map]

private theorem step_nor : nor.step v right = opposite <$> or.step v right :=
  step_of_opposite (by cases v.truthy <;> rfl) fun _ ↦ rfl

private theorem step_nand : nand.step v right = opposite <$> and.step v right :=
  step_of_opposite (by cases v.truthy <;> rfl) fun _ ↦ rfl

private theorem step_xnor : xnor.step v right = opposite <$> xor.step v right := by
  refine step_of_opposite (by cases v.truthy <;> rfl) fun w ↦ ?_
  cases hv : v.truthy <;> simp [join, hv, opposite]

end Connective

/-! ## One connective -/

namespace Expr

variable [Memory] {a b : Expr} {op : LogicOp} {v : Value} {err : RuntimeError}
  {env env' : Environment} {line : Nat}

private theorem eval_logical_of_ok (h : a.eval env = .ok v env') : (logical a op b line).eval env =
    if op.decidedBy v then .ok v env' else b.eval env' := by
  rw [eval, bind_of_ok h]
  split
  · rfl
  · rfl

private theorem eval_logical_of_error (h : a.eval env = .error err env') :
    (logical a op b line).eval env = .error err env' := by
  rw [eval, bind_of_error h]

theorem eval_not (a : Expr) (line : Nat) :
    (a.not line).eval = opposite <$> a.eval := by
  rw [map_eq_pure_bind]
  rfl

private theorem eval_not_of_ok (h : a.eval env = .ok v env') :
    (a.not line).eval env = .ok v.opposite env' := by
  rw [eval_not]
  exact map_eq_ok_iff.mpr ⟨v, h, rfl⟩

private theorem eval_not_of_error (h : a.eval env = .error err env') :
    (a.not line).eval env = .error err env' := by
  rw [not, eval, bind_of_error h]

/-- **Evaluation without assignments** leaves all variables as they are. -/
theorem eval_cases_of_targets_eq_nil (h : a.targets = []) (env : Environment) :
    (∃ v, a.eval env = .ok v env) ∨ ∃ err, a.eval env = .error err env := by
  have hsame : Respects Eq a.eval := by
    refine a.respects_eval ⟨fun _ ↦ rfl, Eq.trans⟩ fun name hname ↦ ?_
    rw [h] at hname
    exact absurd hname List.not_mem_nil
  have henv := hsame env
  rcases ha : a.eval env with ⟨v, env'⟩ | ⟨err, env'⟩
  · rw [ha] at henv
    obtain rfl : env = env' := henv
    exact .inl ⟨v, rfl⟩
  · rw [ha] at henv
    obtain rfl : env = env' := henv
    exact .inr ⟨err, rfl⟩

private theorem eval_xor (ha : a.targets = []) (hb : b.targets = []) (env : Environment) :
    (a.xor b line).eval env = (a.eval >>= fun v ↦ Connective.xor.step v b.eval) env := by
  rw [xor]
  obtain ⟨v, ha⟩ | ⟨err, ha⟩ := eval_cases_of_targets_eq_nil ha env
  · rw [bind_of_ok ha, Connective.step_xor]
    cases hv : v.truthy with
    | false =>
      have hleft : (logical a .and (b.not line) line).eval env = .ok v env := by
        rw [eval_logical_of_ok ha, LogicOp.decidedBy, hv]
        rfl
      rw [eval_logical_of_ok hleft, LogicOp.decidedBy, hv, eval_logical_of_ok (eval_not_of_ok ha),
        LogicOp.decidedBy, Value.truthy_opposite, hv]
      rfl
    | true =>
      have hleft : (logical a .and (b.not line) line).eval env = (b.not line).eval env := by
        rw [eval_logical_of_ok ha, LogicOp.decidedBy, hv]
        rfl
      rw [if_pos rfl, ← eval_not b line]
      obtain ⟨w, hb⟩ | ⟨err, hb⟩ := eval_cases_of_targets_eq_nil hb env
      · have hnot : (b.not line).eval env = _ := eval_not_of_ok hb
        rw [eval_logical_of_ok (hleft.trans hnot), hnot, LogicOp.decidedBy, Value.truthy_opposite]
        cases hw : w.truthy with
        | false => rfl
        | true =>
          -- both operands hold, so the second half is false already by its left side
          rw [eval_logical_of_ok (eval_not_of_ok ha), LogicOp.decidedBy, Value.truthy_opposite, hv,
            opposite, opposite, hv, hw]
          rfl
      · have hnot : (b.not line).eval env = _ := eval_not_of_error hb
        rw [eval_logical_of_error (hleft.trans hnot), hnot]
  · rw [eval_logical_of_error (eval_logical_of_error ha), bind_of_error ha]

end Expr

namespace Connective

variable {op : Connective} {a b : Expr} {line : Nat} {env : Environment}

/-- What the tree of a connective does, if the tree of the opposite one does what it should. -/
theorem eval_node_of_opposite [Memory] {op' : Connective}
    (hnode : op.node a b line = (op'.node a b line).not line)
    (hstep : ∀ v right, op.step v right = opposite <$> op'.step v right)
    (h : (op'.node a b line).eval env = (a.eval >>= fun v ↦ op'.step v b.eval) env) :
    (op.node a b line).eval env = (a.eval >>= fun v ↦ op.step v b.eval) env := by
  simp only [hstep]
  rw [hnode, Expr.eval_not, ← map_bind]
  simp only [Functor.map, EStateM.map, h]

/-- **One connective.** Its tree evaluates the left operand and takes a step, provided that it
evaluates no operand twice, or that nobody notices. -/
theorem eval_node [Memory] (h : op.rank ≠ .xor ∨ a.targets = [] ∧ b.targets = []) :
    (op.node a b line).eval env = (a.eval >>= fun v ↦ op.step v b.eval) env := by
  have hor : (Connective.or.node a b line).eval env =
      (a.eval >>= fun v ↦ Connective.or.step v b.eval) env := by
    simp only [step_or]
    rfl
  have hand : (Connective.and.node a b line).eval env =
      (a.eval >>= fun v ↦ Connective.and.step v b.eval) env := by
    simp only [step_and]
    rfl
  have hxor (h : a.targets = [] ∧ b.targets = []) : (Connective.xor.node a b line).eval env =
      (a.eval >>= fun v ↦ Connective.xor.step v b.eval) env := Expr.eval_xor h.1 h.2 env
  cases op with
  | or => exact hor
  | nor => exact eval_node_of_opposite rfl (fun _ _ ↦ step_nor) hor
  | and => exact hand
  | nand => exact eval_node_of_opposite rfl (fun _ _ ↦ step_nand) hand
  | xor => exact hxor (h.resolve_left fun hne ↦ hne rfl)
  | xnor =>
    exact eval_node_of_opposite rfl (fun _ _ ↦ step_xnor) (hxor (h.resolve_left fun hne ↦ hne rfl))

/-- Neither operand of `xor` or `xnor` decides anything alone. -/
theorem decides_of_rank_eq_xor (h : op.rank = .xor) (p : Bool) : op.decides p = false := by
  revert h
  cases op <;> cases p <;> decide

private theorem targets_node_eq_nil (ha : a.targets = []) (hb : b.targets = []) :
    (op.node a b line).targets = [] := by
  cases op <;>
    simp [node, Expr.nor, Expr.nand, Expr.xor, Expr.xnor, Expr.not, Expr.targets, ha, hb]

end Connective

/-! ## Chains -/

/-- A connective, the operand behind it, and the line of the connective. -/
structure Link where
  /-- The connective. -/
  op : Connective
  /-- The operand on its right. -/
  operand : Expr
  /-- The line that errors of the connective would be reported on. -/
  line : Nat

namespace Expr

/-- The tree of an operand and some links behind it, associated to the left. -/
def linked (first : Expr) (links : List Link) : Expr :=
  links.foldl (fun left l ↦ l.op.node left l.operand l.line) first

variable {first : Expr} {links : List Link} {v : Value} {env : Environment}

private theorem targets_linked_eq_nil (hfirst : first.targets = [])
    (hlinks : ∀ l ∈ links, l.operand.targets = []) : (first.linked links).targets = [] := by
  induction links generalizing first with
  | nil => exact hfirst
  | cons l links ih =>
    rw [List.forall_mem_cons] at hlinks
    exact ih (Connective.targets_node_eq_nil hfirst hlinks.1) hlinks.2

variable [Memory]

/-- **The loop.** With a value in hand, one step is taken for each link. -/
def walk (links : List Link) (v : Value) : Eval Value :=
  links.foldlM (fun v l ↦ l.op.step v l.operand.eval) v

private theorem walk_cons (l : Link) (links : List Link) :
    walk (l :: links) = fun v ↦ l.op.step v l.operand.eval >>= walk links :=
  funext fun _ ↦ List.foldlM_cons

/-- **Chains.** The tree of a chain does what the loop does, provided that no connective in it
evaluates an operand twice, or that no operand assigns anything. -/
theorem eval_linked (h : (∀ l ∈ links, l.op.rank ≠ .xor) ∨
      first.targets = [] ∧ ∀ l ∈ links, l.operand.targets = []) :
    (first.linked links).eval env = (first.eval >>= walk links) env := by
  induction links generalizing first with
  | nil =>
    change first.eval env = (first.eval >>= pure) env
    rw [bind_pure]
  | cons l links ih =>
    simp only [List.forall_mem_cons] at h
    have hstep : (l.op.node first l.operand l.line).eval env =
        (first.eval >>= fun v ↦ l.op.step v l.operand.eval) env :=
      Connective.eval_node (h.imp (·.1) fun h ↦ ⟨h.1, h.2.1⟩)
    have hrest := @ih (l.op.node first l.operand l.line)
      (h.imp (·.2) fun h ↦ ⟨Connective.targets_node_eq_nil h.1 h.2.1, h.2.2⟩)
    rw [linked, List.foldl_cons, ← linked, hrest, walk_cons, ← bind_assoc]
    exact bind_congr_left hstep

private theorem walk_append (before links : List Link) (v : Value) :
    walk (before ++ links) v = walk before v >>= walk links := List.foldlM_append

/-- An expression has a value, and nothing changes. -/
def HasValue (e : Expr) (env : Environment) : Prop := ∃ v, e.eval env = .ok v env

/-- The truth value of an expression, if it has one. -/
def truthIn (e : Expr) (env : Environment) : Bool :=
  match e.eval env with
  | .ok v _ => v.truthy
  | .error _ _ => false

private theorem truthIn_of_ok {e : Expr} (h : e.eval env = .ok v env) :
    e.truthIn env = v.truthy := by
  rw [truthIn, h]

/-- If all operands have values, the loop goes through, and its result is as true as the tables
say. -/
theorem walk_of_hasValue (h : ∀ l ∈ links, l.operand.HasValue env) (v : Value) :
    ∃ w, walk links v env = .ok w env ∧
      w.truthy = links.foldl (fun p l ↦ l.op.table p (l.operand.truthIn env)) v.truthy := by
  induction links generalizing v with
  | nil => exact ⟨v, rfl, rfl⟩
  | cons l links ih =>
    rw [List.forall_mem_cons] at h
    obtain ⟨⟨u, hu⟩, hlinks⟩ := h
    obtain ⟨w, hstep, hw⟩ := Connective.step_of_ok hu
    obtain ⟨w', hwalk, hw'⟩ := ih hlinks w
    refine ⟨w', ?_, ?_⟩
    · rw [walk_cons]
      exact (bind_of_ok hstep).trans hwalk
    · rw [hw', hw, List.foldl_cons, truthIn_of_ok hu]

/-- The loop fails where it meets an operand that fails, in a step that is not decided. -/
theorem walk_eq_error_iff {err : RuntimeError} (h : ∀ l ∈ links, l.operand.targets = []) :
    walk links v env = .error err env ↔ ∃ before l after w, links = before ++ l :: after ∧
      walk before v env = .ok w env ∧ l.op.decides w.truthy = false ∧
      l.operand.eval env = .error err env := by
  constructor
  · intro hwalk
    induction links generalizing v with
    | nil => cases hwalk
    | cons l links ih =>
      rw [List.forall_mem_cons] at h
      rw [walk_cons] at hwalk
      have hgoesOn {w : Value} (hstep : l.op.step v l.operand.eval env = .ok w env) :
          ∃ before l' after w', l :: links = before ++ l' :: after ∧
            walk before v env = .ok w' env ∧ l'.op.decides w'.truthy = false ∧
            l'.operand.eval env = .error err env := by
        obtain ⟨before, l', after, w', rfl, hbefore, hopen, herr⟩ :=
          ih h.2 ((bind_of_ok hstep).symm.trans hwalk)
        refine ⟨l :: before, l', after, w', rfl, ?_, hopen, herr⟩
        rw [walk_cons]
        exact (bind_of_ok hstep).trans hbefore
      cases hdecides : l.op.decides v.truthy with
      | true => exact hgoesOn (Connective.step_of_decides hdecides)
      | false =>
        obtain ⟨u, hu⟩ | ⟨err', hu⟩ := eval_cases_of_targets_eq_nil h.1 env
        · obtain ⟨w, hstep, -⟩ := Connective.step_of_ok hu
          exact hgoesOn hstep
        · have hstep := Connective.step_of_error hdecides hu
          obtain ⟨⟩ := (bind_of_error hstep).symm.trans hwalk
          exact ⟨[], l, links, v, rfl, rfl, hdecides, hu⟩
  · rintro ⟨before, l, after, w, rfl, hbefore, hopen, herr⟩
    rw [walk_append, bind_of_ok hbefore, walk_cons]
    exact bind_of_error (Connective.step_of_error hopen herr)

private theorem linked_of_hasValue (hfirst : first.targets = [])
    (hlinks : ∀ l ∈ links, l.operand.targets = []) (hvalue : first.HasValue env)
    (hvalues : ∀ l ∈ links, l.operand.HasValue env) :
    ∃ v, (first.linked links).eval env = .ok v env ∧
      v.truthy = links.foldl (fun p l ↦ l.op.table p (l.operand.truthIn env))
        (first.truthIn env) := by
  obtain ⟨v, hv⟩ := hvalue
  obtain ⟨w, hwalk, hw⟩ := walk_of_hasValue hvalues v
  rw [eval_linked (.inr ⟨hfirst, hlinks⟩), bind_of_ok hv, truthIn_of_ok hv]
  exact ⟨w, hwalk, hw⟩

private theorem linked_eq_error_iff (hfirst : first.targets = [])
    (hlinks : ∀ l ∈ links, l.operand.targets = []) {err : RuntimeError} :
    (first.linked links).eval env = .error err env ↔ first.eval env = .error err env ∨
      ∃ before l after v, links = before ++ l :: after ∧
        (first.linked before).eval env = .ok v env ∧ l.op.decides v.truthy = false ∧
        l.operand.eval env = .error err env := by
  have hpart {before after : List Link} (h : links = before ++ after) :
      (first.linked before).eval env = (first.eval >>= walk before) env := by
    refine eval_linked (.inr ⟨hfirst, fun l hl ↦ hlinks l ?_⟩)
    rw [h]
    exact List.mem_append_left after hl
  rw [hpart (List.append_nil links).symm]
  obtain ⟨v, hv⟩ | ⟨err', herr'⟩ := eval_cases_of_targets_eq_nil hfirst env
  · rw [bind_of_ok hv, walk_eq_error_iff hlinks]
    constructor
    · rintro ⟨before, l, after, w, hsplit, hbefore, hopen, herr⟩
      refine .inr ⟨before, l, after, w, hsplit, ?_, hopen, herr⟩
      rw [hpart hsplit, bind_of_ok hv, hbefore]
    · rintro (herr | ⟨before, l, after, w, hsplit, hbefore, hopen, herr⟩)
      · cases hv.symm.trans herr
      · rw [hpart hsplit, bind_of_ok hv] at hbefore
        exact ⟨before, l, after, w, hsplit, hbefore, hopen, herr⟩
  · rw [bind_of_error herr', ← herr']
    constructor
    · exact .inl
    · rintro (herr | ⟨before, l, after, w, hsplit, hbefore, -, -⟩)
      · exact herr
      · rw [hpart hsplit, bind_of_error herr'] at hbefore
        cases hbefore

/-- What the tables have to do with a chain whose operands assign nothing. -/
structure FollowsTables (r : Rank) (first : Expr) (links : List Link) (env : Environment) :
    Prop where
  /-- The tree does what the loop does. -/
  loop : (first.linked links).eval env = (first.eval >>= walk links) env
  /-- Evaluation changes nothing. -/
  unchanged : stateAfter ((first.linked links).eval env) = env
  /-- If all operands have values, so has the chain, and it is as true as the tables say, applied
  from left to right to the truth values of the operands. -/
  truth : first.HasValue env → (∀ l ∈ links, l.operand.HasValue env) →
    ∃ v, (first.linked links).eval env = .ok v env ∧
      v.truthy = links.foldl (fun p l ↦ l.op.table p (l.operand.truthIn env)) (first.truthIn env)
  /-- It fails with the error of the first operand, or with that of an operand behind a part of the
  chain which has a value that does not decide the step. -/
  error (err : RuntimeError) : (first.linked links).eval env = .error err env ↔
    first.eval env = .error err env ∨
    ∃ before l after v, links = before ++ l :: after ∧ (first.linked before).eval env = .ok v env ∧
      l.op.decides v.truthy = false ∧ l.operand.eval env = .error err env
  /-- Of `xor` and `xnor` all operands are evaluated: the leftmost that fails gives the error. -/
  leftmost : r = .xor → ∀ before l after err, links = before ++ l :: after → first.HasValue env →
    (∀ l' ∈ before, l'.operand.HasValue env) → l.operand.eval env = .error err env →
    (first.linked links).eval env = .error err env

theorem followsTables {r : Rank} (hrank : ∀ l ∈ links, l.op.rank = r) (hfirst : first.targets = [])
    (hlinks : ∀ l ∈ links, l.operand.targets = []) (env : Environment) :
    FollowsTables r first links env where
  loop := eval_linked (.inr ⟨hfirst, hlinks⟩)
  unchanged := by
    have htargets := targets_linked_eq_nil hfirst hlinks
    obtain ⟨v, hv⟩ | ⟨err, herr⟩ := eval_cases_of_targets_eq_nil htargets env
    · rw [hv, stateAfter_ok]
    · rw [herr, stateAfter_error]
  truth := linked_of_hasValue hfirst hlinks
  error err := linked_eq_error_iff hfirst hlinks
  leftmost := by
    rintro rfl before l after err rfl hvalue hvalues herr
    have hbefore (l' : Link) (hl' : l' ∈ before) : l'.operand.targets = [] :=
      hlinks l' (List.mem_append_left _ hl')
    obtain ⟨v, hv, -⟩ := linked_of_hasValue hfirst hbefore hvalue hvalues
    have hxor := hrank l (List.mem_append_right before List.mem_cons_self)
    have hopen := Connective.decides_of_rank_eq_xor hxor v.truthy
    exact (linked_eq_error_iff hfirst hlinks).mpr
      (.inr ⟨before, l, after, v, rfl, hv, hopen, herr⟩)

end Expr

end BlockScript
