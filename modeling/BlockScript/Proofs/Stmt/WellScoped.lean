import BlockScript.Proofs.Stmt.Jumps
import BlockScript.Proofs.Stmt.Scopes
import Mathlib.Data.Set.Insert

/-!
# Programs whose variables are declared

Whether every variable is declared before it is used can be read off a program: a declaration is in
force for the statements behind it in the same sequence, and what is declared in a block, in a
choice or in a loop is in force nowhere outside. A program that is well scoped in this sense never
fails for want of a variable, if all names that it takes for granted are bound where it begins.

## The invariant

All names in force are bound by some scope (`Covers`). Execution unbinds nothing in the scopes it
finds (`Extends`), so the invariant holds for whatever comes next, after a jump or after another
iteration as well. A declaration in a choice or a loop may bind a name or not, and the check does
not rely on it.
-/

namespace BlockScript

/-! ## The check -/

namespace Stmt

/-- Whether all names of an expression are in force. -/
def InForce (names : Set String) (e : Expr) : Prop := ∀ x ∈ e.names, x ∈ names

/-- The names in force behind a statement in the same sequence: a declaration adds one. -/
def namesAfter (names : Set String) : Stmt → Set String
  | declare name _ _ => insert name names
  | _ => names

mutual

/-- Whether a statement uses only names in force at the place where they are used. -/
def WellScoped (names : Set String) : Stmt → Prop
  | expression value _ => InForce names value
  | write value _ _ => InForce names value
  | declare _ initial _ => ∀ e ∈ initial, InForce names e
  | block body _ => WellScopedAll names body
  | ifThen condition yes _ => InForce names condition ∧ yes.WellScoped names
  | ifElse condition yes no _ =>
    InForce names condition ∧ yes.WellScoped names ∧ no.WellScoped names
  | loop condition body increment _ =>
    InForce names condition ∧ body.WellScoped names ∧ ∀ e ∈ increment, InForce names e
  | repeatUntil body condition _ => body.WellScoped names ∧ InForce names condition
  | repeatFor body count _ => InForce names count ∧ body.WellScoped names
  | jump _ _ => True
  | read name _ => name ∈ names
  | readNumber name _ => name ∈ names

/-- The same for statements in sequence, each of which sees the declarations in front of it. -/
def WellScopedAll (names : Set String) : List Stmt → Prop
  | [] => True
  | s :: rest => s.WellScoped names ∧ WellScopedAll (s.namesAfter names) rest

end

private theorem subset_namesAfter (names : Set String) (s : Stmt) : names ⊆ s.namesAfter names := by
  cases s with
  | declare name => exact Set.subset_insert name names
  | _ => exact subset_rfl

end Stmt

/-! ## Names that are bound -/

namespace Environment

variable {env env' : Environment} {names names' : Set String} {x : String}

/-- **The invariant.** All names in force are bound. -/
def Covers (names : Set String) (env : Environment) : Prop :=
  ∀ x ∈ names, (env.get? x).isSome = true

namespace Covers

theorem mono (h : Covers names env) (hsub : names' ⊆ names) : Covers names' env :=
  fun x hx ↦ h x (hsub hx)

/-- What has been bound stays bound. -/
theorem of_extends {added : List String} (h : Covers names env) (hext : Extends added env env') :
    Covers names env' := by
  intro x hx
  obtain ⟨level, hbinds⟩ := isSome_get?_iff.mp (h x hx)
  have hlt := lt_depth_of_bindsAt hbinds
  refine isSome_get?_iff.mpr ⟨level, ?_⟩
  by_cases hlevel : level + 1 < env.depth
  · rwa [hext.below level x hlevel]
  · obtain rfl : level = env.depth - 1 := by omega
    exact hext.kept x hbinds

private theorem of_sameNames (h : Covers names env) (hsame : SameNames env env') :
    Covers names env' :=
  h.of_extends (hsame.extends : Extends [] env env')

theorem push (h : Covers names env) : Covers names env.push := by
  intro x hx
  obtain ⟨level, hbinds⟩ := isSome_get?_iff.mp (h x hx)
  exact isSome_get?_iff.mpr ⟨level, by rwa [bindsAt_push]⟩

/-- A declaration brings its name into force. -/
theorem define (h : Covers names env) (name : String) (v : Value) :
    Covers (insert name names) (env.define name v) := by
  have hpos := env.nonempty
  have hkept := h.of_extends (extends_define (List.mem_singleton_self name) v env)
  rintro x (rfl | hx)
  · refine isSome_get?_iff.mpr ⟨env.depth - 1, ?_⟩
    rw [define_eq_setAt, bindsAt_setAt (by omega)]
    exact .inl ⟨rfl, rfl⟩
  · exact hkept x hx

end Covers

end Environment

open Environment

variable {names : Set String}

/-! ## Evaluation -/

namespace Eval

/-- Where all names in force are bound, an evaluation does not fail for want of a variable, and they
are still bound afterwards. -/
def Finds (names : Set String) {α : Type} (e : Eval α) : Prop :=
  Ensures (Covers names) (fun _ _ ↦ Covers names)
    (fun _ err _ ↦ ∀ name, err.cause ≠ .undefinedVariable name) e

private theorem closed_finds : Closed fun _ e ↦ Finds names e :=
  ⟨fun _ ↦ .pure fun _ h ↦ h, fun hx hf ↦ hx.bind hf (fun _ _ _ _ h ↦ h) (fun _ _ _ h ↦ h)
    (fun _ _ _ _ _ _ h ↦ h) fun _ _ _ _ _ _ h ↦ h⟩

private theorem finds_lookup {x : String} (hx : x ∈ names) (line : Nat) :
    Finds names (lookup x line) := by
  intro env h
  obtain ⟨v, hv⟩ := Option.isSome_iff_exists.mp (h x hx)
  rw [lookup, hv]
  exact .ok h

private theorem finds_assign {x : String} (hx : x ∈ names) (v : Value) (line : Nat) :
    Finds names (assign x v line) := by
  intro env h
  obtain ⟨level, hbinds⟩ := isSome_get?_iff.mp (h x hx)
  obtain ⟨level, hlevel⟩ := exists_level?_of_bindsAt hbinds
  have hassign : env.assign? x v = some (env.setAt level x v) :=
    assign?_eq_some_iff.mpr ⟨level, hlevel, rfl⟩
  rw [assign, hassign]
  exact .ok (h.of_sameNames (sameNames_of_assign? hassign))

end Eval

private theorem Expr.finds_eval [Memory] {e : Expr} (h : Stmt.InForce names e) :
    Eval.Finds names e.eval := by
  refine e.eval_of_closed Eval.closed_finds (fun cause line hcause ↦ .throw fun _ _ name heq ↦ ?_)
    (fun x hx ↦ Eval.finds_lookup (h x hx))
    fun x hx ↦ Eval.finds_assign (h x (e.targets_subset_names hx))
  obtain rfl : cause = .undefinedVariable name := heq
  exact absurd hcause Bool.false_ne_true

/-! ## Execution -/

/-- Reasons to stop other than the want of a variable. -/
def Stop.IsNotUndefined (stop : Stop) : Prop :=
  ∀ name line, stop ≠ .error ⟨.undefinedVariable name, line⟩

namespace Exec

/-- Where `names` are bound, a computation does not fail for want of a variable, and afterwards
`names'` are bound. -/
def Finds (names names' : Set String) {α : Type} (c : Exec α) : Prop :=
  Ensures (fun m : Machine ↦ Covers names m.env) (fun _ _ m ↦ Covers names' m.env)
    (fun _ stop _ ↦ stop.IsNotUndefined) c

theorem Finds.bind {names' names'' : Set String} {α β : Type} {c : Exec α} {f : α → Exec β}
    (hc : Finds names names' c) (hf : ∀ a, Finds names' names'' (f a)) :
    Finds names names'' (c >>= f) :=
  Ensures.bind hc hf (fun _ _ _ _ h ↦ h) (fun _ _ _ h ↦ h) (fun _ _ _ _ _ _ h ↦ h)
    fun _ _ _ _ _ _ h ↦ h

/-- Names may be forgotten. -/
theorem Finds.forget {names' names'' : Set String} {α : Type} {c : Exec α}
    (hsub : names'' ⊆ names') (h : Finds names names' c) : Finds names names'' c :=
  fun _ hm ↦ (h hm).mono (fun _ _ h ↦ h.mono hsub) fun _ _ h ↦ h

private theorem closed_finds : Closed fun _ c ↦ Finds names names c :=
  ⟨fun _ ↦ .pure fun _ h ↦ h, .bind, .throw fun _ _ _ _ ↦ nofun⟩

private theorem finds_lift {α : Type} {e : Eval α} (he : Eval.Finds names e) :
    Finds names names (liftM e : Exec α) := by
  intro ⟨env, input, output⟩ h
  have hend := @he env h
  change Ends _ _ (ofEval e _)
  rw [ofEval]
  rcases hrun : e env with ⟨a, env'⟩ | ⟨err, env'⟩
  · rw [hrun] at hend
    obtain hcovers | _ := hend
    exact .ok hcovers
  · rw [hrun] at hend
    obtain _ | herr := hend
    refine .error fun name line heq ↦ herr name ?_
    cases heq
    rfl

private theorem finds_eval [Memory] {e : Expr} (h : Stmt.InForce names e) :
    Finds names names (liftM e.eval : Exec Value) := finds_lift (Expr.finds_eval h)

private theorem finds_define (name : String) (v : Value) :
    Finds names (insert name names) (define name v) := fun _ h ↦ .ok (h.define name v)

private theorem finds_write (v : Value) (terminator : String) (line : Nat) :
    Finds names names (write v terminator line) := by
  intro ⟨env, input, output⟩ h
  rw [write]
  rcases Output.emit (v.display ++ terminator) output with _ | _
  · exact .ok h
  · exact .error fun _ _ ↦ by simp

private theorem finds_takeLine (line : Nat) : Finds names names (takeLine line) := by
  intro ⟨env, input, output⟩ h
  rw [takeLine]
  rcases Input.takeLine input with _ | _
  · exact .ok h
  · exact .error fun _ _ ↦ by simp

/-- A scope that its body leaves with all outer names bound. -/
theorem finds_inScope {names' : Set String} {α : Type} {body : Exec α}
    (hnames : Respects (OnEnv SameNames) (inScope body)) (h : Finds names names' body) :
    Finds names names (inScope body) := by
  intro m hm
  have hsame := hnames m
  have hbody := @h ⟨m.env.push, m.input, m.output⟩ hm.push
  obtain ⟨env, input, output⟩ := m
  rw [inScope] at hsame ⊢
  rcases hrun : body ⟨env.push, input, output⟩ with ⟨a, m'⟩ | ⟨e, m'⟩
  · rw [hrun] at hsame
    exact .ok (hm.of_sameNames hsame)
  · rw [hrun] at hbody
    obtain _ | he := hbody
    exact .error he

end Exec

namespace Stmt

open Exec (Finds)

private theorem finds_execAll [Memory] {fuel : Nat} {ss : List Stmt} (hss : WellScopedAll names ss)
    (h : ∀ s ∈ ss, ∀ {names}, s.WellScoped names → Finds names (s.namesAfter names) (s.exec fuel)) :
    Finds names names (execAll fuel ss) := by
  induction ss generalizing names with
  | nil => exact .pure fun _ h ↦ h
  | cons s ss ih =>
    rw [List.forall_mem_cons] at h
    rw [execAll]
    refine (h.1 hss.1).bind fun flow ↦ ?_
    rcases flow with _ | kind
    · exact (ih hss.2 h.2).forget (subset_namesAfter names s)
    · exact .pure fun _ hm ↦ hm.mono (subset_namesAfter names s)

/-- **Every statement** that is well scoped finds its variables, and leaves the names in force
behind it bound. -/
theorem finds_exec [Memory] (fuel : Nat) (s : Stmt) (h : s.WellScoped names) :
    Finds names (s.namesAfter names) (s.exec fuel) := by
  induction s using Stmt.induction generalizing names
  all_goals have hC : Exec.Closed fun _ c ↦ Finds names names c := Exec.closed_finds
  case expression value line => exact hC.bind (Exec.finds_eval h) fun _ ↦ hC.pure _
  case write value terminator line =>
    exact hC.bind (Exec.finds_eval h) fun v ↦
      hC.bind (Exec.finds_write v terminator line) fun _ ↦ hC.pure _
  case declare name initial line =>
    have hdefine (v : Value) : Finds names (insert name names) (do
        Exec.define name v
        return Flow.normal) := (Exec.finds_define name v).bind fun _ ↦ .pure fun _ h ↦ h
    rcases initial with _ | e
    · exact (hC.pure Value.nil).bind hdefine
    · exact (Exec.finds_eval (h e rfl)).bind hdefine
  case block body line ih =>
    have hnames := Exec.sameNames_inScope (execAll_of_pervasive Exec.pervasive_extends fuel body)
    exact Exec.finds_inScope hnames (finds_execAll h fun s hs _ h ↦ ih s hs h)
  case ifThen condition yes line ih =>
    refine hC.bind (Exec.finds_eval h.1) fun v ↦ ?_
    split
    · exact (ih h.2).forget (subset_namesAfter names yes)
    · exact hC.pure _
  case ifElse condition yes no line ihy ihn =>
    refine hC.bind (Exec.finds_eval h.1) fun v ↦ ?_
    split
    · exact (ihy h.2.1).forget (subset_namesAfter names yes)
    · exact (ihn h.2.2).forget (subset_namesAfter names no)
  case loop condition body increment line ih =>
    have hbody := (ih h.2.1).forget (subset_namesAfter names body)
    have hstep := loopStep_of_closed hC (Exec.finds_eval h.1) hbody
      fun e he ↦ Exec.finds_eval (h.2.2 e he)
    exact hC.bind (hC.loop hstep fuel) fun _ ↦ hC.pure _
  case repeatUntil body condition line ih =>
    have hbody := (ih h.1).forget (subset_namesAfter names body)
    have hstep := untilStep_of_closed hC hbody (Exec.finds_eval h.2)
    exact hC.bind (hC.loop hstep fuel) fun _ ↦ hC.pure _
  case repeatFor body count line ih =>
    have hcount : Finds names names (repeatCount count line) :=
      repeatCount_of_closed hC (Exec.finds_eval h.1) (.throw fun _ _ _ _ ↦ nofun)
    have hstep := countedStep_of_closed hC ((ih h.2).forget (subset_namesAfter names body))
    exact hC.bind hcount fun n ↦ hC.bind (hC.times hstep n) fun _ ↦ hC.pure _
  case jump kind line => exact hC.pure _
  case read name line =>
    have hread := Exec.readLine_of_closed hC (Exec.finds_takeLine line) fun v ↦
      Exec.finds_lift (Eval.finds_assign h v line)
    exact hC.bind hread fun _ ↦ hC.pure _
  case readNumber name line =>
    have hread : Finds names names (Exec.readNumber name line) :=
      Exec.readNumber_of_closed hC (Exec.finds_takeLine line)
        (fun v ↦ Exec.finds_lift (Eval.finds_assign h v line)) fun _ ↦ .throw fun _ _ _ _ ↦ nofun
    exact hC.bind hread fun _ ↦ hC.pure _

end Stmt

/-! ## Programs -/

namespace Program

private theorem finds_execWithin [Memory] (fuel : Nat) {program : Program}
    (h : Stmt.WellScopedAll names program) : Exec.Finds names names (program.execWithin fuel) := by
  induction program generalizing names with
  | nil => exact .pure fun _ h ↦ h
  | cons s program ih =>
    exact (Stmt.finds_exec fuel s h.1).bind fun _ ↦
      (ih h.2).forget (Stmt.subset_namesAfter names s)

private theorem finds_runWithin [Memory] (fuel : Nat) {program : Program}
    (h : Stmt.WellScopedAll names program) : Exec.Finds names names (program.runWithin fuel) := by
  rw [runWithin]
  rcases hjumps : Stmt.strayJumpAmong? program with _ | e
  · exact finds_execWithin fuel h
  · refine .throw fun _ _ name line heq ↦ ?_
    rw [Stmt.strayJumpAmong?_eq, Stmt.firstStray?, Option.map_eq_some_iff] at hjumps
    obtain ⟨site, -, rfl⟩ := hjumps
    cases heq

end Program

/-- **Well-scoped programs find their variables.** On a machine that binds all names a program takes
for granted, a program that is well scoped under these names never ends for want of a variable,
whatever the input holds and however its output and its loops turn out. -/
theorem never_undefined_of_wellScoped [Memory] {program : Program} {m : Machine}
    (hscoped : Stmt.WellScopedAll names program)
    (hbound : ∀ x ∈ names, (m.env.get? x).isSome = true) (fuel : Nat) (name : String) (line : Nat)
    (m' : Machine) :
    program.runWithin fuel m ≠ .error (.error ⟨.undefinedVariable name, line⟩) m' := by
  intro hrun
  have hend := Program.finds_runWithin fuel hscoped hbound
  rw [hrun] at hend
  obtain _ | hstop := hend
  exact hstop name line rfl

open scoped Memory

/-- A block that declares a variable of its own, from which it assigns one that was there before. -/
theorem never_undefined_of_wellScoped_block :
    Stmt.WellScopedAll {"x"} [.block [.declare "y" (some (.var "x" 1)) 1,
      .expression (.assign "x" (.var "y" 2) 2) 2] 1, .readNumber "x" 3] ∧
    (∀ x ∈ ({"x"} : Set String), ((Environment.define .initial "x" .nil).get? x).isSome = true) ∧
    ∀ fuel name line m',
      Program.runWithin fuel [.block [.declare "y" (some (.var "x" 1)) 1,
        .expression (.assign "x" (.var "y" 2) 2) 2] 1, .readNumber "x" 3]
          { env := .define .initial "x" .nil } ≠
        .error (.error ⟨.undefinedVariable name, line⟩) m' := by
  have hscoped : Stmt.WellScopedAll {"x"} [.block [.declare "y" (some (.var "x" 1)) 1,
      .expression (.assign "x" (.var "y" 2) 2) 2] 1, .readNumber "x" 3] := by
    simp [Stmt.WellScopedAll, Stmt.WellScoped, Stmt.InForce, Stmt.namesAfter, Expr.names]
  have hbound : ∀ x ∈ ({"x"} : Set String),
      ((Environment.define .initial "x" .nil).get? x).isSome = true := by
    rintro _ rfl
    decide
  exact ⟨hscoped, hbound, never_undefined_of_wellScoped hscoped hbound⟩

end BlockScript
