import BlockScript.Expr.Parse

/-!
# What the grammar of expressions derives

The grammar is a relation between tokens and trees. `Derives ends level w e next` says that the
tokens `w` are an expression of a level, that `e` is its tree, and that `next` is what stands behind
`w`. The rules of the grammar never look at `next`; it is there for `ends`, which is asked of the
tokens behind each expression that fills a slot, that is, a group or the right side of an
assignment. With nothing asked, this is the plain grammar. With `Ends` asked, a slot is filled as
far as it can be.

Levels are entered from the loosest one, and a level takes its operands from the next tighter one.
A chain of operands is derived from its end, which is what associates it to the left.
-/

namespace BlockScript

/-! ## Tokens and what they stand for -/

/-- The tokens that are constants. -/
inductive TokenKind.Denotes : TokenKind → Value → Prop
  | number (x : Float) : Denotes (.number x) (.number x)
  | text (s : String) : Denotes (.text s) (.text s)
  | true_ : Denotes (.keyword .true_) (.bool true)
  | false_ : Denotes (.keyword .false_) (.bool false)
  | nil : Denotes (.keyword .nil) .nil

/-- The tokens that stand in front of an operand. -/
inductive TokenKind.Prefixes : TokenKind → UnaryOp → Prop
  | not : Prefixes (.keyword .not) .not
  | negate : Prefixes (.symbol .minus) .negate

/-- The tokens that stand between two operands, each with its level and the node it makes. Four of
the connectives are written out in terms of the others. -/
inductive Rank.Joins : Rank → TokenKind → (Expr → Expr → Nat → Expr) → Prop
  | or : Joins .or (.keyword .or) fun a b line ↦ .logical a .or b line
  | nor : Joins .or (.keyword .nor) fun a b line ↦ .unary .not (.logical a .or b line) line
  | xor : Joins .xor (.keyword .xor) fun a b line ↦
      .logical (.logical a .and (.unary .not b line) line) .or
        (.logical (.unary .not a line) .and b line) line
  | xnor : Joins .xor (.keyword .xnor) fun a b line ↦
      .unary .not (.logical (.logical a .and (.unary .not b line) line) .or
        (.logical (.unary .not a line) .and b line) line) line
  | and : Joins .and (.keyword .and) fun a b line ↦ .logical a .and b line
  | nand : Joins .and (.keyword .nand) fun a b line ↦ .unary .not (.logical a .and b line) line
  | equal : Joins .equality (.symbol .equalEqual) fun a b line ↦ .binary a (.compare .equal) b line
  | notEqual : Joins .equality (.symbol .bangEqual) fun a b line ↦
      .binary a (.compare .notEqual) b line
  | less : Joins .comparison (.symbol .less) fun a b line ↦ .binary a (.compare .less) b line
  | lessEqual : Joins .comparison (.symbol .lessEqual) fun a b line ↦
      .binary a (.compare .lessEqual) b line
  | greater : Joins .comparison (.symbol .greater) fun a b line ↦
      .binary a (.compare .greater) b line
  | greaterEqual : Joins .comparison (.symbol .greaterEqual) fun a b line ↦
      .binary a (.compare .greaterEqual) b line
  | add : Joins .additive (.symbol .plus) fun a b line ↦ .binary a (.arith .add) b line
  | sub : Joins .additive (.symbol .minus) fun a b line ↦ .binary a (.arith .sub) b line
  | mul : Joins .multiplicative (.symbol .star) fun a b line ↦ .binary a (.arith .mul) b line
  | div : Joins .multiplicative (.symbol .slash) fun a b line ↦ .binary a (.arith .div) b line
  | mod : Joins .multiplicative (.symbol .percent) fun a b line ↦ .binary a (.arith .mod) b line

theorem TokenKind.literal?_eq_some_iff {kind : TokenKind} {v : Value} :
    kind.literal? = some v ↔ kind.Denotes v := by
  constructor
  · intro h
    unfold literal? at h
    split at h <;> cases h <;> constructor
  · rintro (_ | _) <;> rfl

theorem TokenKind.unaryOp?_eq_some_iff {kind : TokenKind} {op : UnaryOp} :
    kind.unaryOp? = some op ↔ kind.Prefixes op := by
  constructor
  · intro h
    unfold unaryOp? at h
    split at h <;> cases h <;> constructor
  · rintro (_ | _) <;> rfl

theorem Rank.join?_eq_some_iff {r : Rank} {kind : TokenKind} {node : Expr → Expr → Nat → Expr} :
    r.join? kind = some node ↔ r.Joins kind node := by
  constructor
  · intro h
    unfold join? TokenKind.join? TokenKind.binaryOp? at h
    split at h
    · next r' node' heq =>
      split at h
      · next hr =>
        cases h
        subst hr
        split at heq
        all_goals try (cases heq; constructor)
        split at heq <;> cases heq <;> constructor
      · cases h
    · cases h
  · intro h
    cases h <;> rfl

/-- A token joins on one level only, and makes one node. -/
theorem Rank.Joins.unique {r r' : Rank} {kind : TokenKind}
    {node node' : Expr → Expr → Nat → Expr} (h : r.Joins kind node) (h' : r'.Joins kind node') :
    r = r' ∧ node = node' := by
  cases h <;> cases h' <;> exact ⟨rfl, rfl⟩

/-! ## Levels -/

namespace Expr

/-- The level that a rank takes its operands from. -/
def Level.below : Rank → Level
  | .or => .rank .xor
  | .xor => .rank .and
  | .and => .rank .equality
  | .equality => .rank .comparison
  | .comparison => .rank .additive
  | .additive => .rank .multiplicative
  | .multiplicative => .unary

/-- The ranks of a level, from its own down to the tightest. -/
def Level.ranks : Level → List Rank
  | .assignment => Rank.all
  | .rank r => Rank.all.dropWhile (· != r)
  | .unary | .primary => []

/-- Nothing in `next` goes on with an expression of a level: no operator of one of its ranks stands
there, and behind a whole expression no equals sign either. -/
def Level.Stops (level : Level) (next : List Token) : Prop :=
  ∀ t ∈ next.head?, (∀ r ∈ level.ranks, ∀ node, ¬ r.Joins t.kind node) ∧
    (level = .assignment → t.kind ≠ .symbol .equals)

/-- **The end of a slot.** What follows is no operator, no connective and no equals sign. -/
abbrev Ends (next : List Token) : Prop := Level.assignment.Stops next

theorem Level.ranks_rank (r : Rank) : (Level.rank r).ranks = r :: (Level.below r).ranks := by
  cases r <;> rfl

/-- Induction along the levels, from the tightest to the loosest. -/
theorem Level.rank_induction {motive : Level → Prop} (unary : motive .unary)
    (rank : ∀ r, motive (below r) → motive (.rank r)) (r : Rank) : motive (.rank r) := by
  have mul := rank .multiplicative unary
  have add := rank .additive mul
  have cmp := rank .comparison add
  have eq := rank .equality cmp
  have and := rank .and eq
  have xor := rank .xor and
  have or := rank .or xor
  cases r <;> assumption

theorem Level.stops_nil (level : Level) : level.Stops [] := by
  intro t ht
  cases ht

theorem Level.stops_of_ranks_eq_nil {level : Level} {next : List Token} (h : level.ranks = [])
    (hne : level ≠ .assignment) : level.Stops next := by
  rw [Stops, h]
  exact fun t _ ↦ ⟨fun _ hr ↦ absurd hr List.not_mem_nil, fun heq ↦ absurd heq hne⟩

/-- Only the first token behind an expression matters. -/
theorem Level.stops_cons_iff {level : Level} {t : Token} {next : List Token} :
    level.Stops (t :: next) ↔ (∀ r ∈ level.ranks, ∀ node, ¬ r.Joins t.kind node) ∧
      (level = .assignment → t.kind ≠ .symbol .equals) := by
  simp [Level.Stops]

theorem Level.stops_cons {level : Level} {t : Token} {next : List Token}
    (hjoin : t.kind.join? = none) (hequals : level = .assignment → t.kind ≠ .symbol .equals) :
    level.Stops (t :: next) := by
  refine stops_cons_iff.mpr ⟨fun r _ node h ↦ ?_, hequals⟩
  rw [← Rank.join?_eq_some_iff, Rank.join?, hjoin] at h
  cases h

theorem Level.Stops.exchange_tail {level : Level} {t : Token} {next next' : List Token}
    (h : level.Stops (t :: next)) : level.Stops (t :: next') :=
  stops_cons_iff.mpr (stops_cons_iff.mp h)

theorem Level.stops_rank_iff {r : Rank} {next : List Token} :
    (Level.rank r).Stops next ↔
      (∀ t ∈ next.head?, r.join? t.kind = none) ∧ (below r).Stops next := by
  have hbelow : below r ≠ .assignment := by cases r <;> simp [below]
  have hnone : ∀ t : Token, r.join? t.kind = none ↔ ∀ node, ¬ r.Joins t.kind node := by
    intro t
    simp only [Option.eq_none_iff_forall_ne_some, ne_eq, Rank.join?_eq_some_iff]
  constructor
  · intro h
    refine ⟨fun t ht ↦ (hnone t).mpr ((h t ht).1 r ?_),
      fun t ht ↦ ⟨fun r' hr' ↦ (h t ht).1 r' ?_, ?_⟩⟩
    · rw [Level.ranks_rank]
      exact List.mem_cons_self
    · rw [Level.ranks_rank]
      exact List.mem_cons_of_mem r hr'
    · exact fun heq ↦ absurd heq hbelow
  · rintro ⟨hr, hbelow⟩ t ht
    refine ⟨fun r' hr' ↦ ?_, fun heq ↦ nomatch heq⟩
    rw [Level.ranks_rank] at hr'
    rcases List.mem_cons.mp hr' with rfl | hr'
    · exact (hnone t).mp (hr t ht)
    · exact (hbelow t ht).1 r' hr'

/-- An operator ends the operand in front of it. -/
theorem Level.stops_below_of_joins {r : Rank} {t : Token} {node : Expr → Expr → Nat → Expr}
    (h : r.Joins t.kind node) (next : List Token) : (below r).Stops (t :: next) := by
  rw [stops_cons_iff]
  constructor
  · intro r' hr' node' h'
    obtain ⟨rfl, -⟩ := h.unique h'
    revert hr'
    cases r <;> decide
  · intro hr
    cases r <;> cases hr

/-! ## The relation -/

/-- **The grammar.** The tokens `w` are an expression of a level with the tree `e`, in front of
`next`. -/
inductive Derives (ends : List Token → Prop) :
    Level → List Token → Expr → List Token → Prop
  | literal {t : Token} {v : Value} {next : List Token} :
      t.kind.Denotes v → Derives ends .primary [t] (.literal v t.line) next
  | var {t : Token} {s : String} {next : List Token} :
      t.kind = .name s → Derives ends .primary [t] (.var s t.line) next
  | group {left right : Token} {w : List Token} {e : Expr} {next : List Token} :
      left.kind = .symbol .leftParen → Derives ends .assignment w e (right :: next) →
      ends (right :: next) → right.kind = .symbol .rightParen →
      Derives ends .primary (left :: w ++ [right]) (.group e left.line) next
  | primary {w : List Token} {e : Expr} {next : List Token} :
      Derives ends .primary w e next → Derives ends .unary w e next
  | prefixed {t : Token} {op : UnaryOp} {w : List Token} {e : Expr} {next : List Token} :
      t.kind.Prefixes op → Derives ends .unary w e next →
      Derives ends .unary (t :: w) (.unary op e t.line) next
  | operand {r : Rank} {w : List Token} {e : Expr} {next : List Token} :
      Derives ends (Level.below r) w e next → Derives ends (.rank r) w e next
  | joined {r : Rank} {t : Token} {node : Expr → Expr → Nat → Expr} {w₁ w₂ : List Token}
      {a b : Expr} {next : List Token} :
      Derives ends (.rank r) w₁ a (t :: w₂ ++ next) → r.Joins t.kind node →
      Derives ends (Level.below r) w₂ b next →
      Derives ends (.rank r) (w₁ ++ t :: w₂) (node a b t.line) next
  | value {w : List Token} {e : Expr} {next : List Token} :
      Derives ends (.rank .or) w e next → Derives ends .assignment w e next
  | assign {t equals : Token} {s : String} {w : List Token} {e : Expr} {next : List Token} :
      t.kind = .name s → equals.kind = .symbol .equals →
      Derives ends .assignment w e next → ends next →
      Derives ends .assignment (t :: equals :: w) (.assign s e equals.line) next

namespace Derives

variable {ends : List Token → Prop} {level : Level} {w next : List Token} {e : Expr}

theorem exchange {next' : List Token} (h : Derives Ends level w e next)
    (hnext : Ends next → Ends next') : Derives Ends level w e next' := by
  induction h generalizing next' with
  | literal hv => exact .literal hv
  | var hs => exact .var hs
  | group hl _ hend hr ih => exact .group hl (ih .exchange_tail) hend.exchange_tail hr
  | primary _ ih => exact .primary (ih hnext)
  | prefixed hop _ ih => exact .prefixed hop (ih hnext)
  | operand _ ih => exact .operand (ih hnext)
  | joined _ hop _ iha ihb => exact .joined (iha .exchange_tail) hop (ihb hnext)
  | value _ ih => exact .value (ih hnext)
  | assign hs heq _ hend ih => exact .assign hs heq (ih hnext) (hnext hend)

/-- An expression begins with a token that can begin one. In particular it is not empty. -/
theorem exists_head (h : Derives ends level w e next) :
    ∃ t rest, w = t :: rest ∧ t.kind.startsExpression = true := by
  induction h with
  | @literal t v next hv =>
    refine ⟨t, [], rfl, ?_⟩
    generalize t.kind = kind at hv
    cases hv <;> rfl
  | @var t s next hs => exact ⟨t, [], rfl, by rw [hs]; rfl⟩
  | @group left right w e next hl _ _ _ _ => exact ⟨left, w ++ [right], rfl, by rw [hl]; rfl⟩
  | primary _ ih => exact ih
  | @prefixed t op w e next hop _ _ =>
    refine ⟨t, w, rfl, ?_⟩
    generalize t.kind = kind at hop
    cases hop <;> rfl
  | operand _ ih => exact ih
  | joined _ _ _ iha _ =>
    obtain ⟨t, rest, rfl, ht⟩ := iha
    exact ⟨t, _, rfl, ht⟩
  | value _ ih => exact ih
  | @assign t equals s w e next hs _ _ _ _ => exact ⟨t, equals :: w, rfl, by rw [hs]; rfl⟩

theorem ne_nil (h : Derives ends level w e next) : w ≠ [] := by
  obtain ⟨t, rest, rfl, -⟩ := h.exists_head
  exact List.cons_ne_nil t rest

theorem kind_ne_eof (h : Derives ends level w e next) : ∀ t ∈ w, t.kind ≠ .eof := by
  induction h with
  | @literal t v next hv =>
    rw [List.forall_mem_singleton]
    intro heof
    rw [heof] at hv
    cases hv
  | var hs =>
    rw [List.forall_mem_singleton, hs]
    nofun
  | group hl _ _ hr ih => simpa [or_imp, forall_and, hl, hr] using ih
  | primary _ ih => exact ih
  | @prefixed t op w e next hop _ ih =>
    refine List.forall_mem_cons.mpr ⟨fun heof ↦ ?_, ih⟩
    rw [heof] at hop
    cases hop
  | operand _ ih => exact ih
  | @joined r t node w₁ w₂ a b next _ hop _ iha ihb =>
    rw [List.forall_mem_append, List.forall_mem_cons]
    refine ⟨iha, fun heof ↦ ?_, ihb⟩
    rw [heof] at hop
    cases hop
  | value _ ih => exact ih
  | assign hs heq _ _ ih =>
    rw [List.forall_mem_cons, List.forall_mem_cons, hs, heq]
    exact ⟨nofun, nofun, ih⟩

end Derives

/-! ## First tokens -/

/-- Some expression begins with the token. -/
def Begins (t : Token) : Prop :=
  ∃ w e next, Derives (fun _ ↦ True) .assignment (t :: w) e next

/-- An operand on its own is an expression. -/
theorem Derives.of_unary {ends : List Token → Prop} {w next : List Token} {e : Expr}
    (h : Derives ends .unary w e next) : Derives ends .assignment w e next :=
  .value (Level.rank_induction (motive := fun level ↦ Derives ends level w e next) h
    (fun _ ↦ .operand) .or)

/-- Being able to begin an expression is a matter of the kind of a token. -/
theorem startsExpression_iff_begins {t : Token} : t.kind.startsExpression = true ↔ Begins t := by
  constructor
  · intro h
    have hnil : ∀ next, Derives (fun _ ↦ True) .unary [⟨.keyword .nil, "nil", 0⟩]
        (.literal .nil 0) next := fun next ↦ .primary (.literal .nil)
    have hprimary : ∀ {e}, Derives (fun _ ↦ True) .primary [t] e [] → Begins t :=
      fun h ↦ ⟨[], _, [], .of_unary (.primary h)⟩
    have hliteral : ∀ {v}, t.kind.Denotes v → Begins t := fun h ↦ hprimary (.literal h)
    have hprefixed : ∀ {op}, t.kind.Prefixes op → Begins t :=
      fun h ↦ ⟨_, _, [], .of_unary (.prefixed h (hnil []))⟩
    unfold TokenKind.startsExpression at h
    split at h
    · next x hk => exact hliteral (by rw [hk]; exact .number x)
    · next s hk => exact hliteral (by rw [hk]; exact .text s)
    · next s hk => exact hprimary (.var hk)
    · next hk => exact hliteral (by rw [hk]; exact .true_)
    · next hk => exact hliteral (by rw [hk]; exact .false_)
    · next hk => exact hliteral (by rw [hk]; exact .nil)
    · next hk => exact hprefixed (by rw [hk]; exact .not)
    · next hk => exact hprefixed (by rw [hk]; exact .negate)
    · next hk =>
      have hinner : Derives (fun _ ↦ True) .assignment _ _ [⟨.symbol .rightParen, ")", 0⟩] :=
        .of_unary (hnil _)
      exact ⟨_, _, [], .of_unary (.primary (.group hk hinner trivial rfl))⟩
    · cases h
  · rintro ⟨w, e, next, h⟩
    obtain ⟨t', rest, heq, ht'⟩ := h.exists_head
    cases heq
    exact ht'

end Expr

end BlockScript
