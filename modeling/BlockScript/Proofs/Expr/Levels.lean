import BlockScript.Proofs.Expr.Recognition

/-!
# Each level on its own

The rule of a level can be asked for an expression in front of any tokens. What it reads is then an
expression of the grammar as it is written down, with nothing asked of the tokens behind a slot
(`Spells`). The conditions on slots need not be repeated here: the grammar has no other way to read
the tokens of an expression once it is known where the whole expression ends. What remains is a
condition on the end itself (`Level.Stops`), which says that the rule has gone on for as long as it
could.
-/

namespace BlockScript.Expr

variable {level : Level} {w ts next rest : List Token} {e : Expr}

/-- **The plain grammar.** The tokens are an expression of a level with this tree. -/
def Spells (level : Level) (w : List Token) (e : Expr) : Prop :=
  Derives (fun _ ↦ True) level w e []

/-- Where nothing is asked of what stands behind a slot, nothing behind the expression matters. -/
theorem Derives.plain {ends : List Token → Prop} (h : Derives ends level w e next)
    (next' : List Token) : Derives (fun _ ↦ True) level w e next' := by
  induction h generalizing next' with
  | literal hv => exact .literal hv
  | var hs => exact .var hs
  | group hl _ _ hr ih => exact .group hl (ih _) trivial hr
  | primary _ ih => exact .primary (ih next')
  | prefixed hop _ ih => exact .prefixed hop (ih next')
  | operand _ ih => exact .operand (ih next')
  | joined _ hop _ iha ihb => exact .joined (iha _) hop (ihb next')
  | value _ ih => exact .value (ih next')
  | assign hs heq _ _ ih => exact .assign hs heq (ih next') trivial

private theorem Derives.spells {ends : List Token → Prop} (h : Derives ends level w e next) :
    Spells level w e := h.plain []

/-! ## Soundness and completeness -/

theorem Sound.mono {rule : Parse Expr} {n m : Nat} (h : Sound rule level n) (hm : m ≤ n) :
    Sound rule level m := fun _ _ _ hts ↦ h (Nat.le_trans hts hm)

theorem exists_derives_of_parse (h : parse level ts = .ok e rest) :
    ∃ w, ts = w ++ rest ∧ Derives Ends level w e rest ∧ level.Stops rest := by
  have hnested := sound_expression ts.length
  cases level with
  | assignment => exact hnested (Nat.le_refl _) h
  | unary => exact sound_prefixed hnested _ (Nat.le_succ _) h
  | primary => exact sound_primary hnested (Nat.le_succ _) h
  | rank r =>
    cases ts with
    | nil => cases r <;> nomatch h
    | cons t ts =>
      -- an operand is never nested in itself, so one token less is enough for what is nested
      have hrank := sound_rule_rank (hnested.mono (Nat.le_succ ts.length)) (Nat.le_refl _) r
      exact hrank (Nat.le_refl _) h

theorem Derives.parse_eq {ends : List Token → Prop} (h : Derives ends level w e next)
    (hstops : level.Stops next) : parse level (w ++ next) = .ok e next := by
  have hlen : w.length ≤ (w ++ next).length := by
    rw [List.length_append]
    exact Nat.le_add_right _ _
  have hrule := h.reaches.rule_eq (Nat.le_succ_of_le hlen) hlen hstops
  cases level with
  | assignment => exact h.expression_eq hstops hlen
  | rank r => exact hrule
  | unary => exact hrule
  | primary => exact hrule

/-- **Every level, exactly.** The rule of a level succeeds with a tree and leaves some tokens if and
only if those in front of them spell the tree on that level, and what is left does not go on with an
expression of the level: it is empty, or begins with a token that is no operator of the level or of
a tighter one, nor, for a whole expression, an equals sign. -/
theorem parse_level_eq_ok_iff (level : Level) (ts : List Token) (e : Expr) (rest : List Token) :
    parse level ts = .ok e rest ↔ ∃ w, ts = w ++ rest ∧ Spells level w e ∧ level.Stops rest := by
  constructor
  · intro h
    obtain ⟨w, rfl, hw, hstops⟩ := exists_derives_of_parse h
    exact ⟨w, rfl, hw.spells, hstops⟩
  · rintro ⟨w, rfl, hw, hstops⟩
    exact (Derives.plain hw rest).parse_eq hstops

end BlockScript.Expr
