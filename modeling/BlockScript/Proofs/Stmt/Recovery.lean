import BlockScript.Proofs.Token.Taking
import BlockScript.Stmt.Parse

/-!
# The record of errors

Rules for statements keep a record of the errors they have recovered from. A rule without a
statement inside cannot add to it, and no rule takes anything back: the record only grows. So a rule
that ends with the record it began with has not recovered from anything on the way, and neither has
any rule it called, which is what `bind_eq_ok_iff_of_grows` makes available.
-/

namespace BlockScript.Recover

variable {α β : Type} {ts rest : List Token} {found : List ParseError}

/-! ## Rules that cannot recover -/

theorem lift_of_ok {rule : Parse α} {a : α} (h : rule ts = .ok a rest) :
    (liftM rule : Recover α) ⟨ts, found⟩ = .ok a ⟨rest, found⟩ := by
  change lift rule ⟨ts, found⟩ = _
  rw [lift]
  simp only [h]

theorem lift_of_error {rule : Parse α} {e : ParseError} (h : rule ts = .error e rest) :
    (liftM rule : Recover α) ⟨ts, found⟩ = .error e ⟨rest, found⟩ := by
  change lift rule ⟨ts, found⟩ = _
  rw [lift]
  simp only [h]

theorem lift_eq_ok_iff {rule : Parse α} {a : α} {s : Progress} :
    (liftM rule : Recover α) ⟨ts, found⟩ = .ok a s ↔
      ∃ rest, rule ts = .ok a rest ∧ s = ⟨rest, found⟩ := by
  constructor
  · intro h
    cases hrule : rule ts with
    | ok a' rest =>
      rw [lift_of_ok hrule] at h
      cases h
      exact ⟨rest, rfl, rfl⟩
    | error e rest =>
      change lift rule ⟨ts, found⟩ = _ at h
      rw [lift] at h
      simp only [hrule, reduceCtorEq] at h
  · rintro ⟨rest, hrule, rfl⟩
    exact lift_of_ok hrule

theorem lift_bind_eq_ok_iff {rule : Parse α} {f : α → Recover β} {b : β} {s : Progress} :
    ((liftM rule : Recover α) >>= f) ⟨ts, found⟩ = .ok b s ↔
      ∃ a rest, rule ts = .ok a rest ∧ f a ⟨rest, found⟩ = .ok b s := by
  rw [bind_eq_ok_iff]
  constructor
  · rintro ⟨a, _, hlift, hf⟩
    obtain ⟨rest, hrule, rfl⟩ := lift_eq_ok_iff.mp hlift
    exact ⟨a, rest, hrule, hf⟩
  · rintro ⟨a, rest, hrule, hf⟩
    exact ⟨a, ⟨rest, found⟩, lift_of_ok hrule, hf⟩

/-! ## The record only grows -/

/-- What is recorded stays in front of what is recorded later. -/
theorem repeatable_found : Repeatable fun s s' : Progress ↦ s.found <+: s'.found :=
  ⟨fun s ↦ List.prefix_refl s.found, fun h h' ↦ h.trans h'⟩

/-- **Nothing is taken back**, whether a rule succeeds or not. -/
def Grows (rule : Recover α) : Prop := Respects (fun s s' ↦ s.found <+: s'.found) rule

theorem Grows.pure (a : α) : Grows (Pure.pure a : Recover α) :=
  Respects.pure repeatable_found a

theorem Grows.throw (e : ParseError) : Grows (MonadExcept.throw e : Recover α) :=
  Respects.throw repeatable_found e

theorem Grows.lift (rule : Parse α) : Grows (liftM rule : Recover α) := by
  intro s
  change s.found <+: (stateAfter (Recover.lift rule s)).found
  rw [Recover.lift]
  cases rule s.rest <;> exact List.prefix_refl s.found

theorem Grows.bind {x : Recover α} {f : α → Recover β} (hx : Grows x) (hf : ∀ a, Grows (f a)) :
    Grows (x >>= f) := Respects.bind repeatable_found hx hf

/-- If nothing has been recorded at the end, nothing has been recorded in between. -/
theorem bind_eq_ok_iff_of_grows {x : Recover α} {f : α → Recover β} {b : β} (hx : Grows x)
    (hf : ∀ a, Grows (f a)) :
    (x >>= f) ⟨ts, found⟩ = .ok b ⟨rest, found⟩ ↔
      ∃ a mid, x ⟨ts, found⟩ = .ok a ⟨mid, found⟩ ∧ f a ⟨mid, found⟩ = .ok b ⟨rest, found⟩ := by
  rw [bind_eq_ok_iff]
  constructor
  · rintro ⟨a, ⟨mid, found'⟩, hxa, hfa⟩
    have hbefore : found <+: found' := by
      have h := hx ⟨ts, found⟩
      rw [hxa] at h
      exact h
    have hafter : found' <+: found := by
      have h := hf a ⟨mid, found'⟩
      rw [hfa] at h
      exact h
    -- the record in between lies between two that are equal
    obtain rfl : found = found' := hbefore.eq_of_length_le hafter.length_le
    exact ⟨a, mid, hxa, hfa⟩
  · rintro ⟨a, mid, hxa, hfa⟩
    exact ⟨a, ⟨mid, found⟩, hxa, hfa⟩

end BlockScript.Recover

namespace BlockScript.Stmt

open Recover (Grows)

variable {expr : Parse Expr} {body : Recover Stmt}

private theorem grows_ifRule (hbody : Grows body) : Grows (ifRule expr body) := by
  refine (Grows.lift _).bind fun k ↦ (Grows.lift _).bind fun c ↦ hbody.bind fun yes ↦
    (Grows.lift _).bind fun alt ↦ ?_
  split
  · exact hbody.bind fun no ↦ .pure _
  · exact .pure _

private theorem grows_whileRule (hbody : Grows body) : Grows (whileRule expr body) :=
  (Grows.lift _).bind fun _ ↦ (Grows.lift _).bind fun _ ↦ hbody.bind fun _ ↦ .pure _

private theorem grows_forRule (hbody : Grows body) : Grows (forRule expr body) := by
  refine (Grows.lift _).bind fun k ↦ (Grows.lift _).bind fun initial ↦ (Grows.lift _).bind fun c ↦
    (Grows.lift _).bind fun step ↦ hbody.bind fun yes ↦ ?_
  dsimp only
  split
  · exact .pure _
  · exact .pure _

private theorem grows_repeatRule (hbody : Grows body) : Grows (repeatRule expr body) :=
  (Grows.lift _).bind fun _ ↦ hbody.bind fun _ ↦ (Grows.lift _).bind fun _ ↦
    (Grows.lift _).bind fun _ ↦ .pure _

private theorem found_prefix_recorded (hbody : Grows body) (skip : List Token → List Token)
    (s : Progress) : s.found <+: (recorded body skip s).2.found := by
  have h := hbody s
  rw [recorded]
  cases hs : body s with
  | ok a s' =>
    rw [hs] at h
    exact h
  | error e s' =>
    rw [hs] at h
    exact h.trans (List.prefix_append s'.found [e])

theorem grows_blockRule (hbody : Grows body) (bound : Nat) : Grows (blockRule body bound) := by
  induction bound with
  | zero => exact .throw _
  | succ bound ih =>
    intro s
    rw [blockRule]
    dsimp only
    split
    · exact List.prefix_refl _
    · split
      · exact List.prefix_refl _
      · split
        · exact List.prefix_refl _
        · have hfirst := found_prefix_recorded hbody synchronizeInBlock s
          have hothers := ih (recorded body synchronizeInBlock s).2
          cases h : blockRule body bound (recorded body synchronizeInBlock s).2 with
          | ok others s' =>
            rw [h] at hothers
            exact hfirst.trans hothers
          | error e s' =>
            rw [h] at hothers
            exact hfirst.trans hothers

private theorem grows_form (hbody : Grows body) (bound : Nat) : Grows (form expr body bound) := by
  refine (Grows.lift _).bind fun t ↦ ?_
  split
  iterate 5 exact .lift _
  · exact (Grows.lift _).bind fun _ ↦ (grows_blockRule hbody bound).bind fun _ ↦ .pure _
  · exact grows_ifRule hbody
  · exact grows_whileRule hbody
  · exact grows_forRule hbody
  · exact grows_repeatRule hbody
  iterate 2 exact .lift _
  · split
    · exact .throw _
    · exact .lift _

theorem grows_statement (n : Nat) : Grows (statement n) := by
  induction n with
  | zero => exact .throw _
  | succ n ih => exact grows_form ih n

theorem found_prefix_programRule (hbody : Grows body) (bound : Nat) (s : Progress) :
    s.found <+: (programRule body bound s).2.found := by
  induction bound generalizing s with
  | zero => exact List.prefix_refl _
  | succ bound ih =>
    rw [programRule]
    split
    · exact List.prefix_refl _
    · split
      · exact List.prefix_refl _
      · exact (found_prefix_recorded hbody synchronize s).trans (ih _)

end BlockScript.Stmt
