import BlockScript.Expr.Parse
import BlockScript.Proofs.Outcome

/-!
# Taking tokens

The rules of the grammar touch the tokens through five operations only. Each of them is said here
to succeed exactly on the tokens it is meant for, so that no rule has to be opened down to lists.
-/

namespace BlockScript.Parse

variable {ts rest : List Token} {t : Token} {kind : TokenKind}

theorem peek_eq_ok_iff : peek ts = .ok t rest ↔ ts = rest ∧ ts.head? = some t := by
  cases ts with
  | nil => simp [peek]
  | cons t' ts =>
    simp only [peek, EStateM.Result.ok.injEq, List.head?_cons, Option.some.injEq]
    constructor
    · rintro ⟨rfl, rfl⟩
      exact ⟨rfl, rfl⟩
    · rintro ⟨rfl, rfl⟩
      exact ⟨rfl, rfl⟩

theorem take_eq_ok_iff : take ts = .ok t rest ↔ ts = t :: rest := by
  cases ts with
  | nil => simp [take]
  | cons t' ts => simp [take]

theorem accept?_eq_some_iff :
    accept? kind ts = .ok (some t) rest ↔ ts = t :: rest ∧ t.kind = kind := by
  cases ts with
  | nil => simp [accept?]
  | cons t' ts =>
    rw [accept?]
    split
    · next hk =>
      simp only [EStateM.Result.ok.injEq, Option.some.injEq, List.cons.injEq]
      constructor
      · rintro ⟨rfl, rfl⟩
        exact ⟨⟨rfl, rfl⟩, hk⟩
      · exact fun h ↦ h.1
    · next hk =>
      simp only [EStateM.Result.ok.injEq, reduceCtorEq, false_and, List.cons.injEq, false_iff]
      rintro ⟨⟨rfl, -⟩, hk'⟩
      exact hk hk'

theorem accept?_eq_none_iff :
    accept? kind ts = .ok none rest ↔ ts = rest ∧ ∀ t ∈ ts.head?, t.kind ≠ kind := by
  cases ts with
  | nil => simp [accept?]
  | cons t' ts =>
    rw [accept?]
    split
    · next hk => simp [hk]
    · next hk =>
      simp only [EStateM.Result.ok.injEq, true_and, List.head?_cons, Option.mem_some]
      constructor
      · rintro rfl
        exact ⟨rfl, fun t ht ↦ ht ▸ hk⟩
      · exact fun h ↦ h.1

theorem expect_eq_ok_iff {what : Expectation} :
    expect kind what ts = .ok t rest ↔ ts = t :: rest ∧ t.kind = kind := by
  cases ts with
  | nil => simp [expect]
  | cons t' ts =>
    rw [expect]
    split
    · next hk =>
      simp only [EStateM.Result.ok.injEq, List.cons.injEq]
      constructor
      · rintro ⟨rfl, rfl⟩
        exact ⟨⟨rfl, rfl⟩, hk⟩
      · exact fun h ↦ h.1
    · next hk =>
      simp only [reduceCtorEq, List.cons.injEq, false_iff]
      rintro ⟨⟨rfl, -⟩, hk'⟩
      exact hk hk'

theorem expectName_eq_ok_iff {after s : String} :
    expectName after ts = .ok s rest ↔ ∃ t, ts = t :: rest ∧ t.kind = .name s := by
  cases ts with
  | nil => simp [expectName]
  | cons t' ts =>
    rw [expectName]
    split
    · next s' hk =>
      simp only [EStateM.Result.ok.injEq, List.cons.injEq]
      constructor
      · rintro ⟨rfl, rfl⟩
        exact ⟨t', ⟨rfl, rfl⟩, hk⟩
      · rintro ⟨t, ⟨rfl, rfl⟩, hk'⟩
        rw [hk, TokenKind.name.injEq] at hk'
        exact ⟨hk', rfl⟩
    · next hk =>
      simp only [reduceCtorEq, List.cons.injEq, false_iff]
      rintro ⟨t, ⟨rfl, -⟩, hk'⟩
      exact hk s hk'

end BlockScript.Parse
