import BlockScript.Proofs.Token.Lockstep

/-!
# Rules in front of a border

Braces and the mark of the end are part of no expression, and of no simple statement either. A rule
for one of these stops in front of them, and it makes no difference which of them it has met, but
that an error found there is found at another token. So a rule does the same on two lists of tokens
that agree up to such a token (`Heeds`), and on one list it takes no token of this kind.

This is another comparison than that of lists that look alike, where tokens have to be of one kind
up to the end. Here it is a single rule that is run twice, with one bound.
-/

namespace BlockScript

/-- Tokens that no expression contains: braces and the mark of the end. -/
def TokenKind.isBorder : TokenKind → Bool
  | symbol .leftBrace | symbol .rightBrace | eof => true
  | _ => false

theorem TokenKind.isBorder_cases {kind : TokenKind} (h : kind.isBorder = true) :
    kind = .symbol .leftBrace ∨ kind = .symbol .rightBrace ∨ kind = .eof := by
  unfold isBorder at h
  split at h
  · exact .inl rfl
  · exact .inr (.inl rfl)
  · exact .inr (.inr rfl)
  · cases h

/-- What two lists of tokens are made of that agree up to a border. -/
structure Border where
  /-- The tokens in front of the border, which both lists have. -/
  inner : Token → Prop
  /-- What the lists go on with. -/
  outer : List Token → List Token → Prop
  /-- There is no border in front of the border. -/
  not_isBorder_of_inner {t : Token} : inner t → t.kind.isBorder = false
  /-- At the border both lists end, or both have a token that no expression contains. -/
  outer_nil_or_cons {ts ts' : List Token} : outer ts ts' → (ts = [] ∧ ts' = []) ∨
    ∃ t rest t' rest', ts = t :: rest ∧ ts' = t' :: rest' ∧
      t.kind.isBorder = true ∧ t'.kind.isBorder = true

namespace Border

variable (B : Border)

/-- Two lists that agree up to a border. -/
inductive Near : List Token → List Token → Prop where
  | outer {ts ts' : List Token} : B.outer ts ts' → Near ts ts'
  | inner {t : Token} {ts ts' : List Token} : B.inner t → Near ts ts' → Near (t :: ts) (t :: ts')

/-- From two lists the same tokens have been taken, and none of them at the border or behind it. -/
def Passed (ts ts' rest rest' : List Token) : Prop :=
  ∃ w, ts = w ++ rest ∧ ts' = w ++ rest' ∧ (∀ t ∈ w, B.inner t) ∧ B.Near rest rest'

/-- One error, found at the same token or at what stands at the border. -/
inductive SameSpot : ParseError → ParseError → Prop where
  | inner {t : Token} {cause : ParseCause} : B.inner t → SameSpot (.at cause t) (.at cause t)
  | outer {t t' : Token} {rest rest' : List Token} {cause : ParseCause} :
    B.outer (t :: rest) (t' :: rest') → SameSpot (.at cause t) (.at cause t')
  | nowhere : B.outer [] [] → SameSpot .exhausted .exhausted

/-- Two lists agree up to a border, and the first is within a bound. -/
def Within (n : Nat) (ts ts' : List Token) : Prop := B.Near ts ts' ∧ ts.length ≤ n

/-- **One rule beside itself.** Within a bound it ends in the same way on two lists that agree up to
a border. -/
def Heeds (n : Nat) {α : Type} (x : Parse α) : Prop :=
  InStep (B.Within n) B.Passed B.Passed B.SameSpot Eq x x

/-- The same on lists that begin with a token in front of the border. -/
def HeedsAt (t : Token) (n : Nat) {α : Type} (x : Parse α) : Prop :=
  InStep (fun ts ts' ↦ B.Within n ts ts' ∧ ts.head? = some t ∧ ts'.head? = some t) B.Passed
    B.Passed B.SameSpot Eq x x

variable {B} {n : Nat} {t t' : Token} {ts ts' rest rest' : List Token} {α β : Type}

theorem kind_ne_of_inner (ht : B.inner t) {kind : TokenKind} (hkind : kind.isBorder = true) :
    t.kind ≠ kind := by
  rintro rfl
  rw [B.not_isBorder_of_inner ht] at hkind
  cases hkind

theorem Near.tail (h : B.Near (t :: ts) (t' :: ts')) (ht : B.inner t) : B.Near ts ts' := by
  cases h with
  | inner _ hts => exact hts
  | outer houter =>
    obtain ⟨hnil, -⟩ | ⟨_, _, _, _, heq, -, hborder, -⟩ := B.outer_nil_or_cons houter
    · cases hnil
    · obtain ⟨rfl, -⟩ := List.cons.inj heq
      rw [B.not_isBorder_of_inner ht] at hborder
      cases hborder

theorem Near.outer_of_nil (h : B.Near [] ts') : B.outer [] [] ∧ ts' = [] := by
  cases h with
  | outer houter =>
    obtain ⟨-, rfl⟩ | ⟨_, _, _, _, heq, -⟩ := B.outer_nil_or_cons houter
    · exact ⟨houter, rfl⟩
    · cases heq

namespace Passed

theorem refl (h : B.Near ts ts') : B.Passed ts ts' ts ts' :=
  ⟨[], rfl, rfl, List.forall_mem_nil _, h⟩

theorem trans {mid mid' : List Token} (h : B.Passed ts ts' mid mid')
    (h' : B.Passed mid mid' rest rest') : B.Passed ts ts' rest rest' := by
  obtain ⟨w, rfl, rfl, hw, -⟩ := h
  obtain ⟨v, rfl, rfl, hv, hnear⟩ := h'
  exact ⟨w ++ v, (List.append_assoc ..).symm, (List.append_assoc ..).symm,
    List.forall_mem_append.mpr ⟨hw, hv⟩, hnear⟩

theorem one (ht : B.inner t) (h : B.Near ts ts') : B.Passed (t :: ts) (t :: ts') ts ts' :=
  ⟨[t], rfl, rfl, List.forall_mem_singleton.mpr ht, h⟩

theorem near (h : B.Passed ts ts' rest rest') : B.Near rest rest' := by
  obtain ⟨_, _, _, _, hnear⟩ := h
  exact hnear

theorem within (h : B.Passed ts ts' rest rest') (hts : B.Within n ts ts') :
    B.Within n rest rest' := by
  obtain ⟨w, rfl, -, -, hnear⟩ := h
  refine ⟨hnear, Nat.le_trans ?_ hts.2⟩
  rw [List.length_append]
  exact Nat.le_add_left _ _

end Passed

/-! ## Rules -/

namespace Heeds

variable {x : Parse α} {f : α → Parse β}

theorem pure (a : α) : B.Heeds n (Pure.pure a : Parse α) :=
  InStep.pure (fun _ _ h ↦ .refl h.1) rfl

theorem bind (hx : B.Heeds n x) (hf : ∀ a, B.Heeds n (f a)) : B.Heeds n (x >>= f) := by
  refine InStep.bind hx ?_ (fun _ _ _ _ hts h ↦ h.within hts) (fun _ _ _ _ h ↦ h)
    (fun _ _ _ _ _ _ h h' ↦ h.trans h') fun _ _ _ _ _ _ h h' ↦ h.trans h'
  rintro a _ rfl
  exact hf a

theorem map (f : α → β) (hx : B.Heeds n x) : B.Heeds n (f <$> x) :=
  InStep.map (fun _ _ ↦ congrArg f) hx

theorem mono {n' : Nat} (hx : B.Heeds n x) (hn : n' ≤ n) : B.Heeds n' x :=
  fun _ _ hts ↦ hx ⟨hts.1, Nat.le_trans hts.2 hn⟩

theorem heedsAt (hx : B.Heeds n x) : B.HeedsAt t n x := fun _ _ hts ↦ hx hts.1

theorem behind (hx : B.Heeds n x) (ht : B.inner t) (h : B.Within (n + 1) (t :: ts) (t :: ts')) :
    Agree Eq B.SameSpot (B.Passed (t :: ts) (t :: ts')) (B.Passed (t :: ts) (t :: ts')) (x ts)
      (x ts') := by
  have hnear := h.1.tail ht
  have hone := Passed.one ht hnear
  exact (hx ⟨hnear, Nat.le_of_succ_le_succ h.2⟩).mono (fun _ _ h ↦ h) (fun _ _ h ↦ hone.trans h)
    fun _ _ h ↦ hone.trans h

theorem of_nil (hx : x [] = .error .exhausted []) : B.Heeds 0 x := by
  rintro ts ts' ⟨hnear, hlength⟩
  obtain rfl := List.length_eq_zero_iff.mp (Nat.le_zero.mp hlength)
  obtain ⟨houter, rfl⟩ := hnear.outer_of_nil
  rw [hx]
  exact .error (.nowhere houter) (.refl hnear)

end Heeds

/-! ## Errors at the border -/

/-- A rule fails on a token at the border, and always for this cause. -/
def Refuses (cause : ParseCause) (x : Parse α) : Prop :=
  ∀ ⦃t ts⦄, t.kind.isBorder = true → x (t :: ts) = .error (.at cause t) (t :: ts)

namespace Refuses

variable {cause : ParseCause} {x : Parse α}

theorem bind {f : α → Parse β} (h : Refuses cause x) : Refuses cause (x >>= f) :=
  fun _ _ ht ↦ bind_of_error (h ht)

theorem peek_bind {f : Token → Parse β}
    (h : ∀ t ts, t.kind.isBorder = true → f t (t :: ts) = .error (.at cause t) (t :: ts)) :
    Refuses cause (Parse.peek >>= f) := h

theorem map (f : α → β) (h : Refuses cause x) : Refuses cause (f <$> x) := by
  intro t ts ht
  simp only [Functor.map, EStateM.map, h ht]

end Refuses

/-- A rule that fails at the border is a matter of the tokens in front of it. -/
theorem heeds_of_refuses {cause : ParseCause} {x : Parse α} (hnil : x [] = .error .exhausted [])
    (hborder : Refuses cause x) (h : ∀ t, B.inner t → B.HeedsAt t n x) : B.Heeds n x := by
  rintro ts ts' ⟨hnear, hlength⟩
  cases hnear with
  | outer houter =>
    obtain ⟨rfl, rfl⟩ | ⟨t, rest, t', rest', rfl, rfl, ht, ht'⟩ := B.outer_nil_or_cons houter
    · rw [hnil]
      exact .error (.nowhere houter) (.refl (.outer houter))
    · rw [hborder ht, hborder ht']
      exact .error (.outer houter) (.refl (.outer houter))
  | inner ht hts => exact h _ ht ⟨⟨.inner ht hts, hlength⟩, rfl, rfl⟩

/-! ## Operations on tokens -/

namespace HeedsAt

theorem throw (ht : B.inner t) (cause : ParseCause) :
    B.HeedsAt t n (MonadExcept.throw (.at cause t) : Parse α) :=
  InStep.throw (fun _ _ h ↦ .refl h.1.1) (.inner ht)

theorem map {x : Parse α} (f : α → β) (hx : B.HeedsAt t n x) : B.HeedsAt t n (f <$> x) :=
  InStep.map (fun _ _ ↦ congrArg f) hx

theorem peek_bind {f : Token → Parse β} (h : B.HeedsAt t n (f t)) :
    B.HeedsAt t n (Parse.peek >>= f) := by
  rintro (_ | ⟨t, ts⟩) (_ | ⟨t', ts'⟩) ⟨hts, ⟨⟩, ⟨⟩⟩
  exact h ⟨hts, rfl, rfl⟩

theorem take_bind_succ {f : Token → Parse β} (ht : B.inner t) (h : B.Heeds n (f t)) :
    B.HeedsAt t (n + 1) (Parse.take >>= f) := by
  rintro (_ | ⟨t, ts⟩) (_ | ⟨t', ts'⟩) ⟨hts, ⟨⟩, ⟨⟩⟩
  exact h.behind ht hts

theorem take_bind {f : Token → Parse β} (ht : B.inner t) (h : B.Heeds n (f t)) :
    B.HeedsAt t n (Parse.take >>= f) :=
  fun _ _ ⟨hts, hhead⟩ ↦ take_bind_succ ht h ⟨⟨hts.1, Nat.le_succ_of_le hts.2⟩, hhead⟩

end HeedsAt

private theorem accept?_of_isBorder {kind : TokenKind} (hkind : kind.isBorder = false)
    (ht : t.kind.isBorder = true) : Parse.accept? kind (t :: ts) = .ok none (t :: ts) := by
  refine if_neg fun heq ↦ ?_
  rw [heq, hkind] at ht
  cases ht

/-- A token that may be there is not one at the border. -/
theorem heeds_accept?_bind {kind : TokenKind} (hkind : kind.isBorder = false)
    {f : Option Token → Parse β} (hsome : ∀ t, B.inner t → B.Heeds n (f (some t)))
    (hnone : B.Heeds (n + 1) (f none)) : B.Heeds (n + 1) (Parse.accept? kind >>= f) := by
  rintro ts ts' ⟨hnear, hlength⟩
  cases hnear with
  | outer houter =>
    obtain ⟨rfl, rfl⟩ | ⟨t, rest, t', rest', rfl, rfl, ht, ht'⟩ := B.outer_nil_or_cons houter
    · exact hnone ⟨.outer houter, hlength⟩
    · rw [bind_of_ok (accept?_of_isBorder hkind ht), bind_of_ok (accept?_of_isBorder hkind ht')]
      exact hnone ⟨.outer houter, hlength⟩
  | @inner t ts ts' ht hts =>
    by_cases hk : t.kind = kind
    · have haccept (ts : List Token) : Parse.accept? kind (t :: ts) = .ok (some t) ts := if_pos hk
      rw [bind_of_ok (haccept ts), bind_of_ok (haccept ts')]
      exact (hsome t ht).behind ht ⟨.inner ht hts, hlength⟩
    · have haccept (ts : List Token) : Parse.accept? kind (t :: ts) = .ok none (t :: ts) :=
        if_neg hk
      rw [bind_of_ok (haccept ts), bind_of_ok (haccept ts')]
      exact hnone ⟨.inner ht hts, hlength⟩

theorem heeds_accept? {kind : TokenKind} (hkind : kind.isBorder = false) :
    B.Heeds n (Parse.accept? kind) := by
  have h := heeds_accept?_bind (B := B) (n := n) hkind (fun t _ ↦ Heeds.pure (some t))
    (Heeds.pure none)
  rw [bind_pure] at h
  exact h.mono (Nat.le_succ n)

private theorem refuses_expect {kind : TokenKind} (hkind : kind.isBorder = false)
    (what : Expectation) : Refuses (.expected what) (Parse.expect kind what) := by
  intro t ts ht
  refine if_neg fun heq ↦ ?_
  rw [heq, hkind] at ht
  cases ht

theorem heeds_expect {kind : TokenKind} (hkind : kind.isBorder = false) (what : Expectation) :
    B.Heeds n (Parse.expect kind what) := by
  refine heeds_of_refuses rfl (refuses_expect hkind what) fun t ht ↦ ?_
  rintro (_ | ⟨t, ts⟩) (_ | ⟨t', ts'⟩) ⟨hts, ⟨⟩, ⟨⟩⟩
  rw [Parse.expect, Parse.expect]
  split
  · exact .ok rfl (.one ht (hts.1.tail ht))
  · exact .error (.inner ht) (.refl hts.1)

private theorem refuses_expectName (after : String) :
    Refuses (.expected (.variableName after)) (Parse.expectName after) := by
  intro t ts ht
  obtain h | h | h := TokenKind.isBorder_cases ht <;> rw [Parse.expectName, h]

theorem heeds_expectName (after : String) : B.Heeds n (Parse.expectName after) := by
  refine heeds_of_refuses rfl (refuses_expectName after) fun t ht ↦ ?_
  rintro (_ | ⟨t, ts⟩) (_ | ⟨t', ts'⟩) ⟨hts, ⟨⟩, ⟨⟩⟩
  rw [Parse.expectName, Parse.expectName]
  split
  · exact .ok rfl (.one ht (hts.1.tail ht))
  · exact .error (.inner ht) (.refl hts.1)

end Border

end BlockScript
