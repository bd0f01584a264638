import BlockScript.Proofs.Token.Border

/-!
# Braces

Braces that open a block are weighed against braces that close one. Some tokens are balanced if each
brace is matched by one of the other kind. Less is asked of tokens of which some have been skipped
(`Accounts`): a brace that opens a block is matched unless it has been skipped.

What can be said of a block follows by counting. Let a brace follow on balanced tokens that closes
more than has been opened. Then tokens with an account reach at most up to that brace, and exactly
up to it if no brace among them has been skipped that opens a block.
-/

namespace BlockScript

/-! ## Counting braces -/

/-- How often a symbol occurs. -/
def occurrences (s : Symbol) (w : List Token) : Nat := w.countP (·.kind = .symbol s)

/-- No brace closes a block that has not been opened before. -/
def Nested (w : List Token) : Prop :=
  ∀ k, occurrences .rightBrace (w.take k) ≤ occurrences .leftBrace (w.take k)

/-- **Balanced braces.** Besides, all blocks are closed. -/
structure Balanced (w : List Token) : Prop where
  /-- No block is closed before it is opened. -/
  nested : Nested w
  /-- All blocks are closed. -/
  leftBraces_eq : occurrences .leftBrace w = occurrences .rightBrace w

variable {t brace : Token} {w v ts mid rest seg skipped more : List Token}

@[simp] theorem occurrences_append (s : Symbol) (w v : List Token) :
    occurrences s (w ++ v) = occurrences s w + occurrences s v := List.countP_append

theorem occurrences_eq_zero_iff {s : Symbol} :
    occurrences s w = 0 ↔ ∀ t ∈ w, t.kind ≠ .symbol s := by
  simp [occurrences, List.countP_eq_zero]

theorem occurrences_singleton {s : Symbol} (h : t.kind = .symbol s) (s' : Symbol) :
    occurrences s' [t] = if s = s' then 1 else 0 := by
  simp [occurrences, List.countP_singleton, h]

theorem Nested.append (hw : Nested w) (hv : Nested v) : Nested (w ++ v) := by
  intro k
  have hk := hw k
  have hk' := hv (k - w.length)
  rw [List.take_append, occurrences_append, occurrences_append]
  omega

private theorem nested_iff :
    Nested w ↔ ∀ k < w.length + 1,
      occurrences .rightBrace (w.take k) ≤ occurrences .leftBrace (w.take k) := by
  refine ⟨fun h k _ ↦ h k, fun h k ↦ ?_⟩
  by_cases hk : k < w.length + 1
  · exact h k hk
  · have hall := h w.length (Nat.lt_succ_self _)
    rw [List.take_length] at hall
    rwa [List.take_of_length_le (by omega)]

instance : DecidablePred Nested := fun _ ↦ decidable_of_iff' _ nested_iff

instance : DecidablePred Balanced := fun w ↦
  decidable_of_iff (Nested w ∧ occurrences .leftBrace w = occurrences .rightBrace w)
    ⟨fun h ↦ ⟨h.1, h.2⟩, fun h ↦ ⟨h.nested, h.leftBraces_eq⟩⟩

theorem nested_of_occurrences_eq_zero (h : occurrences .rightBrace w = 0) : Nested w := by
  intro k
  have hle : occurrences .rightBrace (w.take k) ≤ occurrences .rightBrace w :=
    (List.take_sublist k w).countP_le
  omega

/-- Nothing is closed too early if a block is put around it. -/
theorem Nested.enclosed {left right : Token} (h : Nested w)
    (hleft : left.kind = .symbol .leftBrace) : Nested (left :: w ++ [right]) := by
  rintro (_ | k)
  · exact Nat.le_refl 0
  · have hk := h k
    have hright : occurrences .rightBrace ([right].take (k - w.length)) ≤ 1 :=
      Nat.le_trans List.countP_le_length (List.length_take_le' _ _)
    have hopens : occurrences .leftBrace [left] = 1 := occurrences_singleton hleft _
    have hcloses : occurrences .rightBrace [left] = 0 := occurrences_singleton hleft _
    rw [List.cons_append, List.take_succ_cons, List.take_append, ← List.singleton_append]
    simp only [occurrences_append]
    omega

/-! ## Accounts -/

/-- **An account of braces.** No block is closed before it is opened, and of the braces that open
one those are left over that have been skipped. No brace has been skipped that closes one. -/
structure Accounts (w skipped : List Token) : Prop where
  nested : Nested w
  /-- What has been skipped is there, in its order. -/
  sublist : skipped.Sublist w
  /-- What is opened and not skipped is closed. -/
  leftBraces_eq :
    occurrences .leftBrace w = occurrences .rightBrace w + occurrences .leftBrace skipped
  /-- What closes is not skipped. -/
  rightBrace_ne : ∀ t ∈ skipped, t.kind ≠ .symbol .rightBrace

namespace Accounts

theorem append (h : Accounts w skipped) (h' : Accounts v more) :
    Accounts (w ++ v) (skipped ++ more) where
  nested := h.nested.append h'.nested
  sublist := h.sublist.append h'.sublist
  leftBraces_eq := by
    have hw := h.leftBraces_eq
    have hv := h'.leftBraces_eq
    simp only [occurrences_append]
    omega
  rightBrace_ne := List.forall_mem_append.mpr ⟨h.rightBrace_ne, h'.rightBrace_ne⟩

/-- What is skipped closes no block. -/
theorem of_skipped (h : ∀ t ∈ w, t.kind ≠ .symbol .rightBrace) : Accounts w w where
  nested := nested_of_occurrences_eq_zero (occurrences_eq_zero_iff.mpr h)
  sublist := List.Sublist.refl w
  leftBraces_eq := by rw [occurrences_eq_zero_iff.mpr h, Nat.zero_add]
  rightBrace_ne := h

theorem of_inner (h : ∀ t ∈ w, t.kind.isBorder = false) : Accounts w [] := by
  have hzero {s : Symbol} (hs : (TokenKind.symbol s).isBorder = true) : occurrences s w = 0 := by
    refine occurrences_eq_zero_iff.mpr fun t ht hk ↦ ?_
    rw [← hk, h t ht] at hs
    cases hs
  have hright : occurrences .rightBrace w = 0 := hzero rfl
  refine ⟨nested_of_occurrences_eq_zero hright, List.nil_sublist w, ?_, List.forall_mem_nil _⟩
  rw [hzero rfl, hright]
  rfl

/-- A block whose own braces are there. -/
theorem enclosed {left right : Token} (h : Accounts w skipped)
    (hleft : left.kind = .symbol .leftBrace) (hright : right.kind = .symbol .rightBrace) :
    Accounts (left :: w ++ [right]) skipped where
  nested := h.nested.enclosed hleft
  sublist := (h.sublist.cons left).trans (List.sublist_append_left _ _)
  leftBraces_eq := by
    have hw := h.leftBraces_eq
    rw [← List.singleton_append]
    simp only [occurrences_append, occurrences_singleton hleft, occurrences_singleton hright]
    simp only [reduceIte, reduceCtorEq]
    omega
  rightBrace_ne := h.rightBrace_ne

end Accounts

/-- Tokens have been taken with an account of their braces. -/
def Spent (ts skipped rest : List Token) : Prop := ∃ w, ts = w ++ rest ∧ Accounts w skipped

/-- The tokens have come to an end inside a block. -/
def Unclosed (ts rest : List Token) : Prop :=
  ∃ w, ts = w ++ rest ∧ Nested w ∧ ∀ t ∈ rest.head?, t.kind = .eof

namespace Spent

theorem refl (ts : List Token) : Spent ts [] ts := ⟨[], rfl, .of_inner (List.forall_mem_nil _)⟩

theorem trans (h : Spent ts skipped mid) (h' : Spent mid more rest) :
    Spent ts (skipped ++ more) rest := by
  obtain ⟨w, rfl, hw⟩ := h
  obtain ⟨v, rfl, hv⟩ := h'
  exact ⟨w ++ v, (List.append_assoc ..).symm, hw.append hv⟩

theorem unclosed (h : Spent ts skipped mid) (h' : Unclosed mid rest) : Unclosed ts rest := by
  obtain ⟨w, rfl, hw⟩ := h
  obtain ⟨v, rfl, hv, hend⟩ := h'
  exact ⟨w ++ v, (List.append_assoc ..).symm, hw.nested.append hv, hend⟩

theorem length_le {n : Nat} (h : Spent ts skipped rest) (hts : ts.length ≤ n) :
    rest.length ≤ n := by
  obtain ⟨w, rfl, -⟩ := h
  rw [List.length_append] at hts
  omega

end Spent

/-! ## Up to the right brace -/

/-- What a brace would have closed in front of it. -/
theorem Nested.occurrences_lt (h : Nested (w ++ brace :: rest))
    (hbrace : brace.kind = .symbol .rightBrace) :
    occurrences .rightBrace w < occurrences .leftBrace w := by
  have htake : (w ++ brace :: rest).take (w.length + 1) = w ++ [brace] := by
    rw [← List.singleton_append, ← List.append_assoc]
    exact List.take_left' (by simp)
  have hk := h (w.length + 1)
  rw [htake, occurrences_append, occurrences_append, occurrences_singleton hbrace,
    occurrences_singleton hbrace] at hk
  exact hk

/-- Nested braces do not reach over one that closes more than has been opened. -/
theorem Nested.exists_append (hw : Nested w) (hseg : Balanced seg)
    (hbrace : brace.kind = .symbol .rightBrace) (h : seg ++ brace :: ts = w ++ rest) :
    ∃ v, seg = w ++ v ∧ rest = v ++ brace :: ts := by
  rcases List.append_eq_append_iff.mp h with ⟨v, rfl, hv⟩ | ⟨v, rfl, hv⟩
  · rcases v with _ | ⟨t, v⟩
    · exact ⟨[], by simp, hv.symm⟩
    · obtain ⟨rfl, -⟩ := List.cons.inj hv
      have hlt := hw.occurrences_lt hbrace
      have heq := hseg.leftBraces_eq
      omega
  · exact ⟨v, rfl, hv⟩

/-- A block in which braces are balanced does not run to the end of the tokens. -/
theorem Balanced.not_unclosed (hseg : Balanced seg) (hend : ∀ t ∈ seg, t.kind ≠ .eof)
    (hbrace : brace.kind = .symbol .rightBrace) : ¬ Unclosed (seg ++ brace :: ts) rest := by
  rintro ⟨w, hw, hnested, hstop⟩
  obtain ⟨_ | ⟨t, v⟩, rfl, rfl⟩ := hnested.exists_append hseg hbrace hw
  · have hkind := hstop brace rfl
    rw [hbrace] at hkind
    cases hkind
  · exact hend t (List.mem_append_right w List.mem_cons_self) (hstop t rfl)

/-- Where a block closes that skips some tokens. -/
theorem Balanced.closes {close : Token} (hseg : Balanced seg)
    (hbrace : brace.kind = .symbol .rightBrace) (hclose : close.kind = .symbol .rightBrace)
    (h : Spent (seg ++ brace :: ts) skipped (close :: rest)) :
    ∃ w tail, seg ++ [brace] = w ++ close :: tail ∧ rest = tail ++ ts ∧ Accounts w skipped ∧
      (tail = [] ↔ occurrences .leftBrace skipped = 0) := by
  obtain ⟨w, hw, haccounts⟩ := h
  have heq := haccounts.leftBraces_eq
  obtain ⟨_ | ⟨t, v⟩, rfl, hv⟩ := haccounts.nested.exists_append hseg hbrace hw
  · obtain ⟨rfl, rfl⟩ := List.cons.inj hv
    have hbalanced := hseg.leftBraces_eq
    rw [List.append_nil] at hbalanced
    refine ⟨w, [], by rw [List.append_nil], rfl, haccounts, fun _ ↦ ?_, fun _ ↦ rfl⟩
    omega
  · obtain ⟨rfl, rfl⟩ := List.cons.inj hv
    have hlt := hseg.nested.occurrences_lt hclose
    refine ⟨w, v ++ [brace], by simp, by simp, haccounts, fun hnil ↦ ?_, fun hzero ↦ ?_⟩
    · exact absurd hnil (List.append_ne_nil_of_right_ne_nil v (List.cons_ne_nil brace []))
    · omega

end BlockScript
