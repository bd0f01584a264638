import BlockScript.Proofs.Stmt.Lockstep

/-!
# Where parsing is resumed

Behind an error, tokens are skipped up to a place where a statement may begin. Two kinds of places
are looked for, behind a semicolon and in front of a token that a statement begins with, and the
first of either kind is taken. One token is skipped in any case, without being looked at. It is what
makes the loops over statements end, but it means that a statement which begins right where the
error was found is lost.
-/

namespace BlockScript

/-- Tokens in front of which parsing is resumed: those that begin a statement, close a block or end
the source. -/
def TokenKind.isBoundary (kind : TokenKind) : Bool :=
  kind.startsStatement || kind = .symbol .rightBrace || kind = .eof

/-- **The tokens that are skipped**, in front of those that are left. -/
structure Resumes (skipped rest : List Token) : Prop where
  /-- At least one token is skipped. -/
  ne_nil : skipped ≠ []
  /-- Nothing behind a semicolon is skipped. -/
  semicolon : ∀ t ∈ skipped.dropLast, t.kind ≠ .symbol .semicolon
  /-- No boundary is skipped, unless it comes first. -/
  boundary : ∀ t ∈ skipped.tail, t.kind.isBoundary = false
  /-- Skipping stops behind a semicolon or in front of a boundary, or there is nothing left. -/
  stop : (∃ t ∈ skipped.getLast?, t.kind = .symbol .semicolon) ∨
    ∀ t ∈ rest.head?, t.kind.isBoundary = true

namespace Resumes

variable {t next : Token} {skipped rest : List Token}

theorem one (h : t.kind = .symbol .semicolon ∨ ∀ next ∈ rest.head?, next.kind.isBoundary = true) :
    Resumes [t] rest where
  ne_nil := List.cons_ne_nil t []
  semicolon := List.forall_mem_nil _
  boundary := List.forall_mem_nil _
  stop := h.imp_left fun ht ↦ ⟨t, rfl, ht⟩

theorem cons (h : Resumes (next :: skipped) rest) (ht : t.kind ≠ .symbol .semicolon)
    (hnext : next.kind.isBoundary = false) : Resumes (t :: next :: skipped) rest where
  ne_nil := List.cons_ne_nil t _
  semicolon := by
    rw [List.dropLast_cons_of_ne_nil h.ne_nil]
    exact List.forall_mem_cons.mpr ⟨ht, h.semicolon⟩
  boundary := List.forall_mem_cons.mpr ⟨hnext, h.boundary⟩
  stop := by
    rw [List.getLast?_cons_cons]
    exact h.stop

end Resumes

theorem resumes_synchronize {t : Token} (ht : t.kind ≠ .eof) (ts : List Token) :
    ∃ skipped, t :: ts = skipped ++ synchronize (t :: ts) ∧
      Resumes skipped (synchronize (t :: ts)) := by
  induction ts generalizing t with
  | nil =>
    have hrest : synchronize [t] = [] := by
      rw [synchronize, if_neg ht, ite_self]
    rw [hrest]
    exact ⟨[t], rfl, .one (.inr fun u hu ↦ absurd hu (Option.not_mem_none u))⟩
  | cons next ts ih =>
    rw [synchronize, if_neg ht]
    split
    · next hsemi => exact ⟨[t], rfl, .one (.inl hsemi)⟩
    next hsemi =>
    split
    · next hstart =>
      refine ⟨[t], rfl, .one (.inr ?_)⟩
      rintro _ ⟨⟩
      rw [TokenKind.isBoundary, hstart, Bool.true_or]
    next hstart =>
    by_cases heof : next.kind = .eof
    · rw [Stmt.synchronize_of_eof heof]
      refine ⟨[t], rfl, .one (.inr ?_)⟩
      rintro _ ⟨⟩
      rw [heof]
      rfl
    · obtain ⟨skipped, heq, hresumes⟩ := ih heof
      obtain ⟨first, skipped, rfl⟩ := List.exists_cons_of_ne_nil hresumes.ne_nil
      obtain ⟨rfl, -⟩ := List.cons.inj heq
      refine ⟨t :: next :: skipped, congrArg (t :: ·) heq, hresumes.cons hsemi ?_⟩
      rw [TokenKind.isBoundary, Bool.eq_false_iff.mpr hstart, Bool.false_or]
      exact decide_eq_false heof

end BlockScript
