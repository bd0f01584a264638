import BlockScript.Proofs.Program.Progress
import BlockScript.Proofs.Stmt.Border

/-!
# A block recovers as a program does

There is a loop over the statements of a block and one over those of a program, and each has its own
way to go on behind an error: a program always skips a token, while a block does not skip the brace
that closes it. On tokens without braces the two do the same all the same. What the brace is to the
block, the mark of the end is to the program: a statement fails on either for the same cause,
neither is skipped, and in front of either the skipping of other tokens stops.

So the tokens of a block and those of a program are lists that agree up to a border (`closing`), and
the rounds of the two loops are compared one by one.
-/

namespace BlockScript

open Border

/-- One error in a block and in a program of the same tokens. It is found at the same token, or at
the brace behind the one and at the end of the other. -/
inductive Corresponds (seg : List Token) (brace eof : Token) : ParseError → ParseError → Prop where
  | same {t : Token} {cause : ParseCause} : t ∈ seg →
    Corresponds seg brace eof (.at cause t) (.at cause t)
  | closing {cause : ParseCause} : Corresponds seg brace eof (.at cause brace) (.at cause eof)

section Closing

variable {seg rest : List Token} {brace eof : Token}

/-- The end of a block beside the end of a program. -/
def Border.closing (rest : List Token) (hseg : ∀ t ∈ seg, t.kind.isBorder = false)
    (hbrace : brace.kind = .symbol .rightBrace) (heof : eof.kind = .eof) : Border where
  inner t := t ∈ seg
  outer ts ts' := ts = brace :: rest ∧ ts' = [eof]
  not_isBorder_of_inner := hseg _
  outer_nil_or_cons := by
    rintro _ _ ⟨rfl, rfl⟩
    exact .inr ⟨brace, rest, eof, [], rfl, rfl, by rw [hbrace]; rfl, by rw [heof]; rfl⟩

variable {hseg : ∀ t ∈ seg, t.kind.isBorder = false} {hbrace : brace.kind = .symbol .rightBrace}
  {heof : eof.kind = .eof}

private theorem flat_closing : (closing rest hseg hbrace heof).Flat := by
  rintro t rest t' rest' ⟨hts, hts'⟩
  obtain ⟨rfl, -⟩ := List.cons.inj hts
  obtain ⟨rfl, -⟩ := List.cons.inj hts'
  rw [hbrace, heof]
  exact ⟨nofun, nofun⟩

private theorem near_closing (w : List Token) (hw : ∀ t ∈ w, t ∈ seg) :
    (closing rest hseg hbrace heof).Near (w ++ brace :: rest) (w ++ [eof]) := by
  induction w with
  | nil => exact .outer ⟨rfl, rfl⟩
  | cons t w ih =>
    rw [List.forall_mem_cons] at hw
    exact .inner hw.1 (ih hw.2)

private theorem corresponds_of_sameSpot {e e' : ParseError}
    (h : (closing rest hseg hbrace heof).SameSpot e e') : Corresponds seg brace eof e e' := by
  rcases h with ht | ⟨hts, hts'⟩ | ⟨hts, -⟩
  · exact .same ht
  · obtain ⟨rfl, -⟩ := List.cons.inj hts
    obtain ⟨rfl, -⟩ := List.cons.inj hts'
    exact .closing
  · cases hts

/-! ## Skipping -/

/-- Behind a token that is skipped in any case, skipping goes on in step and stops at the border. -/
theorem passed_synchronize {t : Token} {ts ts' : List Token} (ht : t ∈ seg)
    (h : (closing rest hseg hbrace heof).Near ts ts') :
    (closing rest hseg hbrace heof).Passed (t :: ts) (t :: ts') (synchronize (t :: ts))
      (synchronize (t :: ts')) := by
  have hne {t : Token} (ht : t ∈ seg) : t.kind ≠ .eof :=
    kind_ne_of_inner (B := closing rest hseg hbrace heof) ht rfl
  induction h generalizing t with
  | @outer ts ts' houter =>
    have hone := Passed.one (B := closing rest hseg hbrace heof) ht (.outer houter)
    obtain ⟨rfl, rfl⟩ := houter
    unfold synchronize
    rw [if_neg (hne ht), if_neg (hne ht)]
    split
    · exact hone
    · dsimp only
      rw [hbrace, heof, Stmt.synchronize_of_eof heof]
      exact hone
  | @inner next ts ts' hnext hts ih =>
    have hone := Passed.one (B := closing rest hseg hbrace heof) ht (.inner hnext hts)
    unfold synchronize
    rw [if_neg (hne ht), if_neg (hne ht)]
    split
    · exact hone
    · dsimp only
      split
      · exact hone
      · exact hone.trans (ih hnext)

/-- The border itself is not skipped, by the block because it is a brace and by the program because
it is the end. -/
theorem passed_skip {ts ts' : List Token} (h : (closing rest hseg hbrace heof).Near ts ts') :
    (closing rest hseg hbrace heof).Passed ts ts' (synchronizeInBlock ts) (synchronize ts') := by
  cases h with
  | outer houter =>
    have hrefl := Passed.refl (B := closing rest hseg hbrace heof) (.outer houter)
    obtain ⟨rfl, rfl⟩ := houter
    rw [synchronizeInBlock, if_pos hbrace, Stmt.synchronize_of_eof heof]
    exact hrefl
  | @inner t ts ts' ht hts =>
    rw [synchronizeInBlock, if_neg (kind_ne_of_inner ht rfl)]
    exact passed_synchronize ht hts

/-! ## The two loops -/

/-- What a round of either loop has done. -/
structure SameRound (B : Border) (s s' : Progress) (r r' : Option Stmt × Progress) : Prop where
  /-- Both have a statement, or none has. -/
  statement : r.1 = r'.1
  /-- The same tokens have been taken. -/
  passed : B.Passed s.rest s'.rest r.2.rest r'.2.rest
  /-- Corresponding errors have been recorded. -/
  errors : ∃ new new', r.2.found = s.found ++ new ∧ r'.2.found = s'.found ++ new' ∧
    List.Forall₂ B.SameSpot new new'

private theorem sameRound_recorded {n : Nat} {s s' : Progress}
    (h : (closing rest hseg hbrace heof).Within n s.rest s'.rest) :
    SameRound (closing rest hseg hbrace heof) s s'
      (Stmt.recorded (Stmt.statement n) synchronizeInBlock s)
      (Stmt.recorded (Stmt.statement n) synchronize s') := by
  have hstatement := Stmt.tracks_statement flat_closing n h
  rw [Stmt.recorded, Stmt.recorded]
  generalize Stmt.statement n s = x at hstatement ⊢
  generalize Stmt.statement n s' = y at hstatement ⊢
  cases hstatement with
  | ok ha hmoved =>
    obtain ⟨hpassed, hfound, hfound'⟩ := hmoved
    exact ⟨congrArg some ha, hpassed, [], [], by simpa using hfound, by simpa using hfound', .nil⟩
  | @error e e' _ _ he hmoved =>
    obtain ⟨hpassed, hfound, hfound'⟩ := hmoved
    exact ⟨rfl, hpassed.trans (passed_skip hpassed.near), [e], [e'], congrArg (· ++ [e]) hfound,
      congrArg (· ++ [e']) hfound', .cons he .nil⟩

/-- **The loops in step.** The block closes where the program ends, with the same statements. -/
theorem blockRule_beside_programRule {n b : Nat} (hn : b ≤ n) (s s' : Progress)
    (h : (closing rest hseg hbrace heof).Within b s.rest s'.rest) :
    ∃ body errors errors',
      Stmt.blockRule (Stmt.statement n) b s = .ok body ⟨rest, s.found ++ errors⟩ ∧
      programRule (Stmt.statement n) b s' = (body, ⟨[eof], s'.found ++ errors'⟩) ∧
      List.Forall₂ (closing rest hseg hbrace heof).SameSpot errors errors' := by
  induction b generalizing s s' with
  | zero =>
    obtain ⟨ts, found⟩ := s
    obtain ⟨hnear, hlength⟩ := h
    obtain rfl := List.length_eq_zero_iff.mp (Nat.le_zero.mp hlength)
    obtain ⟨⟨hnil, -⟩, -⟩ := hnear.outer_of_nil
    cases hnil
  | succ b ih =>
    have hround := sameRound_recorded ⟨h.1, Nat.le_trans h.2 hn⟩
    obtain ⟨ts, found⟩ := s
    obtain ⟨ts', found'⟩ := s'
    obtain ⟨hnear, hlength⟩ := h
    dsimp only at hnear
    cases hnear with
    | outer houter =>
      obtain ⟨rfl, rfl⟩ := houter
      refine ⟨[], [], [], ?_, ?_, .nil⟩
      · rw [Stmt.blockRule]
        dsimp only
        rw [if_pos hbrace, List.append_nil]
      · rw [programRule]
        dsimp only
        rw [if_pos heof, List.append_nil]
    | @inner t ts ts' ht hts =>
      have hend : t.kind ≠ .eof := kind_ne_of_inner ht rfl
      have hopen : t.kind ≠ .symbol .rightBrace := kind_ne_of_inner ht rfl
      obtain ⟨j, hj, htaken⟩ := Stmt.taken_recorded_synchronizeInBlock
        (s := ⟨t :: ts, found⟩) (Nat.le_trans hlength hn) rfl hend hopen
      have hlength' := htaken.length
      rw [Stmt.blockRule, programRule]
      dsimp only
      rw [if_neg hopen, if_neg hend, if_neg hend]
      generalize Stmt.recorded (Stmt.statement n) synchronizeInBlock ⟨t :: ts, found⟩ = r at *
      generalize Stmt.recorded (Stmt.statement n) synchronize ⟨t :: ts', found'⟩ = r' at *
      obtain ⟨hfirst, hpassed, new, new', hnew, hnew', hsame⟩ := hround
      have hle : r.2.rest.length ≤ b := by
        simp only [List.length_cons] at hlength hlength'
        omega
      obtain ⟨body, errors, errors', hblock, hprogram, herrors⟩ :=
        ih (by omega) r.2 r'.2 ⟨hpassed.near, hle⟩
      refine ⟨r.1.toList ++ body, new ++ errors, new' ++ errors', ?_, ?_,
        List.rel_append hsame herrors⟩
      · rw [hblock, hnew, List.append_assoc]
      · rw [hprogram, hnew', ← hfirst, List.append_assoc]

end Closing

/-- **A block recovers as a program does.** Take any tokens without braces and without a mark of the
end, once as the inside of a block and once as a program. The block is closed by the brace behind
them, whatever is wrong in it, and what it records corresponds one by one to the errors of the
program. If there are none, both consist of the same statements. -/
theorem parseBlock_recovers_like_program (seg rest : List Token) (brace eof : Token)
    (hseg : ∀ t ∈ seg, t.kind ≠ .symbol .leftBrace ∧ t.kind ≠ .symbol .rightBrace ∧ t.kind ≠ .eof)
    (hbrace : brace.kind = .symbol .rightBrace) (heof : eof.kind = .eof) (line : Nat)
    (found : List ParseError) :
    ∃ body errors errors',
      Stmt.parseBlock line ⟨seg ++ brace :: rest, found⟩ =
        .ok (.block body line) ⟨rest, found ++ errors⟩ ∧
      parseTokens (seg ++ [eof]) = (if errors = [] then .ok body else .error errors') ∧
      List.Forall₂ (Corresponds seg brace eof) errors errors' := by
  have hinner : ∀ t ∈ seg, t.kind.isBorder = false := by
    intro t ht
    obtain ⟨hleft, hright, hend⟩ := hseg t ht
    refine Bool.eq_false_iff.mpr fun hborder ↦ ?_
    obtain hk | hk | hk := TokenKind.isBorder_cases hborder
    · exact hleft hk
    · exact hright hk
    · exact hend hk
  have hnear : (closing rest hinner hbrace heof).Near (seg ++ brace :: rest) (seg ++ [eof]) :=
    near_closing seg fun _ ht ↦ ht
  have hlength : (seg ++ [eof]).length ≤ (seg ++ brace :: rest).length := by simp
  obtain ⟨body, errors, errors', hblock, hprogram, herrors⟩ :=
    blockRule_beside_programRule (Nat.le_refl _) ⟨seg ++ brace :: rest, found⟩ ⟨seg ++ [eof], []⟩
      ⟨hnear, Nat.le_refl _⟩
  refine ⟨body, errors, errors', ?_, ?_, herrors.imp fun _ _ ↦ corresponds_of_sameSpot⟩
  · rw [Stmt.parseBlock]
    dsimp only at hblock ⊢
    rw [hblock]
  · have hnil : errors' = [] ↔ errors = [] := by
      rw [← List.length_eq_zero_iff, ← List.length_eq_zero_iff, herrors.length_eq]
    rw [parseTokens_eq, ← programRule_eq_parseAll hlength hlength, hprogram, List.nil_append]
    simp only [hnil]

/-- A declaration without its semicolon and without its name: `let x let` in a block and as a
program. -/
theorem parseBlock_recovers_like_program_let :
    ∃ body errors errors',
      Stmt.parseBlock 1
        ⟨[⟨.keyword .let_, "let", 1⟩, ⟨.name "x", "x", 1⟩, ⟨.keyword .let_, "let", 2⟩,
          ⟨.symbol .rightBrace, "\x7d", 3⟩, .eof 3], []⟩ = .ok (.block body 1) ⟨[.eof 3], errors⟩ ∧
      parseTokens [⟨.keyword .let_, "let", 1⟩, ⟨.name "x", "x", 1⟩, ⟨.keyword .let_, "let", 2⟩,
          .eof 2] = (if errors = [] then .ok body else .error errors') ∧
      List.Forall₂ (Corresponds [⟨.keyword .let_, "let", 1⟩, ⟨.name "x", "x", 1⟩,
          ⟨.keyword .let_, "let", 2⟩] ⟨.symbol .rightBrace, "\x7d", 3⟩ (.eof 2)) errors errors' :=
  parseBlock_recovers_like_program
    [⟨.keyword .let_, "let", 1⟩, ⟨.name "x", "x", 1⟩, ⟨.keyword .let_, "let", 2⟩] [.eof 3]
    ⟨.symbol .rightBrace, "\x7d", 3⟩ (.eof 2) (by decide) rfl rfl 1 []

end BlockScript
