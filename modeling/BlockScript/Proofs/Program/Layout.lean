import BlockScript.Proofs.Program.Progress
import BlockScript.Proofs.Program.Seam
import BlockScript.Proofs.Token.Lexemes

/-!
# Layout carries no meaning

Two sources may differ in blanks, comments, line breaks and quotes and still have tokens of the same
kinds. Then nothing that becomes of them differs but lines and the texts that messages quote. The
parser goes the same way on both (`parseAll_lockstep`), which includes the way it recovers from
errors, and trees that are equal but for their lines are executed in the same way (`exec_mapLines`).

The text of a token decides nothing, but the text of a keyword goes into the cause of an error. It
is the same in both sources, since a keyword can be spelled in one way only.
-/

namespace BlockScript

open Likeness

variable {s₁ s₂ source : String} {program : Program}

/-! ## Tokens of the same kinds -/

/-- A keyword is written as it is spelled. -/
def Token.IsSpelled (t : Token) : Prop := ∀ ⦃k⦄, t.kind = .keyword k → t.lexeme = k.spelling

private theorem isSpelled_of_token? {s : Segment} {line : Nat} {t : Token}
    (h : s.token? line = some t) : t.IsSpelled := by
  obtain ⟨kind, hkind, rfl⟩ := Option.map_eq_some_iff.mp h
  rintro k rfl
  cases s with
  | word letters =>
    have hdenotes := Segment.denotes_wordKind letters
    rw [Option.some.inj hkind] at hdenotes
    cases hdenotes with
    | keyword hspelling => exact hspelling.symm
  | _ => cases hkind

private theorem isSpelled_of_mem_scan {t : Token} (h : t ∈ (scan source).tokens) : t.IsSpelled := by
  rw [scan, scanChars_eq] at h
  rcases List.mem_append.mp h with h | h
  · obtain ⟨⟨s, line⟩, -, hs⟩ := List.mem_filterMap.mp h
    exact isSpelled_of_token? hs
  · rw [List.mem_singleton.mp h]
    rintro k ⟨⟩

private theorem alike_of_kinds {ts ts' : List Token} (h : ts.map (·.kind) = ts'.map (·.kind))
    (hts : ∀ t ∈ ts, t.IsSpelled) (hts' : ∀ t ∈ ts', t.IsSpelled) : upToLayout.Alike ts ts' := by
  induction ts generalizing ts' with
  | nil =>
    rw [List.map_eq_nil_iff.mp h.symm]
    exact .nil
  | cons t ts ih =>
    obtain ⟨t', ts', rfl, hkind, hkinds⟩ := List.map_eq_cons_iff.mp h.symm
    rw [List.forall_mem_cons] at hts hts'
    have hsame : upToLayout.Same t t' :=
      ⟨hkind.symm, rfl, rfl, fun hk ↦ (hts.1 hk).trans (hts'.1 (hkind.trans hk)).symm⟩
    by_cases ht : t.kind = .eof
    · exact .eof hsame ht
    · exact .cons hsame ht (ih hkinds.symm hts.2 hts'.2)

/-! ## Running up to lines -/

private theorem Program.runWithin_mapLinesAll [Memory] (f : Nat → Nat) (fuel : Nat)
    (program : Program) :
    Program.runWithin fuel (Stmt.mapLinesAll f program) =
      (program.runWithin fuel).adaptExcept (.mapLine f) := by
  rw [runWithin, runWithin, Stmt.strayJumpAmong?_mapLinesAll, execWithin_mapLinesAll]
  rcases Stmt.strayJumpAmong? program with _ | e <;> rfl

theorem runWithin_adaptExcept [Memory] (f : Nat → Nat) (fuel : Nat)
    (hparse : parse source = .ok program) :
    (runWithin fuel source).adaptExcept (Failure.mapLine f) =
      (Program.runWithin fuel (Stmt.mapLinesAll f program)).adaptExcept Failure.stopped := by
  rw [runWithin_of_parse fuel hparse, Program.runWithin_mapLinesAll, adaptExcept_adaptExcept,
    adaptExcept_adaptExcept]
  rfl

/-! ## Sources -/

/-- What two sources have in common that differ in their layout only. -/
inductive SameMeaning [Memory] (s₁ s₂ : String) : Prop where
  /-- Both are programs, equal but for their lines, and they run in the same way on every machine:
  they leave the same machine and succeed, or fail for the same reason but for its line. -/
  | accepted {p₁ p₂ : Program} : parse s₁ = .ok p₁ → parse s₂ = .ok p₂ →
    Stmt.mapLinesAll (fun _ ↦ 0) p₁ = Stmt.mapLinesAll (fun _ ↦ 0) p₂ →
    (∀ fuel, (runWithin fuel s₁).adaptExcept (Failure.mapLine fun _ ↦ 0) =
      (runWithin fuel s₂).adaptExcept (Failure.mapLine fun _ ↦ 0)) → SameMeaning s₁ s₂
  /-- Neither is a program, and parsing their tokens finds errors with the same causes. -/
  | rejected {es₁ es₂ : List SyntaxError} {gs₁ gs₂ : List ParseError} :
    parse s₁ = .error es₁ → parse s₂ = .error es₂ →
    parseTokens (scan s₁).tokens = .error gs₁ → parseTokens (scan s₂).tokens = .error gs₂ →
    gs₁.map (·.cause) = gs₂.map (·.cause) → SameMeaning s₁ s₂

private theorem map_cause_eq {L : Likeness} {es es' : List ParseError}
    (h : List.Forall₂ L.SameError es es') : es.map (·.cause) = es'.map (·.cause) := by
  have hcauses : List.Forall₂ Eq (es.map (·.cause)) (es'.map (·.cause)) :=
    List.forall₂_map_left_iff.mpr
      (List.forall₂_map_right_iff.mpr (h.imp fun _ _ he ↦ he.cause))
  rwa [List.forall₂_eq_eq_eq] at hcauses

/-- **Layout carries no meaning.** Two sources without lexical errors whose tokens are of the same
kinds mean the same. -/
theorem sameMeaning_of_kinds [Memory] (h₁ : (scan s₁).errors = []) (h₂ : (scan s₂).errors = [])
    (hkinds : (scan s₁).tokens.map (·.kind) = (scan s₂).tokens.map (·.kind)) :
    SameMeaning s₁ s₂ := by
  have halike := alike_of_kinds hkinds (fun _ ↦ isSpelled_of_mem_scan) fun _ ↦ isSpelled_of_mem_scan
  obtain ⟨hprogram, -⟩ := parseAll_lockstep halike
  have hfound := found_parseAll halike
  have htokens₁ := parseTokens_eq (scan s₁).tokens
  have htokens₂ := parseTokens_eq (scan s₂).tokens
  have hnil : (parseAll (scan s₁).tokens).2.found = [] ↔
      (parseAll (scan s₂).tokens).2.found = [] := by
    rw [← List.length_eq_zero_iff, ← List.length_eq_zero_iff, hfound.length_eq]
  by_cases hempty : (parseAll (scan s₁).tokens).2.found = []
  · rw [if_pos hempty] at htokens₁
    rw [if_pos (hnil.mp hempty)] at htokens₂
    have hparse₁ := parse_eq_ok_iff.mpr ⟨h₁, htokens₁⟩
    have hparse₂ := parse_eq_ok_iff.mpr ⟨h₂, htokens₂⟩
    refine .accepted hparse₁ hparse₂ hprogram fun fuel ↦ ?_
    rw [runWithin_adaptExcept _ fuel hparse₁, runWithin_adaptExcept _ fuel hparse₂]
    exact congrArg (fun p ↦ (Program.runWithin fuel p).adaptExcept Failure.stopped) hprogram
  · rw [if_neg hempty] at htokens₁
    rw [if_neg fun h ↦ hempty (hnil.mpr h)] at htokens₂
    have hparse {s : String} {gs : List ParseError} (herrors : (scan s).errors = [])
        (htokens : parseTokens (scan s).tokens = .error gs) :
        parse s = .error (mergeErrors [] gs) := by
      simp only [parse, herrors, htokens]
    exact .rejected (hparse h₁ htokens₁) (hparse h₂ htokens₂) htokens₁ htokens₂
      (map_cause_eq hfound)

open scoped Memory

/-- Other blanks, another quote, and a comment in place of a line break. -/
theorem sameMeaning_of_kinds_quotes :
    (scan "write 'a'; // b").errors = [] ∧ (scan "write\n\"a\";").errors = [] ∧
      (scan "write 'a'; // b").tokens.map (·.kind) =
        (scan "write\n\"a\";").tokens.map (·.kind) ∧
      SameMeaning "write 'a'; // b" "write\n\"a\";" := by
  have hscan₁ : scan "write 'a'; // b" = scanChars ['w', 'r', 'i', 't', 'e', ' ', '\'', 'a', '\'',
      ';', ' ', '/', '/', ' ', 'b'] := by simp [scan]
  have hscan₂ : scan "write\n\"a\";" =
      scanChars ['w', 'r', 'i', 't', 'e', '\n', '"', 'a', '"', ';'] := by simp [scan]
  have h₁ : (scan "write 'a'; // b").errors = [] := by rw [hscan₁]; rfl
  have h₂ : (scan "write\n\"a\";").errors = [] := by rw [hscan₂]; rfl
  have hkinds : (scan "write 'a'; // b").tokens.map (·.kind) =
      (scan "write\n\"a\";").tokens.map (·.kind) := by rw [hscan₁, hscan₂]; rfl
  exact ⟨h₁, h₂, hkinds, sameMeaning_of_kinds h₁ h₂ hkinds⟩

end BlockScript
