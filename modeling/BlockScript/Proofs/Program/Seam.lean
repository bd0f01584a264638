import BlockScript.Proofs.Stmt.Lines
import BlockScript.Proofs.Stmt.Recognition
import BlockScript.Proofs.Token.Scan

/-!
# Running a source in pieces

Two sources that can run by themselves can be joined by a line break, and the joined source runs as
one after the other. Every stage has its own reason for that:

* no segment goes on across the break (`scanChars_append_break`);
* no statement of the first source looks into the second: all it could ask for is an alternative,
  and no statement begins with one (`noElse_append`);
* statements of a program are executed one after the other anyway;
* and the second source stands on later lines, which nothing but the errors can show
  (`Derives.relabel`, `exec_mapLines`).
-/

namespace BlockScript

variable {s₁ s₂ source : String} {p₁ p₂ program : Program}

/-! ## One program after another -/

namespace Stmt

theorem Derives.append {w₁ w₂ next : List Token} {ss₁ ss₂ : List Stmt}
    (h₁ : Derives w₁ (.sequence ss₁) (w₂ ++ next)) (h₂ : Derives w₂ (.sequence ss₂) next) :
    Derives (w₁ ++ w₂) (.sequence (ss₁ ++ ss₂)) next := by
  induction ss₁ generalizing w₁ with
  | nil =>
    cases h₁
    exact h₂
  | cons s ss ih =>
    cases h₁ with
    | cons hs hss =>
      rw [← List.append_assoc] at hs
      rw [List.append_assoc]
      exact .cons hs (ih hss)

/-- No statement begins with an alternative. -/
theorem Derives.noElse_append {w next : List Token} {ss : List Stmt}
    (h : Derives w (.sequence ss) next) (hnext : NoElse next) : NoElse (w ++ next) := by
  cases h with
  | nil => exact hnext
  | cons hs hss =>
    have ⟨t, rest, hw, hopens⟩ := hs.exists_head
    rw [hw]
    exact noElse_of_opens hopens _

private theorem strayJumpAmong?_append (ss₁ ss₂ : List Stmt) :
    strayJumpAmong? (ss₁ ++ ss₂) = (strayJumpAmong? ss₁ <|> strayJumpAmong? ss₂) := by
  unfold strayJumpAmong?
  induction ss₁ with
  | nil => rfl
  | cons s ss ih =>
    rw [List.cons_append, strayJumpAmongAt?, strayJumpAmongAt?, ih]
    cases s.strayJumpAt? 0 <;> rfl

end Stmt

private theorem Program.execWithin_append [Memory] (fuel : Nat) (p₁ p₂ : Program) :
    Program.execWithin fuel (p₁ ++ p₂) = (do
      p₁.execWithin fuel
      p₂.execWithin fuel) := by
  induction p₁ with
  | nil => rfl
  | cons s p ih =>
    rw [List.cons_append, execWithin, execWithin, ih, bind_assoc]

/-! ## Parsing -/

theorem parse_eq_ok_iff : parse source = .ok program ↔
    (scan source).errors = [] ∧ parseTokens (scan source).tokens = .ok program := by
  rw [parse]
  rcases (scan source).errors with _ | ⟨e, errors⟩
  · rcases parseTokens (scan source).tokens with errors | p
    · simp
    · simp
  · rcases parseTokens (scan source).tokens with errors | p
    · simp
    · simp

/-- Whether a source can be run: it is a program, and its jumps are inside loops. -/
def IsRunnable (source : String) : Prop :=
  ∃ program, parse source = .ok program ∧ Stmt.strayJumpAmong? program = none

private theorem isRunnable_of_chars (program : Program) {cs : List Char}
    (hchars : source.toList = cs) (herrors : (scanChars cs).errors = [])
    (hparse : parseTokens (scanChars cs).tokens = .ok program)
    (hjumps : Stmt.strayJumpAmong? program = none) : IsRunnable source := by
  subst hchars
  exact ⟨program, parse_eq_ok_iff.mpr ⟨herrors, hparse⟩, hjumps⟩

theorem relabels_mapLine (f : Nat → Nat) : Relabels (.mapLine f) f := ⟨fun _ ↦ rfl, fun _ ↦ rfl⟩

/-- **Parsing two sources at once.** The second program stands on the lines behind the first. -/
theorem parse_append_break (h₁ : parse s₁ = .ok p₁) (h₂ : parse s₂ = .ok p₂) :
    parse (s₁ ++ "\n" ++ s₂) =
      .ok (p₁ ++ Stmt.mapLinesAll (· + (1 + s₁.toList.count '\n')) p₂) := by
  rw [parse_eq_ok_iff, scan] at h₁ h₂
  obtain ⟨herrors₁, hparse₁⟩ := h₁
  obtain ⟨herrors₂, hparse₂⟩ := h₂
  have hopen : ∀ segment ∈ Segment.split s₁.toList, segment.isOpen = false :=
    isOpen_eq_false_of_errors (by rw [herrors₁]; exact List.forall_mem_nil _)
  have hchars : (s₁ ++ "\n" ++ s₂).toList = s₁.toList ++ '\n' :: s₂.toList := by
    simp [String.toList_append]
  rw [parse_eq_ok_iff, scan, hchars, scanChars_append_break hopen]
  refine ⟨by rw [herrors₁, herrors₂]; rfl, ?_⟩
  obtain ⟨w₁, htokens₁, hw₁⟩ := exists_tokens_eq s₁.toList
  obtain ⟨w₂, htokens₂, hw₂⟩ := exists_tokens_eq s₂.toList
  rw [htokens₁] at hparse₁
  rw [htokens₂] at hparse₂
  rw [htokens₁, htokens₂, List.dropLast_concat, List.map_append, ← List.append_assoc]
  -- the first program ends at its end mark, the second moves down, and there they meet
  have hd₁ := derives_of_parseTokens_concat hw₁ rfl hparse₁
  have hd₂ := (derives_of_parseTokens_concat hw₂ rfl hparse₂).relabel
    (relabels_mapLine (· + (1 + s₁.toList.count '\n')))
  refine parseTokens_of_derives ((hd₁.exchange fun _ ↦ hd₂.noElse_append ?_).append hd₂) ?_
  · rintro _ ⟨⟩ ⟨⟩
  · rintro _ ⟨⟩
    rfl

/-! ## Running -/

def SyntaxError.mapLine (f : Nat → Nat) : SyntaxError → SyntaxError
  | lexical e => lexical (e.mapLine f)
  | grammar e => grammar { e with line := f e.line }

/-- The same failure on other lines. -/
def Failure.mapLine (f : Nat → Nat) : Failure → Failure
  | rejected errors => rejected (errors.map (.mapLine f))
  | stopped reason => stopped (reason.mapLine f)

theorem runWithin_of_parse [Memory] (fuel : Nat) (hparse : parse source = .ok program) :
    runWithin fuel source = (program.runWithin fuel).adaptExcept .stopped := by
  funext m
  rw [runWithin, hparse]
  dsimp only
  rcases h : program.runWithin fuel m with ⟨_, m'⟩ | ⟨e, m'⟩
  · rw [adaptExcept_of_ok h]
  · rw [adaptExcept_of_error h]

private theorem runWithin_eq [Memory] (fuel : Nat) (hparse : parse source = .ok program)
    (hjumps : Stmt.strayJumpAmong? program = none) :
    runWithin fuel source = (program.execWithin fuel).adaptExcept .stopped := by
  rw [runWithin_of_parse fuel hparse, Program.runWithin, hjumps]

/-- **Running in pieces.** Two sources that can run by themselves can run joined by a line break,
and that is to run the second after the first, unless the first fails. Where the second fails, it
does so on a line behind the first. -/
theorem runWithin_append_break [Memory] (h₁ : IsRunnable s₁) (h₂ : IsRunnable s₂) :
    IsRunnable (s₁ ++ "\n" ++ s₂) ∧
      ∀ fuel, runWithin fuel (s₁ ++ "\n" ++ s₂) = (do
        runWithin fuel s₁
        (runWithin fuel s₂).adaptExcept (.mapLine (· + (1 + s₁.toList.count '\n')))) := by
  obtain ⟨p₁, hparse₁, hjumps₁⟩ := h₁
  obtain ⟨p₂, hparse₂, hjumps₂⟩ := h₂
  have hparse := parse_append_break hparse₁ hparse₂
  have hjumps : Stmt.strayJumpAmong?
      (p₁ ++ Stmt.mapLinesAll (· + (1 + s₁.toList.count '\n')) p₂) = none := by
    rw [Stmt.strayJumpAmong?_append, hjumps₁, Stmt.strayJumpAmong?_mapLinesAll, hjumps₂]
    rfl
  refine ⟨⟨_, hparse, hjumps⟩, fun fuel ↦ ?_⟩
  rw [runWithin_eq fuel hparse hjumps, runWithin_eq fuel hparse₁ hjumps₁,
    runWithin_eq fuel hparse₂ hjumps₂, Program.execWithin_append, adaptExcept_bind,
    Program.execWithin_mapLinesAll, adaptExcept_adaptExcept, adaptExcept_adaptExcept]
  rfl

open scoped Memory

/-- A choice without an alternative at the end of the first source, and an error in the second. -/
theorem runWithin_append_break_ifThen :
    IsRunnable "if nil\nwrite 'a';" ∧ IsRunnable "write b;" ∧
      IsRunnable ("if nil\nwrite 'a';" ++ "\n" ++ "write b;") ∧
      ∀ fuel, runWithin fuel ("if nil\nwrite 'a';" ++ "\n" ++ "write b;") = (do
        runWithin fuel "if nil\nwrite 'a';"
        (runWithin fuel "write b;").adaptExcept
          (.mapLine (· + (1 + "if nil\nwrite 'a';".toList.count '\n')))) := by
  have hchars₁ : "if nil\nwrite 'a';".toList = ['i', 'f', ' ', 'n', 'i', 'l', '\n', 'w', 'r', 'i',
      't', 'e', ' ', '\'', 'a', '\'', ';'] := by simp
  have hchars₂ : "write b;".toList = ['w', 'r', 'i', 't', 'e', ' ', 'b', ';'] := by simp
  have h₁ : IsRunnable "if nil\nwrite 'a';" := isRunnable_of_chars
    [.ifThen (.literal .nil 1) (.write (.literal (.text "a") 2) "" 2) 1] hchars₁ rfl rfl rfl
  have h₂ : IsRunnable "write b;" :=
    isRunnable_of_chars [.write (.var "b" 1) "" 1] hchars₂ rfl rfl rfl
  exact ⟨h₁, h₂, runWithin_append_break h₁ h₂⟩

end BlockScript
