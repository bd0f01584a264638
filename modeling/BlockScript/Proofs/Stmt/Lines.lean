import BlockScript.Proofs.Expr.Lines
import BlockScript.Proofs.Machine
import BlockScript.Proofs.Stmt.Grammar

/-!
# Lines of statements carry no meaning

The same as for expressions, at every stage a statement goes through: derivation, the search for
jumps outside loops, and execution. Running out of iterations is the one way to stop that has no
line, and it is the same on all lines.
-/

namespace BlockScript

variable {f : Nat → Nat} {g : Token → Token}

namespace Stmt

mutual

/-- The same statement on other lines. -/
def mapLines (f : Nat → Nat) : Stmt → Stmt
  | expression value line => expression (value.mapLines f) (f line)
  | write value terminator line => write (value.mapLines f) terminator (f line)
  | declare name initial line => declare name (initial.map (.mapLines f)) (f line)
  | block body line => block (mapLinesAll f body) (f line)
  | ifThen condition yes line => ifThen (condition.mapLines f) (yes.mapLines f) (f line)
  | ifElse condition yes no line =>
    ifElse (condition.mapLines f) (yes.mapLines f) (no.mapLines f) (f line)
  | loop condition body increment line =>
    loop (condition.mapLines f) (body.mapLines f) (increment.map (.mapLines f)) (f line)
  | repeatUntil body condition line => repeatUntil (body.mapLines f) (condition.mapLines f) (f line)
  | repeatFor body count line => repeatFor (body.mapLines f) (count.mapLines f) (f line)
  | jump kind line => jump kind (f line)
  | read name line => read name (f line)
  | readNumber name line => readNumber name (f line)

/-- The same statements on other lines. -/
def mapLinesAll (f : Nat → Nat) : List Stmt → List Stmt
  | [] => []
  | s :: rest => s.mapLines f :: mapLinesAll f rest

end

/-! ## Derivation -/

/-- The same phrase on other lines. -/
def Phrase.mapLines (f : Nat → Nat) : Phrase → Phrase
  | statement s => statement (s.mapLines f)
  | sequence ss => sequence (mapLinesAll f ss)

private theorem mapLines_counted (initial : Option Stmt) (c : Expr) (step : Option Expr)
    (body : Stmt) (line : Nat) : (counted initial c step body line).mapLines f =
      counted (initial.map (mapLines f)) (c.mapLines f) (step.map (.mapLines f)) (body.mapLines f)
        (f line) := by
  cases initial <;> rfl

theorem mapLines_of_reads {kind : TokenKind} {node : String → Nat → Stmt} (h : kind.Reads node)
    (name : String) (line : Nat) : (node name line).mapLines f = node name (f line) := by
  cases h <;> rfl

theorem NoElse.relabel (hg : Relabels g f) {next : List Token} (h : NoElse next) :
    NoElse (next.map g) := by
  rcases next with _ | ⟨t, next⟩
  · exact h
  · rintro _ ⟨⟩
    rw [hg.kind]
    exact h t rfl

section Parts

variable {w next : List Token}

private theorem fills_relabel (hg : Relabels g f) {e : Expr} (h : Expr.Fills w e next) :
    Expr.Fills (w.map g) (e.mapLines f) (next.map g) :=
  ⟨h.derives.relabel hg, h.ends.relabel hg⟩

theorem DerivesExpression.relabel (hg : Relabels g f) {s : Stmt} (h : DerivesExpression w s next) :
    DerivesExpression (w.map g) (s.mapLines f) (next.map g) := by
  obtain @⟨first, semi, w, e, next, hw, hsemi⟩ := h
  rw [List.map_append, List.map_cons, List.map_singleton, mapLines, ← hg.line]
  exact .intro (fills_relabel hg hw) (by rwa [hg.kind])

theorem DerivesDeclaration.relabel (hg : Relabels g f) {s : Stmt}
    (h : DerivesDeclaration w s next) :
    DerivesDeclaration (w.map g) (s.mapLines f) (next.map g) := by
  obtain @⟨k, x, semi, name, next, hk, hx, hsemi⟩ |
    @⟨k, x, equals, semi, name, w, e, next, hk, hx, heq, hw, hsemi⟩ := h
  · rw [mapLines, ← hg.line]
    exact .bare (by rwa [hg.kind]) (by rwa [hg.kind]) (by rwa [hg.kind])
  · rw [mapLines, ← hg.line, List.map_append]
    exact .initialized (by rwa [hg.kind]) (by rwa [hg.kind]) (by rwa [hg.kind])
      (fills_relabel hg hw) (by rwa [hg.kind])

theorem DerivesInitial.relabel (hg : Relabels g f) {initial : Option Stmt}
    (h : DerivesInitial w initial next) :
    DerivesInitial (w.map g) (initial.map (mapLines f)) (next.map g) := by
  obtain hsemi | h | h := h
  · exact .none (by rwa [hg.kind])
  · exact .declaration (h.relabel hg)
  · exact .expression (h.relabel hg)

theorem DerivesCondition.relabel (hg : Relabels g f) {line : Nat} {c : Expr}
    (h : DerivesCondition line w c next) :
    DerivesCondition (f line) (w.map g) (c.mapLines f) (next.map g) := by
  obtain _ | hw := h
  · exact .none
  · exact .some (fills_relabel hg hw)

theorem DerivesIncrement.relabel (hg : Relabels g f) {step : Option Expr}
    (h : DerivesIncrement w step next) :
    DerivesIncrement (w.map g) (step.map (.mapLines f)) (next.map g) := by
  obtain hbegins | hw := h
  · refine .none ?_
    rcases next with _ | ⟨t, next⟩
    · nofun
    · rintro _ ⟨⟩
      rw [← Expr.startsExpression_iff_begins, hg.kind, Expr.startsExpression_iff_begins]
      exact hbegins t rfl
  · exact .some (fills_relabel hg hw)

end Parts

/-- **Derivation does not depend on lines**, nor on the texts of tokens. -/
theorem Derives.relabel (hg : Relabels g f) {w next : List Token} {phrase : Phrase}
    (h : Derives w phrase next) : Derives (w.map g) (phrase.mapLines f) (next.map g) := by
  induction h with
  | expression h => exact .expression (h.relabel hg)
  | declaration h => exact .declaration (h.relabel hg)
  | @write k semi terminator w e next hk hw hsemi =>
    rw [Phrase.mapLines, mapLines, ← hg.line, List.map_append]
    exact .write (by rwa [hg.kind]) (fills_relabel hg hw) (by rwa [hg.kind])
  | @read k x semi node name next hk hx hsemi =>
    rw [Phrase.mapLines, mapLines_of_reads hk, ← hg.line]
    exact .read (by rwa [hg.kind]) (by rwa [hg.kind]) (by rwa [hg.kind])
  | jump hk hsemi =>
    rw [Phrase.mapLines, mapLines, ← hg.line]
    exact .jump (by rwa [hg.kind]) (by rwa [hg.kind])
  | block hl _ hr ih =>
    rw [Phrase.mapLines, mapLines, ← hg.line, List.map_append]
    exact .block (by rwa [hg.kind]) ih (by rwa [hg.kind])
  | ifThen hk hc _ hno ih =>
    have hc' := fills_relabel hg hc
    rw [List.map_append] at hc'
    rw [Phrase.mapLines, mapLines, ← hg.line, List.map_append]
    exact .ifThen (by rwa [hg.kind]) hc' ih (hno.relabel hg)
  | ifElse hk hc _ halt _ ihy ihn =>
    have hc' := fills_relabel hg hc
    simp only [List.map_append, List.map_cons] at hc' ihy
    rw [Phrase.mapLines, mapLines, ← hg.line, List.map_append, List.map_append, List.map_cons]
    exact .ifElse (by rwa [hg.kind]) hc' ihy (by rwa [hg.kind]) ihn
  | while_ hk hc _ ih =>
    have hc' := fills_relabel hg hc
    rw [List.map_append] at hc'
    rw [Phrase.mapLines, mapLines, ← hg.line, List.map_append]
    exact .while_ (by rwa [hg.kind]) hc' ih
  | for_ hk hi hc hsemi hs _ ih =>
    have hi' := hi.relabel hg
    have hc' := hc.relabel hg
    have hs' := hs.relabel hg
    simp only [List.map_append, List.map_cons] at hi' hc' hs'
    rw [← hg.line] at hc'
    rw [Phrase.mapLines, mapLines_counted, ← hg.line]
    simp only [List.map_append, List.map_cons]
    exact .for_ (by rwa [hg.kind]) hi' hc' (by rwa [hg.kind]) hs' ih
  | repeatUntil hk _ htail hc hsemi ih =>
    simp only [List.map_append, List.map_cons] at ih
    rw [Phrase.mapLines, mapLines, ← hg.line]
    simp only [List.map_append, List.map_cons]
    exact .repeatUntil (by rwa [hg.kind]) ih (by rwa [hg.kind]) (fills_relabel hg hc)
      (by rwa [hg.kind])
  | repeatFor hk _ htail hc hsemi ih =>
    simp only [List.map_append, List.map_cons] at ih
    rw [Phrase.mapLines, mapLines, ← hg.line]
    simp only [List.map_append, List.map_cons]
    exact .repeatFor (by rwa [hg.kind]) ih (by rwa [hg.kind]) (fills_relabel hg hc)
      (by rwa [hg.kind])
  | nil => exact .nil
  | cons _ _ ih₁ ih₂ =>
    rw [List.map_append] at ih₁ ⊢
    exact .cons ih₁ ih₂

/-! ## Jumps outside loops -/

private theorem strayJumpAmongAt?_mapLinesAll_of_forall {ss : List Stmt} {loops : Nat}
    (h : ∀ s ∈ ss, (s.mapLines f).strayJumpAt? loops = (s.strayJumpAt? loops).map (.mapLine f)) :
    strayJumpAmongAt? loops (mapLinesAll f ss) =
      (strayJumpAmongAt? loops ss).map (.mapLine f) := by
  induction ss with
  | nil => rfl
  | cons s ss ih =>
    rw [List.forall_mem_cons] at h
    rw [mapLinesAll, strayJumpAmongAt?, strayJumpAmongAt?, h.1, ih h.2]
    cases s.strayJumpAt? loops <;> rfl

private theorem strayJumpAt?_mapLines (f : Nat → Nat) (s : Stmt) (loops : Nat) :
    (s.mapLines f).strayJumpAt? loops = (s.strayJumpAt? loops).map (.mapLine f) := by
  induction s using Stmt.induction generalizing loops with
  | block body line ih =>
    rw [mapLines, strayJumpAt?, strayJumpAt?,
      strayJumpAmongAt?_mapLinesAll_of_forall fun s hs ↦ ih s hs loops]
  | ifThen condition yes line ih =>
    rw [mapLines, strayJumpAt?, strayJumpAt?, ih]
  | ifElse condition yes no line ihy ihn =>
    rw [mapLines, strayJumpAt?, strayJumpAt?, ihy, ihn]
    cases yes.strayJumpAt? loops <;> rfl
  | loop condition body increment line ih => exact ih (loops + 1)
  | repeatUntil body condition line ih => exact ih (loops + 1)
  | repeatFor body count line ih => exact ih (loops + 1)
  | jump kind line => cases loops <;> rfl
  | expression | write | declare | read | readNumber => rfl

theorem strayJumpAmong?_mapLinesAll (f : Nat → Nat) (ss : List Stmt) :
    strayJumpAmong? (mapLinesAll f ss) = (strayJumpAmong? ss).map (.mapLine f) :=
  strayJumpAmongAt?_mapLinesAll_of_forall fun s _ ↦ strayJumpAt?_mapLines f s 0

end Stmt

/-! ## Execution -/

/-- The same reason on another line, if it has one. -/
def Stop.mapLine (f : Nat → Nat) : Stop → Stop
  | error e => error (e.mapLine f)
  | outOfFuel => outOfFuel

namespace Exec

variable {α : Type} (f)

private theorem lift_adaptExcept (e : Eval α) :
    (liftM (e.adaptExcept (RuntimeError.mapLine f)) : Exec α) =
      (liftM e : Exec α).adaptExcept (.mapLine f) := by
  funext ⟨env, input, output⟩
  change ofEval (e.adaptExcept _) _ = (ofEval e).adaptExcept _ _
  simp only [ofEval, EStateM.adaptExcept]
  cases e env <;> rfl

private theorem inScope_adaptExcept (body : Exec α) :
    inScope (body.adaptExcept (Stop.mapLine f)) = (inScope body).adaptExcept (.mapLine f) := by
  funext ⟨env, input, output⟩
  simp only [inScope, EStateM.adaptExcept]
  cases body ⟨env.push, input, output⟩ <;> rfl

private theorem write_adaptExcept (v : Value) (terminator : String) (line : Nat) :
    (write v terminator line).adaptExcept (.mapLine f) = write v terminator (f line) := by
  funext ⟨env, input, output⟩
  simp only [write, EStateM.adaptExcept]
  cases Output.emit (v.display ++ terminator) output <;> rfl

private theorem takeLine_adaptExcept (line : Nat) :
    (takeLine line).adaptExcept (.mapLine f) = takeLine (f line) := by
  funext ⟨env, input, output⟩
  simp only [takeLine, EStateM.adaptExcept]
  cases Input.takeLine input <;> rfl

private theorem readLine_adaptExcept (name : String) (line : Nat) :
    (readLine name line).adaptExcept (.mapLine f) = readLine name (f line) := by
  rw [readLine, readLine, adaptExcept_bind, takeLine_adaptExcept]
  simp only [← lift_adaptExcept, Eval.assign_adaptExcept]

private theorem readNumber_adaptExcept (name : String) (line : Nat) :
    (readNumber name line).adaptExcept (.mapLine f) = readNumber name (f line) := by
  rw [readNumber, readNumber, adaptExcept_bind, takeLine_adaptExcept]
  congr 1
  funext text
  dsimp only
  split
  · rw [← lift_adaptExcept, Eval.assign_adaptExcept]
  · rfl

private theorem loop_adaptExcept (step : Exec Bool) (fuel : Nat) :
    loop (step.adaptExcept (.mapLine f)) fuel = (loop step fuel).adaptExcept (.mapLine f) := by
  induction fuel with
  | zero => rfl
  | succ fuel ih =>
    rw [loop_succ, loop_succ, adaptExcept_bind]
    congr 1
    funext again
    rcases again with _ | _
    · rfl
    · exact ih

private theorem times_adaptExcept (step : Exec Bool) (count : Nat) :
    times (step.adaptExcept (.mapLine f)) count = (times step count).adaptExcept (.mapLine f) := by
  induction count with
  | zero => rfl
  | succ count ih =>
    rw [times_succ, times_succ, adaptExcept_bind]
    congr 1
    funext again
    rcases again with _ | _
    · rfl
    · exact ih

theorem eval_mapLines [Memory] (e : Expr) :
    (liftM (e.mapLines f).eval : Exec Value) =
      (liftM e.eval : Exec Value).adaptExcept (.mapLine f) := by
  rw [Expr.eval_mapLines, lift_adaptExcept]

end Exec

namespace Stmt

variable (f)

private theorem countedStep_adaptExcept (body : Exec Flow) :
    countedStep (body.adaptExcept (Stop.mapLine f)) =
      (countedStep body).adaptExcept (.mapLine f) := by
  rw [countedStep, countedStep, adaptExcept_bind]
  rfl

variable [Memory]

private theorem increase_mapLines (step : Option Expr) :
    increase (step.map (.mapLines f)) = (increase step).adaptExcept (.mapLine f) := by
  rcases step with _ | e
  · rfl
  · rw [Option.map_some, increase, increase, Exec.eval_mapLines, adaptExcept_bind]
    rfl

private theorem loopStep_mapLines (condition : Expr) (body : Exec Flow) (step : Option Expr) :
    loopStep (condition.mapLines f) (body.adaptExcept (.mapLine f)) (step.map (.mapLines f)) =
      (loopStep condition body step).adaptExcept (.mapLine f) := by
  rw [loopStep, loopStep, Exec.eval_mapLines, adaptExcept_bind]
  congr 1
  funext v
  split
  · rw [adaptExcept_bind]
    congr 1
    funext flow
    split
    · rfl
    · rw [increase_mapLines, adaptExcept_bind]
      rfl
  · rfl

private theorem untilStep_mapLines (body : Exec Flow) (condition : Expr) :
    untilStep (body.adaptExcept (.mapLine f)) (condition.mapLines f) =
      (untilStep body condition).adaptExcept (.mapLine f) := by
  rw [untilStep, untilStep, adaptExcept_bind]
  congr 1
  funext flow
  split
  · rfl
  · rw [Exec.eval_mapLines, adaptExcept_bind]
    rfl

private theorem repeatCount_mapLines (count : Expr) (line : Nat) :
    repeatCount (count.mapLines f) (f line) =
      (repeatCount count line).adaptExcept (.mapLine f) := by
  rw [repeatCount, repeatCount, Exec.eval_mapLines, adaptExcept_bind]
  congr 1
  funext v
  split <;> rfl

private theorem execAll_mapLinesAll_of_forall {fuel : Nat} {ss : List Stmt}
    (h : ∀ s ∈ ss, (s.mapLines f).exec fuel = (s.exec fuel).adaptExcept (.mapLine f)) :
    execAll fuel (mapLinesAll f ss) = (execAll fuel ss).adaptExcept (.mapLine f) := by
  induction ss with
  | nil => rfl
  | cons s ss ih =>
    rw [List.forall_mem_cons] at h
    rw [mapLinesAll, execAll, execAll, h.1, adaptExcept_bind]
    congr 1
    funext flow
    cases flow with
    | normal => exact ih h.2
    | jump kind => rfl

/-- **Errors of a statement move with the lines**, and all else stays. -/
theorem exec_mapLines (fuel : Nat) (s : Stmt) :
    (s.mapLines f).exec fuel = (s.exec fuel).adaptExcept (.mapLine f) := by
  induction s using Stmt.induction with
  | expression value line =>
    rw [mapLines, exec, exec, Exec.eval_mapLines, adaptExcept_bind]
    rfl
  | write value terminator line =>
    rw [mapLines, exec, exec, Exec.eval_mapLines, adaptExcept_bind]
    simp only [adaptExcept_bind, Exec.write_adaptExcept, adaptExcept_pure]
  | declare name initial line =>
    rcases initial with _ | e
    · rfl
    · rw [mapLines, Option.map_some, exec, exec, Exec.eval_mapLines, adaptExcept_bind]
      rfl
  | block body line ih =>
    rw [mapLines, exec, exec, execAll_mapLinesAll_of_forall f ih, Exec.inScope_adaptExcept]
  | ifThen condition yes line ih =>
    rw [mapLines, exec, exec, Exec.eval_mapLines, adaptExcept_bind, ih]
    congr 1
    funext v
    split <;> rfl
  | ifElse condition yes no line ihy ihn =>
    rw [mapLines, exec, exec, Exec.eval_mapLines, adaptExcept_bind, ihy, ihn]
    congr 1
    funext v
    split <;> rfl
  | loop condition body increment line ih =>
    rw [mapLines, exec, exec, ih, loopStep_mapLines, Exec.loop_adaptExcept, adaptExcept_bind]
    rfl
  | repeatUntil body condition line ih =>
    rw [mapLines, exec, exec, ih, untilStep_mapLines, Exec.loop_adaptExcept, adaptExcept_bind]
    rfl
  | repeatFor body count line ih =>
    rw [mapLines, exec, exec, ih, repeatCount_mapLines, countedStep_adaptExcept, adaptExcept_bind]
    simp only [Exec.times_adaptExcept, adaptExcept_bind, adaptExcept_pure]
  | jump kind line => rfl
  | read name line =>
    rw [mapLines, exec, exec, adaptExcept_bind, Exec.readLine_adaptExcept]
    rfl
  | readNumber name line =>
    rw [mapLines, exec, exec, adaptExcept_bind, Exec.readNumber_adaptExcept]
    rfl

end Stmt

theorem Program.execWithin_mapLinesAll [Memory] (f : Nat → Nat) (fuel : Nat) (program : Program) :
    Program.execWithin fuel (Stmt.mapLinesAll f program) =
      (program.execWithin fuel).adaptExcept (.mapLine f) := by
  induction program with
  | nil => rfl
  | cons s program ih =>
    rw [Stmt.mapLinesAll, execWithin, execWithin, Stmt.exec_mapLines, adaptExcept_bind, ih]

end BlockScript
