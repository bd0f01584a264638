import BlockScript.Proofs.Machine

/-!
# Jumps outside loops

A program is searched for jumps that no loop is around, and is not run if there is one. Three things
are to be said of that search.

* It finds what it is meant to find. `jumps` lists all jumps of a program as they stand in the
  source, each with the number of loops around it; the search, which counts the loops it enters,
  gives the first one with none. Once it is inside a loop it finds nothing (`strayJumpAt?_succ`).
* It finds enough. A jump travels outwards through blocks and choices up to a loop, so where the
  search finds nothing no jump arrives at the end of a statement, and executing the statements of a
  program without asking how they finish is executing them in order.
* Nothing else reports what it reports: no statement fails for a jump.
-/

namespace BlockScript

/-- A jump of a program. -/
structure JumpSite where
  /-- What it does. -/
  kind : Jump
  /-- Where it is. -/
  line : Nat
  /-- How many loops are around it. -/
  loops : Nat
deriving DecidableEq

/-- What is reported of a jump with no loop around it. -/
def JumpSite.error (j : JumpSite) : RuntimeError := ⟨.strayJump j.kind, j.line⟩

namespace Stmt

/-! ## The search -/

mutual

/-- The jumps of a statement in the order of the source, if `loops` loops are around it. -/
def jumps (loops : Nat) : Stmt → List JumpSite
  | jump kind line => [⟨kind, line, loops⟩]
  | block body _ => jumpsAmong loops body
  | ifThen _ yes _ => yes.jumps loops
  | ifElse _ yes no _ => yes.jumps loops ++ no.jumps loops
  | loop _ body _ _ => body.jumps (loops + 1)
  | repeatUntil body _ _ => body.jumps (loops + 1)
  | repeatFor body _ _ => body.jumps (loops + 1)
  | _ => []

/-- The jumps of some statements. -/
def jumpsAmong (loops : Nat) : List Stmt → List JumpSite
  | [] => []
  | s :: rest => s.jumps loops ++ jumpsAmong loops rest

end

private theorem jumpsAmong_eq_flatMap (loops : Nat) (ss : List Stmt) :
    jumpsAmong loops ss = ss.flatMap (jumps loops) := by
  induction ss with
  | nil => rfl
  | cons s ss ih => rw [jumpsAmong, List.flatMap_cons, ih]

private theorem le_loops_of_mem_jumps {s : Stmt} {loops : Nat} {j : JumpSite}
    (h : j ∈ s.jumps loops) : loops ≤ j.loops := by
  induction s using Stmt.induction generalizing loops with
  | block body line ih =>
    rw [jumps, jumpsAmong_eq_flatMap] at h
    obtain ⟨s, hs, hj⟩ := List.mem_flatMap.mp h
    exact ih s hs hj
  | ifThen condition yes line ih => exact ih h
  | ifElse condition yes no line ihy ihn =>
    rcases List.mem_append.mp h with h | h
    · exact ihy h
    · exact ihn h
  | loop condition body increment line ih => exact Nat.le_of_succ_le (ih h)
  | repeatUntil body condition line ih => exact Nat.le_of_succ_le (ih h)
  | repeatFor body count line ih => exact Nat.le_of_succ_le (ih h)
  | jump kind line =>
    obtain rfl := List.mem_singleton.mp h
    exact Nat.le_refl loops
  | expression | write | declare | read | readNumber => nomatch h

/-- The first jump in a list with no loop around it, as an error. -/
def firstStray? (sites : List JumpSite) : Option RuntimeError :=
  (sites.find? (·.loops = 0)).map JumpSite.error

private theorem firstStray?_append (a b : List JumpSite) :
    firstStray? (a ++ b) = (firstStray? a <|> firstStray? b) := by
  rw [firstStray?, List.find?_append, Option.map_or, ← firstStray?, ← firstStray?]
  rcases firstStray? a with _ | e
  · rfl
  · rfl

private theorem firstStray?_jumps_succ (s : Stmt) (loops : Nat) :
    firstStray? (s.jumps (loops + 1)) = none := by
  rw [firstStray?, Option.map_eq_none_iff, List.find?_eq_none]
  intro j hj
  have hle := le_loops_of_mem_jumps hj
  rw [decide_eq_true_eq]
  omega

private theorem strayJumpAmongAt?_eq_of_forall {ss : List Stmt} {loops : Nat}
    (h : ∀ s ∈ ss, s.strayJumpAt? loops = firstStray? (s.jumps loops)) :
    strayJumpAmongAt? loops ss = firstStray? (jumpsAmong loops ss) := by
  induction ss with
  | nil => rfl
  | cons s ss ih =>
    rw [List.forall_mem_cons] at h
    rw [strayJumpAmongAt?, jumpsAmong, firstStray?_append, h.1, ih h.2]

private theorem strayJumpAt?_eq (s : Stmt) (loops : Nat) :
    s.strayJumpAt? loops = firstStray? (s.jumps loops) := by
  induction s using Stmt.induction generalizing loops with
  | block body line ih => exact strayJumpAmongAt?_eq_of_forall fun s hs ↦ ih s hs loops
  | ifThen condition yes line ih => exact ih loops
  | ifElse condition yes no line ihy ihn =>
    rw [strayJumpAt?, jumps, firstStray?_append, ihy, ihn]
  | loop condition body increment line ih => exact ih (loops + 1)
  | repeatUntil body condition line ih => exact ih (loops + 1)
  | repeatFor body count line ih => exact ih (loops + 1)
  | jump kind line => cases loops <;> rfl
  | expression | write | declare | read | readNumber => rfl

/-- Inside a loop every jump belongs to that loop or to one further inside. -/
theorem strayJumpAt?_succ (s : Stmt) (loops : Nat) : s.strayJumpAt? (loops + 1) = none := by
  rw [strayJumpAt?_eq, firstStray?_jumps_succ]

/-- **The search finds the first stray jump.** -/
theorem strayJumpAmong?_eq (program : Program) :
    strayJumpAmong? program = firstStray? (jumpsAmong 0 program) :=
  strayJumpAmongAt?_eq_of_forall fun s _ ↦ s.strayJumpAt?_eq 0

private theorem firstStray?_eq_none_iff {sites : List JumpSite} :
    firstStray? sites = none ↔ ∀ j ∈ sites, 0 < j.loops := by
  rw [firstStray?, Option.map_eq_none_iff, List.find?_eq_none]
  simp only [decide_eq_true_eq, Nat.pos_iff_ne_zero, ne_eq]

/-! ## How statements finish -/

private theorem onlyReturns_inScope {P : Flow → Prop} {body : Exec Flow} (h : OnlyReturns P body) :
    OnlyReturns P (Exec.inScope body) := by
  intro ⟨env, input, output⟩ flow m heq
  rw [Exec.inScope] at heq
  rcases hrun : body ⟨env.push, input, output⟩ with ⟨flow', m'⟩ | ⟨e, m'⟩
  · rw [hrun] at heq
    cases heq
    exact h hrun
  · rw [hrun] at heq
    cases heq

private theorem onlyReturns_execAll [Memory] {P : Flow → Prop} (hnormal : P .normal) {fuel : Nat}
    {ss : List Stmt} (h : ∀ s ∈ ss, OnlyReturns P (s.exec fuel)) :
    OnlyReturns P (execAll fuel ss) := by
  induction ss with
  | nil => exact .pure hnormal
  | cons s ss ih =>
    rw [List.forall_mem_cons] at h
    rw [execAll]
    refine h.1.bind fun flow hflow ↦ ?_
    rcases flow with _ | kind
    · exact ih h.2
    · exact .pure hflow

/-- **How a statement finishes**: normally, or with one of its jumps that have no loop around. -/
theorem onlyReturns_exec [Memory] {P : Flow → Prop} (hnormal : P .normal) (fuel : Nat) {s : Stmt}
    (h : ∀ j ∈ s.jumps 0, j.loops = 0 → P (.jump j.kind)) : OnlyReturns P (s.exec fuel) := by
  induction s using Stmt.induction with
  | block body line ih =>
    rw [jumps, jumpsAmong_eq_flatMap] at h
    refine onlyReturns_inScope (onlyReturns_execAll hnormal fun s hs ↦ ih s hs fun j hj ↦ ?_)
    exact h j (List.mem_flatMap.mpr ⟨s, hs, hj⟩)
  | ifThen condition yes line ih =>
    refine .after fun v ↦ ?_
    split
    · exact ih h
    · exact .pure hnormal
  | ifElse condition yes no line ihy ihn =>
    rw [jumps, List.forall_mem_append] at h
    refine .after fun v ↦ ?_
    split
    · exact ihy h.1
    · exact ihn h.2
  | jump kind line => exact .pure (h _ (List.mem_singleton_self _) rfl)
  | expression value line => exact .after fun _ ↦ .pure hnormal
  | write value terminator line => exact .after fun v ↦ .after fun _ ↦ .pure hnormal
  | declare name initial line =>
    rcases initial with _ | e
    · exact .after fun v ↦ .after fun _ ↦ .pure hnormal
    · exact .after fun v ↦ .after fun _ ↦ .pure hnormal
  -- a loop finishes normally whatever its body does
  | loop condition body increment line => exact .after fun _ ↦ .pure hnormal
  | repeatUntil body condition line => exact .after fun _ ↦ .pure hnormal
  | repeatFor body count line => exact .after fun n ↦ .after fun _ ↦ .pure hnormal
  | read name line => exact .after fun _ ↦ .pure hnormal
  | readNumber name line => exact .after fun _ ↦ .pure hnormal

theorem strayJumpAmong?_eq_none_iff {ss : List Stmt} :
    strayJumpAmong? ss = none ↔ ∀ s ∈ ss, s.strayJumpAt? 0 = none := by
  rw [strayJumpAmong?]
  induction ss with
  | nil => simp [strayJumpAmongAt?]
  | cons s ss ih =>
    rw [strayJumpAmongAt?, List.forall_mem_cons, ← ih, Option.orElse_eq_orElse,
      Option.orElse_eq_or, Option.or_eq_none_iff]

/-- **No jump arrives** at the end of a statement in which the search finds nothing. -/
theorem onlyReturns_normal_exec [Memory] (fuel : Nat) {s : Stmt} (h : s.strayJumpAt? 0 = none) :
    OnlyReturns (· = .normal) (s.exec fuel) := by
  rw [strayJumpAt?_eq, firstStray?_eq_none_iff] at h
  exact onlyReturns_exec (P := (· = .normal)) rfl fuel fun j hj hloops ↦
    absurd hloops (Nat.ne_of_gt (h j hj))

/-- **Nothing is dropped.** Where no statement finishes with a jump, it makes no difference whether
execution asks how they finish. -/
theorem execAll_eq_execWithin [Memory] {fuel : Nat} {program : Program}
    (h : ∀ s ∈ program, OnlyReturns (· = .normal) (s.exec fuel)) :
    execAll fuel program = (do
      program.execWithin fuel
      return .normal) := by
  induction program with
  | nil => rfl
  | cons s program ih =>
    rw [List.forall_mem_cons] at h
    rw [execAll, Program.execWithin, bind_assoc]
    refine h.1.bind_congr ?_
    rintro _ rfl
    exact ih h.2

end Stmt

/-! ## Nothing else reports a jump -/

/-- Reasons to stop that come up while a program runs. -/
def Stop.IsDynamic (stop : Stop) : Prop := ∀ kind line, stop ≠ .error ⟨.strayJump kind, line⟩

private theorem Exec.pervasive_isDynamic [Memory] :
    Pervasive fun _ _ x ↦ OnlyFails Stop.IsDynamic x where
  closed _ := closed_onlyFails nofun
  eval _ e _ := onlyFails_lift (e.onlyFails_eval (fun _ _ _ _ ↦ nofun) fun cause line h ↦ by
    rintro kind _ ⟨⟩
    exact absurd h Bool.false_ne_true)
  assign _ name v line _ := onlyFails_lift (Eval.onlyFails_assign (fun _ _ _ _ ↦ nofun) name v line)
  define _ _ _ := fun _ _ _ h ↦ nomatch h
  write _ v terminator line := onlyFails_write (fun _ _ _ _ ↦ nofun) v terminator line
  takeLine _ line := onlyFails_takeLine (fun _ _ _ _ ↦ nofun) line
  badNumber _ _ _ := .throw fun _ _ ↦ nofun
  badCount _ _ := .throw fun _ _ ↦ nofun
  inScope _ _ _ h := onlyFails_inScope h

theorem runWithin_eq_strayJump_iff [Memory] {fuel : Nat} {source : String} {m m' : Machine}
    {kind : Jump} {line : Nat} :
    runWithin fuel source m = .error (.stopped (.error ⟨.strayJump kind, line⟩)) m' ↔
      m' = m ∧ ∃ program, parse source = .ok program ∧
        Stmt.strayJumpAmong? program = some ⟨.strayJump kind, line⟩ := by
  have hdynamic (program : Program) : OnlyFails Stop.IsDynamic (program.execWithin fuel) :=
    Program.execWithin_of_closed (Exec.closed_onlyFails nofun) fun s _ ↦
      s.exec_of_pervasive Exec.pervasive_isDynamic fuel fun _ hx ↦ hx
  rw [runWithin]
  -- a source is rejected, or the search finds something, or it is run
  rcases parse source with errors | program
  · simp
  · dsimp only
    rw [Program.runWithin]
    rcases hjumps : Stmt.strayJumpAmong? program with _ | e
    · dsimp only
      constructor
      · intro h
        rcases hrun : program.execWithin fuel m with ⟨_, m₁⟩ | ⟨stop, m₁⟩
        · rw [hrun] at h
          cases h
        · rw [hrun] at h
          cases h
          exact absurd rfl (hdynamic program hrun kind line)
      · rintro ⟨-, _, ⟨⟩, h⟩
        rw [hjumps] at h
        cases h
    · constructor
      · rintro ⟨⟩
        exact ⟨rfl, program, rfl, hjumps⟩
      · rintro ⟨rfl, _, ⟨⟩, h⟩
        rw [hjumps] at h
        cases h
        rfl

/-- **The search is exact and enough.** It finds nothing exactly if all jumps are inside loops, and
otherwise the first that is not. If it finds nothing, statements that finish do so normally, and the
program runs as its statements in order. Running a source reports a stray jump exactly if the search
finds it, and then nothing has happened. -/
theorem strayJumpAmong?_exact [Memory] :
    (∀ program : Program,
      (Stmt.strayJumpAmong? program = none ↔ ∀ j ∈ Stmt.jumpsAmong 0 program, 0 < j.loops) ∧
      Stmt.strayJumpAmong? program =
        ((Stmt.jumpsAmong 0 program).find? (·.loops = 0)).map JumpSite.error ∧
      (Stmt.strayJumpAmong? program = none → ∀ fuel : Nat,
        (∀ s ∈ program, ∀ m flow m', s.exec fuel m = .ok flow m' → flow = .normal) ∧
        Stmt.execAll fuel program = (do
          program.execWithin fuel
          return .normal))) ∧
    ∀ (fuel : Nat) (source : String) (m m' : Machine) (kind : Jump) (line : Nat),
      runWithin fuel source m = .error (.stopped (.error ⟨.strayJump kind, line⟩)) m' ↔
        m' = m ∧ ∃ program, parse source = .ok program ∧
          Stmt.strayJumpAmong? program = some ⟨.strayJump kind, line⟩ := by
  refine ⟨fun program ↦ ⟨?_, Stmt.strayJumpAmong?_eq program, fun hjumps fuel ↦ ?_⟩,
    fun _ _ _ _ _ _ ↦ runWithin_eq_strayJump_iff⟩
  · rw [Stmt.strayJumpAmong?_eq, Stmt.firstStray?_eq_none_iff]
  · have hnormal (s : Stmt) (hs : s ∈ program) : OnlyReturns (· = .normal) (s.exec fuel) :=
      Stmt.onlyReturns_normal_exec fuel (Stmt.strayJumpAmong?_eq_none_iff.mp hjumps s hs)
    exact ⟨fun s hs _ _ _ h ↦ hnormal s hs h, Stmt.execAll_eq_execWithin hnormal⟩

open scoped Memory

/-- A loop that is left at once: its jump is found to be inside, and the loop finishes normally. -/
theorem strayJumpAmong?_exact_leave :
    Stmt.strayJumpAmong? [.loop (.literal (.bool true) 1) (.block [.jump .leave 2] 1) none 1] =
      none ∧
    (Stmt.loop (.literal (.bool true) 1) (.block [.jump .leave 2] 1) none 1).exec 1 {} =
      .ok .normal {} ∧
    (∀ s ∈ [Stmt.loop (.literal (.bool true) 1) (.block [.jump .leave 2] 1) none 1],
      ∀ m flow m', s.exec 1 m = .ok flow m' → flow = .normal) ∧
    Stmt.execAll 1 [.loop (.literal (.bool true) 1) (.block [.jump .leave 2] 1) none 1] = (do
      Program.execWithin 1 [.loop (.literal (.bool true) 1) (.block [.jump .leave 2] 1) none 1]
      return .normal) :=
  ⟨rfl, rfl, (strayJumpAmong?_exact.1 _).2.2 rfl 1⟩

end BlockScript
