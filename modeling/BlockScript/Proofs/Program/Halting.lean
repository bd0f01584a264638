import BlockScript.Proofs.Number.Count
import BlockScript.Proofs.Stmt.Visits

/-!
# Programs that always come to an end

A counted repetition computes its count once, in advance, and the count is at most `maxCount`. So a
program whose repetitions are all counted has only so many statements to execute, and how many these
can be is seen from its text (`budget`), whatever the counts are computed from and whoever changes
the variables in between. Such a program does not ask for a bound on iterations: it never exhausts
one, and does the same with all of them.
-/

namespace BlockScript

/-! ## Counted repetitions -/

namespace Stmt

mutual

/-- Whether all repetitions in a statement are counted: no loop with a condition is in it. -/
def isCounted : Stmt → Bool
  | loop _ _ _ _ => false
  | repeatUntil _ _ _ => false
  | block body _ => areCounted body
  | ifThen _ yes _ => yes.isCounted
  | ifElse _ yes no _ => yes.isCounted && no.isCounted
  | repeatFor body _ _ => body.isCounted
  | _ => true

/-- Whether all repetitions in some statements are counted. -/
def areCounted : List Stmt → Bool
  | [] => true
  | s :: rest => s.isCounted && areCounted rest

end

mutual

/-- How many statements are executed at most when a statement is whose repetitions are counted. -/
def budget : Stmt → Nat
  | block body _ => budgetAmong body + 1
  | ifThen _ yes _ => yes.budget + 1
  | ifElse _ yes no _ => max yes.budget no.budget + 1
  | repeatFor body _ _ => Number.maxCount * body.budget + 1
  -- a loop with a condition has no bound, and nothing will be said about it
  | _ => 1

def budgetAmong : List Stmt → Nat
  | [] => 0
  | s :: rest => s.budget + budgetAmong rest

end

private theorem areCounted_eq_all (ss : List Stmt) : areCounted ss = ss.all isCounted := by
  induction ss with
  | nil => rfl
  | cons s ss ih => rw [areCounted, List.all_cons, ih]

private theorem areCounted_iff {ss : List Stmt} :
    areCounted ss = true ↔ ∀ s ∈ ss, s.isCounted = true := by
  rw [areCounted_eq_all, List.all_eq_true]

/-! ## The bound plays no role -/

variable [Memory] {fuel : Nat}

private theorem execAll_eq_of_forall {fuel' : Nat} {ss : List Stmt}
    (h : ∀ s ∈ ss, s.exec fuel = s.exec fuel') : execAll fuel ss = execAll fuel' ss := by
  induction ss with
  | nil => rfl
  | cons s ss ih =>
    rw [List.forall_mem_cons] at h
    rw [execAll, execAll, h.1, ih h.2]

private theorem exec_eq_of_isCounted (fuel fuel' : Nat) {s : Stmt} (h : s.isCounted = true) :
    s.exec fuel = s.exec fuel' := by
  induction s using Stmt.induction with
  | loop | repeatUntil => nomatch h
  | block body line ih =>
    have hbody := areCounted_iff.mp h
    rw [exec, exec, execAll_eq_of_forall fun s hs ↦ ih s hs (hbody s hs)]
  | ifThen condition yes line ih => rw [exec, exec, ih h]
  | ifElse condition yes no line ihy ihn =>
    rw [isCounted, Bool.and_eq_true] at h
    rw [exec, exec, ihy h.1, ihn h.2]
  | repeatFor body count line ih => rw [exec, exec, ih h]
  | expression | write | declare | jump | read | readNumber => rfl

private theorem onlyFails_execAll {E : Stop → Prop} {ss : List Stmt}
    (h : ∀ s ∈ ss, OnlyFails E (s.exec fuel)) : OnlyFails E (execAll fuel ss) := by
  induction ss with
  | nil => exact .pure _
  | cons s ss ih =>
    rw [List.forall_mem_cons] at h
    rw [execAll]
    refine h.1.bind fun flow ↦ ?_
    rcases flow with _ | kind
    · exact ih h.2
    · exact .pure _

end Stmt

private theorem Exec.onlyFails_times {E : Stop → Prop} {step : Exec Bool} (h : OnlyFails E step)
    (count : Nat) : OnlyFails E (times step count) := by
  induction count with
  | zero => exact .pure ()
  | succ count ih =>
    rw [times_succ]
    refine h.bind fun again ↦ ?_
    split
    · exact ih
    · exact .pure ()

/-- **No bound is exhausted** where all repetitions are counted. -/
theorem Stmt.ne_outOfFuel_of_isCounted [Memory] (fuel : Nat) {s : Stmt} (h : s.isCounted = true) :
    OnlyFails (· ≠ .outOfFuel) (s.exec fuel) := by
  have hlift {α : Type} (e : Eval α) : OnlyFails (· ≠ Stop.outOfFuel) (liftM e : Exec α) :=
    Exec.onlyFails_lift fun _ _ _ _ ↦ nofun
  have htake (line : Nat) : OnlyFails (· ≠ .outOfFuel) (Exec.takeLine line) :=
    Exec.onlyFails_takeLine (fun _ _ ↦ nofun) line
  induction s using Stmt.induction with
  | loop | repeatUntil => nomatch h
  | expression value line => exact (hlift value.eval).bind fun _ ↦ .pure _
  | write value terminator line =>
    have hwrite (v : Value) := Exec.onlyFails_write (E := (· ≠ .outOfFuel)) (fun _ _ ↦ nofun) v
      terminator line
    exact (hlift value.eval).bind fun v ↦ (hwrite v).bind fun _ ↦ .pure _
  | declare name initial line =>
    have hdefine (v : Value) : OnlyFails (· ≠ Stop.outOfFuel) (do
        Exec.define name v
        return Flow.normal) := fun _ _ _ heq ↦ nomatch heq
    rcases initial with _ | e
    · exact (OnlyFails.pure Value.nil).bind hdefine
    · exact (hlift e.eval).bind hdefine
  | block body line ih =>
    have hbody := areCounted_iff.mp h
    exact Exec.onlyFails_inScope (onlyFails_execAll fun s hs ↦ ih s hs (hbody s hs))
  | ifThen condition yes line ih =>
    refine (hlift condition.eval).bind fun v ↦ ?_
    split
    · exact ih h
    · exact .pure _
  | ifElse condition yes no line ihy ihn =>
    rw [isCounted, Bool.and_eq_true] at h
    refine (hlift condition.eval).bind fun v ↦ ?_
    split
    · exact ihy h.1
    · exact ihn h.2
  | repeatFor body count line ih =>
    have hcount : OnlyFails (· ≠ .outOfFuel) (repeatCount count line) := by
      refine (hlift count.eval).bind fun v ↦ ?_
      split
      · exact .pure _
      · exact .throw nofun
    have hstep : OnlyFails (· ≠ .outOfFuel) (countedStep (body.exec fuel)) :=
      (ih h).bind fun _ ↦ .pure _
    exact hcount.bind fun n ↦ (Exec.onlyFails_times hstep n).bind fun _ ↦ .pure _
  | jump kind line => exact .pure _
  | read name line =>
    exact ((htake line).bind fun text ↦ hlift (Eval.assign name _ line)).bind fun _ ↦ .pure _
  | readNumber name line =>
    refine ((htake line).bind fun text ↦ ?_).bind fun _ ↦ .pure _
    dsimp only
    split
    · exact hlift (Eval.assign name _ line)
    · exact .throw nofun

/-! ## How much is executed -/

private theorem Stmt.le_maxCount_repeatCount [Memory] (count : Expr) (line : Nat) :
    OnlyReturns (· ≤ Number.maxCount) (repeatCount count line) := by
  refine .after fun v ↦ ?_
  split
  · next n hn =>
    obtain ⟨x, -, hx⟩ := Option.bind_eq_some_iff.mp hn
    exact .pure (Number.le_maxCount_of_count? hx)
  · exact fun _ _ _ heq ↦ absurd heq throw_ne_ok

namespace Exec

variable {n : Nat} {m : Machine}

private theorem length_visitsThen_le {α : Type} {x : Exec α} {next : α → Machine → List Visit}
    (h : ∀ a m', x m = .ok a m' → (next a m').length ≤ n) : (visitsThen x next m).length ≤ n := by
  rcases hrun : x m with ⟨a, m'⟩ | ⟨stop, m'⟩
  · rw [visitsThen_of_ok hrun]
    exact h a m' hrun
  · rw [visitsThen_of_error hrun]
    exact Nat.zero_le n

/-- So many iterations visit so many times what one iteration visits. -/
theorem length_visitsRepeating_le {step : Exec Bool} {inside : Machine → List Visit}
    (h : ∀ m, (inside m).length ≤ n) (rounds : Nat) :
    (visitsRepeating step inside rounds m).length ≤ rounds * n := by
  induction rounds generalizing m with
  | zero => exact Nat.zero_le _
  | succ rounds ih =>
    rw [visitsRepeating, List.length_append, Nat.succ_mul, Nat.add_comm]
    refine Nat.add_le_add (length_visitsThen_le fun again m' _ ↦ ?_) (h m)
    split
    · exact ih
    · exact Nat.zero_le _

end Exec

namespace Stmt

open Exec (length_visitsThen_le length_visitsRepeating_le)

variable [Memory] {fuel : Nat} {m : Machine}

private theorem length_visitsAmong_le_of_forall {ss : List Stmt}
    (h : ∀ s ∈ ss, ∀ m, (s.visits fuel m).length ≤ s.budget) :
    (visitsAmong fuel ss m).length ≤ budgetAmong ss := by
  induction ss generalizing m with
  | nil => exact Nat.zero_le _
  | cons s ss ih =>
    rw [List.forall_mem_cons] at h
    rw [visitsAmong, List.length_append, budgetAmong]
    refine Nat.add_le_add (h.1 m) (length_visitsThen_le fun flow m' _ ↦ ?_)
    split
    · exact ih h.2
    · exact Nat.zero_le _

/-- **The budget is kept**, whatever the counts turn out to be. -/
theorem length_visits_le {s : Stmt} (h : s.isCounted = true) :
    (s.visits fuel m).length ≤ s.budget := by
  induction s using Stmt.induction generalizing m with
  | loop | repeatUntil => nomatch h
  | block body line ih =>
    have hbody := areCounted_iff.mp h
    rw [visits, List.length_cons, budget, Nat.add_le_add_iff_right]
    exact length_visitsAmong_le_of_forall fun s hs m ↦ ih s hs (hbody s hs)
  | ifThen condition yes line ih =>
    rw [visits, List.length_cons, budget, Nat.add_le_add_iff_right]
    refine length_visitsThen_le fun v m' _ ↦ ?_
    split
    · exact ih h
    · exact Nat.zero_le _
  | ifElse condition yes no line ihy ihn =>
    rw [isCounted, Bool.and_eq_true] at h
    rw [visits, List.length_cons, budget, Nat.add_le_add_iff_right]
    refine length_visitsThen_le fun v m' _ ↦ ?_
    split
    · exact Nat.le_trans (ihy h.1) (Nat.le_max_left _ _)
    · exact Nat.le_trans (ihn h.2) (Nat.le_max_right _ _)
  | repeatFor body count line ih =>
    rw [visits, List.length_cons, budget, Nat.add_le_add_iff_right]
    refine length_visitsThen_le fun n m' hn ↦ ?_
    -- the count is in range before the first iteration, and nothing changes it after that
    have hcount : n ≤ Number.maxCount := le_maxCount_repeatCount count line hn
    exact Nat.le_trans (length_visitsRepeating_le (fun _ ↦ ih h) n)
      (Nat.mul_le_mul_right body.budget hcount)
  | expression | write | declare | jump | read | readNumber => exact Nat.le_refl 1

end Stmt

/-! ## Programs -/

namespace Program

variable [Memory]

private theorem execWithin_eq_of_areCounted (fuel fuel' : Nat) {program : Program}
    (h : ∀ s ∈ program, s.isCounted = true) :
    program.execWithin fuel = program.execWithin fuel' := by
  induction program with
  | nil => rfl
  | cons s program ih =>
    rw [List.forall_mem_cons] at h
    rw [execWithin, execWithin, Stmt.exec_eq_of_isCounted fuel fuel' h.1, ih h.2]

private theorem onlyFails_execWithin {E : Stop → Prop} {fuel : Nat} {program : Program}
    (h : ∀ s ∈ program, OnlyFails E (s.exec fuel)) : OnlyFails E (program.execWithin fuel) := by
  induction program with
  | nil => exact .pure ()
  | cons s program ih =>
    rw [List.forall_mem_cons] at h
    exact h.1.bind fun _ ↦ ih h.2

private theorem ne_outOfFuel_of_areCounted (fuel : Nat) {program : Program}
    (h : ∀ s ∈ program, s.isCounted = true) :
    OnlyFails (· ≠ .outOfFuel) (program.runWithin fuel) := by
  rw [runWithin]
  split
  · exact .throw (by simp)
  · exact onlyFails_execWithin fun s hs ↦ Stmt.ne_outOfFuel_of_isCounted fuel (h s hs)

end Program

/-- **A program without loops that have a condition always halts.** On every machine it runs to its
end or stops with an error of its own. For that it needs no bound on iterations, and all bounds give
the same run. In that run no more statements are executed than the text of the program allows. -/
theorem halts_of_areCounted [Memory] (fuel : Nat) (program : Program) (m : Machine)
    (h : Stmt.areCounted program = true) :
    ((∃ m', program.runWithin fuel m = .ok () m') ∨
      ∃ e m', program.runWithin fuel m = .error (.error e) m') ∧
    program.runWithin fuel m = program.runWithin 0 m ∧
    (program.visits fuel m).length ≤ Stmt.budgetAmong program := by
  have hcounted := Stmt.areCounted_iff.mp h
  refine ⟨?_, ?_, ?_⟩
  · have hfuel := Program.ne_outOfFuel_of_areCounted fuel hcounted
    rcases hrun : program.runWithin fuel m with ⟨_, m'⟩ | ⟨_ | _, m'⟩
    · exact .inl ⟨m', rfl⟩
    · exact .inr ⟨_, m', rfl⟩
    · exact absurd rfl (hfuel hrun)
  · rw [Program.runWithin, Program.runWithin, Program.execWithin_eq_of_areCounted fuel 0 hcounted]
  · rw [Program.visits]
    split
    · exact Nat.zero_le _
    · exact Stmt.length_visitsAmong_le_of_forall fun s hs m ↦
        Stmt.length_visits_le (hcounted s hs)

open scoped Memory

/-- Repetitions inside each other, with counts from the input, where the inner one changes the
variable that the outer one has counted by. -/
theorem halts_of_areCounted_nested :
    let program : Program := [.declare "n" none 1, .readNumber "n" 1,
      .repeatFor (.block [.readNumber "n" 2,
        .repeatFor (.write (.var "n" 3) "\n" 3) (.var "n" 3) 3] 2) (.var "n" 4) 4]
    Stmt.areCounted program = true ∧ ∀ fuel m,
      ((∃ m', program.runWithin fuel m = .ok () m') ∨
        ∃ e m', program.runWithin fuel m = .error (.error e) m') ∧
      program.runWithin fuel m = program.runWithin 0 m ∧
      (program.visits fuel m).length ≤ Stmt.budgetAmong program :=
  ⟨rfl, fun fuel m ↦ halts_of_areCounted fuel _ m rfl⟩

end BlockScript
