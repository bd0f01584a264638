import BlockScript.Proofs.Stmt.Reach

/-!
# The statements that are executed, in order

Execution comes to statements (`Reaches`), to some of them more than once. Here they are put in a
list: every statement that is executed, as often as it is executed and in that order, each with the
machine it is executed on. A run that stops has a list as well, which ends where the run stops.

The list is computed along with execution, so it can be used to say what a run does piece by piece,
and how much it does. Nothing is in it that execution does not come to, and all that it comes to is
there (`mem_visits_iff`).
-/

namespace BlockScript

/-- A statement that is executed, and the machine it is executed on. -/
structure Visit where
  /-- The statement. -/
  statement : Stmt
  /-- The machine, on which it has done nothing yet. -/
  machine : Machine

/-! ## Sequences and repetitions -/

namespace Exec

variable {α : Type} {step : Exec Bool} {inside : Machine → List Visit} {v : Visit}

/-- What is visited behind a computation, which has to give a result for that. -/
def visitsThen (x : Exec α) (next : α → Machine → List Visit) (m : Machine) : List Visit :=
  match x m with
  | .ok a m => next a m
  | .error _ _ => []

theorem visitsThen_of_ok {x : Exec α} {next : α → Machine → List Visit} {m m' : Machine} {a : α}
    (h : x m = .ok a m') : visitsThen x next m = next a m' := by
  rw [visitsThen, h]

theorem visitsThen_of_error {x : Exec α} {next : α → Machine → List Visit} {m m' : Machine}
    {stop : Stop} (h : x m = .error stop m') : visitsThen x next m = [] := by
  rw [visitsThen, h]

/-- What is visited in at most so many iterations of a step, if `inside` is visited in one. -/
def visitsRepeating (step : Exec Bool) (inside : Machine → List Visit) :
    Nat → Machine → List Visit
  | 0, _ => []
  | rounds + 1, m =>
    inside m ++
      visitsThen step (fun again m ↦ if again then visitsRepeating step inside rounds m else []) m

private theorem mem_visitsThen_iff {x : Exec α} {next : α → Machine → List Visit} {m : Machine} :
    v ∈ visitsThen x next m ↔ ∃ a m', x m = .ok a m' ∧ v ∈ next a m' := by
  rcases h : x m with ⟨a, m'⟩ | ⟨stop, m'⟩
  · rw [visitsThen_of_ok h]
    constructor
    · exact fun hv ↦ ⟨a, m', rfl, hv⟩
    · rintro ⟨_, _, ⟨⟩, hv⟩
      exact hv
  · rw [visitsThen_of_error h]
    simp

private theorem mem_visitsRepeating_iff {rounds : Nat} {m : Machine} :
    v ∈ visitsRepeating step inside rounds m ↔
      ∃ n m', n < rounds ∧ Iterates step n m m' ∧ v ∈ inside m' := by
  induction rounds generalizing m with
  | zero => simp [visitsRepeating]
  | succ rounds ih =>
    rw [visitsRepeating, List.mem_append, mem_visitsThen_iff]
    constructor
    · rintro (hv | ⟨again, m₁, hstep, hv⟩)
      · exact ⟨0, m, Nat.succ_pos rounds, .zero m, hv⟩
      · split at hv
        · next hagain =>
          obtain ⟨n, m', hn, hiterates, hv⟩ := ih.mp hv
          exact ⟨n + 1, m', Nat.succ_lt_succ hn, .succ (hagain ▸ hstep) hiterates, hv⟩
        · exact absurd hv List.not_mem_nil
    · rintro ⟨n, m', hn, hiterates, hv⟩
      rcases hiterates with _ | ⟨hstep, hiterates⟩
      · exact .inl hv
      · refine .inr ⟨true, _, hstep, ?_⟩
        rw [if_pos rfl, ih]
        exact ⟨_, m', Nat.lt_of_succ_lt_succ hn, hiterates, hv⟩

end Exec

/-! ## Statements -/

variable [Memory]

namespace Stmt

open Exec (visitsThen visitsRepeating mem_visitsThen_iff mem_visitsRepeating_iff)

mutual

/-- The statements that are executed when a statement is, itself included. -/
def visits (fuel : Nat) : Stmt → Machine → List Visit
  | block body line, m =>
    ⟨block body line, m⟩ :: visitsAmong fuel body { m with env := m.env.push }
  | ifThen condition yes line, m =>
    ⟨ifThen condition yes line, m⟩ ::
      visitsThen condition.eval (fun v m ↦ if v.truthy then yes.visits fuel m else []) m
  | ifElse condition yes no line, m =>
    ⟨ifElse condition yes no line, m⟩ ::
      visitsThen condition.eval
        (fun v m ↦ if v.truthy then yes.visits fuel m else no.visits fuel m) m
  | loop condition body increment line, m =>
    ⟨loop condition body increment line, m⟩ ::
      visitsRepeating (loopStep condition (body.exec fuel) increment)
        (visitsThen condition.eval fun v m ↦ if v.truthy then body.visits fuel m else []) fuel m
  | repeatUntil body condition line, m =>
    ⟨repeatUntil body condition line, m⟩ ::
      visitsRepeating (untilStep (body.exec fuel) condition) (body.visits fuel) fuel m
  | repeatFor body count line, m =>
    ⟨repeatFor body count line, m⟩ ::
      visitsThen (repeatCount count line)
        (visitsRepeating (countedStep (body.exec fuel)) (body.visits fuel)) m
  | s, m => [⟨s, m⟩]

/-- The statements that are executed when some statements are executed in order. -/
def visitsAmong (fuel : Nat) : List Stmt → Machine → List Visit
  | [], _ => []
  | s :: rest, m =>
    s.visits fuel m ++
      visitsThen (s.exec fuel) (fun flow m ↦ if flow = .normal then visitsAmong fuel rest m else [])
        m

end

/-- A statement is listed if its list is what execution comes to. -/
private def Listed (fuel : Nat) (s : Stmt) : Prop :=
  ∀ {v : Visit} {m : Machine}, v ∈ s.visits fuel m ↔ s.Reaches fuel m v.statement v.machine

variable {fuel line : Nat} {v : Visit} {m : Machine} {condition count : Expr} {body yes no : Stmt}

private theorem mem_visitsAmong_iff_of_listed {ss : List Stmt} (h : ∀ s ∈ ss, Listed fuel s) :
    v ∈ visitsAmong fuel ss m ↔ ReachesAmong fuel ss m v.statement v.machine := by
  induction ss generalizing m with
  | nil =>
    rw [visitsAmong]
    exact ⟨nofun, nofun⟩
  | cons s ss ih =>
    rw [List.forall_mem_cons] at h
    rw [visitsAmong, List.mem_append, mem_visitsThen_iff, h.1]
    constructor
    · rintro (hs | ⟨flow, m₁, hexec, hv⟩)
      · exact .head hs
      · split at hv
        · next hflow => exact .tail (hflow ▸ hexec) ((ih h.2).mp hv)
        · exact absurd hv List.not_mem_nil
    · rintro (hs | ⟨hexec, hss⟩)
      · exact .inl hs
      · refine .inr ⟨.normal, _, hexec, ?_⟩
        rw [if_pos rfl]
        exact (ih h.2).mpr hss

private theorem listed_block {ss : List Stmt} (h : ∀ s ∈ ss, Listed fuel s) :
    Listed fuel (block ss line) := by
  rintro ⟨t, m'⟩ m
  rw [visits, List.mem_cons, mem_visitsAmong_iff_of_listed h]
  constructor
  · rintro (⟨rfl, rfl⟩ | hbody)
    · exact .here _ _
    · exact .block hbody
  · rintro (_ | hbody)
    · exact .inl rfl
    · exact .inr hbody

private theorem listed_ifThen (h : Listed fuel yes) :
    Listed fuel (ifThen condition yes line) := by
  rintro ⟨t, m'⟩ m
  rw [visits, List.mem_cons, mem_visitsThen_iff]
  constructor
  · rintro (⟨rfl, rfl⟩ | ⟨v, m₁, hcondition, hv⟩)
    · exact .here _ _
    · split at hv
      · next htruthy => exact .ifThen hcondition htruthy (h.mp hv)
      · exact absurd hv List.not_mem_nil
  · rintro (_ | _ | ⟨hcondition, htruthy, hyes⟩)
    · exact .inl rfl
    · exact .inr ⟨_, _, hcondition, by rwa [if_pos htruthy, h]⟩

private theorem listed_ifElse (hyes : Listed fuel yes) (hno : Listed fuel no) :
    Listed fuel (ifElse condition yes no line) := by
  rintro ⟨t, m'⟩ m
  rw [visits, List.mem_cons, mem_visitsThen_iff]
  constructor
  · rintro (⟨rfl, rfl⟩ | ⟨v, m₁, hcondition, hv⟩)
    · exact .here _ _
    · split at hv
      · next htruthy => exact .ifElseYes hcondition htruthy (hyes.mp hv)
      · next htruthy => exact .ifElseNo hcondition (eq_false_of_ne_true htruthy) (hno.mp hv)
  · rintro (_ | _ | _ | ⟨hcondition, htruthy, hreaches⟩ | ⟨hcondition, htruthy, hreaches⟩)
    · exact .inl rfl
    · exact .inr ⟨_, _, hcondition, by rwa [if_pos htruthy, hyes]⟩
    · exact .inr ⟨_, _, hcondition, by rwa [htruthy, if_neg Bool.false_ne_true, hno]⟩

private theorem listed_loop {increment : Option Expr} (h : Listed fuel body) :
    Listed fuel (loop condition body increment line) := by
  rintro ⟨t, m'⟩ m
  rw [visits, List.mem_cons, mem_visitsRepeating_iff]
  simp only [mem_visitsThen_iff]
  constructor
  · rintro (⟨rfl, rfl⟩ | ⟨n, m₁, hn, hiterates, v, m₂, hcondition, hv⟩)
    · exact .here _ _
    · split at hv
      · next htruthy => exact .loop hn hiterates hcondition htruthy (h.mp hv)
      · exact absurd hv List.not_mem_nil
  · intro hreaches
    rcases hreaches with _ | _ | _ | _ | _ | ⟨hn, hiterates, hcondition, htruthy, hbody⟩
    · exact .inl rfl
    · exact .inr ⟨_, _, hn, hiterates, _, _, hcondition, by rwa [if_pos htruthy, h]⟩

private theorem listed_repeatUntil (h : Listed fuel body) :
    Listed fuel (repeatUntil body condition line) := by
  rintro ⟨t, m'⟩ m
  rw [visits, List.mem_cons, mem_visitsRepeating_iff]
  constructor
  · rintro (⟨rfl, rfl⟩ | ⟨n, m₁, hn, hiterates, hv⟩)
    · exact .here _ _
    · exact .repeatUntil hn hiterates (h.mp hv)
  · intro hreaches
    rcases hreaches with _ | _ | _ | _ | _ | _ | ⟨hn, hiterates, hbody⟩
    · exact .inl rfl
    · exact .inr ⟨_, _, hn, hiterates, h.mpr hbody⟩

private theorem listed_repeatFor (h : Listed fuel body) :
    Listed fuel (repeatFor body count line) := by
  rintro ⟨t, m'⟩ m
  rw [visits, List.mem_cons, mem_visitsThen_iff]
  simp only [mem_visitsRepeating_iff]
  constructor
  · rintro (⟨rfl, rfl⟩ | ⟨total, m₁, hcount, n, m₂, hn, hiterates, hv⟩)
    · exact .here _ _
    · exact .repeatFor hcount hn hiterates (h.mp hv)
  · intro hreaches
    rcases hreaches with _ | _ | _ | _ | _ | _ | _ | ⟨hcount, hn, hiterates, hbody⟩
    · exact .inl rfl
    · exact .inr ⟨_, _, hcount, _, _, hn, hiterates, h.mpr hbody⟩

private theorem listed (s : Stmt) : Listed fuel s := by
  induction s using Stmt.induction with
  | block body line ih => exact listed_block ih
  | ifThen condition yes line ih => exact listed_ifThen ih
  | ifElse condition yes no line ihy ihn => exact listed_ifElse ihy ihn
  | loop condition body increment line ih => exact listed_loop ih
  | repeatUntil body condition line ih => exact listed_repeatUntil ih
  | repeatFor body count line ih => exact listed_repeatFor ih
  | expression | write | declare | jump | read | readNumber =>
    rintro ⟨t, m'⟩ m
    change _ ∈ [(⟨_, m⟩ : Visit)] ↔ _
    rw [List.mem_singleton]
    constructor
    · rintro ⟨rfl, rfl⟩
      exact .here _ _
    · rintro ⟨⟩
      rfl

/-- **The list is what execution comes to.** -/
theorem mem_visits_iff {s : Stmt} :
    v ∈ s.visits fuel m ↔ s.Reaches fuel m v.statement v.machine :=
  s.listed

private theorem mem_visitsAmong_iff {ss : List Stmt} :
    v ∈ visitsAmong fuel ss m ↔ ReachesAmong fuel ss m v.statement v.machine :=
  mem_visitsAmong_iff_of_listed fun s _ ↦ s.listed

end Stmt

/-! ## Programs and sources -/

/-- The statements that are executed when a program is run, with the machines they are executed on.
There are none if some jump belongs to no loop. -/
def Program.visits (fuel : Nat) (program : Program) (m : Machine) : List Visit :=
  match Stmt.strayJumpAmong? program with
  | some _ => []
  | none => Stmt.visitsAmong fuel program m

namespace Program

theorem mem_visits_iff {fuel : Nat} {program : Program} {m : Machine} {v : Visit} :
    v ∈ program.visits fuel m ↔ Stmt.strayJumpAmong? program = none ∧
      Stmt.ReachesAmong fuel program m v.statement v.machine := by
  rw [visits, ← Stmt.mem_visitsAmong_iff]
  rcases Stmt.strayJumpAmong? program with _ | stray
  · simp
  · simp

end Program

/-- The statements that are executed when a source is run. There are none if it is rejected. -/
def runVisits (fuel : Nat) (source : String) (m : Machine) : List Visit :=
  match parse source with
  | .error _ => []
  | .ok program => program.visits fuel m

end BlockScript
