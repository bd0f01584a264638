import BlockScript.Proofs.Machine

/-!
# More iterations do not change an answer

A loop that goes on as long as a condition says is given a bound on its iterations, and to run into
the bound is no answer. With a smaller bound a computation does what it does with a greater one, up
to the point where it runs into the smaller one (`Approximates`). This passes from parts to the
whole, and a loop keeps it if its bound grows along with the bounds inside its body.

So a statement that comes to an end at all has one result (`Finishes`), and it has this result with
every bound that is great enough.
-/

namespace BlockScript

namespace Exec

variable {α β : Type} {x y z : Exec α}

/-- A computation does what another one does, unless it runs out of iterations. -/
def Approximates (x y : Exec α) : Prop := ∀ m, (∃ m', x m = .error .outOfFuel m') ∨ x m = y m

namespace Approximates

theorem refl (x : Exec α) : Approximates x x := fun _ ↦ .inr rfl

theorem trans (h : Approximates x y) (h' : Approximates y z) : Approximates x z := by
  intro m
  rcases h m with hx | hxy
  · exact .inl hx
  · rw [hxy]
    exact h' m

theorem outOfFuel (x : Exec α) : Approximates (throw .outOfFuel) x := fun m ↦ .inl ⟨m, rfl⟩

theorem bind {f g : α → Exec β} (h : Approximates x y) (hf : ∀ a, Approximates (f a) (g a)) :
    Approximates (x >>= f) (y >>= g) := by
  intro m
  rcases h m with ⟨m', hx⟩ | hxy
  · exact .inl ⟨m', bind_of_error hx⟩
  · rw [← bind_congr_left hxy]
    rcases hx : x m with ⟨a, m'⟩ | ⟨e, m'⟩
    · rw [bind_of_ok hx, bind_of_ok hx]
      exact hf a m'
    · rw [bind_of_error hx, bind_of_error hx]
      exact .inr rfl

theorem inScope (h : Approximates x y) : Approximates (inScope x) (inScope y) := by
  intro ⟨env, input, output⟩
  rw [Exec.inScope, Exec.inScope]
  rcases h ⟨env.push, input, output⟩ with ⟨m', hx⟩ | hxy
  · rw [hx]
    exact .inl ⟨_, rfl⟩
  · rw [hxy]
    exact .inr rfl

theorem loop {step step' : Exec Bool} {fuel fuel' : Nat} (h : Approximates step step')
    (hle : fuel ≤ fuel') : Approximates (loop step fuel) (loop step' fuel') := by
  induction fuel generalizing fuel' with
  | zero => exact outOfFuel _
  | succ fuel ih =>
    obtain ⟨fuel', rfl⟩ : ∃ n, fuel' = n + 1 := ⟨fuel' - 1, by omega⟩
    rw [loop_succ, loop_succ]
    refine h.bind fun again ↦ ?_
    split
    · exact ih (Nat.le_of_succ_le_succ hle)
    · exact .refl _

theorem times {step step' : Exec Bool} (h : Approximates step step') (count : Nat) :
    Approximates (times step count) (times step' count) := by
  induction count with
  | zero => exact .refl _
  | succ count ih =>
    rw [times_succ, times_succ]
    refine h.bind fun again ↦ ?_
    split
    · exact ih
    · exact .refl _

end Approximates

end Exec

/-! ## Statements -/

namespace Stmt

open Exec (Approximates)

variable {body body' : Exec Flow} {fuel fuel' : Nat}

private theorem approximates_loopStep [Memory] (h : Approximates body body') (condition : Expr)
    (increment : Option Expr) :
    Approximates (loopStep condition body increment) (loopStep condition body' increment) := by
  refine .bind (.refl _) fun v ↦ ?_
  split
  · exact h.bind fun _ ↦ .refl _
  · exact .refl _

theorem approximates_untilStep [Memory] (h : Approximates body body') (condition : Expr) :
    Approximates (untilStep body condition) (untilStep body' condition) := h.bind fun _ ↦ .refl _

private theorem approximates_countedStep (h : Approximates body body') :
    Approximates (countedStep body) (countedStep body') := h.bind fun _ ↦ .refl _

private theorem approximates_execAll [Memory] {ss : List Stmt}
    (h : ∀ s ∈ ss, Approximates (s.exec fuel) (s.exec fuel')) :
    Approximates (execAll fuel ss) (execAll fuel' ss) := by
  induction ss with
  | nil => exact .refl _
  | cons s ss ih =>
    rw [List.forall_mem_cons] at h
    rw [execAll, execAll]
    refine h.1.bind fun flow ↦ ?_
    rcases flow with _ | kind
    · exact ih h.2
    · exact .refl _

/-- **Every statement** does with a smaller bound what it does with a greater one. -/
theorem approximates_exec [Memory] (h : fuel ≤ fuel') (s : Stmt) :
    Approximates (s.exec fuel) (s.exec fuel') := by
  induction s using Stmt.induction with
  | expression | write | declare | jump | read | readNumber => exact .refl _
  | block body line ih => exact .inScope (approximates_execAll ih)
  | ifThen condition yes line ih =>
    refine .bind (.refl _) fun v ↦ ?_
    split
    · exact ih
    · exact .refl _
  | ifElse condition yes no line ihy ihn =>
    refine .bind (.refl _) fun v ↦ ?_
    split
    · exact ihy
    · exact ihn
  | loop condition body increment line ih =>
    exact .bind (.loop (approximates_loopStep ih condition increment) h) fun _ ↦ .refl _
  | repeatUntil body condition line ih =>
    exact .bind (.loop (approximates_untilStep ih condition) h) fun _ ↦ .refl _
  | repeatFor body count line ih =>
    exact .bind (.refl _) fun n ↦ .bind (.times (approximates_countedStep ih) n) fun _ ↦ .refl _

end Stmt

/-! ## Results -/

namespace Exec

variable {α : Type} {x y : Nat → Exec α} {m : Machine} {r : EStateM.Result Stop Machine α}

/-- Given enough iterations, a computation comes to this end. -/
structure Finishes (x : Nat → Exec α) (m : Machine) (r : EStateM.Result Stop Machine α) : Prop where
  /-- With some bound this is what it does. -/
  exists_fuel : ∃ fuel, x fuel m = r
  /-- And it has not run into that bound. -/
  ne_outOfFuel (m' : Machine) : r ≠ .error .outOfFuel m'

/-- What comes to an end, and is approximated with a bound of its own, comes to the same end. -/
theorem Finishes.of_approximates (h : ∀ fuel, ∃ fuel', Approximates (x fuel) (y fuel'))
    (hx : Finishes x m r) : Finishes y m r := by
  obtain ⟨⟨fuel, rfl⟩, hne⟩ := hx
  obtain ⟨fuel', happ⟩ := h fuel
  refine ⟨⟨fuel', ?_⟩, hne⟩
  rcases happ m with ⟨m', hout⟩ | heq
  · exact absurd hout (hne m')
  · exact heq.symm

end Exec

/-- A statement that comes to an end does so with every bound that is great enough. -/
theorem Stmt.exists_forall_exec_eq [Memory] {s : Stmt} {m : Machine}
    {r : EStateM.Result Stop Machine Flow} (h : Exec.Finishes (fun fuel ↦ s.exec fuel) m r) :
    ∃ least, ∀ fuel, least ≤ fuel → s.exec fuel m = r := by
  obtain ⟨⟨least, rfl⟩, hne⟩ := h
  refine ⟨least, fun fuel hle ↦ ?_⟩
  rcases s.approximates_exec hle m with ⟨m', hout⟩ | heq
  · exact absurd hout (hne m')
  · exact heq.symm

end BlockScript
