import BlockScript.Proofs.Expr.Connectives
import BlockScript.Proofs.Stmt.Fuel

/-!
# Loops in terms of each other

The three loops test at different points of their rounds and treat a jump at different points. Still
they agree. A repetition with its test behind is its body, followed by a loop with the opposite test
in front. A counted repetition can be cut in two anywhere: the count is computed before the first
round, and what the rounds do to the variables in it makes no difference.

For the first of these, bounds have to be compared. The first round of a repetition counts against
its bound, and in the other form it does not, so the repetition runs into its bound a round earlier.
Each form approximates the other one with one more iteration at most, and for runs that come to an
end this is enough.
-/

namespace BlockScript

open Exec (Approximates Finishes)

private theorem Exec.lift_map {α β : Type} (f : α → β) (e : Eval α) :
    (liftM (f <$> e) : Exec β) = f <$> (liftM e : Exec α) := by
  funext ⟨env, input, output⟩
  change ofEval (EStateM.map f e) _ = EStateM.map f (ofEval e) _
  simp only [ofEval, EStateM.map]
  rcases e env with ⟨a, env'⟩ | ⟨err, env'⟩
  · rfl
  · rfl

namespace Stmt

/-! ## The test behind and the test in front -/

section

variable [Memory]

/-- A round of a repetition, and what follows unless the round is the last one. -/
def roundThen (body : Exec Flow) (condition : Expr) (rest : Exec Unit) : Exec Unit := do
  if (← body) = .jump .leave then return
  let v ← condition.eval
  if v.truthy then return
  rest

private theorem approximates_roundThen {x y : Exec Unit} (h : Approximates x y) (body : Exec Flow)
    (condition : Expr) :
    Approximates (roundThen body condition x) (roundThen body condition y) := by
  refine .bind (.refl _) fun flow ↦ ?_
  split
  · exact .refl _
  · refine .bind (.refl _) fun v ↦ ?_
    split
    · exact .refl _
    · exact h

private theorem loop_untilStep_succ (body : Exec Flow) (condition : Expr) (fuel : Nat) :
    Exec.loop (untilStep body condition) (fuel + 1) =
      roundThen body condition (Exec.loop (untilStep body condition) fuel) := by
  rw [Exec.loop_succ, untilStep, roundThen, bind_assoc]
  refine bind_congr fun flow ↦ ?_
  split
  · rfl
  · rw [bind_assoc]
    refine bind_congr fun v ↦ ?_
    cases v.truthy <;> rfl

/-- The body, and if it does not leave, a loop that goes on until the condition holds. -/
def onceThenLoop (body : Exec Flow) (condition : Expr) (line fuel : Nat) : Exec Unit := do
  if (← body) = .jump .leave then return
  Exec.loop (loopStep (condition.not line) body none) fuel

/-- A round with the opposite test in front, and without an increment. -/
theorem loopStep_not (body : Exec Flow) (condition : Expr) (line : Nat) :
    loopStep (condition.not line) body none = (liftM condition.eval : Exec Value) >>= fun v ↦
      if v.truthy then pure false else countedStep body := by
  rw [loopStep, Expr.eval_not, Exec.lift_map, bind_map_left]
  refine bind_congr fun v ↦ ?_
  rw [Value.truthy_opposite]
  cases v.truthy with
  | true => rfl
  | false =>
    refine bind_congr fun flow ↦ ?_
    split
    · next hleave =>
      rw [hleave]
      rfl
    · next hstay =>
      rw [bne_iff_ne.mpr hstay]
      rfl

/-- The test in front of the second round is a test behind the first. -/
theorem onceThenLoop_succ (body : Exec Flow) (condition : Expr) (line fuel : Nat) :
    onceThenLoop body condition line (fuel + 1) =
      roundThen body condition (onceThenLoop body condition line fuel) := by
  rw [onceThenLoop, roundThen, Exec.loop_succ]
  refine bind_congr fun flow ↦ ?_
  split
  · rfl
  · nth_rewrite 1 [loopStep_not]
    rw [bind_assoc]
    refine bind_congr fun v ↦ ?_
    split
    · rfl
    · rw [countedStep, onceThenLoop, bind_assoc]
      refine bind_congr fun flow ↦ ?_
      simp only [pure_bind, bne_iff_ne, ne_eq, ite_not]

private theorem approximates_until (body : Exec Flow) (condition : Expr) (line fuel : Nat) :
    Approximates (Exec.loop (untilStep body condition) fuel)
      (onceThenLoop body condition line fuel) := by
  induction fuel with
  | zero => exact .outOfFuel _
  | succ fuel ih =>
    rw [loop_untilStep_succ, onceThenLoop_succ]
    exact approximates_roundThen ih body condition

private theorem approximates_onceThenLoop (body : Exec Flow) (condition : Expr) (line fuel : Nat) :
    Approximates (onceThenLoop body condition line fuel)
      (Exec.loop (untilStep body condition) (fuel + 1)) := by
  induction fuel with
  | zero =>
    -- the body is run once on either side, and then the loop has no iteration left
    rw [loop_untilStep_succ]
    refine .bind (.refl _) fun flow ↦ ?_
    split
    · exact .refl _
    · exact .outOfFuel _
  | succ fuel ih =>
    rw [loop_untilStep_succ, onceThenLoop_succ]
    exact approximates_roundThen ih body condition

end

/-! ## Rounds that are counted -/

/-- Runs a body so many times unless it leaves, and says whether it has not. -/
def iterations (body : Exec Flow) : Nat → Exec Bool
  | 0 => return true
  | count + 1 => do
    if (← body) = .jump .leave then return false
    iterations body count

private theorem iterations_add (body : Exec Flow) (m n : Nat) :
    iterations body (m + n) = iterations body m >>= fun stays ↦
      if stays then iterations body n else pure false := by
  induction m with
  | zero =>
    rw [Nat.zero_add, iterations, pure_bind]
    rfl
  | succ m ih =>
    rw [Nat.succ_add, iterations, iterations, bind_assoc]
    refine bind_congr fun flow ↦ ?_
    split
    · rfl
    · exact ih

private theorem times_countedStep (body : Exec Flow) (count : Nat) :
    Exec.times (countedStep body) count = iterations body count >>= fun _ ↦ pure () := by
  induction count with
  | zero => rfl
  | succ count ih =>
    rw [Exec.times_succ, countedStep, iterations, bind_assoc, bind_assoc]
    refine bind_congr fun flow ↦ ?_
    simp only [pure_bind, bne_iff_ne, ne_eq, ite_not]
    split
    · rfl
    · exact ih

/-- A counted repetition whose count has been computed runs its body so many times. -/
theorem exec_repeatFor [Memory] {body : Stmt} {count : Expr} {v : Value} {m m' : Machine} {n : Nat}
    (hcount : Exec.ofEval count.eval m = .ok v m') (hv : v.number?.bind Number.count? = some n)
    (line fuel : Nat) : (repeatFor body count line).exec fuel m =
      (iterations (body.exec fuel) n >>= fun _ ↦ pure .normal) m' := by
  have hrepeat : repeatCount count line m = .ok n m' := by
    rw [repeatCount]
    refine (bind_of_ok hcount).trans ?_
    rw [hv]
    rfl
  rw [exec, bind_of_ok hrepeat, times_countedStep, bind_assoc]
  rfl

/-! ## All three -/

/-- Whether a statement is one of the three loops. -/
def isLoop : Stmt → Bool
  | loop _ _ _ _ | repeatUntil _ _ _ | repeatFor _ _ _ => true
  | _ => false

variable [Memory]

/-- No jump gets out of a loop. -/
theorem onlyReturns_normal_of_isLoop {s : Stmt} (h : s.isLoop = true) (fuel : Nat) :
    OnlyReturns (· = .normal) (s.exec fuel) := by
  cases s with
  | loop | repeatUntil => exact .after fun _ ↦ .pure rfl
  | repeatFor => exact .after fun _ ↦ .after fun _ ↦ .pure rfl
  | _ => nomatch h

private theorem exec_onceThenLoop (body : Stmt) (condition : Expr) (line line' fuel : Nat) :
    (do
      if (← body.exec fuel) = .jump .leave then return .normal
      (loop (condition.not line) body none line').exec fuel) =
        onceThenLoop (body.exec fuel) condition line fuel >>= fun _ ↦ pure Flow.normal := by
  rw [onceThenLoop, bind_assoc]
  refine bind_congr fun flow ↦ ?_
  split
  · rfl
  · rfl

private theorem finishes_repeatUntil_iff {body : Stmt} {condition : Expr} {line line' line'' : Nat}
    {m : Machine} {r : EStateM.Result Stop Machine Flow} :
    Finishes (fun fuel ↦ (repeatUntil body condition line).exec fuel) m r ↔
      Finishes (fun fuel ↦ do
        if (← body.exec fuel) = .jump .leave then return .normal
        (loop (condition.not line') body none line'').exec fuel) m r := by
  simp only [exec_onceThenLoop]
  constructor
  · refine Finishes.of_approximates fun fuel ↦ ⟨fuel, ?_⟩
    exact .bind (approximates_until _ condition line' fuel) fun _ ↦ .refl _
  · refine Finishes.of_approximates fun fuel ↦ ⟨fuel + 1, ?_⟩
    have hbody := body.approximates_exec (Nat.le_succ fuel)
    have honce := approximates_onceThenLoop (body.exec fuel) condition line' fuel
    have hloop := Approximates.loop (approximates_untilStep hbody condition)
      (Nat.le_refl (fuel + 1))
    exact .bind (honce.trans hloop) fun _ ↦ .refl _

end Stmt

open Stmt (iterations)

/-- **The loops agree with each other.** The end that a statement comes to does not depend on the
bound. A repetition with its test behind comes to the same end as its body, followed by a loop with
the opposite test in front unless the body leaves or fails. A counted repetition is, once its count
has been computed, some of its rounds and then the others, unless one of the first leaves or fails,
and the same as a repetition for a constant. And every loop that ends without an error ends
normally. -/
theorem loop_forms_agree [Memory] :
    (∀ (s : Stmt) m r, Finishes (fun fuel ↦ s.exec fuel) m r →
      ∃ least, ∀ fuel, least ≤ fuel → s.exec fuel m = r) ∧
    (∀ (body : Stmt) (condition : Expr) (line line' line'' : Nat) m r,
      Finishes (fun fuel ↦ (Stmt.repeatUntil body condition line).exec fuel) m r ↔
        Finishes (fun fuel ↦ do
          if (← body.exec fuel) = .jump .leave then return .normal
          (Stmt.loop (condition.not line') body none line'').exec fuel) m r) ∧
    (∀ (body : Stmt) (count : Expr) (line fuel : Nat) m v m' first others,
      Exec.ofEval count.eval m = .ok v m' → v.number?.bind Number.count? = some (first + others) →
      (Stmt.repeatFor body count line).exec fuel m = (do
        if ← iterations (body.exec fuel) first then
          let _ ← iterations (body.exec fuel) others
        return Flow.normal : Exec Flow) m' ∧
      ∀ line', (Stmt.repeatFor body count line).exec fuel m =
        (Stmt.repeatFor body (.literal v line') line).exec fuel m') ∧
    ∀ (s : Stmt), s.isLoop = true → ∀ fuel m flow m',
      s.exec fuel m = .ok flow m' → flow = .normal := by
  refine ⟨fun s m r ↦ Stmt.exists_forall_exec_eq, fun body condition line line' line'' m r ↦
    Stmt.finishes_repeatUntil_iff, fun body count line fuel m v m' first others hcount hv ↦ ?_,
    fun s hs fuel m flow m' h ↦ Stmt.onlyReturns_normal_of_isLoop hs fuel h⟩
  rw [Stmt.exec_repeatFor hcount hv]
  constructor
  · rw [Stmt.iterations_add, bind_assoc]
    refine congrFun (bind_congr fun stays ↦ ?_) m'
    cases stays with
    | true => rfl
    | false => rfl
  · intro line'
    rw [Stmt.exec_repeatFor rfl hv]

open scoped Memory

/-- A body that changes the variable which it is repeated by, for two rounds and for one. -/
theorem loop_forms_agree_recount :
    let body : Stmt := .expression (.assign "n" (.literal .nil 1) 1) 1
    let m : Machine := { env := .define .initial "n" (.number 2) }
    (∀ fuel, (Stmt.repeatFor body (.var "n" 2) 2).exec fuel m = (do
      if ← iterations (body.exec fuel) 1 then
        let _ ← iterations (body.exec fuel) 1
      return Flow.normal : Exec Flow) m) ∧
    Finishes (fun fuel ↦ do
      if (← body.exec fuel) = .jump .leave then return .normal
      (Stmt.loop ((Expr.literal (.bool true) 2).not 2) body none 2).exec fuel) m
        (.ok .normal { env := .define .initial "n" .nil }) := by
  intro body m
  obtain ⟨-, huntil, hcounted, -⟩ := loop_forms_agree
  refine ⟨fun fuel ↦ (hcounted body (.var "n" 2) 2 fuel m _ m 1 1 rfl rfl).1, ?_⟩
  exact (huntil body _ 2 2 2 m _).mp ⟨⟨1, rfl⟩, nofun⟩

end BlockScript
