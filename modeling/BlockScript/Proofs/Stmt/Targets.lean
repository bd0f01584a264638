import BlockScript.Proofs.Program.Unmentioned
import BlockScript.Proofs.Stmt.Scopes

/-!
# Only targets change

A name that is a target nowhere in a statement, of no assignment, no declaration and no input, keeps
its value on every level, however the statement ends. It may well be read.

Of an expression more can be said. It binds nothing, so a name is resolved to the same level all the
time, from the first assignment to the last. So what an assignment changes is a level that is known
before evaluation begins (`Rebinds`).
-/

namespace BlockScript

namespace Environment

variable {env env' : Environment} {names : List String}

/-- Variables have got other values: some of `names` only, each on the level where it is found. -/
structure Rebinds (names : List String) (env env' : Environment) : Prop where
  sameNames : SameNames env env'
  /-- What has another value is the innermost variable of one of the names. -/
  changed (level : Nat) (x : String) : env'.valueAt level x ≠ env.valueAt level x →
    x ∈ names ∧ env.level? x = some level

private theorem repeatable_rebinds (names : List String) : Repeatable (Rebinds names) := by
  refine ⟨fun env ↦ ⟨⟨rfl, fun _ _ ↦ rfl⟩, fun _ _ h ↦ absurd rfl h⟩,
    fun {env env' env''} h h' ↦ ⟨⟨?_, fun level x ↦ ?_⟩, fun level x hne ↦ ?_⟩⟩
  · exact h'.sameNames.depth.trans h.sameNames.depth
  · exact (h'.sameNames.bindsAt level x).trans (h.sameNames.bindsAt level x)
  · by_cases heq : env''.valueAt level x = env'.valueAt level x
    · exact h.changed level x (heq ▸ hne)
    · -- the second change is on the level where the name is found, and that was so all along
      obtain ⟨hx, hlevel⟩ := h'.changed level x heq
      exact ⟨hx, h.sameNames.level? x ▸ hlevel⟩

private theorem rebinds_of_assign? {name : String} {v : Value} (hname : name ∈ names)
    (h : env.assign? name v = some env') : Rebinds names env env' := by
  refine ⟨sameNames_of_assign? h, fun l x hne ↦ ?_⟩
  obtain ⟨level, hlevel, rfl⟩ := assign?_eq_some_iff.mp h
  rw [valueAt_setAt (lt_depth_of_level? hlevel)] at hne
  split at hne
  · next heq =>
    obtain ⟨rfl, rfl⟩ := heq
    exact ⟨hname, hlevel⟩
  · exact absurd rfl hne

end Environment

open Environment

private theorem Eval.rebinds_assign {names : List String} {name : String} (hname : name ∈ names)
    (v : Value) (line : Nat) : Respects (Rebinds names) (assign name v line) := by
  intro env
  rw [assign]
  rcases h : env.assign? name v with _ | env'
  · exact (repeatable_rebinds names).refl env
  · exact rebinds_of_assign? hname h

private theorem Expr.rebinds_eval [Memory] (e : Expr) : Respects (Rebinds e.targets) e.eval :=
  e.respects_eval (repeatable_rebinds e.targets) fun _ hname ↦ Eval.rebinds_assign hname

private theorem Stmt.keeps_exec [Memory] {x : String} (s : Stmt) (hx : x ∉ s.targets) (fuel : Nat) :
    Respects (OnEnv (Keeps x)) (s.exec fuel) := by
  refine s.exec_of_guardedBy (Exec.guardedBy_targets_keeps x) fuel (List.Subset.refl _) ?_
  rintro name hname rfl
  exact hx hname

/-- **Only targets change**, whichever way a run ends. A statement leaves every name alone that is a
target nowhere in it: each scope gives it the value that it gave to it before, or still does not
bind it. An expression binds and unbinds nothing, and what it changes are the innermost variables of
its targets. -/
theorem only_targets_change [Memory] :
    (∀ (s : Stmt) (x : String), x ∉ s.targets → ∀ fuel m,
      Keeps x m.env (stateAfter (s.exec fuel m)).env) ∧
    ∀ (e : Expr) (env : Environment), Rebinds e.targets env (stateAfter (e.eval env)) :=
  ⟨fun s _ hx fuel m ↦ s.keeps_exec hx fuel m, fun e env ↦ e.rebinds_eval env⟩

open scoped Memory

/-- A loop that goes on as long as `x` holds. The block in it only reads `x`, and fails where the
variable that it assigns to does not exist. -/
theorem only_targets_change_reading :
    "x" ∉ (Stmt.loop (.var "x" 1) (.block [.declare "y" (some (.var "x" 2)) 2,
      .expression (.assign "z" (.var "x" 3) 3) 3] 1) none 1).targets ∧
    ∀ fuel m, Keeps "x" m.env (stateAfter ((Stmt.loop (.var "x" 1)
      (.block [.declare "y" (some (.var "x" 2)) 2,
        .expression (.assign "z" (.var "x" 3) 3) 3] 1) none 1).exec fuel m)).env := by
  have hx : "x" ∉ (Stmt.loop (.var "x" 1) (.block [.declare "y" (some (.var "x" 2)) 2,
      .expression (.assign "z" (.var "x" 3) 3) 3] 1) none 1).targets := by decide
  exact ⟨hx, only_targets_change.1 _ "x" hx⟩

end BlockScript
