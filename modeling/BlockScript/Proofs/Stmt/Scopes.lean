import BlockScript.Proofs.Environment
import BlockScript.Proofs.Machine

/-!
# Scopes are restored

Execution leaves as many scopes as it found, whichever way it ends, and of these the outer ones bind
the names they bound. The innermost one may have got new names, but only from declarations that
stand in no block of the statement.

## The invariant

`Extends names` says this of two environments. It can happen several times, so it passes through
loops and sequences, and an assignment cannot break it, since it only finds names that are bound. A
block turns the invariant of its body, whatever names the body declares, into the invariant with no
names at all (`sameNames_pop`): what was the innermost scope before the block is an outer one inside
it.
-/

namespace BlockScript

namespace Environment

variable {env env' : Environment} {names : List String}

/-- **The invariant.** Only the innermost scope has got names, and only some of `names`. -/
structure Extends (names : List String) (env env' : Environment) : Prop where
  /-- There are as many scopes. -/
  depth : env'.depth = env.depth
  /-- Outer scopes bind the same names. -/
  below (level : Nat) (x : String) :
    level + 1 < env.depth → env'.bindsAt level x = env.bindsAt level x
  /-- The innermost scope binds what it bound. -/
  kept (x : String) :
    env.bindsAt (env.depth - 1) x = true → env'.bindsAt (env.depth - 1) x = true
  /-- All it binds besides is among `names`. -/
  added (x : String) :
    env'.bindsAt (env.depth - 1) x = true → env.bindsAt (env.depth - 1) x = true ∨ x ∈ names

/-- Every scope binds the same names. -/
structure SameNames (env env' : Environment) : Prop where
  depth : env'.depth = env.depth
  /-- Every scope binds what it bound, and nothing else. -/
  bindsAt (level : Nat) (x : String) : env'.bindsAt level x = env.bindsAt level x

theorem SameNames.extends (h : SameNames env env') : Extends names env env' :=
  ⟨h.depth, fun level x _ ↦ h.bindsAt level x, fun x hx ↦ (h.bindsAt _ x).trans hx,
    fun x hx ↦ .inl ((h.bindsAt _ x).symm.trans hx)⟩

/-- If no names can be added, the innermost scope binds the same names as well. -/
theorem Extends.sameNames (h : Extends [] env env') : SameNames env env' := by
  refine ⟨h.depth, fun level x ↦ ?_⟩
  rcases Nat.lt_trichotomy (level + 1) env.depth with hlevel | hlevel | hlevel
  · exact h.below level x hlevel
  · obtain rfl : level = env.depth - 1 := by omega
    rw [Bool.eq_iff_iff]
    exact ⟨fun hx ↦ (h.added x hx).resolve_right List.not_mem_nil, h.kept x⟩
  · have hdepth := h.depth
    rw [bindsAt_eq_false_of_le (by omega), bindsAt_eq_false_of_le (by omega)]

/-- Where the same names are bound, each of them is resolved to the same level. -/
theorem SameNames.level? (h : SameNames env env') (x : String) :
    env'.level? x = env.level? x := by
  refine Option.ext fun level ↦ ?_
  simp only [level?_eq_some_iff, h.bindsAt]

theorem repeatable_extends (names : List String) : Repeatable (Extends names) := by
  refine ⟨fun env ↦ SameNames.extends ⟨rfl, fun _ _ ↦ rfl⟩, fun {env env' env''} h h' ↦ ?_⟩
  have hdepth := h.depth
  refine ⟨h'.depth.trans hdepth, fun level x hlevel ↦ ?_, fun x hx ↦ ?_, fun x hx ↦ ?_⟩
  · rw [h'.below level x (by omega), h.below level x hlevel]
  · rw [← hdepth]
    exact h'.kept x (hdepth ▸ h.kept x hx)
  · rcases h'.added x (hdepth ▸ hx) with hx' | hx'
    · exact h.added x (hdepth ▸ hx')
    · exact .inr hx'

/-! ## Declarations, assignments and blocks -/

theorem extends_define {name : String} (hname : name ∈ names) (v : Value) (env : Environment) :
    Extends names env (env.define name v) := by
  have hpos : 0 < env.depth := env.nonempty
  have hbinds (l : Nat) (x : String) : (env.define name v).bindsAt l x = true ↔
      l = env.depth - 1 ∧ x = name ∨ env.bindsAt l x = true := by
    rw [define_eq_setAt, bindsAt_setAt (by omega)]
  refine ⟨depth_define, fun level x hlevel ↦ ?_, fun x hx ↦ ?_, fun x hx ↦ ?_⟩
  · rw [Bool.eq_iff_iff, hbinds, or_iff_right]
    exact fun h ↦ by omega
  · exact (hbinds _ x).mpr (.inr hx)
  · rcases (hbinds _ x).mp hx with ⟨-, rfl⟩ | hx
    · exact .inr hname
    · exact .inl hx

theorem sameNames_of_assign? {name : String} {v : Value} (h : env.assign? name v = some env') :
    SameNames env env' := by
  obtain ⟨level, hlevel, rfl⟩ := assign?_eq_some_iff.mp h
  have ⟨hbinds, _⟩ := level?_eq_some_iff.mp hlevel
  refine ⟨depth_setAt, fun l x ↦ ?_⟩
  rw [Bool.eq_iff_iff, bindsAt_setAt (lt_depth_of_bindsAt hbinds), or_iff_right_iff_imp]
  rintro ⟨rfl, rfl⟩
  exact hbinds

/-- **Leaving a block.** Whatever the body has added is gone with its scope. -/
theorem sameNames_pop (h : Extends names env.push env') : SameNames env env'.pop := by
  have hpos : 0 < env.depth := env.nonempty
  have hdepth := h.depth
  rw [depth_push] at hdepth
  have hpop : env'.pop.depth = env'.depth - 1 := depth_pop (by omega)
  refine ⟨by omega, fun level x ↦ ?_⟩
  -- all levels from before the block are outer ones inside it
  by_cases hlevel : level < env.depth
  · rw [bindsAt_pop (by omega) (by omega), h.below level x (by rw [depth_push]; omega),
      bindsAt_push]
  · rw [bindsAt_eq_false_of_le (by omega), bindsAt_eq_false_of_le (by omega)]

end Environment

/-! ## Statements -/

open Environment

private theorem Eval.respects_assign (names : List String) (name : String) (v : Value)
    (line : Nat) : Respects (Extends names) (assign name v line) := by
  intro env
  rw [assign]
  rcases h : env.assign? name v with _ | env'
  · exact (repeatable_extends names).refl env
  · exact (sameNames_of_assign? h).extends

theorem Exec.sameNames_inScope {α : Type} {names : List String} {body : Exec α}
    (h : Respects (OnEnv (Extends names)) body) : Respects (OnEnv SameNames) (inScope body) :=
  respects_inScope (fun _ _ ↦ sameNames_pop) h

variable [Memory]

/-- **Every statement** keeps the invariant, for the names it declares. -/
theorem Exec.pervasive_extends :
    Pervasive fun names _ x ↦ Respects (OnEnv (Extends names)) x where
  closed names := closed_respects (repeatable_extends names).onEnv
  eval names e _ := respects_lift (e.respects_eval (repeatable_extends names) fun name _ ↦
    Eval.respects_assign names name)
  assign names name v line _ := respects_lift (Eval.respects_assign names name v line)
  define h v _ := fun m ↦ extends_define h v m.env
  write names v terminator line := respects_write (repeatable_extends names) v terminator line
  takeLine names line := respects_takeLine (repeatable_extends names) line
  badNumber names _ _ := .throw (repeatable_extends names).onEnv _
  badCount names _ := .throw (repeatable_extends names).onEnv _
  inScope _ _ _ h := (sameNames_inScope h).mono fun _ _ h ↦ h.extends

/-! ## Sources -/

/-- The machine after some sources have been run one after the other, each with its own bound on
iterations. A source that fails does not keep the next one from running. -/
def afterRuns (runs : List (Nat × String)) (m : Machine) : Machine :=
  runs.foldl (fun m (fuel, source) ↦ stateAfter (runWithin fuel source m)) m

theorem depth_runWithin (fuel : Nat) (source : String) (m : Machine) :
    (stateAfter (runWithin fuel source m)).env.depth = m.env.depth := by
  have hR : Repeatable (OnEnv fun env env' ↦ env'.depth = env.depth) :=
    ⟨fun _ ↦ rfl, fun h h' ↦ h'.trans h⟩
  refine respects_runWithin hR (fun s ↦ ?_) source m
  exact (s.exec_of_pervasive Exec.pervasive_extends fuel fun _ hx ↦ hx).mono fun _ _ h ↦ h.depth

private theorem depth_afterRuns (runs : List (Nat × String)) (m : Machine) :
    (afterRuns runs m).env.depth = m.env.depth := by
  induction runs generalizing m with
  | nil => rfl
  | cons run runs ih =>
    rw [afterRuns, List.foldl_cons, ← afterRuns, ih]
    exact depth_runWithin run.1 run.2 m

/-- **Scopes are restored** on every way out: of a statement, of a block, and of any number of
sources, whether they run to their ends or not. -/
theorem scopes_restored :
    (∀ (fuel : Nat) (s : Stmt) (m : Machine),
      Extends s.declares m.env (stateAfter (s.exec fuel m)).env) ∧
    (∀ (fuel : Nat) (body : List Stmt) (m : Machine),
      SameNames m.env (stateAfter (Exec.inScope (Stmt.execAll fuel body) m)).env) ∧
    ∀ (runs : List (Nat × String)) (input : List UInt8) (output : Output),
      (afterRuns runs ⟨.initial, input, output⟩).env.depth = 1 ∧
      (afterRuns runs ⟨.initial, input, output⟩).env.isGlobal = true := by
  refine ⟨fun fuel s m ↦ ?_, fun fuel body m ↦ ?_, fun runs input output ↦ ?_⟩
  · exact s.exec_of_pervasive Exec.pervasive_extends fuel (fun _ hx ↦ hx) m
  · have hbody := Stmt.execAll_of_pervasive Exec.pervasive_extends fuel body
    exact Exec.sameNames_inScope hbody m
  · have hdepth := depth_afterRuns runs ⟨.initial, input, output⟩
    exact ⟨hdepth, beq_iff_eq.mpr hdepth⟩

end BlockScript
