import BlockScript.Proofs.Environment
import BlockScript.Proofs.Machine.Beside

/-!
# Names that a program does not mention

A variable whose name does not occur in a program has no influence on it. Two machines may differ
in all values of that name, on every level, and in which levels bind it at all. The program does
the same on both, and leaves the variable alone on each.

The first half is about two runs and the second about one. In both, what has to be looked at is
what a single operation on the environment does to one level, since resolving a name asks every
level about this name and no other (`SameBut.level?`). Everything else passes through execution as
it stands.
-/

namespace BlockScript

namespace Environment

variable {env env' : Environment} {x name : String} {v : Value} {level : Nat}

/-! ## Environments that differ in one name -/

/-- Two environments give the same values to all names but one. -/
structure SameBut (x : String) (env env' : Environment) : Prop where
  /-- They have as many scopes. -/
  depth : env.depth = env'.depth
  /-- Each level gives the same value to every other name, or binds it in neither. -/
  valueAt {name : String} (level : Nat) :
    name ≠ x → env.valueAt level name = env'.valueAt level name

/-- Each level gives a name the value that it gave to it before, or still does not bind it. -/
structure Keeps (x : String) (env env' : Environment) : Prop where
  depth : env'.depth = env.depth
  /-- Each level gives the name the same value. -/
  valueAt (level : Nat) : env'.valueAt level x = env.valueAt level x

namespace SameBut

theorem level? (h : SameBut x env env') (hname : name ≠ x) :
    env.level? name = env'.level? name := by
  refine Option.ext fun level ↦ ?_
  simp only [level?_eq_some_iff, bindsAt, h.valueAt _ hname]

theorem get? (h : SameBut x env env') (hname : name ≠ x) : env.get? name = env'.get? name := by
  rw [get?_eq_bind, get?_eq_bind, h.level? hname]
  exact Option.bind_congr fun level _ ↦ h.valueAt level hname

theorem setAt (h : SameBut x env env') (hlevel : level < env.depth) :
    SameBut x (env.setAt level name v) (env'.setAt level name v) := by
  refine ⟨by rw [depth_setAt, depth_setAt, h.depth], fun l hname ↦ ?_⟩
  rw [valueAt_setAt hlevel, valueAt_setAt (h.depth ▸ hlevel), h.valueAt l hname]

theorem define (h : SameBut x env env') : SameBut x (env.define name v) (env'.define name v) := by
  have hpos := env.nonempty
  rw [define_eq_setAt, define_eq_setAt, ← h.depth]
  exact h.setAt (by omega)

private theorem of_define (v : Value) (env : Environment) : SameBut x env (env.define x v) := by
  have hpos := env.nonempty
  rw [define_eq_setAt]
  refine ⟨depth_setAt.symm, fun level hname ↦ ?_⟩
  rw [valueAt_setAt (by omega), if_neg fun h ↦ hname h.2]

theorem push (h : SameBut x env env') : SameBut x env.push env'.push := by
  refine ⟨by rw [depth_push, depth_push, h.depth], fun level hname ↦ ?_⟩
  rw [valueAt_push, valueAt_push, h.valueAt level hname]

theorem pop (h : SameBut x env env') : SameBut x env.pop env'.pop := by
  have heq := h.depth
  have hpos := env.nonempty
  by_cases hglobal : env.depth = 1
  · rw [pop_of_depth_eq_one hglobal, pop_of_depth_eq_one (heq ▸ hglobal)]
    exact h
  have hdepth : 1 < env.depth := by omega
  have hdepth' : 1 < env'.depth := by omega
  refine ⟨by rw [depth_pop hdepth, depth_pop hdepth', heq], fun level hname ↦ ?_⟩
  by_cases hlevel : level < env.depth - 1
  · rw [valueAt_pop hdepth hlevel, valueAt_pop hdepth' (by omega), h.valueAt level hname]
  · rw [valueAt_eq_none_of_le (by rw [depth_pop hdepth]; omega),
      valueAt_eq_none_of_le (by rw [depth_pop hdepth']; omega)]

end SameBut

/-! ## Names that are left alone -/

private theorem repeatable_keeps (x : String) : Repeatable (Keeps x) :=
  ⟨fun _ ↦ ⟨rfl, fun _ ↦ rfl⟩, fun h h' ↦
    ⟨h'.depth.trans h.depth, fun level ↦ (h'.valueAt level).trans (h.valueAt level)⟩⟩

private theorem keeps_setAt (hname : name ≠ x) (hlevel : level < env.depth) :
    Keeps x env (env.setAt level name v) :=
  ⟨depth_setAt, fun l ↦ by rw [valueAt_setAt hlevel, if_neg fun h ↦ hname h.2.symm]⟩

private theorem keeps_define (hname : name ≠ x) (v : Value) (env : Environment) :
    Keeps x env (env.define name v) := by
  have hpos := env.nonempty
  rw [define_eq_setAt]
  exact keeps_setAt hname (by omega)

private theorem keeps_pop (h : Keeps x env.push env') : Keeps x env env'.pop := by
  have hpos := env.nonempty
  have hdepth := h.depth
  rw [depth_push] at hdepth
  have hpop : env'.pop.depth = env'.depth - 1 := depth_pop (by omega)
  refine ⟨by omega, fun level ↦ ?_⟩
  by_cases hlevel : level < env.depth
  · rw [valueAt_pop (by omega) (by omega), h.valueAt level, valueAt_push]
  · rw [valueAt_eq_none_of_le (by omega), valueAt_eq_none_of_le (by omega)]

end Environment

open Environment

/-- Two machines with the same input and output, on which the same values are given to all names but
one. -/
structure Machine.SameBut (x : String) (m m' : Machine) : Prop where
  /-- Variables differ in one name at most. -/
  env : m.env.SameBut x m'.env
  input : m.input = m'.input
  output : m.output = m'.output

variable {x : String}

private theorem Machine.beside_sameBut (x : String) :
    Machine.Beside (Environment.SameBut x) = Machine.SameBut x :=
  funext₂ fun _ _ ↦ propext
    ⟨fun h ↦ ⟨h.env, h.input, h.output⟩, fun h ↦ ⟨h.env, h.input, h.output⟩⟩

/-! ## Evaluation -/

namespace Eval

private theorem insensitive_lookup {name : String} (hname : name ≠ x) (line : Nat) :
    Insensitive (SameBut x) (lookup name line) := by
  intro env env' h
  rw [lookup, lookup, h.get? hname]
  rcases env'.get? name with _ | v
  · exact .error rfl h
  · exact .ok rfl h

private theorem insensitive_assign {name : String} (hname : name ≠ x) (v : Value) (line : Nat) :
    Insensitive (SameBut x) (assign name v line) := by
  intro env env' h
  rw [assign, assign, assign?_eq_map, assign?_eq_map, ← h.level? hname]
  rcases hlevel : env.level? name with _ | level
  · exact .error rfl h
  · exact .ok rfl (h.setAt (lt_depth_of_level? hlevel))

private theorem keeps_assign {name : String} (hname : name ≠ x) (v : Value) (line : Nat) :
    Respects (Keeps x) (assign name v line) := by
  intro env
  rw [assign, assign?_eq_map]
  rcases hlevel : env.level? name with _ | level
  · exact (repeatable_keeps x).refl env
  · exact keeps_setAt hname (lt_depth_of_level? hlevel)

end Eval

/-! ## Execution -/

namespace Exec

/-- **Two runs.** What does not mention a name does the same whatever its values are. -/
theorem guarded_insensitive [Memory] (x : String) :
    Guarded (· ≠ x) fun _ _ c ↦ Insensitive (Machine.SameBut x) c := by
  rw [← Machine.beside_sameBut]
  exact {
    closed := fun _ ↦ closed_insensitive
    eval := fun _ e h ↦ insensitive_lift <| e.insensitive_eval
      (fun name hname ↦ Eval.insensitive_lookup (h name hname))
      fun name hname ↦ Eval.insensitive_assign (h name (e.targets_subset_names hname))
    assign := fun _ _ v line h ↦ insensitive_lift (Eval.insensitive_assign h v line)
    define := fun _ _ _ ↦ insensitive_define fun _ _ h ↦ h.define
    write := fun _ v terminator line ↦ insensitive_write v terminator line
    takeLine := fun _ line ↦ insensitive_takeLine line
    badNumber := fun _ _ _ ↦ .throw _
    badCount := fun _ _ ↦ .throw _
    inScope := fun _ _ _ h ↦ insensitive_inScope (fun _ _ h ↦ h.push) (fun _ _ h ↦ h.pop) h }

/-- **One run.** What neither assigns to a name nor declares it leaves it alone on every level. -/
theorem guardedBy_targets_keeps [Memory] (x : String) :
    GuardedBy Expr.targets (· ≠ x) fun _ _ c ↦ Respects (OnEnv (Keeps x)) c where
  closed _ := closed_respects (repeatable_keeps x).onEnv
  eval _ e h := respects_lift (e.respects_eval (repeatable_keeps x) fun name hname ↦
    Eval.keeps_assign (h name hname))
  assign _ _ v line h := respects_lift (Eval.keeps_assign h v line)
  define _ v hok := fun m ↦ keeps_define hok v m.env
  write _ v terminator line := respects_write (repeatable_keeps x) v terminator line
  takeLine _ line := respects_takeLine (repeatable_keeps x) line
  badNumber _ _ _ := .throw (repeatable_keeps x).onEnv _
  badCount _ _ := .throw (repeatable_keeps x).onEnv _
  inScope _ _ _ h := respects_inScope (fun _ _ ↦ keeps_pop) h

private theorem guarded_keeps [Memory] (x : String) :
    Guarded (· ≠ x) fun _ _ c ↦ Respects (OnEnv (Keeps x)) c :=
  (guardedBy_targets_keeps x).mono Expr.targets_subset_names

end Exec

/-! ## Statements and programs -/

/-- What two runs have in common that began on machines which differ in one name. -/
structure SameRun (x : String) (m₁ m₂ : Machine) {α : Type}
    (r₁ r₂ : EStateM.Result Stop Machine α) : Prop where
  /-- They end with the same result or with the same error, on machines that differ in that name
  only: with the same input left and the same output. -/
  agree : Agree Eq Eq (Machine.SameBut x) (Machine.SameBut x) r₁ r₂
  /-- The first still has its own values of the name. -/
  keeps₁ : Keeps x m₁.env (stateAfter r₁).env
  /-- So has the second. -/
  keeps₂ : Keeps x m₂.env (stateAfter r₂).env

private theorem sameRun_of_insensitive {m₁ m₂ : Machine} (hm : Machine.SameBut x m₁ m₂) {α : Type}
    {c : Exec α} (hsame : Insensitive (Machine.SameBut x) c)
    (hkeeps : Respects (OnEnv (Keeps x)) c) : SameRun x m₁ m₂ (c m₁) (c m₂) :=
  ⟨hsame hm, hkeeps m₁, hkeeps m₂⟩

/-- **A name that is not mentioned has no influence.** On two machines that differ in one name only,
whatever mentions this name nowhere runs in the same way, and each machine keeps its own values of
the name: every program, whether or not it passes the search for stray jumps, and every statement
by itself, whichever way it finishes. -/
theorem runs_alike_of_unmentioned [Memory] {m₁ m₂ : Machine} (hm : Machine.SameBut x m₁ m₂) :
    (∀ program : Program, x ∉ Stmt.namesAmong program → ∀ fuel,
      SameRun x m₁ m₂ (program.runWithin fuel m₁) (program.runWithin fuel m₂)) ∧
    ∀ s : Stmt, x ∉ s.names → ∀ fuel, SameRun x m₁ m₂ (s.exec fuel m₁) (s.exec fuel m₂) := by
  have hok {names : List String} (hx : x ∉ names) : ∀ name ∈ names, name ≠ x := by
    rintro name hname rfl
    exact hx hname
  have hsame (s : Stmt) (hs : x ∉ s.names) (fuel : Nat) :
      Insensitive (Machine.SameBut x) (s.exec fuel) :=
    s.exec_of_guarded (Exec.guarded_insensitive x) fuel (List.Subset.refl _) (hok hs)
  have hkeeps (s : Stmt) (hs : x ∉ s.names) (fuel : Nat) :
      Respects (OnEnv (Keeps x)) (s.exec fuel) :=
    s.exec_of_guarded (Exec.guarded_keeps x) fuel (List.Subset.refl _) (hok hs)
  refine ⟨fun program hprogram fuel ↦ ?_, fun s hs fuel ↦ ?_⟩
  · have hs (s : Stmt) (hmem : s ∈ program) : x ∉ s.names :=
      fun hx ↦ hprogram (Stmt.mem_namesAmong hmem hx)
    refine sameRun_of_insensitive hm ?_ ?_
    · exact Program.runWithin_of_closed Exec.closed_insensitive (fun _ _ ↦ .throw _)
        fun s hmem ↦ hsame s (hs s hmem) fuel
    · exact Program.runWithin_of_closed (Exec.closed_respects (repeatable_keeps x).onEnv)
        (fun _ _ ↦ .throw (repeatable_keeps x).onEnv _) fun s hmem ↦ hkeeps s (hs s hmem) fuel
  · exact sameRun_of_insensitive hm (hsame s hs fuel) (hkeeps s hs fuel)

open scoped Memory

/-- A block that reads and assigns a variable, on a machine without and on one with another
variable. -/
theorem runs_alike_of_unmentioned_block :
    Machine.SameBut "x" {} { env := .define .initial "x" .nil } ∧
    "x" ∉ Stmt.namesAmong [.declare "y" none 1,
      .block [.write (.assign "y" (.literal (.bool true) 2) 2) "\n" 2] 2] ∧
    ∀ fuel, SameRun "x" {} { env := .define .initial "x" .nil }
      (Program.runWithin fuel [.declare "y" none 1,
        .block [.write (.assign "y" (.literal (.bool true) 2) 2) "\n" 2] 2] {})
      (Program.runWithin fuel [.declare "y" none 1,
        .block [.write (.assign "y" (.literal (.bool true) 2) 2) "\n" 2] 2]
          { env := .define .initial "x" .nil }) := by
  have hm : Machine.SameBut "x" {} { env := .define .initial "x" .nil } :=
    ⟨.of_define .nil .initial, rfl, rfl⟩
  have hx : "x" ∉ Stmt.namesAmong [.declare "y" none 1,
      .block [.write (.assign "y" (.literal (.bool true) 2) 2) "\n" 2] 2] := by decide
  exact ⟨hm, hx, (runs_alike_of_unmentioned hm).1 _ hx⟩

end BlockScript
