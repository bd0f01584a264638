import BlockScript.Proofs.Environment
import Mathlib.Data.Finmap

/-!
# An arena of scopes is a stack of maps

The arena is a way of storing a stack: what it stores is a list of finite maps, the innermost scope
first. This is said of every sequence of operations from the initial arena on. The arena and the
stack give the same answers, and afterwards the stack is what the arena stores
(`arena_refines_stack`).

## What has to be known of the links

An arena resolves a name by following links, a stack by going through its maps. The two agree
because the links of an arena that has been reached lead from each index to the one before it, down
to the first. So the proofs are about environments, which are such arenas: each operation is first
compared with its counterpart on the stack there (`stack_push` and so on), and since the operations
of an environment are those of its arena, a run of the one is a run of the other.
-/

namespace BlockScript

/-! ## Stacks of maps -/

/-- The variables of one scope, with no regard to the order of their declaration. -/
abbrev Bindings := Finmap fun _ : String ↦ Value

/-- Nested scopes, the innermost one first. -/
abbrev Stack := List Bindings

namespace Stack

variable (name : String) (value : Value)

/-- Nothing but an empty global scope. -/
def initial : Stack := [∅]

/-- Enters a new scope. -/
def push (stack : Stack) : Stack := ∅ :: stack

/-- Leaves the innermost scope, unless it is the only one. -/
def pop : Stack → Stack
  | _ :: outer :: stack => outer :: stack
  | stack => stack

/-- Binds a name in the innermost scope. -/
def define : Stack → Stack
  | [] => []
  | inner :: stack => inner.insert name value :: stack

/-- The value of a name in the innermost scope that binds it. -/
def get? (stack : Stack) : Option Value := stack.findSome? (·.lookup name)

def assign? : Stack → Option Stack
  | [] => none
  | inner :: stack =>
    if name ∈ inner then some (inner.insert name value :: stack)
    else (assign? stack).map (inner :: ·)

end Stack

/-! ## Operations in sequence -/

/-- What can be done with nested scopes. -/
inductive ScopeOp where
  | push
  | pop
  | define (name : String) (value : Value)
  | assign (name : String) (value : Value)
  | get (name : String)

/-- What an operation answers. -/
inductive ScopeAnswer where
  /-- It has been carried out. -/
  | done
  /-- The name has this value. -/
  | value (v : Value)
  /-- No scope binds the name. -/
  | unbound

/-- Carries out an operation on an arena. -/
def Arena.perform (arena : Arena) : ScopeOp → ScopeAnswer × Arena
  | .push => (.done, arena.push)
  | .pop => (.done, arena.pop)
  | .define name value => (.done, arena.define name value)
  | .assign name value =>
    match arena.assign? name value with
    | some arena => (.done, arena)
    | none => (.unbound, arena)
  | .get name => ((arena.get? name).elim .unbound .value, arena)

/-- Carries out an operation on a stack. -/
def Stack.perform (stack : Stack) : ScopeOp → ScopeAnswer × Stack
  | .push => (.done, stack.push)
  | .pop => (.done, stack.pop)
  | .define name value => (.done, stack.define name value)
  | .assign name value =>
    match stack.assign? name value with
    | some stack => (.done, stack)
    | none => (.unbound, stack)
  | .get name => ((stack.get? name).elim .unbound .value, stack)

/-- Carries out operations one after the other and collects their answers. -/
def performAll {σ : Type} (perform : σ → ScopeOp → ScopeAnswer × σ) :
    σ → List ScopeOp → List ScopeAnswer × σ
  | s, [] => ([], s)
  | s, op :: ops =>
    let (answer, s) := perform s op
    let (answers, s) := performAll perform s ops
    (answer :: answers, s)

/-- The links lead from an index through these indices, which are those of scopes, and end there. -/
inductive Arena.Visits (arena : Arena) : Option Nat → List Nat → Prop where
  | done : arena.Visits none []
  | step {index : Nat} {frame : Frame} {rest : List Nat} :
    arena.frames[index]? = some frame → arena.Visits frame.parent rest →
      arena.Visits (some index) (index :: rest)

/-! ## The stack that an arena stores -/

/-- The map that a scope stores. -/
def Scope.bindings (s : Scope) : Bindings := (s.entries.map Prod.toSigma).toFinmap

/-- The map at an index; there is nothing where there is no scope. -/
def Arena.bindingsAt (arena : Arena) (index : Nat) : Bindings :=
  (arena.frames[index]?.map (·.scope.bindings)).getD ∅

/-- The maps at the first `count` indices, the last one first. -/
def Arena.stackBelow (arena : Arena) : Nat → Stack
  | 0 => []
  | count + 1 => arena.bindingsAt count :: arena.stackBelow count

/-- The stack that an arena stores. -/
def Arena.stack (arena : Arena) : Stack := arena.stackBelow arena.depth

theorem Scope.lookup_bindings (s : Scope) (x : String) : s.bindings.lookup x = s.get? x := by
  rcases s with ⟨entries⟩
  change Finmap.lookup x (entries.map Prod.toSigma).toFinmap = entries.lookup x
  rw [Finmap.dlookup_list_toFinmap]
  induction entries with
  | nil => rfl
  | cons entry entries ih =>
    rcases entry with ⟨n, w⟩
    rw [Scope.lookup_entry, List.map_cons]
    by_cases hx : x = n
    · subst hx
      rw [if_pos rfl]
      exact List.dlookup_cons_eq _ _ _
    · rw [if_neg hx, ← ih]
      exact List.dlookup_cons_ne _ _ hx

namespace Environment

variable {env env' : Environment} {level l : Nat} {name x : String} {v : Value}

theorem lookup_bindingsAt (env : Environment) (level : Nat) (x : String) :
    (env.bindingsAt level).lookup x = env.valueAt level x := by
  rw [Arena.bindingsAt, valueAt]
  rcases env.frames[level]? with _ | frame
  · rfl
  · exact frame.scope.lookup_bindings x

theorem mem_bindingsAt : x ∈ env.bindingsAt level ↔ env.bindsAt level x = true := by
  rw [← Finmap.lookup_isSome, lookup_bindingsAt, bindsAt]

theorem bindingsAt_eq_of_valueAt (h : ∀ x, env'.valueAt l x = env.valueAt level x) :
    env'.bindingsAt l = env.bindingsAt level := by
  refine Finmap.ext_lookup fun x ↦ ?_
  rw [lookup_bindingsAt, lookup_bindingsAt, h]

theorem bindingsAt_setAt (hlevel : level < env.depth) :
    (env.setAt level name v).bindingsAt l =
      if l = level then (env.bindingsAt l).insert name v else env.bindingsAt l := by
  by_cases hl : l = level
  · rw [if_pos hl]
    refine Finmap.ext_lookup fun x ↦ ?_
    rw [lookup_bindingsAt, valueAt_setAt hlevel]
    by_cases hx : x = name
    · rw [if_pos ⟨hl, hx⟩, hx, Finmap.lookup_insert]
    · rw [if_neg fun h ↦ hx h.2, Finmap.lookup_insert_of_ne _ hx, lookup_bindingsAt]
  · rw [if_neg hl]
    refine bindingsAt_eq_of_valueAt fun x ↦ ?_
    rw [valueAt_setAt hlevel, if_neg fun h ↦ hl h.1]

theorem stackBelow_congr {count : Nat}
    (h : ∀ l < count, env'.bindingsAt l = env.bindingsAt l) :
    env'.stackBelow count = env.stackBelow count := by
  induction count with
  | zero => rfl
  | succ count ih =>
    rw [Arena.stackBelow, Arena.stackBelow, h count (Nat.lt_succ_self _),
      ih fun l hl ↦ h l (Nat.lt_succ_of_lt hl)]

theorem length_stackBelow (env : Environment) (count : Nat) :
    (env.stackBelow count).length = count := by
  induction count with
  | zero => rfl
  | succ count ih => rw [Arena.stackBelow, List.length_cons, ih]

theorem length_stack (env : Environment) : env.stack.length = env.depth :=
  env.length_stackBelow env.depth

/-! ## One operation -/

theorem stack_push (env : Environment) : env.push.stack = env.stack.push := by
  have hnew : env.push.bindingsAt env.depth = ∅ := by
    have hnone : env.frames[env.depth]? = none := Array.getElem?_eq_none (Nat.le_refl _)
    refine Finmap.ext_lookup fun x ↦ ?_
    rw [lookup_bindingsAt, valueAt_push, valueAt, hnone, Finmap.lookup_empty]
    rfl
  have hold : env.push.stackBelow env.depth = env.stack :=
    stackBelow_congr fun l _ ↦ bindingsAt_eq_of_valueAt (env.valueAt_push l)
  rw [Arena.stack, depth_push, Arena.stackBelow, hnew, hold]
  rfl

theorem stack_pop (env : Environment) : env.pop.stack = env.stack.pop := by
  have hpos := env.nonempty
  by_cases hglobal : env.depth = 1
  · have hstack : env.stack = [env.bindingsAt 0] := by
      rw [Arena.stack, hglobal]
      rfl
    rw [toArena_pop_of_depth_eq_one hglobal, hstack]
    rfl
  · have hdepth : 1 < env.depth := by omega
    -- two scopes at least: the one that is left, and the one that is innermost then
    obtain ⟨d, hd⟩ : ∃ d, env.depth = d + 1 + 1 := ⟨env.depth - 2, by omega⟩
    have hold : env.pop.stackBelow (d + 1) = env.stackBelow (d + 1) :=
      stackBelow_congr fun l hl ↦ bindingsAt_eq_of_valueAt fun x ↦ valueAt_pop hdepth (by omega)
    have hpop : env.pop.depth = d + 1 := by
      rw [depth_pop hdepth, hd]
      rfl
    rw [Arena.stack, hpop, hold, Arena.stack, hd]
    rfl

theorem stack_define (env : Environment) (name : String) (v : Value) :
    (env.define name v).stack = env.stack.define name v := by
  have hpos := env.nonempty
  obtain ⟨d, hd⟩ : ∃ d, env.depth = d + 1 := ⟨env.depth - 1, by omega⟩
  have hlevel : d < env.depth := by omega
  have hdefine : env.define name v = env.setAt d name v := by
    rw [define_eq_setAt, hd]
    rfl
  have hbelow : (env.setAt d name v).stackBelow d = env.stackBelow d :=
    stackBelow_congr fun l hl ↦ by rw [bindingsAt_setAt hlevel, if_neg (by omega)]
  rw [hdefine, Arena.stack, depth_setAt, Arena.stack, hd, Arena.stackBelow, Arena.stackBelow,
    bindingsAt_setAt hlevel, if_pos rfl, hbelow]
  rfl

/-- Looking through the first levels of an environment is looking through their maps. -/
theorem get?_stackBelow {levels steps : Nat} (hlevels : levels ≤ env.depth)
    (hsteps : levels ≤ steps) :
    (env.resolveWithin x steps (Arena.before levels)).bind (env.valueAt · x) =
      Stack.get? x (env.stackBelow levels) := by
  induction levels generalizing steps with
  | zero =>
    rw [Arena.before, resolveWithin_none]
    rfl
  | succ levels ih =>
    obtain ⟨steps, rfl⟩ : ∃ k, steps = k + 1 := ⟨steps - 1, by omega⟩
    rw [Arena.before, resolveWithin_succ hlevels, Arena.stackBelow, Stack.get?, List.findSome?_cons,
      lookup_bindingsAt, ← Stack.get?, bindsAt]
    rcases hvalue : env.valueAt levels x with _ | v
    · exact ih (by omega) (by omega)
    · exact hvalue

theorem get?_stack (env : Environment) (x : String) : env.get? x = Stack.get? x env.stack := by
  rw [get?, Arena.get?, resolve?_eq]
  exact get?_stackBelow (Nat.le_refl _) (Nat.le_refl _)

/-- Assigning on the level where a name is found is assigning in the first map that binds it. -/
theorem assign?_stackBelow {levels steps : Nat} (hlevels : levels ≤ env.depth)
    (hsteps : levels ≤ steps) :
    (env.resolveWithin x steps (Arena.before levels)).map
        (fun level ↦ (env.setAt level x v).stackBelow levels) =
      Stack.assign? x v (env.stackBelow levels) := by
  induction levels generalizing steps with
  | zero =>
    rw [Arena.before, resolveWithin_none]
    rfl
  | succ levels ih =>
    obtain ⟨steps, rfl⟩ : ∃ k, steps = k + 1 := ⟨steps - 1, by omega⟩
    have hinner : levels ≤ env.depth := by omega
    have hsteps' : levels ≤ steps := by omega
    have hfound {level : Nat} (h : env.resolveWithin x steps (Arena.before levels) = some level) :
        level < levels :=
      ((resolveWithin_eq_some_iff hinner hsteps').mp h).1
    rw [Arena.before, resolveWithin_succ hlevels, Arena.stackBelow, Stack.assign?]
    by_cases hbinds : env.bindsAt levels x = true
    · have hbelow : (env.setAt levels x v).stackBelow levels = env.stackBelow levels :=
        stackBelow_congr fun l hl ↦ by rw [bindingsAt_setAt hlevels, if_neg (by omega)]
      rw [if_pos hbinds, if_pos (mem_bindingsAt.mpr hbinds), Option.map_some, Arena.stackBelow,
        bindingsAt_setAt hlevels, if_pos rfl, hbelow]
    · rw [if_neg hbinds, if_neg fun h ↦ hbinds (mem_bindingsAt.mp h), ← ih hinner hsteps',
        Option.map_map]
      -- a level that is found further out leaves this one alone
      refine Option.map_congr fun level hlevel ↦ ?_
      have hlt := hfound hlevel
      have hdepth : level < env.depth := by omega
      rw [Function.comp_apply, Arena.stackBelow, bindingsAt_setAt hdepth, if_neg (by omega)]

theorem assign?_stack (env : Environment) (x : String) (v : Value) :
    (env.assign? x v).map (·.stack) = Stack.assign? x v env.stack := by
  rw [Arena.stack, ← assign?_stackBelow (Nat.le_refl _) (Nat.le_refl _), ← resolve?_eq]
  rcases hlevel : env.resolve? x with _ | level
  · have hnone : env.assign? x v = none := by
      rw [Option.eq_none_iff_forall_ne_some]
      intro env' h
      obtain ⟨level, hsome, -⟩ := assign?_eq_some_iff.mp h
      rw [level?, hlevel] at hsome
      cases hsome
    rw [hnone]
    rfl
  · have hsome : env.assign? x v = some (env.setAt level x v) :=
      assign?_eq_some_iff.mpr ⟨level, hlevel, rfl⟩
    rw [hsome, Option.map_some, Option.map_some, Arena.stack, depth_setAt]

/-- **One operation.** On an environment, an operation answers what it answers on the stack, and
what it leaves is an environment again, with the stack that it leaves there. -/
theorem perform_refines (env : Environment) (op : ScopeOp) :
    ∃ env' : Environment, env.toArena.perform op = ((env.stack.perform op).1, env'.toArena) ∧
      env'.stack = (env.stack.perform op).2 := by
  cases op with
  | push => exact ⟨env.push, rfl, env.stack_push⟩
  | pop => exact ⟨env.pop, rfl, env.stack_pop⟩
  | define name v => exact ⟨env.define name v, rfl, env.stack_define name v⟩
  | get name =>
    refine ⟨env, ?_, rfl⟩
    rw [Stack.perform, ← get?_stack]
    rfl
  | assign name v =>
    have hstack := env.assign?_stack name v
    have harena : (env.assign? name v).map (·.toArena) = env.toArena.assign? name v := by
      rw [assign?, Option.map_pmap, Option.pmap_eq_map]
      exact Option.map_id'
    rw [Stack.perform, ← hstack, Arena.perform, ← harena]
    rcases env.assign? name v with _ | env'
    · exact ⟨env, rfl, rfl⟩
    · exact ⟨env', rfl, rfl⟩

/-! ## Many operations -/

theorem performAll_refines (env : Environment) (ops : List ScopeOp) :
    ∃ env' : Environment,
      performAll Arena.perform env.toArena ops =
        ((performAll Stack.perform env.stack ops).1, env'.toArena) ∧
      env'.stack = (performAll Stack.perform env.stack ops).2 := by
  induction ops generalizing env with
  | nil => exact ⟨env, rfl, rfl⟩
  | cons op ops ih =>
    obtain ⟨next, hstep, hnext⟩ := env.perform_refines op
    obtain ⟨last, hrest, hlast⟩ := ih next
    rw [hnext] at hrest hlast
    refine ⟨last, ?_, hlast⟩
    simp only [performAll, hstep, hrest]

/-- The links lead through the first levels of an environment, down to the global one. -/
theorem visits_before {count : Nat} (h : count ≤ env.depth) :
    env.Visits (Arena.before count) (List.range count).reverse := by
  induction count with
  | zero => exact .done
  | succ count ih =>
    have hframe := Array.getElem?_eq_getElem h
    rw [List.range_succ, List.reverse_append]
    refine .step hframe ?_
    rw [env.linked.parent hframe]
    exact ih (by omega)

/-- More steps than there are levels make no difference. -/
theorem resolveWithin_of_depth_le {steps : Nat} (h : env.depth ≤ steps) (x : String) :
    env.resolveWithin x steps (some env.current) = env.resolve? x := by
  have hcurrent : some env.current = Arena.before env.depth := by
    rw [← env.linked.current]
    rfl
  rw [resolve?_eq, hcurrent]
  refine Option.ext fun level ↦ ?_
  rw [resolveWithin_eq_some_iff (Nat.le_refl _) h,
    resolveWithin_eq_some_iff (Nat.le_refl _) (Nat.le_refl _)]

end Environment

/-- **Arenas are stacks.** Whatever operations are carried out from the initial arena on, they
answer what they answer on a stack of maps, and the arena stores the stack that they leave. Its
innermost scope is then the last one, and the links lead from there through all indices down to the
global scope, where they end: every index on the way is that of a scope, and a resolution that may
take as many steps as there are scopes is never cut short. -/
theorem arena_refines_stack (ops : List ScopeOp) :
    let (answers, arena) := performAll Arena.perform .initial ops
    let (answers', stack) := performAll Stack.perform .initial ops
    (answers = answers' ∧ arena.stack = stack ∧ arena.depth = stack.length ∧ stack ≠ []) ∧
    arena.current + 1 = arena.depth ∧
    (∀ index frame, arena.frames[index]? = some frame → frame.parent = Arena.before index) ∧
    arena.Visits (some arena.current) (List.range arena.depth).reverse ∧
    ∀ x steps, arena.depth ≤ steps →
      arena.resolveWithin x steps (some arena.current) = arena.resolve? x := by
  have hinitial : Environment.initial.stack = Stack.initial := by
    refine congrArg (· :: []) (Finmap.ext_lookup fun x ↦ ?_)
    rw [Finmap.lookup_empty, Environment.lookup_bindingsAt]
    rfl
  obtain ⟨env, harena, hstack⟩ := Environment.initial.performAll_refines ops
  rw [hinitial] at harena hstack
  change performAll Arena.perform .initial ops = _ at harena
  rw [harena]
  have hlength := env.length_stack
  have hpos := env.nonempty
  have hvisits := env.visits_before (Nat.le_refl env.depth)
  rw [← env.linked.current] at hvisits
  rw [hstack] at hlength
  dsimp only
  refine ⟨⟨rfl, hstack, hlength.symm, ?_⟩, env.linked.current, fun _ _ h ↦ env.linked.parent h,
    ?_, fun x _ h ↦ env.resolveWithin_of_depth_le h x⟩
  · rw [← List.length_pos_iff, hlength]
    exact hpos
  · rw [← env.linked.current]
    exact hvisits

end BlockScript
