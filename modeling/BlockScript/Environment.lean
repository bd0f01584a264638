import BlockScript.Value

/-!
# Scopes

Variables live in scopes, and scopes are nested. The open scopes are kept in an arena: an array in
which each of them has the index of the scope around it, with the index of the innermost one beside
it. A name is resolved once, by following these links outwards, and both reading and assigning then
work on the scope where it was found. There is always a global scope: leaving it has no effect.

Scopes are entered and left like a stack, so the links lead from each index to the one before it and
the innermost scope is the last (`Linked`). Nothing else keeps an index from pointing nowhere, or
the links from running in a circle, so an environment is an arena together with the proof of that.
-/

namespace BlockScript

/-! ## One scope -/

/-- The variables of one scope in the order of their declaration, each with its value. -/
structure Scope where
  entries : List (String × Value)
deriving DecidableEq

namespace Scope

def empty : Scope := ⟨[]⟩

def get? (s : Scope) (name : String) : Option Value := s.entries.lookup name

def binds (s : Scope) (name : String) : Bool := (s.get? name).isSome

/-- Gives a name a value where it stands, or adds it behind all others. -/
def setEntry (name : String) (value : Value) : List (String × Value) → List (String × Value)
  | [] => [(name, value)]
  | (n, v) :: rest =>
    if n = name then (n, value) :: rest else (n, v) :: setEntry name value rest

def set (s : Scope) (name : String) (value : Value) : Scope := ⟨setEntry name value s.entries⟩

end Scope

/-! ## The arena -/

/-- An open scope and what it is nested in. -/
structure Frame where
  scope : Scope
  /-- The index of the scope around it; the global scope has none. -/
  parent : Option Nat
deriving DecidableEq

structure Arena where
  frames : Array Frame
  current : Nat

namespace Arena

def initial : Arena := ⟨#[⟨.empty, none⟩], 0⟩

def depth (arena : Arena) : Nat := arena.frames.size

def push (arena : Arena) : Arena where
  frames := arena.frames.push ⟨.empty, some arena.current⟩
  current := arena.frames.size

/-- Leaves the innermost scope for the one around it, unless it is the global one. -/
def pop (arena : Arena) : Arena :=
  if arena.current = 0 then arena
  else match arena.frames.back? with
    | some frame => ⟨arena.frames.pop, frame.parent.getD 0⟩
    | none => arena

def setAt (arena : Arena) (index : Nat) (name : String) (value : Value) : Arena :=
  { arena with
    frames := arena.frames.modify index fun f ↦ { f with scope := f.scope.set name value } }

def define (arena : Arena) (name : String) (value : Value) : Arena :=
  arena.setAt arena.current name value

/-- The index of the first scope that binds a name, from a given one outwards and among at most
`steps` of them. -/
def resolveWithin (arena : Arena) (name : String) : Nat → Option Nat → Option Nat
  | 0, _ => none
  | _, none => none
  | steps + 1, some index =>
    match arena.frames[index]? with
    | none => none
    | some frame =>
      if frame.scope.binds name then some index else resolveWithin arena name steps frame.parent

/-- The index of the innermost scope that binds a name. -/
def resolve? (arena : Arena) (name : String) : Option Nat :=
  arena.resolveWithin name arena.depth (some arena.current)

def get? (arena : Arena) (name : String) : Option Value :=
  (arena.resolve? name).bind fun index ↦ arena.frames[index]?.bind (·.scope.get? name)

/-- Gives a name a value in the innermost scope that binds it, if there is one. -/
def assign? (arena : Arena) (name : String) (value : Value) : Option Arena :=
  (arena.resolve? name).map fun index ↦ arena.setAt index name value

/-! ### Links -/

def before : Nat → Option Nat
  | 0 => none
  | index + 1 => some index

/-- Scopes are nested in the order of their indices. -/
structure Linked (arena : Arena) : Prop where
  current : arena.current + 1 = arena.depth
  /-- The first scope is in no other, and each other one is in the one before it. -/
  parent {index : Nat} {frame : Frame} :
    arena.frames[index]? = some frame → frame.parent = before index

theorem linked_initial : initial.Linked := by
  refine ⟨rfl, fun {index frame} h ↦ ?_⟩
  obtain _ | index := index
  · cases h
    rfl
  · cases h

namespace Linked

variable {arena : Arena}

theorem push (h : arena.Linked) : arena.push.Linked := by
  refine ⟨Array.size_push _ |>.symm, fun {index frame} hframe ↦ ?_⟩
  rw [Arena.push, Array.getElem?_push] at hframe
  split at hframe
  · next hindex =>
    cases hframe
    rw [hindex, ← depth, ← h.current]
    rfl
  · exact h.parent hframe

theorem pop (h : arena.Linked) : arena.pop.Linked := by
  rw [Arena.pop]
  split
  · exact h
  · next hcurrent =>
    split
    · next frame hback =>
      rw [Array.back?_eq_getElem?] at hback
      have hsize := h.current
      rw [depth] at hsize
      -- the scope that is left is the last one, and the one around it comes before it
      obtain ⟨index, hindex⟩ : ∃ index, arena.frames.size - 1 = index + 1 :=
        ⟨arena.current - 1, by omega⟩
      rw [h.parent hback, hindex]
      refine ⟨?_, fun {index' frame'} hframe ↦ ?_⟩
      · rw [depth, Array.size_pop, hindex]
        rfl
      · rw [Array.getElem?_pop] at hframe
        split at hframe
        · exact h.parent hframe
        · cases hframe
    · exact h

theorem setAt (h : arena.Linked) (index : Nat) (name : String) (value : Value) :
    (arena.setAt index name value).Linked := by
  refine ⟨h.current.trans Array.size_modify.symm, fun {index' frame} hframe ↦ ?_⟩
  rw [Arena.setAt, Array.getElem?_modify] at hframe
  split at hframe
  · obtain ⟨old, hold, rfl⟩ := Option.map_eq_some_iff.mp hframe
    exact (h.parent hold : old.parent = before index')
  · exact h.parent hframe

theorem assign? (h : arena.Linked) {name : String} {value : Value} {arena' : Arena}
    (hassign : arena.assign? name value = some arena') : arena'.Linked := by
  obtain ⟨index, -, rfl⟩ := Option.map_eq_some_iff.mp hassign
  exact h.setAt index name value

end Linked

end Arena

/-! ## Nested scopes -/

/-- Nested scopes by level, from the global to the innermost one. -/
structure Environment extends Arena where
  linked : toArena.Linked

namespace Environment

def initial : Environment := ⟨.initial, Arena.linked_initial⟩

instance : Inhabited Environment := ⟨initial⟩

def isGlobal (env : Environment) : Bool := env.depth == 1

def push (env : Environment) : Environment := ⟨env.toArena.push, env.linked.push⟩

def pop (env : Environment) : Environment := ⟨env.toArena.pop, env.linked.pop⟩

/-- The level of the innermost scope that binds a name. -/
def level? (env : Environment) (name : String) : Option Nat := env.toArena.resolve? name

def get? (env : Environment) (name : String) : Option Value := env.toArena.get? name

def setAt (env : Environment) (level : Nat) (name : String) (value : Value) : Environment :=
  ⟨env.toArena.setAt level name value, env.linked.setAt level name value⟩

def define (env : Environment) (name : String) (value : Value) : Environment :=
  ⟨env.toArena.define name value, env.linked.setAt env.current name value⟩

def assign? (env : Environment) (name : String) (value : Value) : Option Environment :=
  (env.toArena.assign? name value).pmap Environment.mk fun _ h ↦ env.linked.assign? h

end Environment

end BlockScript
