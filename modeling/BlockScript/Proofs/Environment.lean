import BlockScript.Environment
import Mathlib.Data.Nat.Find

/-!
# The environment, level by level

An environment is known by its depth and by the value that each level gives to each name. Every
operation is described through that view, so that nothing has to look at the arena again: entering a
scope changes no value at all, leaving one forgets the values of its level, and giving a name a
value changes the view at one level and one name. Links do not show in the view, since they lead
from each level to the one below it.
-/

namespace BlockScript

namespace Scope

theorem lookup_entry (x n : String) (w : Value) (entries : List (String × Value)) :
    ((n, w) :: entries).lookup x = if x = n then some w else entries.lookup x := by
  by_cases hx : x = n
  · rw [if_pos hx, hx, List.lookup_cons_self]
  · rw [if_neg hx, List.lookup_cons, beq_false_of_ne hx]

private theorem get?_set (s : Scope) (name x : String) (v : Value) :
    (s.set name v).get? x = if x = name then some v else s.get? x := by
  rcases s with ⟨entries⟩
  change (setEntry name v entries).lookup x = if x = name then some v else entries.lookup x
  induction entries with
  | nil => rw [setEntry, lookup_entry]
  | cons entry entries ih =>
    rcases entry with ⟨n, w⟩
    rw [setEntry]
    by_cases hn : n = name
    · rw [if_pos hn, lookup_entry, lookup_entry, hn]
      split <;> rfl
    · rw [if_neg hn, lookup_entry, lookup_entry, ih]
      -- an entry in front is found first, and its name is not the one that is set
      by_cases hx : x = n
      · rw [if_pos hx, if_pos hx, if_neg (hx ▸ hn)]
      · rw [if_neg hx, if_neg hx]

end Scope

namespace Environment

variable {env : Environment} {level l : Nat} {name x : String} {v : Value}

/-- The value that one level gives to a name. -/
def valueAt (env : Environment) (level : Nat) (x : String) : Option Value :=
  env.frames[level]?.bind (·.scope.get? x)

/-- Whether a level binds a name. -/
def bindsAt (env : Environment) (level : Nat) (x : String) : Bool := (env.valueAt level x).isSome

theorem current_eq (env : Environment) : env.current = env.depth - 1 := by
  have h := env.linked.current
  omega

theorem nonempty (env : Environment) : 0 < env.depth := by
  have h := env.linked.current
  omega

theorem valueAt_eq_none_of_le (h : env.depth ≤ level) : env.valueAt level x = none := by
  rw [Arena.depth] at h
  rw [valueAt, Array.getElem?_eq_none h]
  rfl

theorem bindsAt_eq_false_of_le (h : env.depth ≤ level) : env.bindsAt level x = false := by
  rw [bindsAt, valueAt_eq_none_of_le h]
  rfl

theorem lt_depth_of_bindsAt (h : env.bindsAt level x = true) : level < env.depth := by
  by_cases hlevel : level < env.depth
  · exact hlevel
  · rw [bindsAt_eq_false_of_le (Nat.not_lt.mp hlevel)] at h
    exact absurd h Bool.false_ne_true

/-! ## The operations -/

@[simp] theorem depth_push : env.push.depth = env.depth + 1 := Array.size_push _

@[simp] theorem depth_setAt : (env.setAt level name v).depth = env.depth := Array.size_modify

theorem define_eq_setAt (env : Environment) (name : String) (v : Value) :
    env.define name v = env.setAt (env.depth - 1) name v := by
  rw [← current_eq]
  rfl

@[simp] theorem depth_define : (env.define name v).depth = env.depth := depth_setAt

/-- Leaving a scope, seen from outside: the last frame is gone. -/
theorem frames_pop (h : 1 < env.depth) : env.pop.frames = env.frames.pop := by
  have hcurrent : env.current ≠ 0 := by
    rw [current_eq]
    omega
  rw [Arena.depth] at h
  change env.toArena.pop.frames = _
  rw [Arena.pop, if_neg hcurrent, Array.back?_eq_getElem?, Array.getElem?_eq_getElem (by omega)]

theorem depth_pop (h : 1 < env.depth) : env.pop.depth = env.depth - 1 := by
  rw [Arena.depth, frames_pop h]
  exact Array.size_pop

theorem toArena_pop_of_depth_eq_one (h : env.depth = 1) : env.pop.toArena = env.toArena := by
  have hcurrent : env.current = 0 := by
    rw [current_eq, h]
  exact if_pos hcurrent

theorem pop_of_depth_eq_one (h : env.depth = 1) : env.pop = env := by
  have harena := toArena_pop_of_depth_eq_one h
  rcases hpop : env.pop with ⟨arena, linked⟩
  rw [hpop] at harena
  cases harena
  rfl

theorem valueAt_push (env : Environment) (level : Nat) (x : String) :
    env.push.valueAt level x = env.valueAt level x := by
  change (env.frames.push _)[level]?.bind _ = _
  rw [valueAt, Array.getElem?_push]
  split
  · next hlevel =>
    rw [hlevel, Array.getElem?_eq_none (Nat.le_refl _)]
    rfl
  · rfl

theorem valueAt_pop (h : 1 < env.depth) (hlevel : level < env.depth - 1) :
    env.pop.valueAt level x = env.valueAt level x := by
  rw [Arena.depth] at hlevel
  rw [valueAt, valueAt, frames_pop h, Array.getElem?_pop, if_pos hlevel]

theorem valueAt_setAt (hlevel : level < env.depth) :
    (env.setAt level name v).valueAt l x =
      if l = level ∧ x = name then some v else env.valueAt l x := by
  change (env.frames.modify level _)[l]?.bind _ = _
  rw [valueAt, Array.getElem?_modify]
  by_cases hl : level = l
  · subst hl
    rw [if_pos rfl, Array.getElem?_eq_getElem hlevel]
    simp [Scope.get?_set]
  · rw [if_neg hl, if_neg fun h ↦ hl h.1.symm]

theorem bindsAt_push (env : Environment) (level : Nat) (x : String) :
    env.push.bindsAt level x = env.bindsAt level x := by
  rw [bindsAt, valueAt_push, bindsAt]

theorem bindsAt_pop (h : 1 < env.depth) (hlevel : level < env.depth - 1) :
    env.pop.bindsAt level x = env.bindsAt level x := by
  rw [bindsAt, valueAt_pop h hlevel, bindsAt]

theorem bindsAt_setAt (hlevel : level < env.depth) :
    (env.setAt level name v).bindsAt l x = true ↔
      l = level ∧ x = name ∨ env.bindsAt l x = true := by
  rw [bindsAt, valueAt_setAt hlevel, bindsAt]
  by_cases h : l = level ∧ x = name
  · rw [if_pos h]
    exact iff_of_true rfl (.inl h)
  · rw [if_neg h, or_iff_right h]

/-! ## Resolution

The links lead from a level to the one below it, so what is looked through from there on are the
first so many levels, and the index to begin with is the one before their number. -/

/-- One step outwards. -/
theorem resolveWithin_succ (hlevel : level < env.depth) (steps : Nat) :
    env.resolveWithin x (steps + 1) (some level) =
      if env.bindsAt level x = true then some level
      else env.resolveWithin x steps (Arena.before level) := by
  have hframe := Array.getElem?_eq_getElem hlevel
  rw [Arena.resolveWithin, hframe]
  dsimp only
  rw [env.linked.parent hframe, bindsAt, valueAt, hframe]
  rfl

@[simp] theorem resolveWithin_none (steps : Nat) : env.resolveWithin x steps none = none := by
  cases steps <;> rfl

theorem resolve?_eq (env : Environment) (x : String) :
    env.resolve? x = env.resolveWithin x env.depth (Arena.before env.depth) := by
  rw [Arena.resolve?, ← env.linked.current]
  rfl

theorem resolveWithin_eq_some_iff {levels steps : Nat} (hlevels : levels ≤ env.depth)
    (hsteps : levels ≤ steps) :
    env.resolveWithin x steps (Arena.before levels) = some level ↔
      level < levels ∧ env.bindsAt level x = true ∧
        ∀ l, level < l → l < levels → env.bindsAt l x = false := by
  induction levels generalizing steps with
  | zero => simp [Arena.before]
  | succ levels ih =>
    obtain ⟨steps, rfl⟩ : ∃ k, steps = k + 1 := ⟨steps - 1, by omega⟩
    rw [Arena.before, resolveWithin_succ hlevels]
    by_cases hbinds : env.bindsAt levels x = true
    · rw [if_pos hbinds]
      constructor
      · rintro ⟨⟩
        exact ⟨Nat.lt_succ_self _, hbinds, fun l hl hl' ↦ by omega⟩
      · rintro ⟨hlt, -, habove⟩
        -- the last level binds the name, so it is not above the one that is asked for
        by_cases heq : levels = level
        · rw [heq]
        · have hfalse := habove levels (by omega) (Nat.lt_succ_self _)
          rw [hfalse] at hbinds
          exact absurd hbinds Bool.false_ne_true
    · rw [if_neg hbinds, ih (by omega) (by omega)]
      rw [Bool.not_eq_true] at hbinds
      constructor
      · rintro ⟨hlt, hlevel, habove⟩
        refine ⟨by omega, hlevel, fun l hl hl' ↦ ?_⟩
        by_cases heq : l = levels
        · rw [heq, hbinds]
        · exact habove l hl (by omega)
      · rintro ⟨hlt, hlevel, habove⟩
        refine ⟨?_, hlevel, fun l hl hl' ↦ habove l hl (by omega)⟩
        by_cases heq : level = levels
        · rw [heq, hbinds] at hlevel
          exact absurd hlevel Bool.false_ne_true
        · omega

/-- **Resolution.** A name is resolved to the innermost level that binds it. -/
theorem level?_eq_some_iff : env.level? x = some level ↔
    env.bindsAt level x = true ∧ ∀ l, level < l → env.bindsAt l x = false := by
  rw [level?, resolve?_eq, resolveWithin_eq_some_iff (Nat.le_refl _) (Nat.le_refl _)]
  constructor
  · rintro ⟨-, hlevel, habove⟩
    refine ⟨hlevel, fun l hl ↦ ?_⟩
    rw [← Bool.not_eq_true]
    intro hbinds
    rw [habove l hl (lt_depth_of_bindsAt hbinds)] at hbinds
    exact absurd hbinds Bool.false_ne_true
  · rintro ⟨hlevel, habove⟩
    exact ⟨lt_depth_of_bindsAt hlevel, hlevel, fun l hl _ ↦ habove l hl⟩

/-- A scope that has just been entered binds nothing. -/
theorem level?_push (env : Environment) (x : String) : env.push.level? x = env.level? x := by
  refine Option.ext fun level ↦ ?_
  simp only [level?_eq_some_iff, bindsAt_push]

/-- Reading works on the level where a name is found. -/
theorem get?_eq_bind (env : Environment) (x : String) :
    env.get? x = (env.level? x).bind (env.valueAt · x) := rfl

theorem assign?_eq_some_iff {env' : Environment} : env.assign? name v = some env' ↔
    ∃ level, env.level? name = some level ∧ env.setAt level name v = env' := by
  rw [assign?, Option.pmap_eq_some_iff]
  constructor
  · rintro ⟨arena, hlinked, hassign, rfl⟩
    obtain ⟨level, hlevel, rfl⟩ := Option.map_eq_some_iff.mp hassign
    exact ⟨level, hlevel, rfl⟩
  · rintro ⟨level, hlevel, rfl⟩
    exact ⟨_, _, Option.map_eq_some_iff.mpr ⟨level, hlevel, rfl⟩, rfl⟩

/-- Assigning, too, works on the level where a name is found. -/
theorem assign?_eq_map (env : Environment) (name : String) (v : Value) :
    env.assign? name v = (env.level? name).map (env.setAt · name v) := by
  refine Option.ext fun env' ↦ ?_
  rw [assign?_eq_some_iff, Option.map_eq_some_iff]

theorem lt_depth_of_level? (h : env.level? x = some level) : level < env.depth :=
  lt_depth_of_bindsAt (level?_eq_some_iff.mp h).1

theorem exists_level?_of_bindsAt (h : env.bindsAt level x = true) :
    ∃ level, env.level? x = some level := by
  -- of the levels that bind the name, the greatest is the one that is found
  have hle : level ≤ env.depth := Nat.le_of_lt (lt_depth_of_bindsAt h)
  have hfound := Nat.findGreatest_spec (P := fun l ↦ env.bindsAt l x = true) hle h
  refine ⟨_, level?_eq_some_iff.mpr ⟨hfound, fun l hl ↦ ?_⟩⟩
  by_cases hdepth : l < env.depth
  · rw [← Bool.not_eq_true]
    exact Nat.findGreatest_is_greatest hl (Nat.le_of_lt hdepth)
  · exact bindsAt_eq_false_of_le (Nat.not_lt.mp hdepth)

theorem isSome_get?_iff : (env.get? x).isSome = true ↔ ∃ level, env.bindsAt level x = true := by
  rw [get?_eq_bind]
  constructor
  · intro h
    obtain ⟨v, hv⟩ := Option.isSome_iff_exists.mp h
    obtain ⟨level, -, hlevel⟩ := Option.bind_eq_some_iff.mp hv
    exact ⟨level, by rw [bindsAt, hlevel]; rfl⟩
  · rintro ⟨level, hbinds⟩
    obtain ⟨level, hlevel⟩ := exists_level?_of_bindsAt hbinds
    rw [hlevel]
    exact (level?_eq_some_iff.mp hlevel).1

end Environment

end BlockScript
