import BlockScript.Proofs.Environment

/-!
# A scope without variables

No name is resolved to a scope without variables, so one more of them among the open scopes changes
neither what a name stands for nor what an assignment does. Only the levels further in are one
higher than they were (`past`).

Two environments of which one has such a spare scope stay related in that way through everything
that happens to both of them (`Spare`), as long as the spare scope is not the innermost one, which a
declaration would bind its name in. While it is the innermost one, the environment is what entering
a scope makes of the other one (`Spare.eq_push`). So the relation holds when a spare scope has been
entered, and gives back the same environments, not only the same values, when it is left.
-/

namespace BlockScript

namespace Environment

variable {env env' : Environment} {k d level l : Nat} {name x : String} {v : Value}

/-! ## The scopes by level -/

/-- The scope on a level. -/
def scopeAt (env : Environment) (level : Nat) : Option Scope := env.frames[level]?.map (·.scope)

private theorem valueAt_eq_bind (env : Environment) (level : Nat) (x : String) :
    env.valueAt level x = (env.scopeAt level).bind (·.get? x) := by
  rw [valueAt, scopeAt, Option.bind_map]
  rfl

private theorem scopeAt_eq_none_iff : env.scopeAt level = none ↔ env.depth ≤ level := by
  rw [scopeAt, Option.map_eq_none_iff, Array.getElem?_eq_none_iff, Arena.depth]

private theorem scopeAt_push (env : Environment) (level : Nat) :
    env.push.scopeAt level = if level = env.depth then some .empty else env.scopeAt level := by
  change (env.frames.push _)[level]?.map _ = _
  rw [Array.getElem?_push, Arena.depth]
  split
  · rfl
  · rfl

private theorem scopeAt_pop (h : 1 < env.depth) (level : Nat) :
    env.pop.scopeAt level = if level < env.depth - 1 then env.scopeAt level else none := by
  rw [scopeAt, frames_pop h, Array.getElem?_pop, Arena.depth]
  split
  · rfl
  · rfl

private theorem scopeAt_setAt (env : Environment) (level l : Nat) (name : String) (v : Value) :
    (env.setAt level name v).scopeAt l =
      if level = l then (env.scopeAt l).map (·.set name v) else env.scopeAt l := by
  change (env.frames.modify level _)[l]?.map _ = _
  rw [Array.getElem?_modify]
  split
  · rw [Option.map_map, scopeAt, Option.map_map]
    rfl
  · rfl

/-- An environment is known by its scopes. -/
theorem eq_of_scopeAt (h : ∀ level, env'.scopeAt level = env.scopeAt level) : env' = env := by
  have hframes : env'.frames = env.frames := by
    refine Array.ext_getElem? fun level ↦ ?_
    have hlevel := h level
    rw [scopeAt, scopeAt] at hlevel
    -- the links are those that the levels have
    rcases hframe : env.frames[level]? with _ | ⟨scope, parent⟩
    · rw [hframe] at hlevel
      exact Option.map_eq_none_iff.mp hlevel
    · rw [hframe] at hlevel
      obtain ⟨⟨scope', parent'⟩, hframe', hscope⟩ := Option.map_eq_some_iff.mp hlevel
      have hparent : parent = _ := env.linked.parent hframe
      have hparent' : parent' = _ := env'.linked.parent hframe'
      rw [hframe', hparent, hparent']
      exact congrArg (fun s ↦ some (Frame.mk s _)) hscope
  have hcurrent : env'.current = env.current := by
    rw [current_eq, current_eq, Arena.depth, Arena.depth, hframes]
  obtain ⟨⟨frames, current⟩, linked⟩ := env
  obtain ⟨⟨frames', current'⟩, linked'⟩ := env'
  cases hframes
  cases hcurrent
  rfl

theorem pop_push (env : Environment) : env.push.pop = env := by
  have hpos := env.nonempty
  have hdepth : env.push.depth = env.depth + 1 := depth_push
  refine eq_of_scopeAt fun level ↦ ?_
  rw [scopeAt_pop (by omega), scopeAt_push, hdepth]
  by_cases hlevel : level < env.depth
  · rw [if_pos (by omega), if_neg (by omega)]
  · rw [if_neg (by omega), eq_comm]
    exact scopeAt_eq_none_iff.mpr (Nat.not_lt.mp hlevel)

/-! ## One scope more -/

/-- The level on which a scope is found after one has been put in on level `k`. -/
def past (k level : Nat) : Nat := if level < k then level else level + 1

private theorem past_ne (k level : Nat) : past k level ≠ k := by
  unfold past
  split <;> omega

private theorem past_lt_past_iff : past k level < past k l ↔ level < l := by
  unfold past
  split <;> split <;> omega

private theorem past_inj : past k level = past k l ↔ level = l := by
  unfold past
  split <;> split <;> omega

private theorem eq_or_exists_past (k level : Nat) : level = k ∨ ∃ l, past k l = level := by
  rcases Nat.lt_trichotomy level k with h | h | h
  · exact .inr ⟨level, if_pos h⟩
  · exact .inl h
  · refine .inr ⟨level - 1, ?_⟩
    rw [past, if_neg (by omega)]
    omega

/-- **A spare scope.** Of `d` scopes, the second environment has one more on level `k`, and there is
nothing in it. -/
structure Spare (k d : Nat) (env env' : Environment) : Prop where
  /-- So many scopes are open. -/
  depth : env.depth = d
  /-- And one more. -/
  depth_succ : env'.depth = d + 1
  /-- That one has no variables. -/
  scopeAt_self : env'.scopeAt k = some .empty
  /-- The others are the same. -/
  scopeAt_past (level : Nat) : env'.scopeAt (past k level) = env.scopeAt level

namespace Spare

theorem le (h : Spare k d env env') : k ≤ d := by
  by_contra hk
  have hnone : env'.scopeAt k = none :=
    scopeAt_eq_none_iff.mpr (by rw [h.depth_succ]; omega)
  rw [h.scopeAt_self] at hnone
  cases hnone

private theorem valueAt_self (h : Spare k d env env') (x : String) : env'.valueAt k x = none := by
  rw [valueAt_eq_bind, h.scopeAt_self]
  rfl

private theorem valueAt_past (h : Spare k d env env') (level : Nat) (x : String) :
    env'.valueAt (past k level) x = env.valueAt level x := by
  rw [valueAt_eq_bind, h.scopeAt_past, ← valueAt_eq_bind]

/-- **A name stands for what it stood for.** -/
theorem level? (h : Spare k d env env') (x : String) :
    env'.level? x = (env.level? x).map (past k) := by
  have hself : env'.bindsAt k x = false := by
    rw [bindsAt, h.valueAt_self]
    rfl
  have hpast (level : Nat) : env'.bindsAt (past k level) x = env.bindsAt level x := by
    rw [bindsAt, h.valueAt_past, bindsAt]
  refine Option.ext fun level' ↦ ?_
  rw [Option.map_eq_some_iff, level?_eq_some_iff]
  constructor
  · rintro ⟨hbinds, habove⟩
    obtain rfl | ⟨level, rfl⟩ := eq_or_exists_past k level'
    · rw [hself] at hbinds
      cases hbinds
    · refine ⟨level, level?_eq_some_iff.mpr ⟨hpast level ▸ hbinds, fun l hl ↦ ?_⟩, rfl⟩
      rw [← hpast]
      exact habove _ (past_lt_past_iff.mpr hl)
  · rintro ⟨level, hlevel, rfl⟩
    obtain ⟨hbinds, habove⟩ := level?_eq_some_iff.mp hlevel
    refine ⟨(hpast level).trans hbinds, fun l' hl' ↦ ?_⟩
    obtain rfl | ⟨l, rfl⟩ := eq_or_exists_past k l'
    · exact hself
    · rw [hpast]
      exact habove l (past_lt_past_iff.mp hl')

theorem get? (h : Spare k d env env') (x : String) : env'.get? x = env.get? x := by
  rw [get?_eq_bind, get?_eq_bind, h.level?, Option.bind_map]
  exact Option.bind_congr fun level _ ↦ h.valueAt_past level x

/-! ### What keeps it -/

theorem setAt (h : Spare k d env env') (level : Nat) (name : String) (v : Value) :
    Spare k d (env.setAt level name v) (env'.setAt (past k level) name v) := by
  refine ⟨depth_setAt.trans h.depth, depth_setAt.trans h.depth_succ, ?_, fun l ↦ ?_⟩
  · rw [scopeAt_setAt, if_neg (past_ne k level), h.scopeAt_self]
  · rw [scopeAt_setAt, scopeAt_setAt, h.scopeAt_past]
    simp only [past_inj]

/-- A declaration keeps it, unless the spare scope is the innermost one. -/
theorem define (h : Spare k d env env') (hk : k < d) (name : String) (v : Value) :
    Spare k d (env.define name v) (env'.define name v) := by
  have hinner : past k (d - 1) = d + 1 - 1 := by
    rw [past, if_neg (by omega)]
    omega
  rw [define_eq_setAt, define_eq_setAt, h.depth, h.depth_succ, ← hinner]
  exact h.setAt (d - 1) name v

theorem push (h : Spare k d env env') : Spare k (d + 1) env.push env'.push := by
  have hle := h.le
  refine ⟨by rw [depth_push, h.depth], by rw [depth_push, h.depth_succ], ?_, fun level ↦ ?_⟩
  · rw [scopeAt_push, h.depth_succ, if_neg (by omega), h.scopeAt_self]
  · have hinner : past k d = d + 1 := if_neg (by omega)
    rw [scopeAt_push, scopeAt_push, h.depth, h.depth_succ, ← hinner, h.scopeAt_past]
    simp only [past_inj]

theorem pop (h : Spare k (d + 1) env env') (hd : 0 < d) (hk : k ≤ d) :
    Spare k d env.pop env'.pop := by
  have hdepth : 1 < env.depth := by rw [h.depth]; omega
  have hdepth' : 1 < env'.depth := by rw [h.depth_succ]; omega
  have hinner : past k d = d + 1 := if_neg (by omega)
  refine ⟨by rw [depth_pop hdepth, h.depth]; rfl, by rw [depth_pop hdepth', h.depth_succ]; rfl,
    ?_, fun level ↦ ?_⟩
  · rw [scopeAt_pop hdepth', h.depth_succ, if_pos (by omega), h.scopeAt_self]
  · rw [scopeAt_pop hdepth, scopeAt_pop hdepth', h.depth, h.depth_succ, Nat.add_sub_cancel,
      Nat.add_sub_cancel, ← hinner, h.scopeAt_past]
    simp only [past_lt_past_iff]

/-! ### The innermost scope -/

theorem of_push (env : Environment) : Spare env.depth env.depth env env.push := by
  refine ⟨rfl, depth_push, by rw [scopeAt_push, if_pos rfl], fun level ↦ ?_⟩
  rw [scopeAt_push, if_neg (past_ne _ _), past]
  split
  · rfl
  · next hlevel => rw [scopeAt_eq_none_iff.mpr (by omega), scopeAt_eq_none_iff.mpr (by omega)]

/-- If the spare scope is the innermost one, it has been entered last. -/
theorem eq_push (h : Spare d d env env') : env' = env.push := by
  have hpush := of_push env
  rw [h.depth] at hpush
  refine eq_of_scopeAt fun level ↦ ?_
  obtain rfl | ⟨l, rfl⟩ := eq_or_exists_past d level
  · rw [h.scopeAt_self, hpush.scopeAt_self]
  · rw [h.scopeAt_past, hpush.scopeAt_past]

end Spare

end Environment

end BlockScript
