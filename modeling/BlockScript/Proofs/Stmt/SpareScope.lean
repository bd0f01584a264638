import BlockScript.Proofs.Environment.SpareScope
import BlockScript.Proofs.Machine.Beside

/-!
# Execution around a scope without variables

What does not declare a name in the scope it stands in does the same whether or not a new scope is
entered before it (`Unscoped`). Expressions are of that kind, and so are blocks, whatever stands in
them. So a scope around such things can be left out (`Unscoped.inScope`).

For a block this takes more than its own states: inside, the spare scope is no longer the innermost
one, and it stays where it was while any number of scopes are entered and left behind it. That is
why the property which passes through all statements has the number of open scopes in it
(`pervasive_spare`).
-/

namespace BlockScript

open Environment (Spare)

/-! ## Side by side -/

namespace Eval

variable {k d : Nat}

private theorem insensitive_lookup_spare (name : String) (line : Nat) :
    Insensitive (Spare k d) (lookup name line) := by
  intro env env' h
  rw [lookup, lookup, h.get?]
  rcases env.get? name with _ | v
  · exact .error rfl h
  · exact .ok rfl h

private theorem insensitive_assign_spare (name : String) (v : Value) (line : Nat) :
    Insensitive (Spare k d) (assign name v line) := by
  intro env env' h
  rw [assign, assign, Environment.assign?_eq_map, Environment.assign?_eq_map, h.level?]
  rcases env.level? name with _ | level
  · exact .error rfl h
  · exact .ok rfl (h.setAt level name v)

end Eval

namespace Exec

open Machine (Beside)

variable {k d : Nat}

private theorem insensitive_eval_spare [Memory] (e : Expr) :
    Insensitive (Beside (Spare k d)) (liftM e.eval : Exec Value) :=
  insensitive_lift <| e.insensitive_eval (fun name _ ↦ Eval.insensitive_lookup_spare name)
    fun name _ ↦ Eval.insensitive_assign_spare name

/-- **Every statement** does the same with a spare scope further out. -/
theorem pervasive_spare [Memory] (k : Nat) :
    Pervasive fun _ _ c ↦ ∀ d, k < d → Insensitive (Beside (Spare k d)) c where
  closed _ := ⟨fun a _ _ ↦ .pure a, fun hx hf d hd ↦ (hx d hd).bind fun a ↦ hf a d hd,
    fun _ _ ↦ .throw _⟩
  eval _ e _ _ _ := insensitive_eval_spare e
  assign _ name v line _ _ _ := insensitive_lift (Eval.insensitive_assign_spare name v line)
  define _ v _ _ hd := insensitive_define fun _ _ h ↦ h.define hd _ v
  write _ v terminator line _ _ := insensitive_write v terminator line
  takeLine _ line _ _ := insensitive_takeLine line
  badNumber _ _ _ _ _ := .throw _
  badCount _ _ _ _ := .throw _
  inScope _ _ _ h d hd := insensitive_inScope (fun _ _ h ↦ h.push)
    (fun _ _ h ↦ h.pop (Nat.zero_lt_of_lt hd) (Nat.le_of_lt hd)) (h (d + 1) (Nat.lt_succ_of_lt hd))

/-! ## A scope around it -/

/-- The machine when a scope has been entered. -/
def enter (m : Machine) : Machine := { m with env := m.env.push }

/-- The machine when a scope has been left. -/
def leave (m : Machine) : Machine := { m with env := m.env.pop }

private theorem leave_enter (m : Machine) : leave (enter m) = m :=
  congrArg (fun env ↦ { m with env := env }) m.env.pop_push

/-- It makes no difference to a computation whether a scope has been entered. -/
def Unscoped {α : Type} (x : Exec α) : Prop := ∀ m, x (enter m) = mapState enter (x m)

private theorem unscoped_of_insensitive {α : Type} {x : Exec α}
    (h : ∀ d, 0 < d → Insensitive (Beside (Spare d d)) x) : Unscoped x := by
  intro m
  have hm : Beside (Spare m.env.depth m.env.depth) m (enter m) := ⟨.of_push m.env, rfl, rfl⟩
  have hagree := h _ m.env.nonempty hm
  have henter {m₁ m₂ : Machine} (h : Beside (Spare m.env.depth m.env.depth) m₁ m₂) :
      m₂ = enter m₁ := by
    obtain ⟨env₁, input₁, output₁⟩ := m₁
    obtain ⟨env₂, _, _⟩ := m₂
    obtain ⟨henv, ⟨⟩, ⟨⟩⟩ := h
    cases henv.eq_push
    rfl
  generalize x m = r at hagree ⊢
  generalize x (enter m) = r' at hagree ⊢
  cases hagree with
  | ok ha hr => rw [← ha, henter hr]; rfl
  | error he hr => rw [← he, henter hr]; rfl

namespace Unscoped

theorem pure {α : Type} (a : α) : Unscoped (Pure.pure a) := fun _ ↦ rfl

theorem bind {α β : Type} {x : Exec α} {f : α → Exec β} (hx : Unscoped x)
    (hf : ∀ a, Unscoped (f a)) : Unscoped (x >>= f) := by
  intro m
  have hm := hx m
  rcases h : x m with ⟨a, m'⟩ | ⟨e, m'⟩
  · rw [h] at hm
    rw [bind_of_ok hm, bind_of_ok h]
    exact hf a m'
  · rw [h] at hm
    rw [bind_of_error hm, bind_of_error h]
    rfl

theorem eval [Memory] (e : Expr) : Unscoped (liftM e.eval) :=
  unscoped_of_insensitive fun _ _ ↦ insensitive_eval_spare e

theorem block [Memory] (fuel : Nat) (body : List Stmt) (line : Nat) :
    Unscoped ((Stmt.block body line).exec fuel) := by
  refine unscoped_of_insensitive fun d hd ↦ ?_
  have hbody := Stmt.execAll_of_pervasive (pervasive_spare d) fuel body (d + 1) (Nat.lt_succ_self d)
  exact insensitive_inScope (fun _ _ h ↦ h.push) (fun _ _ h ↦ h.pop hd (Nat.le_refl d)) hbody

/-- **The scope can be left out.** -/
theorem inScope {α : Type} {x : Exec α} (h : Unscoped x) : inScope x = x := by
  funext m
  have hm : Exec.inScope x m = mapState leave (x (enter m)) := inScope_eq x m
  rw [hm, h m]
  rcases x m with ⟨a, m'⟩ | ⟨e, m'⟩
  · exact congrArg (EStateM.Result.ok a) (leave_enter m')
  · exact congrArg (EStateM.Result.error e) (leave_enter m')

end Unscoped

end Exec

end BlockScript
