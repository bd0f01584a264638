import BlockScript.Proofs.Machine

/-!
# Two machines with the same streams

Two machines with the same input left and the same output can differ in their variables only. What
does not look at variables does the same on both, and what does look at them is evaluation, whose
states are the variables alone. So a comparison of two executions comes down to a comparison of
environments, and to what happens to these on entering and on leaving a scope.
-/

namespace BlockScript

/-- Two machines with the same input and output, whose variables are related. -/
structure Machine.Beside (R : Environment → Environment → Prop) (m m' : Machine) : Prop where
  /-- The variables are related. -/
  env : R m.env m'.env
  /-- The same input is left. -/
  input : m.input = m'.input
  /-- The same has been written, and the output will fail in the same way. -/
  output : m.output = m'.output

variable {R R' : Environment → Environment → Prop}

/-- Evaluation is put together from taking and assigning values, and it reads and changes nothing
but variables. -/
theorem Expr.insensitive_eval [Memory] (e : Expr)
    (hlookup : ∀ name ∈ e.names, ∀ line, Insensitive R (Eval.lookup name line))
    (hassign : ∀ name ∈ e.targets, ∀ v line, Insensitive R (Eval.assign name v line)) :
    Insensitive R e.eval := by
  have hclosed : Eval.Closed fun _ c ↦ Insensitive R c := ⟨.pure, .bind⟩
  exact e.eval_of_closed hclosed (fun _ _ _ ↦ .throw _) hlookup hassign

namespace Exec

open Machine (Beside)

theorem closed_insensitive {I : Machine → Machine → Prop} : Closed fun _ c ↦ Insensitive I c :=
  ⟨.pure, .bind, .throw _⟩

theorem insensitive_lift {α : Type} {e : Eval α} (he : Insensitive R e) :
    Insensitive (Beside R) (liftM e : Exec α) := by
  rintro ⟨env, input, output⟩ ⟨env', _, _⟩ ⟨henv, ⟨⟩, ⟨⟩⟩
  have h := he henv
  change Agree _ _ _ _ (ofEval e _) (ofEval e _)
  rw [ofEval, ofEval]
  generalize e env = r at h ⊢
  generalize e env' = r' at h ⊢
  cases h with
  | ok ha hr => exact .ok ha ⟨hr, rfl, rfl⟩
  | error he hr => exact .error (congrArg Stop.error he) ⟨hr, rfl, rfl⟩

theorem insensitive_define {name : String} {v : Value}
    (h : ∀ ⦃env env'⦄, R env env' → R (env.define name v) (env'.define name v)) :
    Insensitive (Beside R) (define name v) :=
  fun _ _ hm ↦ .ok rfl ⟨h hm.env, hm.input, hm.output⟩

theorem insensitive_write (v : Value) (terminator : String) (line : Nat) :
    Insensitive (Beside R) (write v terminator line) := by
  rintro ⟨env, input, output⟩ ⟨env', _, _⟩ ⟨henv, ⟨⟩, ⟨⟩⟩
  rw [write, write]
  rcases Output.emit (v.display ++ terminator) output with ⟨_, output'⟩ | ⟨fault, output'⟩
  · exact .ok rfl ⟨henv, rfl, rfl⟩
  · exact .error rfl ⟨henv, rfl, rfl⟩

theorem insensitive_takeLine (line : Nat) : Insensitive (Beside R) (takeLine line) := by
  rintro ⟨env, input, output⟩ ⟨env', _, _⟩ ⟨henv, ⟨⟩, ⟨⟩⟩
  rw [takeLine, takeLine]
  rcases Input.takeLine input with ⟨text, input'⟩ | ⟨fault, input'⟩
  · exact .ok rfl ⟨henv, rfl, rfl⟩
  · exact .error rfl ⟨henv, rfl, rfl⟩

/-- Inside a scope the variables may be related in another way than outside. -/
theorem insensitive_inScope {α : Type} {body : Exec α}
    (hpush : ∀ ⦃env env'⦄, R env env' → R' env.push env'.push)
    (hpop : ∀ ⦃env env'⦄, R' env env' → R env.pop env'.pop)
    (h : Insensitive (Beside R') body) : Insensitive (Beside R) (inScope body) := by
  rintro ⟨env, input, output⟩ ⟨env', _, _⟩ ⟨henv, ⟨⟩, ⟨⟩⟩
  have hbody := @h ⟨env.push, input, output⟩ ⟨env'.push, input, output⟩ ⟨hpush henv, rfl, rfl⟩
  rw [inScope, inScope]
  generalize body ⟨env.push, input, output⟩ = r at hbody ⊢
  generalize body ⟨env'.push, input, output⟩ = r' at hbody ⊢
  cases hbody with
  | ok ha hm => exact .ok ha ⟨hpop hm.env, hm.input, hm.output⟩
  | error he hm => exact .error he ⟨hpop hm.env, hm.input, hm.output⟩

end Exec

end BlockScript
