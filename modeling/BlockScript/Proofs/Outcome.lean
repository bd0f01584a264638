/-!
# Computations that keep their state when they fail

Parsing, evaluation and execution are computations of one shape: a state goes in, and it comes out
again whether or not there is a result. What such a computation does in front of another one is
said here once, for both ways it can end.
-/

namespace BlockScript

variable {ε σ α β : Type}

/-- The state that a computation leaves behind, however it ends. -/
def stateAfter : EStateM.Result ε σ α → σ
  | .ok _ s => s
  | .error _ s => s

@[simp] theorem stateAfter_ok (a : α) (s : σ) :
    stateAfter (.ok a s : EStateM.Result ε σ α) = s := rfl

@[simp] theorem stateAfter_error (e : ε) (s : σ) :
    stateAfter (.error e s : EStateM.Result ε σ α) = s := rfl

/-- The same end, with another state left behind. -/
def mapState (f : σ → σ) : EStateM.Result ε σ α → EStateM.Result ε σ α
  | .ok a s => .ok a (f s)
  | .error e s => .error e (f s)

@[simp] theorem stateAfter_mapState (f : σ → σ) (r : EStateM.Result ε σ α) :
    stateAfter (mapState f r) = f (stateAfter r) := by
  cases r with
  | ok a s => rfl
  | error e s => rfl

/-! ## One computation after another -/

theorem bind_of_ok {x : EStateM ε σ α} {f : α → EStateM ε σ β} {s s' : σ} {a : α}
    (h : x s = .ok a s') : (x >>= f) s = f a s' := by
  simp only [bind, EStateM.bind, h]

theorem bind_of_error {x : EStateM ε σ α} {f : α → EStateM ε σ β} {s s' : σ} {e : ε}
    (h : x s = .error e s') : (x >>= f) s = .error e s' := by
  simp only [bind, EStateM.bind, h]

/-- What follows depends on how the first computation ends, and on nothing else. -/
theorem bind_congr_left {x y : EStateM ε σ α} {f : α → EStateM ε σ β} {s : σ} (h : x s = y s) :
    (x >>= f) s = (y >>= f) s := by
  simp only [bind, EStateM.bind, h]

theorem bind_eq_ok_iff {x : EStateM ε σ α} {f : α → EStateM ε σ β} {s s'' : σ} {b : β} :
    (x >>= f) s = .ok b s'' ↔ ∃ a s', x s = .ok a s' ∧ f a s' = .ok b s'' := by
  cases h : x s with
  | ok a s' =>
    rw [bind_of_ok h]
    constructor
    · intro hf
      exact ⟨a, s', rfl, hf⟩
    · rintro ⟨_, _, heq, hf⟩
      cases heq
      exact hf
  | error e s' =>
    rw [bind_of_error h]
    constructor
    · intro hf
      cases hf
    · rintro ⟨_, _, heq, _⟩
      cases heq

/-- What follows a computation comes under a name of its own, so that it can be split if it
distinguishes cases. -/
theorem exists_rest_of_bind_eq_ok {x : EStateM ε σ α} {f : α → EStateM ε σ β} {s s'' : σ} {b : β}
    (h : (x >>= f) s = .ok b s'') :
    ∃ a s' rest, x s = .ok a s' ∧ rest = f a ∧ rest s' = .ok b s'' := by
  obtain ⟨a, s', hx, hf⟩ := bind_eq_ok_iff.mp h
  exact ⟨a, s', f a, hx, rfl, hf⟩

theorem map_eq_ok_iff {x : EStateM ε σ α} {f : α → β} {s s' : σ} {b : β} :
    (f <$> x) s = .ok b s' ↔ ∃ a, x s = .ok a s' ∧ f a = b := by
  simp only [Functor.map, EStateM.map]
  cases x s with
  | ok a s₁ =>
    constructor
    · intro h
      cases h
      exact ⟨a, rfl, rfl⟩
    · rintro ⟨_, heq, rfl⟩
      cases heq
      rfl
  | error e s₁ =>
    constructor
    · intro h
      cases h
    · rintro ⟨_, heq, _⟩
      cases heq

@[simp] theorem pure_eq_ok_iff {s s' : σ} {a b : α} :
    (pure a : EStateM ε σ α) s = .ok b s' ↔ a = b ∧ s = s' := by
  simp [pure, EStateM.pure]

@[simp] theorem throw_ne_ok {s s' : σ} {e : ε} {b : α} :
    (throw e : EStateM ε σ α) s ≠ .ok b s' := by
  intro h
  cases h

/-! ## What a computation does to the state

An invariant of a computation is a relation between the states before and after it. It is asked for
whether or not there is a result, since what was done before an error stays done. -/

/-- What may happen not at all, and what may happen several times. -/
structure Repeatable (R : σ → σ → Prop) : Prop where
  /-- Nothing happens. -/
  refl (s : σ) : R s s
  /-- It happens once more. -/
  trans {s s' s'' : σ} : R s s' → R s' s'' → R s s''

/-- However a computation ends, it has moved the state along a relation. -/
def Respects (R : σ → σ → Prop) (x : EStateM ε σ α) : Prop := ∀ s, R s (stateAfter (x s))

namespace Respects

variable {R Q : σ → σ → Prop}

theorem mono {x : EStateM ε σ α} (h : ∀ s s', Q s s' → R s s') (hx : Respects Q x) :
    Respects R x := fun s ↦ h s _ (hx s)

theorem pure (hR : Repeatable R) (a : α) : Respects R (Pure.pure a : EStateM ε σ α) :=
  fun s ↦ hR.refl s

theorem throw (hR : Repeatable R) (e : ε) : Respects R (MonadExcept.throw e : EStateM ε σ α) :=
  fun s ↦ hR.refl s

theorem bind (hR : Repeatable R) {x : EStateM ε σ α} {f : α → EStateM ε σ β} (hx : Respects R x)
    (hf : ∀ a, Respects R (f a)) : Respects R (x >>= f) := by
  intro s
  have hs := hx s
  rcases h : x s with ⟨a, s'⟩ | ⟨e, s'⟩
  · rw [h] at hs
    rw [bind_of_ok h]
    exact hR.trans hs (hf a s')
  · rw [h] at hs
    rw [bind_of_error h]
    exact hs

end Respects

/-! ## What a computation can end with -/

/-- A computation gives no result but those that satisfy a condition. -/
def OnlyReturns (P : α → Prop) (x : EStateM ε σ α) : Prop := ∀ ⦃s a s'⦄, x s = .ok a s' → P a

namespace OnlyReturns

theorem pure {P : α → Prop} {a : α} (h : P a) : OnlyReturns P (Pure.pure a : EStateM ε σ α) := by
  intro s a' s' heq
  obtain ⟨rfl, -⟩ := pure_eq_ok_iff.mp heq
  exact h

theorem bind {P : α → Prop} {Q : β → Prop} {x : EStateM ε σ α} {f : α → EStateM ε σ β}
    (hx : OnlyReturns P x) (hf : ∀ a, P a → OnlyReturns Q (f a)) : OnlyReturns Q (x >>= f) := by
  intro s b s' heq
  obtain ⟨a, s₁, ha, hb⟩ := bind_eq_ok_iff.mp heq
  exact hf a (hx ha) hb

theorem after {Q : β → Prop} {x : EStateM ε σ α} {f : α → EStateM ε σ β}
    (hf : ∀ a, OnlyReturns Q (f a)) : OnlyReturns Q (x >>= f) :=
  bind (P := fun _ ↦ True) (fun _ _ _ _ ↦ trivial) fun a _ ↦ hf a

/-- What follows a computation matters only where the computation can lead. -/
theorem bind_congr {P : α → Prop} {x : EStateM ε σ α} {f g : α → EStateM ε σ β}
    (hx : OnlyReturns P x) (h : ∀ a, P a → f a = g a) : x >>= f = x >>= g := by
  funext s
  rcases hs : x s with ⟨a, s'⟩ | ⟨e, s'⟩
  · rw [bind_of_ok hs, bind_of_ok hs, h a (hx hs)]
  · rw [bind_of_error hs, bind_of_error hs]

end OnlyReturns

/-- A computation fails with no error but those that satisfy a condition. -/
def OnlyFails (E : ε → Prop) (x : EStateM ε σ α) : Prop := ∀ ⦃s e s'⦄, x s = .error e s' → E e

namespace OnlyFails

variable {E : ε → Prop}

theorem pure (a : α) : OnlyFails E (Pure.pure a : EStateM ε σ α) := fun _ _ _ heq ↦ nomatch heq

theorem throw {e : ε} (h : E e) : OnlyFails E (MonadExcept.throw e : EStateM ε σ α) := by
  rintro s _ _ ⟨⟩
  exact h

theorem bind {x : EStateM ε σ α} {f : α → EStateM ε σ β} (hx : OnlyFails E x)
    (hf : ∀ a, OnlyFails E (f a)) : OnlyFails E (x >>= f) := by
  intro s e s' heq
  rcases h : x s with ⟨a, s₁⟩ | ⟨e₁, s₁⟩
  · rw [bind_of_ok h] at heq
    exact hf a heq
  · rw [bind_of_error h] at heq
    cases heq
    exact hx h

end OnlyFails

/-! ## What a computation does where a condition holds

Often something can be said of a computation only from some states on, and then its end is described
together with the state it began in. -/

/-- A result, or an error, with the state that is left. -/
inductive Ends (S : α → σ → Prop) (T : ε → σ → Prop) : EStateM.Result ε σ α → Prop where
  | ok {a : α} {s : σ} : S a s → Ends S T (.ok a s)
  | error {e : ε} {s : σ} : T e s → Ends S T (.error e s)

theorem Ends.mono {S S' : α → σ → Prop} {T T' : ε → σ → Prop} {r : EStateM.Result ε σ α}
    (h : Ends S T r) (hS : ∀ a s, S a s → S' a s) (hT : ∀ e s, T e s → T' e s) : Ends S' T' r := by
  rcases h with h | h
  · exact .ok (hS _ _ h)
  · exact .error (hT _ _ h)

/-- From states that satisfy `I`, a computation ends in one of two described ways. -/
def Ensures (I : σ → Prop) (S : σ → α → σ → Prop) (T : σ → ε → σ → Prop) (x : EStateM ε σ α) :
    Prop := ∀ ⦃s⦄, I s → Ends (S s) (T s) (x s)

namespace Ensures

variable {I J : σ → Prop} {S S₁ : σ → α → σ → Prop} {S₂ S' : σ → β → σ → Prop}
  {T T₁ T₂ : σ → ε → σ → Prop}

theorem pure {a : α} (h : ∀ ⦃s⦄, I s → S s a s) : Ensures I S T (Pure.pure a) :=
  fun _ hs ↦ .ok (h hs)

theorem throw {e : ε} (h : ∀ ⦃s⦄, I s → T s e s) : Ensures I S T (MonadExcept.throw e) :=
  fun _ hs ↦ .error (h hs)

theorem bind {x : EStateM ε σ α} {f : α → EStateM ε σ β} (hx : Ensures I S₁ T₁ x)
    (hf : ∀ a, Ensures J S₂ T₂ (f a)) (hJ : ∀ ⦃s a s'⦄, I s → S₁ s a s' → J s')
    (hT₁ : ∀ ⦃s e s'⦄, T₁ s e s' → T s e s')
    (hS : ∀ ⦃s a s' b s''⦄, S₁ s a s' → S₂ s' b s'' → S' s b s'')
    (hT : ∀ ⦃s a s' e s''⦄, S₁ s a s' → T₂ s' e s'' → T s e s'') :
    Ensures I S' T (x >>= f) := by
  intro s hI
  have hs := hx hI
  rcases hxs : x s with ⟨a, s'⟩ | ⟨e, s'⟩
  · rw [hxs] at hs
    rw [bind_of_ok hxs]
    obtain h | _ := hs
    exact (hf a (hJ hI h)).mono (fun _ _ ↦ hS h) fun _ _ ↦ hT h
  · rw [hxs] at hs
    rw [bind_of_error hxs]
    obtain _ | h := hs
    exact .error (hT₁ h)

theorem map {R : σ → σ → Prop} {x : EStateM ε σ α} (f : α → β)
    (hx : Ensures I (fun s _ ↦ R s) T x) : Ensures I (fun s _ ↦ R s) T (f <$> x) := by
  intro s hI
  have hs := hx hI
  simp only [Functor.map, EStateM.map]
  generalize x s = r at hs ⊢
  cases hs with
  | ok h => exact .ok h
  | error h => exact .error h

end Ensures

/-! ## Errors under another name -/

section Adapt

variable {ε' : Type} {f : ε → ε'}

theorem adaptExcept_pure (a : α) :
    (pure a : EStateM ε σ α).adaptExcept f = (pure a : EStateM ε' σ α) := rfl

theorem adaptExcept_of_ok {x : EStateM ε σ α} {s s' : σ} {a : α} (h : x s = .ok a s') :
    x.adaptExcept f s = .ok a s' := by
  simp only [EStateM.adaptExcept, h]

theorem adaptExcept_of_error {x : EStateM ε σ α} {s s' : σ} {e : ε} (h : x s = .error e s') :
    x.adaptExcept f s = .error (f e) s' := by
  simp only [EStateM.adaptExcept, h]

theorem adaptExcept_adaptExcept {ε'' : Type} (g : ε' → ε'') (x : EStateM ε σ α) :
    (x.adaptExcept f).adaptExcept g = x.adaptExcept (g ∘ f) := by
  funext s
  rcases h : x s with ⟨a, s'⟩ | ⟨e, s'⟩
  · rw [adaptExcept_of_ok h, adaptExcept_of_ok (adaptExcept_of_ok h)]
  · rw [adaptExcept_of_error h, adaptExcept_of_error (adaptExcept_of_error h)]
    rfl

theorem adaptExcept_bind (x : EStateM ε σ α) (g : α → EStateM ε σ β) :
    (x >>= g).adaptExcept f = x.adaptExcept f >>= fun a ↦ (g a).adaptExcept f := by
  funext s
  rcases h : x s with ⟨a, s'⟩ | ⟨e, s'⟩
  · rw [bind_of_ok (adaptExcept_of_ok h), EStateM.adaptExcept, bind_of_ok h]
    rfl
  · rw [bind_of_error (adaptExcept_of_error h), adaptExcept_of_error (bind_of_error h)]

end Adapt

/-! ## Two computations side by side

Two computations that are started in corresponding states may be asked to end in the same way. The
relation between their states is one of four states, two before and two after, and a result may
leave the states in another relation than an error does. -/

/-- Both ends are results, or both are errors, and what they hold corresponds. -/
inductive Agree (A : α → α → Prop) (E : ε → ε → Prop) (S T : σ → σ → Prop) :
    EStateM.Result ε σ α → EStateM.Result ε σ α → Prop where
  | ok {a a' : α} {s s' : σ} : A a a' → S s s' → Agree A E S T (.ok a s) (.ok a' s')
  | error {e e' : ε} {s s' : σ} : E e e' → T s s' → Agree A E S T (.error e s) (.error e' s')

theorem Agree.mono {A A' : α → α → Prop} {E : ε → ε → Prop} {S S' T T' : σ → σ → Prop}
    {r r' : EStateM.Result ε σ α} (h : Agree A E S T r r') (hA : ∀ a a', A a a' → A' a a')
    (hS : ∀ s s', S s s' → S' s s') (hT : ∀ s s', T s s' → T' s s') : Agree A' E S' T' r r' := by
  cases h with
  | ok ha hs => exact .ok (hA _ _ ha) (hS _ _ hs)
  | error he ht => exact .error he (hT _ _ ht)

theorem Agree.eq {A : α → α → Prop} {E : ε → ε → Prop} {S T : σ → σ → Prop}
    {r r' : EStateM.Result ε σ α} (h : Agree A E S T r r') (hA : ∀ a a', A a a' → a = a')
    (hE : ∀ e e', E e e' → e = e') (hS : ∀ s s', S s s' → s = s')
    (hT : ∀ s s', T s s' → s = s') : r = r' := by
  cases h with
  | ok ha hs => rw [hA _ _ ha, hS _ _ hs]
  | error he ht => rw [hE _ _ he, hT _ _ ht]

theorem Agree.stateAfter {A : α → α → Prop} {E : ε → ε → Prop} {S T Q : σ → σ → Prop}
    {r r' : EStateM.Result ε σ α} (h : Agree A E S T r r') (hS : ∀ s s', S s s' → Q s s')
    (hT : ∀ s s', T s s' → Q s s') : Q (stateAfter r) (stateAfter r') := by
  cases h with
  | ok _ hs => exact hS _ _ hs
  | error _ ht => exact hT _ _ ht

/-- From states that are related by `I`, two computations end in the same way. -/
def InStep (I : σ → σ → Prop) (S T : σ → σ → σ → σ → Prop) (E : ε → ε → Prop) (A : α → α → Prop)
    (x y : EStateM ε σ α) : Prop :=
  ∀ ⦃s s'⦄, I s s' → Agree A E (S s s') (T s s') (x s) (y s')

namespace InStep

variable {I J : σ → σ → Prop} {S S₁ S₂ T T₁ T₂ : σ → σ → σ → σ → Prop} {E : ε → ε → Prop}
  {A : α → α → Prop} {B : β → β → Prop}

theorem pure (hS : ∀ ⦃s s'⦄, I s s' → S s s' s s') {a a' : α} (h : A a a') :
    InStep I S T E A (Pure.pure a) (Pure.pure a') :=
  fun _ _ hI ↦ .ok h (hS hI)

theorem throw (hT : ∀ ⦃s s'⦄, I s s' → T s s' s s') {e e' : ε} (h : E e e') :
    InStep I S T E A (MonadExcept.throw e) (MonadExcept.throw e') :=
  fun _ _ hI ↦ .error h (hT hI)

theorem bind {x y : EStateM ε σ α} {f g : α → EStateM ε σ β} (hx : InStep I S₁ T₁ E A x y)
    (hf : ∀ a a', A a a' → InStep J S₂ T₂ E B (f a) (g a'))
    (hJ : ∀ ⦃s s' r r'⦄, I s s' → S₁ s s' r r' → J r r')
    (hT₁ : ∀ ⦃s s' r r'⦄, T₁ s s' r r' → T s s' r r')
    (hS : ∀ ⦃s s' r r' q q'⦄, S₁ s s' r r' → S₂ r r' q q' → S s s' q q')
    (hT : ∀ ⦃s s' r r' q q'⦄, S₁ s s' r r' → T₂ r r' q q' → T s s' q q') :
    InStep I S T E B (x >>= f) (y >>= g) := by
  intro s s' hI
  have hs := hx hI
  generalize hxs : x s = rx at hs
  generalize hys : y s' = ry at hs
  cases hs with
  | ok ha hr =>
    rw [bind_of_ok hxs, bind_of_ok hys]
    exact (hf _ _ ha (hJ hI hr)).mono (fun _ _ h ↦ h) (fun _ _ ↦ hS hr) fun _ _ ↦ hT hr
  | error he hr =>
    rw [bind_of_error hxs, bind_of_error hys]
    exact .error he (hT₁ hr)

theorem map {x y : EStateM ε σ α} {f : α → β} (hf : ∀ a a', A a a' → B (f a) (f a'))
    (hx : InStep I S T E A x y) : InStep I S T E B (f <$> x) (f <$> y) := by
  intro s s' hI
  have hs := hx hI
  simp only [Functor.map, EStateM.map]
  generalize x s = rx at hs ⊢
  generalize y s' = ry at hs ⊢
  cases hs with
  | ok ha hr => exact .ok (hf _ _ ha) hr
  | error he hr => exact .error he hr

end InStep

/-- **One computation beside itself.** It does the same in states that are related by `I`, and
leaves states that are. -/
def Insensitive (I : σ → σ → Prop) (x : EStateM ε σ α) : Prop :=
  InStep I (fun _ _ ↦ I) (fun _ _ ↦ I) Eq Eq x x

namespace Insensitive

variable {I : σ → σ → Prop}

theorem pure (a : α) : Insensitive I (Pure.pure a : EStateM ε σ α) :=
  InStep.pure (fun _ _ h ↦ h) rfl

theorem throw (e : ε) : Insensitive I (MonadExcept.throw e : EStateM ε σ α) :=
  InStep.throw (fun _ _ h ↦ h) rfl

theorem bind {x : EStateM ε σ α} {f : α → EStateM ε σ β} (hx : Insensitive I x)
    (hf : ∀ a, Insensitive I (f a)) : Insensitive I (x >>= f) := by
  refine InStep.bind hx ?_ (fun _ _ _ _ _ h ↦ h) (fun _ _ _ _ h ↦ h) (fun _ _ _ _ _ _ _ h ↦ h)
    fun _ _ _ _ _ _ _ h ↦ h
  rintro a _ rfl
  exact hf a

end Insensitive

end BlockScript
