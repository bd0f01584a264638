import BlockScript.Proofs.Token.Lockstep

/-!
# Where errors are found

A rule that fails says at which token. As a rule this is the first token that it has not taken. The
exception is an assignment, whose target is looked at only when its value has been parsed: then the
error is found at the equals sign, which has been taken long before. In either case no token that is
left stands in front of the one that the error names, which is why errors come out in the order of
the source.
-/

namespace BlockScript

/-! ## Taking some tokens -/

/-- Some tokens have been taken, and the mark of the end is not one of them. -/
def TakenFrom (ts rest : List Token) : Prop := ∃ j, Taken j ts rest

namespace TakenFrom

variable {t : Token} {ts mid rest : List Token}

theorem refl (ts : List Token) : TakenFrom ts ts := ⟨0, .refl ts⟩

theorem trans (h : TakenFrom ts mid) (h' : TakenFrom mid rest) : TakenFrom ts rest := by
  obtain ⟨j, hj⟩ := h
  obtain ⟨i, hi⟩ := h'
  exact ⟨j + i, hj.trans hi⟩

theorem one (ht : t.kind ≠ .eof) (ts : List Token) : TakenFrom (t :: ts) ts := ⟨1, .one ht ts⟩

theorem length_le (h : TakenFrom ts rest) : rest.length ≤ ts.length := by
  obtain ⟨j, hj⟩ := h
  rw [hj.length]
  exact Nat.le_add_left _ j

end TakenFrom

/-! ## Errors -/

/-- Whether an error with a cause can be found at a token that is left. A target is judged when its
value has been taken, and a word that is set aside is the text of the token. -/
def ParseCause.Fits (cause : ParseCause) (t : Token) : Prop :=
  match cause with
  | .invalidTarget => False
  | .reserved word => word = t.lexeme
  | .expectedExpression | .expected _ => True

/-- Where the error of a rule is found that has left `rest` of the tokens `ts`. -/
inductive FoundAt (ts : List Token) : List Token → ParseError → Prop where
  /-- At the next token. -/
  | next {t : Token} {after : List Token} {cause : ParseCause} : cause.Fits t →
    FoundAt ts (t :: after) (.at cause t)
  /-- At an equals sign, with the value behind it taken as well. -/
  | target {t : Token} {value rest : List Token} : t.kind = .symbol .equals →
    TakenFrom ts (t :: value) → TakenFrom value rest → FoundAt ts rest (.at .invalidTarget t)
  /-- Nowhere, with no token left. -/
  | nowhere : FoundAt ts [] .exhausted

theorem FoundAt.behind {ts mid rest : List Token} {e : ParseError} (h : TakenFrom ts mid)
    (he : FoundAt mid rest e) : FoundAt ts rest e := by
  cases he with
  | next hcause => exact .next hcause
  | target hequals htarget hvalue => exact .target hequals (h.trans htarget) hvalue
  | nowhere => exact .nowhere

/-- Within a bound, a rule takes some tokens, and if it fails its error is found where it stops. -/
def Spots (n : Nat) {α : Type} (x : Parse α) : Prop :=
  Ensures (fun ts ↦ ts.length ≤ n) (fun ts _ rest ↦ TakenFrom ts rest)
    (fun ts e rest ↦ TakenFrom ts rest ∧ FoundAt ts rest e) x

/-- The same on tokens that begin with `t`. -/
def SpotsAt (t : Token) (n : Nat) {α : Type} (x : Parse α) : Prop :=
  Ensures (fun ts ↦ ts.length ≤ n ∧ ts.head? = some t) (fun ts _ rest ↦ TakenFrom ts rest)
    (fun ts e rest ↦ TakenFrom ts rest ∧ FoundAt ts rest e) x

variable {n : Nat} {t : Token} {ts : List Token} {α β : Type}

namespace Spots

variable {x : Parse α} {f : α → Parse β}

theorem pure (a : α) : Spots n (Pure.pure a : Parse α) := Ensures.pure fun ts _ ↦ .refl ts

theorem bind (hx : Spots n x) (hf : ∀ a, Spots n (f a)) : Spots n (x >>= f) :=
  Ensures.bind hx hf (fun _ _ _ hn h ↦ Nat.le_trans h.length_le hn) (fun _ _ _ h ↦ h)
    (fun _ _ _ _ _ h h' ↦ h.trans h') fun _ _ _ _ _ h h' ↦ ⟨h.trans h'.1, h'.2.behind h⟩

theorem map (f : α → β) (hx : Spots n x) : Spots n (f <$> x) := Ensures.map f hx

theorem mono {n' : Nat} (hx : Spots n x) (hn : n' ≤ n) : Spots n' x :=
  fun _ hts ↦ hx (Nat.le_trans hts hn)

theorem spotsAt (hx : Spots n x) : SpotsAt t n x := fun _ hts ↦ hx hts.1

theorem of_nil (hx : x [] = .error .exhausted []) : Spots 0 x := by
  intro ts hts
  obtain rfl := List.length_eq_zero_iff.mp (Nat.le_zero.mp hts)
  rw [hx]
  exact .error ⟨.refl [], .nowhere⟩

/-- Behind a token that has been taken, the bound is smaller. -/
theorem behind (hx : Spots n x) (ht : t.kind ≠ .eof) (hts : (t :: ts).length ≤ n + 1) :
    Ends (fun _ rest ↦ TakenFrom (t :: ts) rest)
      (fun e rest ↦ TakenFrom (t :: ts) rest ∧ FoundAt (t :: ts) rest e) (x ts) := by
  have hone := TakenFrom.one ht ts
  exact (hx (Nat.le_of_succ_le_succ hts)).mono (fun _ _ h ↦ hone.trans h) fun _ _ h ↦
    ⟨hone.trans h.1, h.2.behind hone⟩

end Spots

/-! ## Operations on tokens -/

theorem SpotsAt.throw {cause : ParseCause} (h : cause.Fits t) :
    SpotsAt t n (MonadExcept.throw (.at cause t) : Parse α) := by
  rintro (_ | ⟨t, ts⟩) ⟨_, ⟨⟩⟩
  exact .error ⟨.refl _, .next h⟩

theorem SpotsAt.map {x : Parse α} (f : α → β) (hx : SpotsAt t n x) : SpotsAt t n (f <$> x) :=
  Ensures.map f hx

theorem SpotsAt.take_bind_succ {f : Token → Parse β} (ht : t.kind ≠ .eof) (h : Spots n (f t)) :
    SpotsAt t (n + 1) (Parse.take >>= f) := by
  rintro (_ | ⟨t, ts⟩) ⟨hts, ⟨⟩⟩
  exact h.behind ht hts

theorem SpotsAt.take_bind {f : Token → Parse β} (ht : t.kind ≠ .eof) (h : Spots n (f t)) :
    SpotsAt t n (Parse.take >>= f) :=
  fun _ ⟨hts, hhead⟩ ↦ take_bind_succ ht h ⟨Nat.le_succ_of_le hts, hhead⟩

theorem spots_peek_bind {f : Token → Parse β} (h : ∀ t, SpotsAt t n (f t)) :
    Spots n (Parse.peek >>= f) := by
  rintro (_ | ⟨t, ts⟩) hts
  · exact .error ⟨.refl [], .nowhere⟩
  · exact h t ⟨hts, rfl⟩

theorem spots_accept? {kind : TokenKind} (hkind : kind ≠ .eof) :
    Spots n (Parse.accept? kind) := by
  rintro (_ | ⟨t, ts⟩) _
  · exact .ok (.refl [])
  · rw [Parse.accept?]
    split
    · next ht => exact .ok (.one (ht ▸ hkind) ts)
    · exact .ok (.refl _)

theorem spots_expect (s : Symbol) (what : Expectation) :
    Spots n (Parse.expect (.symbol s) what) := by
  rintro (_ | ⟨t, ts⟩) _
  · exact .error ⟨.refl [], .nowhere⟩
  · rw [Parse.expect]
    split
    · next ht => exact .ok (.one (Likeness.kind_ne_eof_of_symbol ht) ts)
    · exact .error ⟨.refl _, .next trivial⟩

theorem spots_expectName (after : String) : Spots n (Parse.expectName after) := by
  rintro (_ | ⟨t, ts⟩) _
  · exact .error ⟨.refl [], .nowhere⟩
  · rw [Parse.expectName]
    split
    · next s ht => exact .ok (.one (Likeness.kind_ne_eof_of_name ht) ts)
    · exact .error ⟨.refl _, .next trivial⟩

end BlockScript
