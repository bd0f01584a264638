import BlockScript.Proofs.Token.Taking

/-!
# Two parsers in lockstep

Parsers are compared by running two of them on two lists of tokens at once. As long as the lists
look alike, both take the same number of tokens, and they end in the same way. Several facts about a
single parser are facts about such a pair.

* With different bounds on their depth, the pair shows that a bound is never reached.
* On lists that differ behind the mark of the end, it shows that nothing there is looked at.
* On lists that differ in lines and in the texts of tokens, it shows that nothing is decided by
  these.

What counts as alike is left open (`Likeness`), since the first two facts are about equal results
and the third is about results that are equal up to lines. The mark of the end is never taken. This
is a part of what lockstep means, because that mark is where two lists may stop being alike.
-/

namespace BlockScript

/-- What two lists of tokens are compared up to. -/
structure Likeness where
  /-- What is left of a line. -/
  line : Nat → Nat
  /-- What is left of a place. -/
  place : Place → Place

/-- Everything counts. -/
def Likeness.exact : Likeness := ⟨id, id⟩

/-- Neither lines nor texts count. -/
def Likeness.upToLayout : Likeness := ⟨fun _ ↦ 0, fun _ ↦ .atEnd⟩

/-! ## Tokens taken -/

/-- So many tokens have been taken, and the mark of the end is not one of them. -/
def Taken (j : Nat) (ts rest : List Token) : Prop :=
  ∃ w, ts = w ++ rest ∧ w.length = j ∧ ∀ t ∈ w, t.kind ≠ .eof

namespace Taken

variable {j j' : Nat} {t : Token} {ts rest rest' : List Token}

theorem refl (ts : List Token) : Taken 0 ts ts := ⟨[], rfl, rfl, List.forall_mem_nil _⟩

theorem trans (h : Taken j ts rest) (h' : Taken j' rest rest') : Taken (j + j') ts rest' := by
  obtain ⟨w, rfl, rfl, hw⟩ := h
  obtain ⟨w', rfl, rfl, hw'⟩ := h'
  exact ⟨w ++ w', (List.append_assoc ..).symm, List.length_append,
    List.forall_mem_append.mpr ⟨hw, hw'⟩⟩

theorem one (ht : t.kind ≠ .eof) (ts : List Token) : Taken 1 (t :: ts) ts :=
  ⟨[t], rfl, rfl, List.forall_mem_singleton.mpr ht⟩

theorem length (h : Taken j ts rest) : ts.length = j + rest.length := by
  obtain ⟨w, rfl, rfl, -⟩ := h
  exact List.length_append

theorem eq_of_zero (h : Taken 0 ts rest) : rest = ts := by
  obtain ⟨w, rfl, hw, -⟩ := h
  rw [List.length_eq_zero_iff.mp hw, List.nil_append]

end Taken

namespace Likeness

variable (L : Likeness)

/-- Tokens that look alike. The texts of keywords count in any case, since errors name them. -/
structure Same (t t' : Token) : Prop where
  /-- They are of one kind. -/
  kind : t.kind = t'.kind
  /-- Their lines look alike. -/
  line : L.line t.line = L.line t'.line
  /-- As places of an error they look alike. -/
  place : L.place t.place = L.place t'.place
  /-- Keywords have one text. -/
  lexeme {k : Keyword} : t.kind = .keyword k → t.lexeme = t'.lexeme

/-- Errors that look alike: they have one cause. -/
structure SameError (e e' : ParseError) : Prop where
  /-- They have one cause. -/
  cause : e.cause = e'.cause
  /-- Their places look alike. -/
  place : L.place e.place = L.place e'.place
  line : L.line e.line = L.line e'.line

/-- Lists of tokens that look alike up to the first mark of the end. -/
inductive Alike : List Token → List Token → Prop where
  | nil : Alike [] []
  | eof {t t' : Token} {ts ts' : List Token} : L.Same t t' → t.kind = .eof →
    Alike (t :: ts) (t' :: ts')
  | cons {t t' : Token} {ts ts' : List Token} : L.Same t t' → t.kind ≠ .eof → Alike ts ts' →
    Alike (t :: ts) (t' :: ts')

/-- From two lists, equally many tokens have been taken, at least `k`, and what is left looks
alike. -/
def Lockstep (k : Nat) (ts ts' rest rest' : List Token) : Prop :=
  ∃ j, k ≤ j ∧ Taken j ts rest ∧ Taken j ts' rest' ∧ L.Alike rest rest'

/-- Two lists look alike and are within bounds. -/
structure Ready (n m : Nat) (ts ts' : List Token) : Prop where
  /-- They look alike. -/
  alike : L.Alike ts ts'
  /-- The first is within its bound. -/
  length_le : ts.length ≤ n
  /-- The second is within its bound. -/
  length_le' : ts'.length ≤ m

/-- Two lists are ready and begin with these tokens. -/
def ReadyAt (t t' : Token) (n m : Nat) (ts ts' : List Token) : Prop :=
  L.Ready n m ts ts' ∧ ts.head? = some t ∧ ts'.head? = some t'

/-- **Lockstep.** Within bounds, two rules end in the same way on lists that look alike, and take at
least `k` tokens if they succeed. -/
def Steps {α : Type} (n m k : Nat) (A : α → α → Prop) (x y : Parse α) : Prop :=
  InStep (L.Ready n m) (L.Lockstep k) (L.Lockstep 0) L.SameError A x y

/-- The same on lists that begin with these tokens. -/
def StepsAt {α : Type} (t t' : Token) (n m k : Nat) (A : α → α → Prop) (x y : Parse α) : Prop :=
  InStep (L.ReadyAt t t' n m) (L.Lockstep k) (L.Lockstep 0) L.SameError A x y

variable {L} {n m k k' : Nat} {t t' : Token} {ts ts' rest rest' : List Token}

theorem SameError.exhausted : L.SameError .exhausted .exhausted := ⟨rfl, rfl, rfl⟩

theorem Same.error (h : L.Same t t') (cause : ParseCause) :
    L.SameError (.at cause t) (.at cause t') := ⟨rfl, h.place, h.line⟩

private theorem kind_ne_eof_of_eq {kind : TokenKind} (h : t.kind = kind) (hkind : kind ≠ .eof) :
    t.kind ≠ .eof := h ▸ hkind

theorem kind_ne_eof_of_symbol {s : Symbol} (h : t.kind = .symbol s) : t.kind ≠ .eof :=
  kind_ne_eof_of_eq h nofun

theorem kind_ne_eof_of_keyword {k : Keyword} (h : t.kind = .keyword k) : t.kind ≠ .eof :=
  kind_ne_eof_of_eq h nofun

theorem kind_ne_eof_of_name {s : String} (h : t.kind = .name s) : t.kind ≠ .eof :=
  kind_ne_eof_of_eq h nofun

theorem Same.kind_ne_eof (h : L.Same t t') (ht : t.kind ≠ .eof) : t'.kind ≠ .eof := h.kind ▸ ht

theorem Alike.same (h : L.Alike (t :: ts) (t' :: ts')) : L.Same t t' := by
  cases h with
  | eof hsame _ => exact hsame
  | cons hsame _ _ => exact hsame

theorem Alike.tail (h : L.Alike (t :: ts) (t' :: ts')) (ht : t.kind ≠ .eof) : L.Alike ts ts' := by
  cases h with
  | eof _ heof => exact absurd heof ht
  | cons _ _ hts => exact hts

theorem Alike.nil_or_cons (h : L.Alike ts ts') :
    (ts = [] ∧ ts' = []) ∨ ∃ t rest t' rest', ts = t :: rest ∧ ts' = t' :: rest' := by
  cases h with
  | nil => exact .inl ⟨rfl, rfl⟩
  | eof _ _ => exact .inr ⟨_, _, _, _, rfl, rfl⟩
  | cons _ _ _ => exact .inr ⟨_, _, _, _, rfl, rfl⟩

theorem Ready.pos (h : L.Ready n m (t :: ts) (t' :: ts')) : 0 < n ∧ 0 < m :=
  ⟨Nat.lt_of_lt_of_le (Nat.succ_pos _) h.length_le,
    Nat.lt_of_lt_of_le (Nat.succ_pos _) h.length_le'⟩

theorem Ready.mono {n' m' : Nat} (h : L.Ready n m ts ts') (hn : n ≤ n') (hm : m ≤ m') :
    L.Ready n' m' ts ts' :=
  ⟨h.alike, Nat.le_trans h.length_le hn, Nat.le_trans h.length_le' hm⟩

namespace Lockstep

theorem refl (h : L.Alike ts ts') : L.Lockstep 0 ts ts' ts ts' :=
  ⟨0, Nat.le_refl 0, .refl ts, .refl ts', h⟩

theorem trans {mid mid' : List Token} (h : L.Lockstep k ts ts' mid mid')
    (h' : L.Lockstep k' mid mid' rest rest') : L.Lockstep (k + k') ts ts' rest rest' := by
  obtain ⟨j, hj, ht, ht', -⟩ := h
  obtain ⟨i, hi, hu, hu', halike⟩ := h'
  exact ⟨j + i, Nat.add_le_add hj hi, ht.trans hu, ht'.trans hu', halike⟩

theorem mono (h : L.Lockstep k ts ts' rest rest') (hk : k' ≤ k) :
    L.Lockstep k' ts ts' rest rest' := by
  obtain ⟨j, hj, htaken⟩ := h
  exact ⟨j, Nat.le_trans hk hj, htaken⟩

theorem one (h : L.Alike (t :: ts) (t' :: ts')) (ht : t.kind ≠ .eof) :
    L.Lockstep 1 (t :: ts) (t' :: ts') ts ts' :=
  ⟨1, Nat.le_refl 1, .one ht ts, .one (h.same.kind_ne_eof ht) ts', h.tail ht⟩

theorem alike (h : L.Lockstep k ts ts' rest rest') : L.Alike rest rest' := by
  obtain ⟨_, _, _, _, halike⟩ := h
  exact halike

/-- Tokens that have been taken are not there any more. -/
theorem ready (h : L.Lockstep k ts ts' rest rest') (hready : L.Ready (n + k) (m + k) ts ts') :
    L.Ready n m rest rest' := by
  obtain ⟨j, hj, ht, ht', halike⟩ := h
  have hle := hready.length_le
  have hle' := hready.length_le'
  rw [ht.length] at hle
  rw [ht'.length] at hle'
  exact ⟨halike, by omega, by omega⟩

end Lockstep

/-! ## Rules in lockstep -/

namespace Steps

variable {α β : Type} {A : α → α → Prop} {B : β → β → Prop} {x y : Parse α} {f g : α → Parse β}

theorem pure {a a' : α} (h : A a a') : L.Steps n m 0 A (Pure.pure a) (Pure.pure a') :=
  InStep.pure (fun _ _ hready ↦ .refl hready.alike) h

theorem throw {e e' : ParseError} (h : L.SameError e e') :
    L.Steps n m k A (MonadExcept.throw e) (MonadExcept.throw e') :=
  InStep.throw (fun _ _ hready ↦ .refl hready.alike) h

/-- What the second rule takes is taken by both together. -/
theorem bind (hx : L.Steps n m k' A x y)
    (hf : ∀ a a', A a a' → L.Steps n m k B (f a) (g a')) :
    L.Steps n m k B (x >>= f) (y >>= g) :=
  InStep.bind hx hf (fun _ _ _ _ hready h ↦ (h.mono (Nat.zero_le k')).ready hready)
    (fun _ _ _ _ h ↦ h) (fun _ _ _ _ _ _ h h' ↦ (h.trans h').mono (Nat.le_add_left k k'))
    fun _ _ _ _ _ _ h h' ↦ (h.trans h').mono (Nat.zero_le _)

/-- So is what the first rule takes. -/
theorem bind_left (hx : L.Steps n m k A x y)
    (hf : ∀ a a', A a a' → L.Steps n m 0 B (f a) (g a')) :
    L.Steps n m k B (x >>= f) (y >>= g) :=
  InStep.bind hx hf (fun _ _ _ _ hready h ↦ (h.mono (Nat.zero_le k)).ready hready)
    (fun _ _ _ _ h ↦ h) (fun _ _ _ _ _ _ h h' ↦ h.trans h')
    fun _ _ _ _ _ _ h h' ↦ (h.trans h').mono (Nat.zero_le _)

theorem map {h : α → β} (hh : ∀ a a', A a a' → B (h a) (h a')) (hx : L.Steps n m k A x y) :
    L.Steps n m k B (h <$> x) (h <$> y) := InStep.map hh hx

theorem mono {n' m' : Nat} (h : L.Steps n m k A x y) (hn : n' ≤ n) (hm : m' ≤ m) (hk : k' ≤ k) :
    L.Steps n' m' k' A x y := fun _ _ hready ↦
  (h (hready.mono hn hm)).mono (fun _ _ h ↦ h) (fun _ _ h ↦ h.mono hk) fun _ _ h ↦ h

/-- Where there is no bound, there are no tokens. -/
theorem of_nil (hx : x [] = .error .exhausted []) (hy : y [] = .error .exhausted [])
    (h : n = 0 ∨ m = 0) : L.Steps n m k A x y := by
  intro ts ts' hready
  obtain ⟨rfl, rfl⟩ | ⟨t, ts, t', ts', rfl, rfl⟩ := hready.alike.nil_or_cons
  · rw [hx, hy]
    exact .error .exhausted (.refl .nil)
  · have hpos := hready.pos
    omega

theorem stepsAt (h : L.Steps n m k A x y) : L.StepsAt t t' n m k A x y :=
  fun _ _ hready ↦ h hready.1

end Steps

/-! ## Operations on tokens in lockstep -/

variable {α β : Type} {A : α → α → Prop} {B : β → β → Prop}

/-- Behind a token that has been taken, bounds are smaller. -/
theorem Steps.behind {x y : Parse β} (h : L.Steps n m k B x y) (ht : t.kind ≠ .eof)
    (hready : L.Ready (n + 1) (m + 1) (t :: ts) (t' :: ts')) :
    Agree B L.SameError (L.Lockstep (1 + k) (t :: ts) (t' :: ts'))
      (L.Lockstep 0 (t :: ts) (t' :: ts')) (x ts) (y ts') := by
  have hone := Lockstep.one hready.alike ht
  exact (h (hone.ready hready)).mono (fun _ _ h ↦ h) (fun _ _ h ↦ hone.trans h)
    fun _ _ h ↦ (hone.trans h).mono (Nat.zero_le _)

/-- To look at the next token is to know with which tokens the lists begin. -/
theorem steps_peek_bind {f g : Token → Parse β}
    (h : ∀ t t', L.Same t t' → L.StepsAt t t' n m k B (f t) (g t')) :
    L.Steps n m k B (Parse.peek >>= f) (Parse.peek >>= g) := by
  intro ts ts' hready
  obtain ⟨rfl, rfl⟩ | ⟨t, ts, t', ts', rfl, rfl⟩ := hready.alike.nil_or_cons
  · exact .error .exhausted (.refl .nil)
  · exact h t t' hready.alike.same ⟨hready, rfl, rfl⟩

/-- To take a token is to go on with what is behind it. -/
theorem StepsAt.take_bind_succ {f g : Token → Parse β} (ht : t.kind ≠ .eof)
    (h : L.Steps n m 0 B (f t) (g t')) :
    L.StepsAt t t' (n + 1) (m + 1) 1 B (Parse.take >>= f) (Parse.take >>= g) := by
  rintro (_ | ⟨t, ts⟩) (_ | ⟨t', ts'⟩) ⟨hready, ⟨⟩, ⟨⟩⟩
  exact h.behind ht hready

theorem StepsAt.take_bind {f g : Token → Parse β} (ht : t.kind ≠ .eof)
    (h : L.Steps n m 0 B (f t) (g t')) :
    L.StepsAt t t' n m 1 B (Parse.take >>= f) (Parse.take >>= g) :=
  fun _ _ ⟨hready, hhead⟩ ↦
    take_bind_succ ht h ⟨hready.mono (Nat.le_succ n) (Nat.le_succ m), hhead⟩

/-- A token that may be there is taken from both lists or from none. -/
theorem steps_accept?_bind {kind : TokenKind} (hkind : kind ≠ .eof)
    {f g : Option Token → Parse β}
    (hsome : ∀ t t', L.Same t t' → L.Steps n m k B (f (some t)) (g (some t')))
    (hnone : L.Steps (n + 1) (m + 1) k B (f none) (g none)) :
    L.Steps (n + 1) (m + 1) k B (Parse.accept? kind >>= f) (Parse.accept? kind >>= g) := by
  intro ts ts' hready
  obtain ⟨rfl, rfl⟩ | ⟨t, ts, t', ts', rfl, rfl⟩ := hready.alike.nil_or_cons
  · exact hnone hready
  have hsame := hready.alike.same
  by_cases ht : t.kind = kind
  · have haccept : Parse.accept? kind (t :: ts) = .ok (some t) ts := if_pos ht
    have haccept' : Parse.accept? kind (t' :: ts') = .ok (some t') ts' :=
      if_pos (hsame.kind ▸ ht)
    rw [bind_of_ok haccept, bind_of_ok haccept']
    exact ((hsome t t' hsame).behind (kind_ne_eof_of_eq ht hkind) hready).mono (fun _ _ h ↦ h)
      (fun _ _ h ↦ h.mono (Nat.le_add_left k 1)) fun _ _ h ↦ h
  · have haccept : Parse.accept? kind (t :: ts) = .ok none (t :: ts) := if_neg ht
    have haccept' : Parse.accept? kind (t' :: ts') = .ok none (t' :: ts') :=
      if_neg (hsame.kind ▸ ht)
    rw [bind_of_ok haccept, bind_of_ok haccept']
    exact hnone hready

theorem steps_accept? {kind : TokenKind} (hkind : kind ≠ .eof) :
    L.Steps n m 0 (Option.Rel L.Same) (Parse.accept? kind) (Parse.accept? kind) := by
  intro ts ts' hready
  obtain ⟨rfl, rfl⟩ | ⟨t, ts, t', ts', rfl, rfl⟩ := hready.alike.nil_or_cons
  · exact .ok .none (.refl .nil)
  have hsame := hready.alike.same
  rw [Parse.accept?, Parse.accept?, ← hsame.kind]
  split
  · next ht =>
    have hone := Lockstep.one hready.alike (kind_ne_eof_of_eq ht hkind)
    exact .ok (.some hsame) (hone.mono (Nat.zero_le 1))
  · exact .ok .none (.refl hready.alike)

theorem steps_expect (s : Symbol) (what : Expectation) :
    L.Steps n m 1 L.Same (Parse.expect (.symbol s) what) (Parse.expect (.symbol s) what) := by
  intro ts ts' hready
  obtain ⟨rfl, rfl⟩ | ⟨t, ts, t', ts', rfl, rfl⟩ := hready.alike.nil_or_cons
  · exact .error .exhausted (.refl .nil)
  have hsame := hready.alike.same
  rw [Parse.expect, Parse.expect, ← hsame.kind]
  split
  · next ht => exact .ok hsame (.one hready.alike (kind_ne_eof_of_symbol ht))
  · exact .error (hsame.error _) (.refl hready.alike)

theorem steps_expectName (after : String) :
    L.Steps n m 1 Eq (Parse.expectName after) (Parse.expectName after) := by
  intro ts ts' hready
  obtain ⟨rfl, rfl⟩ | ⟨t, ts, t', ts', rfl, rfl⟩ := hready.alike.nil_or_cons
  · exact .error .exhausted (.refl .nil)
  have hsame := hready.alike.same
  rw [Parse.expectName, Parse.expectName, ← hsame.kind]
  split
  · next s hs => exact .ok rfl (.one hready.alike (kind_ne_eof_of_name hs))
  · exact .error (hsame.error _) (.refl hready.alike)

end Likeness

end BlockScript
