import BlockScript.Proofs.Stmt.Resuming

/-!
# The tokens that are skipped

A block goes on behind an error, and for that it skips tokens. They are put in a list here: all
tokens that are skipped while a statement or the rest of a block is parsed, in the blocks inside it
as well, and in their order. The list is computed along with parsing, rule by rule, and a rule
without a statement inside has nothing to add to it.
-/

namespace BlockScript.Stmt

/-- What is skipped behind a rule, which has to succeed for that. -/
def skippedThen {α : Type} (x : Recover α) (next : α → Progress → List Token) (s : Progress) :
    List Token :=
  match x s with
  | .ok a s => next a s
  | .error _ _ => []

/-- The tokens that a block skips behind an error, given those that are left there. -/
def skippedFrom (ts : List Token) : List Token :=
  ts.take (ts.length - (synchronizeInBlock ts).length)

/-- The tokens that a block skips because of one of its statements. -/
def skippedBehind (statement : Recover Stmt) (s : Progress) : List Token :=
  match statement s with
  | .ok _ _ => []
  | .error _ s => skippedFrom s.rest

section Rules

variable (expr : Parse Expr) (body : Recover Stmt) (inside : Progress → List Token)

/-- What is skipped in a choice, if `inside` is skipped in a statement. -/
def skippedInIf : Progress → List Token :=
  skippedThen (liftM Parse.take : Recover Token) fun _ ↦
  skippedThen (liftM expr : Recover Expr) fun _ s ↦
    inside s ++ skippedThen body (fun _ ↦
      skippedThen (liftM (Parse.accept? (.keyword .else_)) : Recover (Option Token)) fun
        | some _ => inside
        | none => fun _ ↦ []) s

/-- What is skipped in a loop with its test in front. -/
def skippedInWhile : Progress → List Token :=
  skippedThen (liftM Parse.take : Recover Token) fun _ ↦
  skippedThen (liftM expr : Recover Expr) fun _ ↦ inside

/-- What is skipped in a counted loop. -/
def skippedInFor : Progress → List Token :=
  skippedThen (liftM Parse.take : Recover Token) fun keyword ↦
  skippedThen (liftM (initialRule expr) : Recover (Option Stmt)) fun _ ↦
  skippedThen (liftM (conditionRule expr keyword.line) : Recover Expr) fun _ ↦
  skippedThen (liftM (incrementRule expr) : Recover (Option Expr)) fun _ ↦ inside

/-- What is skipped in a repetition. -/
def skippedInRepeat : Progress → List Token :=
  skippedThen (liftM Parse.take : Recover Token) fun _ ↦ inside

/-- What is skipped in a block: in each of its statements, and behind those that fail. -/
def skippedInBlock : Nat → Progress → List Token
  | 0, _ => []
  | bound + 1, s =>
    match s.rest with
    | [] => []
    | t :: _ =>
      if t.kind = .symbol .rightBrace then []
      else if t.kind = .eof then []
      else inside s ++ skippedBehind body s ++
        skippedInBlock bound (recorded body synchronizeInBlock s).2

/-- What is skipped in a statement, given what is skipped in the statements inside it. -/
def skippedInForm (bound : Nat) : Progress → List Token :=
  skippedThen (liftM Parse.peek : Recover Token) fun t ↦
    match t.kind with
    | .symbol .leftBrace =>
      skippedThen (liftM Parse.take : Recover Token) fun _ ↦ skippedInBlock body inside bound
    | .keyword .if_ => skippedInIf expr body inside
    | .keyword .while_ => skippedInWhile expr inside
    | .keyword .for_ => skippedInFor expr inside
    | .keyword .repeat_ => skippedInRepeat inside
    | _ => fun _ ↦ []

end Rules

/-- What is skipped in a statement of at most `bound` tokens. -/
def skipped : Nat → Progress → List Token
  | 0, _ => []
  | bound + 1, s =>
    skippedInForm (Expr.expression (bound + 1)) (statement bound) (skipped bound) bound s

/-- **The tokens that are skipped** while the rest of a block is parsed. -/
def skippedByBlock (s : Progress) : List Token :=
  skippedInBlock (statement s.rest.length) (skipped s.rest.length) s.rest.length s

variable {α : Type} {x : Recover α} {next : α → Progress → List Token} {s s' : Progress}

theorem skippedThen_of_ok {a : α} (h : x s = .ok a s') : skippedThen x next s = next a s' := by
  rw [skippedThen, h]

theorem skippedThen_of_error {e : ParseError} (h : x s = .error e s') :
    skippedThen x next s = [] := by
  rw [skippedThen, h]

/-! ## Skipping in a block -/

/-- A block skips no brace that could close it. -/
theorem exists_skipped (ts : List Token) :
    ∃ w, ts = w ++ synchronizeInBlock ts ∧ ∀ t ∈ w, t.kind ≠ .symbol .rightBrace := by
  rcases ts with _ | ⟨t, ts⟩
  · exact ⟨[], rfl, List.forall_mem_nil _⟩
  rw [synchronizeInBlock]
  split
  · exact ⟨[], rfl, List.forall_mem_nil _⟩
  next hbrace =>
  by_cases heof : t.kind = .eof
  · rw [synchronize_of_eof heof]
    exact ⟨[], rfl, List.forall_mem_nil _⟩
  · obtain ⟨w, hw, hresumes⟩ := resumes_synchronize heof ts
    obtain ⟨first, w, rfl⟩ := List.exists_cons_of_ne_nil hresumes.ne_nil
    obtain ⟨rfl, -⟩ := List.cons.inj hw
    refine ⟨t :: w, hw, List.forall_mem_cons.mpr ⟨hbrace, fun u hu hk ↦ ?_⟩⟩
    have hboundary := hresumes.boundary u hu
    rw [hk] at hboundary
    cases hboundary

theorem skippedFrom_append (ts : List Token) :
    ts = skippedFrom ts ++ synchronizeInBlock ts ∧
      ∀ t ∈ skippedFrom ts, t.kind ≠ .symbol .rightBrace := by
  obtain ⟨w, hw, hbrace⟩ := exists_skipped ts
  have htake : skippedFrom ts = w := by
    have hlength := congrArg List.length hw
    rw [List.length_append] at hlength
    rw [skippedFrom, show ts.length - (synchronizeInBlock ts).length = w.length by omega]
    nth_rewrite 1 [hw]
    exact List.take_left
  rw [htake]
  exact ⟨hw, hbrace⟩

end BlockScript.Stmt
