import BlockScript.Proofs.Program.Progress
import BlockScript.Proofs.Stmt.Border
import BlockScript.Proofs.Stmt.Skipped
import BlockScript.Proofs.Token.Braces

/-!
# The brace that closes a block

If braces are balanced inside a block, it should be closed by the brace behind them. Whether it is
depends on recovery, which skips tokens without counting the braces among them. A brace that closes
a block is never skipped, as skipping stops in front of it, but one that opens a block may be. Then
the brace that belongs to it closes the block around it instead.

Every rule keeps an account of the braces it takes (`Balances`). Rules for expressions take none, a
block takes its own two, and what is skipped behind an error goes down as skipped. Only where the
tokens end inside a block there is no account. So a block is closed by the right brace if and only
if no brace has been skipped that opens one, and never by a later one.
-/

namespace BlockScript

open Border (Heeds HeedsAt heeds_accept? heeds_expect)

variable {t : Token} {ts rest : List Token}

/-! ## Rules that keep an account -/

/-- Within a bound, a rule keeps an account of the braces it takes, given what is skipped in it. It
can fail to do so only by coming to the end of the tokens. -/
def Balances (n : Nat) {α : Type} (x : Recover α) (log : Progress → List Token) : Prop :=
  Ensures (fun s ↦ s.rest.length ≤ n) (fun s _ r ↦ Spent s.rest (log s) r.rest)
    (fun s _ r ↦ Spent s.rest (log s) r.rest ∨ Unclosed s.rest r.rest) x

def BalancesAt (t : Token) (n : Nat) {α : Type} (x : Recover α) (log : Progress → List Token) :
    Prop :=
  Ensures (fun s ↦ s.rest.length ≤ n ∧ s.rest.head? = some t)
    (fun s _ r ↦ Spent s.rest (log s) r.rest)
    (fun s _ r ↦ Spent s.rest (log s) r.rest ∨ Unclosed s.rest r.rest) x

/-- A list beside itself, up to the first border. -/
def Border.itself : Border where
  inner t := t.kind.isBorder = false
  outer ts ts' := ts = ts' ∧ ∀ t ∈ ts.head?, t.kind.isBorder = true
  not_isBorder_of_inner := id
  outer_nil_or_cons := by
    rintro (_ | ⟨t, ts⟩) _ ⟨rfl, ht⟩
    · exact .inl ⟨rfl, rfl⟩
    · exact .inr ⟨t, ts, t, ts, rfl, rfl, ht t rfl, ht t rfl⟩

private theorem Border.near_itself (ts : List Token) : itself.Near ts ts := by
  induction ts with
  | nil => exact .outer ⟨rfl, fun t ht ↦ absurd ht (Option.not_mem_none t)⟩
  | cons t ts ih =>
    by_cases ht : t.kind.isBorder = true
    · refine .outer ⟨rfl, ?_⟩
      rintro _ ⟨⟩
      exact ht
    · exact .inner (Bool.eq_false_iff.mpr ht) ih

/-- Tokens taken in front of every border are no braces. -/
theorem Border.Passed.spent {rest' : List Token} (h : itself.Passed ts ts rest rest') :
    Spent ts [] rest := by
  obtain ⟨w, hw, -, hinner, -⟩ := h
  exact ⟨w, hw, .of_inner hinner⟩

/-- A rule that cannot recover takes no braces, however it ends. -/
theorem Border.ends_lift {α : Type} {x : Parse α} {s : Progress}
    (h : Agree Eq itself.SameSpot (itself.Passed s.rest s.rest) (itself.Passed s.rest s.rest)
      (x s.rest) (x s.rest)) :
    Ends (fun _ r ↦ Spent s.rest [] r.rest)
      (fun _ r ↦ Spent s.rest [] r.rest ∨ Unclosed s.rest r.rest) ((liftM x : Recover α) s) := by
  obtain ⟨ts, found⟩ := s
  rcases hx : x ts with ⟨a, rest⟩ | ⟨e, rest⟩
  · rw [hx] at h
    obtain ⟨-, hpassed⟩ | _ := h
    rw [Recover.lift_of_ok hx]
    exact .ok hpassed.spent
  · rw [hx] at h
    obtain _ | ⟨-, hpassed⟩ := h
    rw [Recover.lift_of_error hx]
    exact .error (.inl hpassed.spent)

namespace Balances

open Stmt (skippedThen skippedThen_of_ok skippedThen_of_error)

variable {n : Nat} {α β : Type}

theorem pure (a : α) : Balances n (Pure.pure a : Recover α) fun _ ↦ [] :=
  Ensures.pure fun _ _ ↦ .refl _

theorem bind {x : Recover α} {f : α → Recover β} {log : Progress → List Token}
    {next : α → Progress → List Token} (hx : Balances n x log)
    (hf : ∀ a, Balances n (f a) (next a)) :
    Balances n (x >>= f) fun s ↦ log s ++ skippedThen x next s := by
  intro s hs
  have h := hx hs
  rcases hxs : x s with ⟨a, r⟩ | ⟨e, r⟩
  · rw [hxs] at h
    obtain h | _ := h
    have hnext : skippedThen x next s = next a r := skippedThen_of_ok hxs
    dsimp only
    rw [bind_of_ok hxs, hnext]
    exact (hf a (h.length_le hs)).mono (fun _ _ h' ↦ h.trans h') fun _ _ h' ↦
      h'.imp h.trans h.unclosed
  · rw [hxs] at h
    obtain _ | h := h
    have hnext : skippedThen x next s = [] := skippedThen_of_error hxs
    dsimp only
    rw [bind_of_error hxs, hnext, List.append_nil]
    exact .error h

theorem lift {x : Parse α} (hx : Border.itself.Heeds n x) :
    Balances n (liftM x : Recover α) fun _ ↦ [] :=
  fun s hs ↦ Border.ends_lift (hx ⟨Border.near_itself s.rest, hs⟩)

private theorem lift_bind {x : Parse α} {f : α → Recover β} {next : α → Progress → List Token}
    (hx : Border.itself.Heeds n x) (hf : ∀ a, Balances n (f a) (next a)) :
    Balances n ((liftM x : Recover α) >>= f) (skippedThen (liftM x) next) :=
  (lift hx).bind hf

/-- Behind a rule nothing may be skipped any more. -/
theorem bind_left {x : Recover α} {f : α → Recover β} {log : Progress → List Token}
    (hx : Balances n x log) (hf : ∀ a, Balances n (f a) fun _ ↦ []) :
    Balances n (x >>= f) log := by
  have hnil (s : Progress) : skippedThen x (fun _ _ ↦ []) s = [] := by
    rw [skippedThen]
    split <;> rfl
  have h := hx.bind hf
  simp only [hnil, List.append_nil] at h
  exact h

end Balances

namespace BalancesAt

open Stmt (skippedThen)

variable {n : Nat} {α β : Type}

theorem lift {x : Parse α} (hx : Border.itself.HeedsAt t n x) :
    BalancesAt t n (liftM x : Recover α) fun _ ↦ [] :=
  fun s ⟨hs, hhead⟩ ↦ Border.ends_lift (hx ⟨⟨Border.near_itself s.rest, hs⟩, hhead, hhead⟩)

theorem peek_bind {f : Token → Recover β} {next : Token → Progress → List Token}
    (h : BalancesAt t n (f t) (next t)) :
    BalancesAt t n ((liftM Parse.peek : Recover Token) >>= f)
      (skippedThen (liftM Parse.peek : Recover Token) next) := by
  rintro ⟨_ | ⟨t, ts⟩, found⟩ ⟨hs, ⟨⟩⟩
  exact h ⟨hs, rfl⟩

theorem take_bind {f : Token → Recover β} {next : Token → Progress → List Token}
    (ht : t.kind.isBorder = false) (h : Balances n (f t) (next t)) :
    BalancesAt t (n + 1) ((liftM Parse.take : Recover Token) >>= f)
      (skippedThen (liftM Parse.take : Recover Token) next) := by
  rintro ⟨_ | ⟨t, ts⟩, found⟩ ⟨hs, ⟨⟩⟩
  have hone : Spent (t :: ts) [] ts := ⟨[t], rfl, .of_inner (List.forall_mem_singleton.mpr ht)⟩
  have hrest := @h ⟨ts, found⟩ (Nat.le_of_succ_le_succ hs)
  exact hrest.mono (fun _ _ h ↦ hone.trans h) fun _ _ h ↦ h.imp hone.trans hone.unclosed

end BalancesAt

namespace Stmt

variable {n b : Nat} {expr : Parse Expr} {body : Recover Stmt} {inside : Progress → List Token}

/-! ## Choices and loops -/

private theorem balancesAt_ifRule (ht : t.kind.isBorder = false)
    (hexpr : Border.itself.Heeds n expr) (hbody : Balances n body inside) :
    BalancesAt t (n + 1) (ifRule expr body) (skippedInIf expr body inside) := by
  refine .take_bind ht (.lift_bind hexpr fun c ↦ hbody.bind fun yes ↦
    .lift_bind (heeds_accept? rfl) fun alternative ↦ ?_)
  rcases alternative with _ | _
  · exact .pure _
  · exact hbody.bind_left fun _ ↦ .pure _

private theorem balancesAt_whileRule (ht : t.kind.isBorder = false)
    (hexpr : Border.itself.Heeds n expr) (hbody : Balances n body inside) :
    BalancesAt t (n + 1) (whileRule expr body) (skippedInWhile expr inside) :=
  .take_bind ht (.lift_bind hexpr fun _ ↦ hbody.bind_left fun _ ↦ .pure _)

private theorem balancesAt_forRule (ht : t.kind.isBorder = false)
    (hexpr : Border.itself.Heeds n expr) (hborder : Border.Refuses .expectedExpression expr)
    (hbody : Balances n body inside) :
    BalancesAt t (n + 1) (forRule expr body) (skippedInFor expr inside) := by
  refine .take_bind ht (.lift_bind (heeds_initialRule hexpr hborder) fun initial ↦
    .lift_bind (heeds_conditionRule hexpr hborder _) fun c ↦
    .lift_bind (heeds_incrementRule hexpr) fun step ↦ hbody.bind_left fun s ↦ ?_)
  rcases initial with _ | _
  · exact .pure _
  · exact .pure _

private theorem balancesAt_repeatRule (ht : t.kind.isBorder = false)
    (hexpr : Border.itself.Heeds n expr) (hbody : Balances n body inside) :
    BalancesAt t (n + 1) (repeatRule expr body) (skippedInRepeat inside) := by
  refine .take_bind ht (hbody.bind_left fun s ↦ ?_)
  exact (Balances.lift (heeds_repeatTail hexpr s _)).bind_left fun _ ↦
    (Balances.lift (heeds_expect rfl _)).bind_left fun _ ↦ .pure _

/-! ## Blocks -/

private theorem synchronizeInBlock_of_end (h : ∀ t ∈ ts.head?, t.kind = .eof) :
    synchronizeInBlock ts = ts := by
  rcases ts with _ | ⟨t, ts⟩
  · rfl
  · have ht : t.kind = .eof := h t rfl
    rw [synchronizeInBlock, if_neg (by simp [ht]), synchronize_of_eof ht]

/-- Where the tokens have come to an end, a block is not closed. -/
theorem blockRule_of_end {s : Progress} (h : ∀ t ∈ s.rest.head?, t.kind = .eof)
    (body : Recover Stmt) (bound : Nat) : ∃ e, blockRule body bound s = .error e s := by
  obtain ⟨_ | ⟨t, ts⟩, found⟩ := s
  · exact ⟨_, blockRule_nil body bound found⟩
  · have ht : t.kind = .eof := h t rfl
    rcases bound with _ | bound
    · exact ⟨_, rfl⟩
    · rw [blockRule]
      dsimp only
      rw [if_neg (by simp [ht]), if_pos ht]
      exact ⟨_, rfl⟩

/-- One statement of a block, and what is skipped behind it. -/
theorem spent_recorded {s : Progress} (h : Balances n body inside) (hs : s.rest.length ≤ n) :
    Spent s.rest (inside s ++ skippedBehind body s) (recorded body synchronizeInBlock s).2.rest ∨
      Unclosed s.rest (recorded body synchronizeInBlock s).2.rest := by
  have hbody := h hs
  rw [skippedBehind, recorded]
  generalize body s = x at hbody ⊢
  rcases hbody with hspent | hspent | ⟨w, hw, hnested, hend⟩
  · left
    rw [List.append_nil]
    exact hspent
  · obtain ⟨happend, hbrace⟩ := skippedFrom_append _
    exact .inl (hspent.trans ⟨_, happend, .of_skipped hbrace⟩)
  · dsimp only
    rw [synchronizeInBlock_of_end hend]
    exact .inr ⟨w, hw, hnested, hend⟩

/-- **Blocks.** A block is closed by a brace with an account of the tokens in front of it, or the
tokens come to an end. -/
theorem closes_blockRule (h : Balances n (statement n) inside) (hb : b ≤ n) :
    Ensures (fun s ↦ s.rest.length ≤ b)
      (fun s _ r ↦ ∃ brace : Token, brace.kind = .symbol .rightBrace ∧
        Spent s.rest (skippedInBlock (statement n) inside b s) (brace :: r.rest))
      (fun s _ r ↦ Unclosed s.rest r.rest) (blockRule (statement n) b) := by
  have hunclosed {ts : List Token} (hend : ∀ t ∈ ts.head?, t.kind = .eof) : Unclosed ts ts :=
    ⟨[], rfl, nested_of_occurrences_eq_zero rfl, hend⟩
  have hnil : Unclosed [] [] := hunclosed fun t ht ↦ absurd ht (Option.not_mem_none t)
  induction b with
  | zero =>
    rintro ⟨ts, found⟩ hs
    obtain rfl := List.length_eq_zero_iff.mp (Nat.le_zero.mp hs)
    exact .error hnil
  | succ b ih =>
    rintro ⟨_ | ⟨t, ts⟩, found⟩ hs
    · exact .error hnil
    dsimp only
    rw [blockRule, skippedInBlock]
    dsimp only
    split
    · next hbrace => exact .ok ⟨t, hbrace, .refl _⟩
    next hbrace =>
    split
    · next heof =>
      refine .error (hunclosed ?_)
      rintro _ ⟨⟩
      exact heof
    next heof =>
    have hround := spent_recorded (s := ⟨t :: ts, found⟩) h (Nat.le_trans hs hb)
    obtain ⟨j, hj, htaken⟩ := taken_recorded_synchronizeInBlock (s := ⟨t :: ts, found⟩)
      (Nat.le_trans hs hb) rfl heof hbrace
    have hlength := htaken.length
    generalize recorded (statement n) synchronizeInBlock ⟨t :: ts, found⟩ = r at *
    have hle : r.2.rest.length ≤ b := by
      simp only [List.length_cons] at hs hlength
      omega
    have hothers := ih (by omega) hle
    rcases hround with hspent | ⟨w, hw, hnested, hend⟩
    · generalize blockRule (statement n) b r.2 = x at hothers ⊢
      rcases hothers with ⟨brace, hkind, hrest⟩ | hrest
      · exact .ok ⟨brace, hkind, hspent.trans hrest⟩
      · exact .error (hspent.unclosed hrest)
    · obtain ⟨e, he⟩ := blockRule_of_end hend (statement n) b
      rw [he]
      exact .error ⟨w, hw, hnested, hend⟩

private theorem balancesAt_block (ht : t.kind = .symbol .leftBrace)
    (h : Balances n (statement n) inside) :
    BalancesAt t (n + 1)
      ((liftM Parse.take : Recover Token) >>= fun _ ↦ blockRule (statement n) n >>= fun body ↦
        pure (block body t.line))
      (skippedThen (liftM Parse.take : Recover Token) fun _ ↦
        skippedInBlock (statement n) inside n) := by
  rintro ⟨_ | ⟨t, ts⟩, found⟩ ⟨hs, ⟨⟩⟩
  have hblock := @closes_blockRule _ _ _ h (Nat.le_refl n) ⟨ts, found⟩ (Nat.le_of_succ_le_succ hs)
  have hlog : skippedThen (liftM Parse.take : Recover Token)
      (fun _ ↦ skippedInBlock (statement n) inside n) ⟨t :: ts, found⟩ =
        skippedInBlock (statement n) inside n ⟨ts, found⟩ := rfl
  dsimp only
  rw [hlog, bind_of_ok (Recover.lift_of_ok (Parse.take_eq_ok_iff.mpr rfl))]
  rcases hresult : blockRule (statement n) n ⟨ts, found⟩ with ⟨statements, r⟩ | ⟨e, r⟩
  · rw [hresult] at hblock
    obtain ⟨brace, hbrace, w, hw, haccounts⟩ | _ := hblock
    rw [bind_of_ok hresult]
    refine .ok ⟨t :: w ++ [brace], ?_, haccounts.enclosed ht hbrace⟩
    rw [List.append_assoc, List.cons_append, List.singleton_append, ← hw]
  · rw [hresult] at hblock
    obtain _ | ⟨w, hw, hnested, hend⟩ := hblock
    rw [bind_of_error hresult]
    have hone : Nested [t] := nested_of_occurrences_eq_zero (occurrences_singleton ht _)
    exact .error (.inr ⟨t :: w, congrArg (t :: ·) hw, hone.append hnested, hend⟩)

/-! ## Statements -/

private theorem balances_form (hexpr : Border.itself.Heeds (n + 1) expr)
    (hborder : Border.Refuses .expectedExpression expr) (h : Balances n (statement n) inside) :
    Balances (n + 1) (form expr (statement n) n) (skippedInForm expr (statement n) inside n) := by
  have hexpr' := hexpr.mono (Nat.le_succ n)
  rintro ⟨_ | ⟨t, ts⟩, found⟩ hs
  · exact .error (.inl (.refl []))
  have hat : BalancesAt t (n + 1) (form expr (statement n) n)
      (skippedInForm expr (statement n) inside n) := by
    refine .peek_bind ?_
    obtain ⟨kind, lexeme, line⟩ := t
    have hinner (k : Keyword) : Border.itself.inner ⟨.keyword k, lexeme, line⟩ := rfl
    dsimp only
    split
    · exact .lift (heedsAt_writeRule hexpr (hinner _) _)
    · exact .lift (heedsAt_writeRule hexpr (hinner _) _)
    · exact .lift (heedsAt_readRule (hinner _) _)
    · exact .lift (heedsAt_readRule (hinner _) _)
    · exact .lift (heedsAt_declareRule hexpr (hinner _))
    · exact balancesAt_block rfl h
    · exact balancesAt_ifRule (hinner _) hexpr' h
    · exact balancesAt_whileRule (hinner _) hexpr' h
    · exact balancesAt_forRule (hinner _) hexpr' hborder h
    · exact balancesAt_repeatRule (hinner _) hexpr' h
    · exact .lift (heedsAt_jumpRule (hinner _) _)
    · exact .lift (heedsAt_jumpRule (hinner _) _)
    · -- the kinds that are left have no statement inside, so nothing is skipped
      split
      · split <;> first | contradiction | exact Ensures.throw fun _ _ ↦ .inl (.refl _)
      · split <;> first | contradiction | exact .lift (heeds_expressionRule hexpr hborder).heedsAt
  exact hat ⟨hs, rfl⟩

/-- **Statements.** -/
theorem balances_statement (n : Nat) : Balances n (statement n) (Stmt.skipped n) := by
  induction n with
  | zero =>
    rintro ⟨ts, found⟩ hs
    exact .error (.inl (.refl ts))
  | succ n ih =>
    exact balances_form (Expr.heeds_expression (n + 1)) (Expr.refuses_expression n) ih

end Stmt

/-- **The brace that closes a block.** Let braces be balanced in some tokens that do not contain the
mark of the end, and let a brace that closes a block follow. A block that begins with these tokens
is always closed, by that brace or by one in front of it, whatever is wrong in the block. No brace
that closes a block is skipped. In front of the brace that closes this one, there are as many braces
more that open a block as have been skipped. It is the right one if and only if none has been
skipped. -/
theorem parseBlock_closes (seg rest : List Token) (brace : Token)
    (hend : ∀ t ∈ seg, t.kind ≠ .eof) (hseg : Balanced seg)
    (hbrace : brace.kind = .symbol .rightBrace) (line : Nat) (found : List ParseError) :
    ∃ body w close tail found',
      seg ++ [brace] = w ++ close :: tail ∧ close.kind = .symbol .rightBrace ∧
      Stmt.parseBlock line ⟨seg ++ brace :: rest, found⟩ =
        .ok (.block body line) ⟨tail ++ rest, found'⟩ ∧
      Accounts w (Stmt.skippedByBlock ⟨seg ++ brace :: rest, found⟩) ∧
      (∀ t ∈ Stmt.skippedByBlock ⟨seg ++ brace :: rest, found⟩,
        t.kind ≠ .symbol .rightBrace) ∧
      (tail = [] ↔ ∀ t ∈ Stmt.skippedByBlock ⟨seg ++ brace :: rest, found⟩,
        t.kind ≠ .symbol .leftBrace) := by
  have hblock := Stmt.closes_blockRule (Stmt.balances_statement _) (Nat.le_refl _)
    (s := ⟨seg ++ brace :: rest, found⟩) (Nat.le_refl _)
  simp only [← occurrences_eq_zero_iff]
  rw [Stmt.parseBlock, Stmt.skippedByBlock]
  dsimp only at hblock ⊢
  generalize Stmt.blockRule _ _ _ = x at hblock ⊢
  rcases hblock with @⟨body, r, close, hclose, hspent⟩ | hunclosed
  · obtain ⟨w, tail, hw, hrest, haccounts, htail⟩ := hseg.closes hbrace hclose hspent
    have hnone := occurrences_eq_zero_iff.mpr haccounts.rightBrace_ne
    refine ⟨body, w, close, tail, r.found, hw, hclose, ?_, haccounts, hnone, htail⟩
    rw [← hrest]
  · exact absurd hunclosed (hseg.not_unclosed hend hbrace)

/-- An error in a block inside the block: `{ ; } }`. -/
theorem parseBlock_closes_nested :
    Balanced [⟨.symbol .leftBrace, "\x7b", 1⟩, ⟨.symbol .semicolon, ";", 1⟩,
      ⟨.symbol .rightBrace, "\x7d", 1⟩] ∧
    ∃ body w close tail found',
      [⟨.symbol .leftBrace, "\x7b", 1⟩, ⟨.symbol .semicolon, ";", 1⟩,
        ⟨.symbol .rightBrace, "\x7d", 1⟩, ⟨.symbol .rightBrace, "\x7d", 1⟩] = w ++ close :: tail ∧
      close.kind = .symbol .rightBrace ∧
      Stmt.parseBlock 1
        ⟨[⟨.symbol .leftBrace, "\x7b", 1⟩, ⟨.symbol .semicolon, ";", 1⟩,
          ⟨.symbol .rightBrace, "\x7d", 1⟩, ⟨.symbol .rightBrace, "\x7d", 1⟩], []⟩ =
        .ok (.block body 1) ⟨tail ++ [], found'⟩ ∧
      Accounts w (Stmt.skippedByBlock
        ⟨[⟨.symbol .leftBrace, "\x7b", 1⟩, ⟨.symbol .semicolon, ";", 1⟩,
          ⟨.symbol .rightBrace, "\x7d", 1⟩, ⟨.symbol .rightBrace, "\x7d", 1⟩], []⟩) ∧
      (∀ t ∈ Stmt.skippedByBlock
        ⟨[⟨.symbol .leftBrace, "\x7b", 1⟩, ⟨.symbol .semicolon, ";", 1⟩,
          ⟨.symbol .rightBrace, "\x7d", 1⟩, ⟨.symbol .rightBrace, "\x7d", 1⟩], []⟩,
        t.kind ≠ .symbol .rightBrace) ∧
      (tail = [] ↔ ∀ t ∈ Stmt.skippedByBlock
        ⟨[⟨.symbol .leftBrace, "\x7b", 1⟩, ⟨.symbol .semicolon, ";", 1⟩,
          ⟨.symbol .rightBrace, "\x7d", 1⟩, ⟨.symbol .rightBrace, "\x7d", 1⟩], []⟩,
        t.kind ≠ .symbol .leftBrace) :=
  have hbalanced : Balanced [⟨.symbol .leftBrace, "\x7b", 1⟩, ⟨.symbol .semicolon, ";", 1⟩,
      ⟨.symbol .rightBrace, "\x7d", 1⟩] := by decide
  ⟨hbalanced,
    parseBlock_closes _ [] ⟨.symbol .rightBrace, "\x7d", 1⟩ (by decide) hbalanced rfl 1 []⟩

/-- A block is not always closed by the right brace. In `fun { } }` the first brace is skipped
together with the word that is set aside, so the second closes the block and the third is left. -/
theorem block_closed_by_wrong_brace :
    ¬ ∀ (seg rest : List Token) (brace : Token) (line : Nat) (found : List ParseError),
      (∀ t ∈ seg, t.kind ≠ .eof) → Balanced seg → brace.kind = .symbol .rightBrace →
      ∃ body found', Stmt.parseBlock line ⟨seg ++ brace :: rest, found⟩ =
        .ok (.block body line) ⟨rest, found'⟩ := by
  intro h
  obtain ⟨body, found', hwrong⟩ := h
    [⟨.keyword .fun_, "fun", 1⟩, ⟨.symbol .leftBrace, "\x7b", 1⟩,
      ⟨.symbol .rightBrace, "\x7d", 1⟩] []
    ⟨.symbol .rightBrace, "\x7d", 1⟩ 1 [] (by decide) (by decide) rfl
  have hblock : Stmt.parseBlock 1
      ⟨[⟨.keyword .fun_, "fun", 1⟩, ⟨.symbol .leftBrace, "\x7b", 1⟩,
        ⟨.symbol .rightBrace, "\x7d", 1⟩, ⟨.symbol .rightBrace, "\x7d", 1⟩], []⟩ =
      .ok (.block [] 1)
        ⟨[⟨.symbol .rightBrace, "\x7d", 1⟩], [⟨.reserved "fun", .lexeme "fun", 1⟩]⟩ := rfl
  cases hblock.symm.trans hwrong

end BlockScript
