import BlockScript.Proofs.Expr.Grammar
import BlockScript.Proofs.Token.Taking

/-!
# The rules for expressions recognize their grammar

For every level, the rule of that level returns a tree and leaves some tokens exactly if the tokens
it took derive that tree and what it left does not go on with an expression of the level.

## Shape of the argument

Each rule first gets an equation that says when it succeeds, in terms of the rules it calls. Both
directions are read off these equations. *Soundness* follows the rules: the bound on their depth is
the induction, and the chain of operands carries the derivation of what it has joined so far.
*Completeness* follows the derivation. There the chain is the obstacle, since a derivation of a
chain is a derivation of all but its last operand, on which the rule for the level does not stop;
so what is proved of a chain is not where the rule ends but where its loop stands afterwards.
-/

namespace BlockScript.Expr

variable {nested operand : Parse Expr} {bound n : Nat} {ts rest next w : List Token} {e : Expr}

/-! ## When a rule succeeds -/

private theorem primary_eq_ok_iff : primary nested ts = .ok e rest ↔
    (∃ t v, ts = t :: rest ∧ t.kind.Denotes v ∧ e = literal v t.line) ∨
    (∃ t s, ts = t :: rest ∧ t.kind = .name s ∧ e = var s t.line) ∨
    ∃ left ts' inner right, ts = left :: ts' ∧ left.kind = .symbol .leftParen ∧
      nested ts' = .ok inner (right :: rest) ∧ right.kind = .symbol .rightParen ∧
      e = group inner left.line := by
  rw [primary]
  constructor
  · intro h
    obtain ⟨t, _, rule, hpeek, hrule, h⟩ := exists_rest_of_bind_eq_ok h
    obtain ⟨rfl, hhead⟩ := Parse.peek_eq_ok_iff.mp hpeek
    -- the token that was looked at is the one that each case goes on to take
    split at hrule <;> subst hrule
    · next v hv =>
      obtain ⟨t', _, htake, hret⟩ := bind_eq_ok_iff.mp h
      obtain ⟨rfl, rfl⟩ := pure_eq_ok_iff.mp hret
      rw [Parse.take_eq_ok_iff.mp htake] at hhead ⊢
      cases hhead
      exact .inl ⟨t, v, rfl, TokenKind.literal?_eq_some_iff.mp hv, rfl⟩
    · next s _ hs =>
      obtain ⟨t', _, htake, hret⟩ := bind_eq_ok_iff.mp h
      obtain ⟨rfl, rfl⟩ := pure_eq_ok_iff.mp hret
      rw [Parse.take_eq_ok_iff.mp htake] at hhead ⊢
      cases hhead
      exact .inr (.inl ⟨t, s, rfl, hs, rfl⟩)
    · next _ hleft =>
      obtain ⟨t', ts', htake, h⟩ := bind_eq_ok_iff.mp h
      obtain ⟨inner, _, hinner, h⟩ := bind_eq_ok_iff.mp h
      obtain ⟨right, _, hexpect, hret⟩ := bind_eq_ok_iff.mp h
      obtain ⟨rfl, hright⟩ := Parse.expect_eq_ok_iff.mp hexpect
      obtain ⟨rfl, rfl⟩ := pure_eq_ok_iff.mp hret
      rw [Parse.take_eq_ok_iff.mp htake] at hhead ⊢
      cases hhead
      exact .inr (.inr ⟨t, ts', inner, right, rfl, hleft, hinner, hright, rfl⟩)
    · cases h
  · rintro (⟨t, v, rfl, hv, rfl⟩ | ⟨t, s, rfl, hs, rfl⟩ |
      ⟨left, ts', inner, right, rfl, hleft, hinner, hright, rfl⟩)
    · rw [bind_of_ok (Parse.peek_eq_ok_iff.mpr ⟨rfl, rfl⟩), TokenKind.literal?_eq_some_iff.mpr hv]
      rfl
    · rw [bind_of_ok (Parse.peek_eq_ok_iff.mpr ⟨rfl, rfl⟩), hs]
      rfl
    · rw [bind_of_ok (Parse.peek_eq_ok_iff.mpr ⟨rfl, rfl⟩), hleft]
      refine (bind_of_ok (Parse.take_eq_ok_iff.mpr rfl)).trans ?_
      rw [bind_of_ok hinner, bind_of_ok (Parse.expect_eq_ok_iff.mpr ⟨rfl, hright⟩)]
      rfl

private theorem prefixed_eq_ok_iff : prefixed nested (n + 1) ts = .ok e rest ↔
    (∃ t ts' op arg, ts = t :: ts' ∧ t.kind.Prefixes op ∧ prefixed nested n ts' = .ok arg rest ∧
      e = unary op arg t.line) ∨
    (∀ t ∈ ts.head?, t.kind.unaryOp? = none) ∧ primary nested ts = .ok e rest := by
  rw [prefixed]
  constructor
  · intro h
    obtain ⟨t, _, rule, hpeek, hrule, h⟩ := exists_rest_of_bind_eq_ok h
    obtain ⟨rfl, hhead⟩ := Parse.peek_eq_ok_iff.mp hpeek
    split at hrule <;> subst hrule
    · next op hop =>
      obtain ⟨t', ts', htake, h⟩ := bind_eq_ok_iff.mp h
      obtain ⟨arg, _, harg, hret⟩ := bind_eq_ok_iff.mp h
      obtain ⟨rfl, rfl⟩ := pure_eq_ok_iff.mp hret
      rw [Parse.take_eq_ok_iff.mp htake] at hhead ⊢
      cases hhead
      exact .inl ⟨t, ts', op, arg, rfl, TokenKind.unaryOp?_eq_some_iff.mp hop, harg, rfl⟩
    · next hop =>
      refine .inr ⟨?_, h⟩
      rw [hhead]
      rintro _ ⟨⟩
      exact hop
  · rintro (⟨t, ts', op, arg, rfl, hop, harg, rfl⟩ | ⟨hop, h⟩)
    · rw [bind_of_ok (Parse.peek_eq_ok_iff.mpr ⟨rfl, rfl⟩), TokenKind.unaryOp?_eq_some_iff.mpr hop]
      refine (bind_of_ok (Parse.take_eq_ok_iff.mpr rfl)).trans ?_
      rw [bind_of_ok harg]
      rfl
    · cases ts with
      | nil => cases h
      | cons t ts =>
        rw [bind_of_ok (Parse.peek_eq_ok_iff.mpr ⟨rfl, rfl⟩), hop t rfl]
        exact h

private theorem chain_eq_ok_iff {r : Rank} {left : Expr} :
    chain r operand (n + 1) left ts = .ok e rest ↔
      ((∀ t ∈ ts.head?, r.join? t.kind = none) ∧ e = left ∧ rest = ts) ∨
      ∃ t ts' node right mid, ts = t :: ts' ∧ r.Joins t.kind node ∧ operand ts' = .ok right mid ∧
      chain r operand n (node left right t.line) mid = .ok e rest := by
  cases ts with
  | nil => simp [chain, eq_comm]
  | cons t ts =>
    rw [chain]
    dsimp only
    constructor
    · intro h
      split at h
      · next hnone =>
        cases h
        refine .inl ⟨?_, rfl, rfl⟩
        rintro _ ⟨⟩
        exact hnone
      · next node hnode =>
        split at h
        · next right mid hright =>
          exact .inr ⟨t, ts, node, right, mid, rfl, Rank.join?_eq_some_iff.mp hnode, hright, h⟩
        · cases h
    · rintro (⟨hnone, rfl, rfl⟩ | ⟨_, _, node, right, mid, ⟨⟩, hnode, hright, h⟩)
      · rw [hnone t rfl]
      · rw [Rank.join?_eq_some_iff.mpr hnode]
        dsimp only
        rw [hright]
        exact h

private theorem assignment_eq_ok_iff : assignment nested bound ts = .ok e rest ↔
    (ladder nested bound Rank.all ts = .ok e rest ∧
      ∀ t ∈ rest.head?, t.kind ≠ .symbol .equals) ∨
    ∃ s line equals mid value, ladder nested bound Rank.all ts = .ok (var s line) (equals :: mid) ∧
      equals.kind = .symbol .equals ∧ nested mid = .ok value rest ∧
      e = assign s value equals.line := by
  rw [assignment]
  constructor
  · intro h
    obtain ⟨target, mid, htarget, htail⟩ := bind_eq_ok_iff.mp h
    obtain ⟨equals?, _, rule, haccept, hrule, hafter⟩ := exists_rest_of_bind_eq_ok htail
    split at hrule <;> subst hrule
    · obtain ⟨rfl, hne⟩ := Parse.accept?_eq_none_iff.mp haccept
      obtain ⟨rfl, rfl⟩ := pure_eq_ok_iff.mp hafter
      exact .inl ⟨htarget, hne⟩
    · next equals =>
      obtain ⟨rfl, heq⟩ := Parse.accept?_eq_some_iff.mp haccept
      obtain ⟨value, _, rule, hvalue, hrule, hret⟩ := exists_rest_of_bind_eq_ok hafter
      split at hrule <;> subst hrule
      · next s line =>
        obtain ⟨rfl, rfl⟩ := pure_eq_ok_iff.mp hret
        exact .inr ⟨s, line, equals, _, value, htarget, heq, hvalue, rfl⟩
      · cases hret
  · rintro (⟨htarget, hne⟩ | ⟨s, line, equals, mid, value, htarget, heq, hvalue, rfl⟩)
    · rw [bind_of_ok htarget, bind_of_ok (Parse.accept?_eq_none_iff.mpr ⟨rfl, hne⟩)]
      rfl
    · rw [bind_of_ok htarget, bind_of_ok (Parse.accept?_eq_some_iff.mpr ⟨rfl, heq⟩)]
      exact bind_of_ok hvalue

/-! ## The rule of a level -/

/-- The rule of a level, given the rule for nested expressions and a bound. -/
def Level.rule (nested : Parse Expr) (bound : Nat) : Level → Parse Expr
  | .assignment => Expr.assignment nested bound
  | .rank r => ladder nested bound (Level.rank r).ranks
  | .unary => prefixed nested bound
  | .primary => Expr.primary nested

private theorem rule_rank_eq_ok_iff {r : Rank} : (Level.rank r).rule nested bound ts = .ok e rest ↔
    ∃ first mid, (Level.below r).rule nested bound ts = .ok first mid ∧
      chain r ((Level.below r).rule nested bound) bound first mid = .ok e rest := by
  have hladder : ladder nested bound (Level.below r).ranks = (Level.below r).rule nested bound := by
    cases r <;> rfl
  rw [Level.rule, Level.ranks_rank, ladder, bind_eq_ok_iff, hladder]

/-! ## Soundness -/

/-- On at most `n` tokens, a rule takes only what derives the tree it returns, and it takes as much
as it can. -/
def Sound (rule : Parse Expr) (level : Level) (n : Nat) : Prop :=
  ∀ ⦃ts e rest⦄, ts.length ≤ n → rule ts = .ok e rest →
    ∃ w, ts = w ++ rest ∧ Derives Ends level w e rest ∧ level.Stops rest

theorem sound_primary (hnested : Sound nested .assignment n) :
    Sound (primary nested) .primary (n + 1) := by
  intro ts e rest hn h
  have hstops : Level.primary.Stops rest := Level.stops_of_ranks_eq_nil rfl nofun
  rcases primary_eq_ok_iff.mp h with ⟨t, v, rfl, hv, rfl⟩ | ⟨t, s, rfl, hs, rfl⟩ |
    ⟨left, ts', inner, right, rfl, hleft, hinner, hright, rfl⟩
  · exact ⟨[t], rfl, .literal hv, hstops⟩
  · exact ⟨[t], rfl, .var hs, hstops⟩
  · rw [List.length_cons] at hn
    obtain ⟨w, rfl, hw, hend⟩ := hnested (by omega) hinner
    exact ⟨left :: w ++ [right], by simp, .group hleft hw hend hright, hstops⟩

theorem sound_prefixed (hnested : Sound nested .assignment n) (bound : Nat) :
    Sound (prefixed nested bound) .unary (n + 1) := by
  induction bound with
  | zero => exact fun ts e rest _ h ↦ nomatch h
  | succ bound ih =>
    intro ts e rest hn h
    rcases prefixed_eq_ok_iff.mp h with ⟨t, ts', op, arg, rfl, hop, harg, rfl⟩ | ⟨-, h⟩
    · rw [List.length_cons] at hn
      obtain ⟨w, rfl, hw, hstops⟩ := ih (by omega) harg
      exact ⟨t :: w, rfl, .prefixed hop hw, hstops⟩
    · obtain ⟨w, rfl, hw, -⟩ := sound_primary hnested hn h
      exact ⟨w, rfl, .primary hw, Level.stops_of_ranks_eq_nil rfl nofun⟩

/-- The invariant of a chain: `left` is derived by the tokens `w₀` taken so far, in front of those
that are left. -/
theorem sound_chain {r : Rank} (hoperand : Sound operand (Level.below r) n) (bound : Nat) :
    ∀ {left : Expr} {w₀ ts : List Token}, ts.length ≤ bound → ts.length ≤ n →
      Derives Ends (.rank r) w₀ left ts → (Level.below r).Stops ts →
      chain r operand bound left ts = .ok e rest →
      ∃ w, ts = w ++ rest ∧ Derives Ends (.rank r) (w₀ ++ w) e rest ∧
        (Level.rank r).Stops rest := by
  induction bound with
  | zero =>
    intro left w₀ ts hbound _ hleft _ h
    obtain rfl : ts = [] := List.length_eq_zero_iff.mp (Nat.le_zero.mp hbound)
    cases h
    exact ⟨[], rfl, by simpa using hleft, Level.stops_nil _⟩
  | succ bound ih =>
    intro left w₀ ts hbound hn hleft hstops h
    rcases chain_eq_ok_iff.mp h with ⟨hnone, rfl, rfl⟩ |
      ⟨t, ts', node, right, mid, rfl, hnode, hright, hchain⟩
    · exact ⟨[], rfl, by simpa using hleft, Level.stops_rank_iff.mpr ⟨hnone, hstops⟩⟩
    · rw [List.length_cons] at hbound hn
      obtain ⟨w₁, rfl, hw₁, hstops⟩ := hoperand (by omega) hright
      rw [List.length_append] at hbound hn
      obtain ⟨w₂, rfl, hw₂, hstops⟩ :=
        ih (by omega) (by omega) (.joined hleft hnode hw₁) hstops hchain
      exact ⟨t :: w₁ ++ w₂, by simp, by simpa using hw₂, hstops⟩

theorem sound_rule_rank (hnested : Sound nested .assignment n) (hn : n + 1 ≤ bound) (r : Rank) :
    Sound ((Level.rank r).rule nested bound) (.rank r) (n + 1) := by
  refine Level.rank_induction (motive := fun level ↦ Sound (level.rule nested bound) level (n + 1))
    (sound_prefixed hnested bound) (fun r ih ↦ ?_) r
  intro ts e rest hlen h
  obtain ⟨first, mid, hfirst, hchain⟩ := rule_rank_eq_ok_iff.mp h
  obtain ⟨w₀, rfl, hw₀, hstops⟩ := ih hlen hfirst
  rw [List.length_append] at hlen
  obtain ⟨w, rfl, hw, hstops⟩ :=
    sound_chain ih bound (by omega) (by omega) (.operand hw₀) hstops hchain
  exact ⟨w₀ ++ w, by simp, hw, hstops⟩

private theorem node_ne_var {r : Rank} {kind : TokenKind} {node : Expr → Expr → Nat → Expr}
    (h : r.Joins kind node) (a b : Expr) (line : Nat) (s : String) (line' : Nat) :
    node a b line ≠ .var s line' := by
  cases h <;> exact Expr.noConfusion

/-- The tree of a variable is that of a single token. -/
theorem Derives.eq_singleton_of_var {ends : List Token → Prop} {level : Level} {s : String}
    {line : Nat} (h : Derives ends level w e next) (he : e = .var s line) :
    ∃ t, w = [t] ∧ t.kind = .name s := by
  induction h with
  | literal _ => cases he
  | @var t _ _ hs =>
    cases he
    exact ⟨t, rfl, hs⟩
  | group => cases he
  | primary _ ih => exact ih he
  | prefixed => cases he
  | operand _ ih => exact ih he
  | joined _ hop _ _ _ => exact absurd he (node_ne_var hop _ _ _ s line)
  | value _ ih => exact ih he
  | assign => cases he

theorem sound_expression (n : Nat) : Sound (expression n) .assignment n := by
  induction n with
  | zero => exact fun ts e rest _ h ↦ nomatch h
  | succ n ih =>
    intro ts e rest hn h
    have hor := sound_rule_rank ih (Nat.le_refl _) .or
    rcases assignment_eq_ok_iff.mp h with ⟨htarget, hne⟩ |
      ⟨s, line, equals, mid, value, htarget, heq, hvalue, rfl⟩
    · obtain ⟨w, rfl, hw, hstops⟩ := hor hn htarget
      exact ⟨w, rfl, .value hw, fun t ht ↦ ⟨(hstops t ht).1, fun _ ↦ hne t ht⟩⟩
    · obtain ⟨w₀, rfl, hw₀, -⟩ := hor hn htarget
      -- a target that is a variable was written as one: a group would have left its node
      obtain ⟨t, rfl, hs⟩ := hw₀.eq_singleton_of_var rfl
      simp only [List.length_append, List.length_cons, List.length_nil] at hn
      obtain ⟨w, rfl, hw, hend⟩ := ih (by omega) hvalue
      exact ⟨t :: equals :: w, by simp, .assign hs heq hw hend, hend⟩

/-! ## Completeness

The bounds are measured against the tokens of the derivation: a nested expression and the right side
of an assignment are at least two tokens shorter, and a chain has fewer operators than tokens. -/

/-- What the rule of a level does with the tokens `w` in front of `next`. On a rank it is still in
its loop afterwards, with the tree `e` in hand and fewer than `w.length` rounds behind it. -/
def Reaches (level : Level) (w : List Token) (e : Expr) (next : List Token) : Prop :=
  ∀ b bound, w.length ≤ b + 1 → w.length ≤ bound →
    match level with
    | .rank r => (Level.below r).Stops next → ∃ k < w.length, ∀ e' rest,
        chain r ((Level.below r).rule (expression b) bound) (bound - k) e next = .ok e' rest →
        (Level.rank r).rule (expression b) bound (w ++ next) = .ok e' rest
    | level => level.Stops next → level.rule (expression b) bound (w ++ next) = .ok e next

theorem Reaches.rule_eq {level : Level} {b : Nat} (h : Reaches level w e next)
    (hb : w.length ≤ b + 1) (hbound : w.length ≤ bound) (hstops : level.Stops next) :
    level.rule (expression b) bound (w ++ next) = .ok e next := by
  cases level with
  | rank r =>
    rw [Level.stops_rank_iff] at hstops
    obtain ⟨k, hk, hchain⟩ := h b bound hb hbound hstops.2
    refine hchain e next ?_
    -- the loop has a round left, in which it finds that nothing goes on
    rw [show bound - k = bound - k - 1 + 1 by omega]
    exact chain_eq_ok_iff.mpr (.inl ⟨hstops.1, rfl, rfl⟩)
  | assignment => exact h b bound hb hbound hstops
  | unary => exact h b bound hb hbound hstops
  | primary => exact h b bound hb hbound hstops

theorem Reaches.expression_eq (h : Reaches .assignment w e next) (hw : w ≠ []) (hn : w.length ≤ n)
    (hends : Ends next) : expression n (w ++ next) = .ok e next := by
  have hpos : 0 < w.length := List.length_pos_iff.mpr hw
  obtain ⟨b, rfl⟩ : ∃ b, n = b + 1 := ⟨n - 1, by omega⟩
  exact h.rule_eq (by omega) hn hends

private theorem Reaches.of_primary (h : Reaches .primary w e next) (hw : w ≠ [])
    (hop : ∀ t ∈ (w ++ next).head?, t.kind.unaryOp? = none) : Reaches .unary w e next := by
  intro b bound hb hbound _
  have hpos : 0 < w.length := List.length_pos_iff.mpr hw
  obtain ⟨m, rfl⟩ : ∃ m, bound = m + 1 := ⟨bound - 1, by omega⟩
  have hprimary := h.rule_eq hb hbound (Level.stops_of_ranks_eq_nil rfl nofun)
  exact prefixed_eq_ok_iff.mpr (.inr ⟨hop, hprimary⟩)

/-- An operand with no operator behind it passes unchanged through the levels. -/
theorem Reaches.of_below {r : Rank} (h : Reaches (Level.below r) w e next) (hw : w ≠ []) :
    Reaches (.rank r) w e next := by
  intro b bound hb hbound hstops
  refine ⟨0, List.length_pos_iff.mpr hw, fun e' rest hchain ↦ ?_⟩
  exact rule_rank_eq_ok_iff.mpr ⟨e, next, h.rule_eq hb hbound hstops, hchain⟩

theorem Reaches.joined {r : Rank} {t : Token} {node : Expr → Expr → Nat → Expr}
    {w₁ w₂ : List Token} {x y : Expr} (h₁ : Reaches (.rank r) w₁ x (t :: w₂ ++ next))
    (hop : r.Joins t.kind node) (h₂ : Reaches (Level.below r) w₂ y next) :
    Reaches (.rank r) (w₁ ++ t :: w₂) (node x y t.line) next := by
  intro b bound hb hbound hstops
  rw [List.length_append, List.length_cons] at hb hbound
  obtain ⟨k, hk, hchain⟩ :=
    h₁ b bound (by omega) (by omega) (Level.stops_below_of_joins hop (w₂ ++ next))
  refine ⟨k + 1, by simp only [List.length_append, List.length_cons]; omega, fun e' rest h ↦ ?_⟩
  rw [List.append_assoc]
  refine hchain e' rest ?_
  -- the loop has a round left for `t`, since it has made fewer rounds than there are tokens
  rw [show bound - k = bound - (k + 1) + 1 by omega]
  have hright : (Level.below r).rule (expression b) bound (w₂ ++ next) = .ok y next :=
    h₂.rule_eq (by omega) (by omega) hstops
  exact chain_eq_ok_iff.mpr (.inr ⟨t, w₂ ++ next, node, y, next, rfl, hop, hright, h⟩)

/-- The target of an assignment reaches the loosest rank. -/
theorem reaches_var {t : Token} {s : String} (hs : t.kind = .name s) (next : List Token) :
    Reaches (.rank .or) [t] (.var s t.line) next := by
  have hprimary : Reaches .primary [t] (.var s t.line) next :=
    fun b _ _ _ _ ↦ primary_eq_ok_iff.mpr (.inr (.inl ⟨t, s, rfl, hs, rfl⟩))
  have hunary : Reaches .unary [t] (.var s t.line) next := by
    refine hprimary.of_primary (List.cons_ne_nil t []) ?_
    rintro _ ⟨⟩
    rw [hs]
    rfl
  exact Level.rank_induction (motive := fun level ↦ Reaches level [t] (.var s t.line) next) hunary
    (fun r ih ↦ ih.of_below (List.cons_ne_nil t [])) .or

/-- The first token of a constant, a variable or a group is no prefix. -/
theorem Derives.unaryOp?_eq_none {ends : List Token → Prop} (h : Derives ends .primary w e next) :
    ∀ t ∈ (w ++ next).head?, t.kind.unaryOp? = none := by
  cases h with
  | @literal t _ _ hv =>
    rintro _ ⟨⟩
    generalize t.kind = kind at hv
    cases hv <;> rfl
  | var hs =>
    rintro _ ⟨⟩
    rw [hs]
    rfl
  | group hl _ _ _ =>
    rintro _ ⟨⟩
    rw [hl]
    rfl

theorem Derives.reaches {ends : List Token → Prop} {level : Level}
    (h : Derives ends level w e next) : Reaches level w e next := by
  induction h with
  | @literal t v next hv =>
    exact fun b _ _ _ _ ↦ primary_eq_ok_iff.mpr (.inl ⟨t, v, rfl, hv, rfl⟩)
  | @var t s next hs =>
    exact fun b _ _ _ _ ↦ primary_eq_ok_iff.mpr (.inr (.inl ⟨t, s, rfl, hs, rfl⟩))
  | @group left right w e next hl hw _ hr ih =>
    intro b bound hb hbound _
    simp only [List.length_append, List.length_cons, List.length_nil] at hb
    have hends : Ends (right :: next) :=
      Level.stops_cons (by rw [hr]; rfl) fun _ ↦ by rw [hr]; nofun
    have hinner := ih.expression_eq (n := b) hw.ne_nil (by omega) hends
    refine primary_eq_ok_iff.mpr
      (.inr (.inr ⟨left, w ++ right :: next, e, right, ?_, hl, hinner, hr, rfl⟩))
    simp
  | primary hw ih => exact ih.of_primary hw.ne_nil hw.unaryOp?_eq_none
  | @prefixed t op w e next hop _ ih =>
    intro b bound hb hbound hstops
    rw [List.length_cons] at hb hbound
    obtain ⟨m, rfl⟩ : ∃ m, bound = m + 1 := ⟨bound - 1, by omega⟩
    have hoperand := ih b m (by omega) (by omega) hstops
    exact prefixed_eq_ok_iff.mpr (.inl ⟨t, w ++ next, op, e, rfl, hop, hoperand, rfl⟩)
  | operand hw ih => exact ih.of_below hw.ne_nil
  | joined _ hop _ iha ihb => exact iha.joined hop ihb
  | value _ ih =>
    intro b bound hb hbound hends
    refine assignment_eq_ok_iff.mpr (.inl ⟨?_, fun t ht ↦ (hends t ht).2 rfl⟩)
    exact ih.rule_eq hb hbound fun t ht ↦ ⟨(hends t ht).1, nofun⟩
  | @assign t equals s w e next hs heq hw _ ih =>
    intro b bound hb hbound hends
    simp only [List.length_cons] at hb hbound
    have hequals : (Level.rank .or).Stops (equals :: w ++ next) :=
      Level.stops_cons (by rw [heq]; rfl) nofun
    have htarget : (Level.rank .or).rule (expression b) bound ([t] ++ (equals :: w ++ next)) =
        .ok (.var s t.line) (equals :: w ++ next) :=
      (reaches_var hs (equals :: w ++ next)).rule_eq (by simp) (by simp; omega) hequals
    have hvalue := ih.expression_eq (n := b) hw.ne_nil (by omega) hends
    exact assignment_eq_ok_iff.mpr
      (.inr ⟨s, t.line, equals, w ++ next, e, htarget, heq, hvalue, rfl⟩)

/-- **Completeness.** A derived expression in front of tokens that do not go on with it is read. -/
theorem Derives.expression_eq {ends : List Token → Prop} (h : Derives ends .assignment w e next)
    (hends : Ends next) (hn : w.length ≤ n) : expression n (w ++ next) = .ok e next :=
  h.reaches.expression_eq h.ne_nil hn hends

end BlockScript.Expr
