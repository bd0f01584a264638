import BlockScript.Proofs.Expr.Grammar
import BlockScript.Stmt

/-!
# What the grammar of statements derives

As for expressions, a derivation relates the tokens `w` to a tree, in front of what follows them.
The rules of the grammar leave three choices open, and each of them is closed by a condition on the
token that comes next:

* an expression could end before an operator: `Ends`, asked of every slot;
* an alternative could belong to an outer choice: `NoElse`, asked behind a choice without one;
* an expression behind the header of a counted loop could be the body: `Begins`, denied of the first
  token of the body of a loop without an increment.

A counted loop has no tree of its own. Its derivation is that of a loop with an increment, in a
block if the loop begins with a statement.
-/

namespace BlockScript

/-! ## Tokens that decide on a statement -/

/-- The tokens that write, with what they write behind the value. -/
inductive TokenKind.Writes : TokenKind → String → Prop
  | write : Writes (.keyword .write) ""
  | writeln : Writes (.keyword .writeln) "\n"

/-- The tokens that read into a variable. -/
inductive TokenKind.Reads : TokenKind → (String → Nat → Stmt) → Prop
  | read : Reads (.keyword .read) fun name line ↦ .read name line
  | readnum : Reads (.keyword .readnum) fun name line ↦ .readNumber name line

/-- The tokens that jump. -/
inductive TokenKind.Jumps : TokenKind → Jump → Prop
  | break_ : Jumps (.keyword .break_) .leave
  | continue_ : Jumps (.keyword .continue_) .next

/-- An expression fills a slot: it is derived, and it does not go on behind `w`. -/
structure Expr.Fills (w : List Token) (e : Expr) (next : List Token) : Prop where
  /-- The tokens are an expression. -/
  derives : Derives Ends .assignment w e next
  /-- The expression ends here. -/
  ends : Ends next

namespace Stmt

open BlockScript.Expr (Fills)

/-- No alternative follows. -/
def NoElse (next : List Token) : Prop := ∀ t ∈ next.head?, t.kind ≠ .keyword .else_

/-! ## Parts of statements -/

/-- An expression statement: `expression ";"`. Its line is that of its first token. -/
inductive DerivesExpression : List Token → Stmt → List Token → Prop
  | intro {first semi : Token} {w : List Token} {e : Expr} {next : List Token} :
      Fills (first :: w) e (semi :: next) → semi.kind = .symbol .semicolon →
      DerivesExpression (first :: w ++ [semi]) (.expression e first.line) next

/-- A declaration: `"let" NAME ("=" expression)? ";"`. -/
inductive DerivesDeclaration : List Token → Stmt → List Token → Prop
  | bare {k x semi : Token} {name : String} {next : List Token} :
      k.kind = .keyword .let_ → x.kind = .name name → semi.kind = .symbol .semicolon →
      DerivesDeclaration [k, x, semi] (.declare name none k.line) next
  | initialized {k x equals semi : Token} {name : String} {w : List Token} {e : Expr}
      {next : List Token} :
      k.kind = .keyword .let_ → x.kind = .name name → equals.kind = .symbol .equals →
      Fills w e (semi :: next) → semi.kind = .symbol .semicolon →
      DerivesDeclaration (k :: x :: equals :: w ++ [semi]) (.declare name (some e) k.line) next

/-- What a counted loop does first, with its semicolon. -/
inductive DerivesInitial : List Token → Option Stmt → List Token → Prop
  | none {semi : Token} {next : List Token} :
      semi.kind = .symbol .semicolon → DerivesInitial [semi] none next
  | declaration {w : List Token} {s : Stmt} {next : List Token} :
      DerivesDeclaration w s next → DerivesInitial w (some s) next
  | expression {w : List Token} {s : Stmt} {next : List Token} :
      DerivesExpression w s next → DerivesInitial w (some s) next

/-- The condition of a counted loop on a line: `expression?`, where nothing stands for truth. -/
inductive DerivesCondition (line : Nat) : List Token → Expr → List Token → Prop
  | none {next : List Token} : DerivesCondition line [] (.literal (.bool true) line) next
  | some {w : List Token} {e : Expr} {next : List Token} :
      Fills w e next → DerivesCondition line w e next

/-- The increment of a counted loop: `expression?`, where nothing stands only in front of a body
that could not be taken for an increment. -/
inductive DerivesIncrement : List Token → Option Expr → List Token → Prop
  | none {next : List Token} :
      (∀ t ∈ next.head?, ¬ Expr.Begins t) → DerivesIncrement [] none next
  | some {w : List Token} {e : Expr} {next : List Token} :
      Fills w e next → DerivesIncrement w (some e) next

/-- What a counted loop stands for. -/
def counted (initial : Option Stmt) (condition : Expr) (increment : Option Expr) (body : Stmt)
    (line : Nat) : Stmt :=
  match initial with
  | some first => .block [first, .loop condition body increment line] line
  | none => .loop condition body increment line

/-! ## Statements -/

/-- What tokens can derive. -/
inductive Phrase where
  /-- One statement. -/
  | statement (s : Stmt)
  /-- Statements one after the other. -/
  | sequence (ss : List Stmt)

/-- **The grammar.** The tokens `w` are a phrase, in front of `next`. -/
inductive Derives : List Token → Phrase → List Token → Prop
  | expression {w : List Token} {s : Stmt} {next : List Token} :
      DerivesExpression w s next → Derives w (.statement s) next
  | write {k semi : Token} {terminator : String} {w : List Token} {e : Expr} {next : List Token} :
      k.kind.Writes terminator → Fills w e (semi :: next) → semi.kind = .symbol .semicolon →
      Derives (k :: w ++ [semi]) (.statement (.write e terminator k.line)) next
  | read {k x semi : Token} {node : String → Nat → Stmt} {name : String} {next : List Token} :
      k.kind.Reads node → x.kind = .name name → semi.kind = .symbol .semicolon →
      Derives [k, x, semi] (.statement (node name k.line)) next
  | declaration {w : List Token} {s : Stmt} {next : List Token} :
      DerivesDeclaration w s next → Derives w (.statement s) next
  | block {left right : Token} {w : List Token} {body : List Stmt} {next : List Token} :
      left.kind = .symbol .leftBrace → Derives w (.sequence body) (right :: next) →
      right.kind = .symbol .rightBrace →
      Derives (left :: w ++ [right]) (.statement (.block body left.line)) next
  | ifThen {k : Token} {wc wy : List Token} {c : Expr} {yes : Stmt} {next : List Token} :
      k.kind = .keyword .if_ → Fills wc c (wy ++ next) → Derives wy (.statement yes) next →
      NoElse next → Derives (k :: wc ++ wy) (.statement (.ifThen c yes k.line)) next
  | ifElse {k alt : Token} {wc wy wn : List Token} {c : Expr} {yes no : Stmt} {next : List Token} :
      k.kind = .keyword .if_ → Fills wc c (wy ++ (alt :: wn ++ next)) →
      Derives wy (.statement yes) (alt :: wn ++ next) → alt.kind = .keyword .else_ →
      Derives wn (.statement no) next →
      Derives (k :: wc ++ wy ++ alt :: wn) (.statement (.ifElse c yes no k.line)) next
  | while_ {k : Token} {wc wb : List Token} {c : Expr} {body : Stmt} {next : List Token} :
      k.kind = .keyword .while_ → Fills wc c (wb ++ next) → Derives wb (.statement body) next →
      Derives (k :: wc ++ wb) (.statement (.loop c body none k.line)) next
  | for_ {k semi : Token} {wi wc ws wb : List Token} {initial : Option Stmt} {c : Expr}
      {step : Option Expr} {body : Stmt} {next : List Token} :
      k.kind = .keyword .for_ → DerivesInitial wi initial (wc ++ semi :: (ws ++ (wb ++ next))) →
      DerivesCondition k.line wc c (semi :: (ws ++ (wb ++ next))) →
      semi.kind = .symbol .semicolon → DerivesIncrement ws step (wb ++ next) →
      Derives wb (.statement body) next →
      Derives (k :: wi ++ (wc ++ semi :: (ws ++ wb)))
        (.statement (counted initial c step body k.line)) next
  | repeatUntil {k tail semi : Token} {wb wc : List Token} {body : Stmt} {c : Expr}
      {next : List Token} :
      k.kind = .keyword .repeat_ → Derives wb (.statement body) (tail :: wc ++ semi :: next) →
      tail.kind = .keyword .until_ → Fills wc c (semi :: next) → semi.kind = .symbol .semicolon →
      Derives (k :: wb ++ (tail :: wc ++ [semi])) (.statement (.repeatUntil body c k.line)) next
  | repeatFor {k tail semi : Token} {wb wc : List Token} {body : Stmt} {c : Expr}
      {next : List Token} :
      k.kind = .keyword .repeat_ → Derives wb (.statement body) (tail :: wc ++ semi :: next) →
      tail.kind = .keyword .for_ → Fills wc c (semi :: next) → semi.kind = .symbol .semicolon →
      Derives (k :: wb ++ (tail :: wc ++ [semi])) (.statement (.repeatFor body c tail.line)) next
  | jump {k semi : Token} {kind : Jump} {next : List Token} :
      k.kind.Jumps kind → semi.kind = .symbol .semicolon →
      Derives [k, semi] (.statement (.jump kind k.line)) next
  | nil {next : List Token} : Derives [] (.sequence []) next
  | cons {w₁ w₂ : List Token} {s : Stmt} {ss : List Stmt} {next : List Token} :
      Derives w₁ (.statement s) (w₂ ++ next) → Derives w₂ (.sequence ss) next →
      Derives (w₁ ++ w₂) (.sequence (s :: ss)) next

/-! ## First tokens -/

/-- The tokens that a statement can begin with. -/
def opens (kind : TokenKind) : Bool :=
  kind.startsStatement || kind.startsExpression || kind = .symbol .leftBrace

theorem DerivesExpression.exists_head {w next : List Token} {s : Stmt}
    (h : DerivesExpression w s next) : ∃ t rest, w = t :: rest ∧ opens t.kind = true := by
  obtain ⟨⟨hw, -⟩, -⟩ := h
  obtain ⟨t, rest, heq, ht⟩ := hw.exists_head
  cases heq
  exact ⟨_, _, rfl, by simp [opens, ht]⟩

theorem DerivesDeclaration.exists_head {w next : List Token} {s : Stmt}
    (h : DerivesDeclaration w s next) : ∃ t rest, w = t :: rest ∧ opens t.kind = true := by
  obtain ⟨hk, -, -⟩ | ⟨hk, -, -, -, -⟩ := h
  · exact ⟨_, _, rfl, by rw [hk]; rfl⟩
  · exact ⟨_, _, rfl, by rw [hk]; rfl⟩

/-- A statement is not empty, and its first token can begin one. -/
theorem Derives.exists_head {w next : List Token} {s : Stmt} (h : Derives w (.statement s) next) :
    ∃ t rest, w = t :: rest ∧ opens t.kind = true := by
  cases h with
  | expression h => exact h.exists_head
  | declaration h => exact h.exists_head
  | @write k _ _ _ _ _ hk _ _ =>
    refine ⟨k, _, rfl, ?_⟩
    generalize k.kind = kind at hk
    cases hk <;> rfl
  | @read k _ _ _ _ _ hk _ _ =>
    refine ⟨k, _, rfl, ?_⟩
    generalize k.kind = kind at hk
    cases hk <;> rfl
  | @jump k _ _ _ hk _ =>
    refine ⟨k, _, rfl, ?_⟩
    generalize k.kind = kind at hk
    cases hk <;> rfl
  | block hk | ifThen hk | ifElse hk | while_ hk | for_ hk | repeatUntil hk | repeatFor hk =>
    exact ⟨_, _, rfl, by rw [hk]; rfl⟩

theorem noElse_of_opens {t : Token} (h : opens t.kind = true) (next : List Token) :
    NoElse (t :: next) := by
  rintro _ ⟨⟩ heq
  rw [heq] at h
  cases h

/-! ## What follows a statement -/

private theorem NoElse.exchange_append {w next next' : List Token}
    (hnext : NoElse next → NoElse next') (h : NoElse (w ++ next)) : NoElse (w ++ next') := by
  cases w with
  | nil => exact hnext h
  | cons t w => exact h

private theorem fills_exchange {w wb next next' : List Token} {e : Expr} (hwb : wb ≠ [])
    (h : Fills w e (wb ++ next)) : Fills w e (wb ++ next') := by
  obtain ⟨t, rest, rfl⟩ := List.exists_cons_of_ne_nil hwb
  exact ⟨h.derives.exchange .exchange_tail, h.ends.exchange_tail⟩

theorem DerivesExpression.exchange {w next next' : List Token} {s : Stmt}
    (h : DerivesExpression w s next) : DerivesExpression w s next' := by
  obtain ⟨hw, hsemi⟩ := h
  exact .intro (fills_exchange (List.cons_ne_nil _ []) hw) hsemi

theorem DerivesDeclaration.exchange {w next next' : List Token} {s : Stmt}
    (h : DerivesDeclaration w s next) : DerivesDeclaration w s next' := by
  obtain ⟨hk, hx, hsemi⟩ | ⟨hk, hx, heq, hw, hsemi⟩ := h
  · exact .bare hk hx hsemi
  · exact .initialized hk hx heq (fills_exchange (List.cons_ne_nil _ []) hw) hsemi

theorem DerivesInitial.exchange {w next next' : List Token} {initial : Option Stmt}
    (h : DerivesInitial w initial next) : DerivesInitial w initial next' := by
  obtain hsemi | h | h := h
  · exact .none hsemi
  · exact .declaration h.exchange
  · exact .expression h.exchange

theorem DerivesCondition.exchange {line : Nat} {w next next' : List Token} {semi : Token} {c : Expr}
    (h : DerivesCondition line w c (semi :: next)) : DerivesCondition line w c (semi :: next') := by
  obtain _ | hw := h
  · exact .none
  · exact .some (fills_exchange (List.cons_ne_nil semi []) hw)

theorem DerivesIncrement.exchange {w wb next next' : List Token} {step : Option Expr}
    (hwb : wb ≠ []) (h : DerivesIncrement w step (wb ++ next)) :
    DerivesIncrement w step (wb ++ next') := by
  obtain hbegins | hw := h
  · obtain ⟨t, rest, rfl⟩ := List.exists_cons_of_ne_nil hwb
    exact .none hbegins
  · exact .some (fills_exchange hwb hw)

theorem Derives.ne_nil {w next : List Token} {s : Stmt} (h : Derives w (.statement s) next) :
    w ≠ [] := by
  obtain ⟨t, rest, rfl, -⟩ := h.exists_head
  exact List.cons_ne_nil t rest

/-- **Lookahead.** A statement looks past its end for one thing only, an alternative. -/
theorem Derives.exchange {w next next' : List Token} {phrase : Phrase} (h : Derives w phrase next)
    (hnext : NoElse next → NoElse next') : Derives w phrase next' := by
  induction h generalizing next' with
  | expression h => exact .expression h.exchange
  | declaration h => exact .declaration h.exchange
  | write hk hw hsemi => exact .write hk (fills_exchange (List.cons_ne_nil _ []) hw) hsemi
  | read hk hx hsemi => exact .read hk hx hsemi
  | jump hk hsemi => exact .jump hk hsemi
  | block hl _ hr ih => exact .block hl (ih fun h ↦ h) hr
  | ifThen hk hc hy hno ih =>
    exact .ifThen hk (fills_exchange hy.ne_nil hc) (ih hnext) (hnext hno)
  | ifElse hk hc hy halt _ ihy ihn =>
    exact .ifElse hk (fills_exchange hy.ne_nil hc) (ihy fun h ↦ h) halt (ihn hnext)
  | while_ hk hc hb ih => exact .while_ hk (fills_exchange hb.ne_nil hc) (ih hnext)
  | for_ hk hi hc hsemi hs hb ih =>
    exact .for_ hk hi.exchange hc.exchange hsemi (hs.exchange hb.ne_nil) (ih hnext)
  | repeatUntil hk _ htail hc hsemi ih =>
    exact .repeatUntil hk (ih fun h ↦ h) htail (fills_exchange (List.cons_ne_nil _ []) hc) hsemi
  | repeatFor hk _ htail hc hsemi ih =>
    exact .repeatFor hk (ih fun h ↦ h) htail (fills_exchange (List.cons_ne_nil _ []) hc) hsemi
  | nil => exact .nil
  | cons _ _ ih₁ ih₂ => exact .cons (ih₁ (.exchange_append hnext)) (ih₂ hnext)

/-! ## The end of the source is no part of a statement -/

theorem DerivesExpression.kind_ne_eof {w next : List Token} {s : Stmt}
    (h : DerivesExpression w s next) : ∀ t ∈ w, t.kind ≠ .eof := by
  obtain ⟨hw, hsemi⟩ := h
  rw [List.forall_mem_append, List.forall_mem_singleton, hsemi]
  exact ⟨hw.derives.kind_ne_eof, nofun⟩

theorem DerivesDeclaration.kind_ne_eof {w next : List Token} {s : Stmt}
    (h : DerivesDeclaration w s next) : ∀ t ∈ w, t.kind ≠ .eof := by
  obtain ⟨hk, hx, hsemi⟩ | ⟨hk, hx, heq, hw, hsemi⟩ := h
  · simp [hk, hx, hsemi]
  · simpa [or_imp, forall_and, hk, hx, heq, hsemi] using hw.derives.kind_ne_eof

theorem DerivesInitial.kind_ne_eof {w next : List Token} {initial : Option Stmt}
    (h : DerivesInitial w initial next) : ∀ t ∈ w, t.kind ≠ .eof := by
  obtain hsemi | h | h := h
  · simp [hsemi]
  · exact h.kind_ne_eof
  · exact h.kind_ne_eof

theorem DerivesCondition.kind_ne_eof {line : Nat} {w next : List Token} {c : Expr}
    (h : DerivesCondition line w c next) : ∀ t ∈ w, t.kind ≠ .eof := by
  obtain _ | hw := h
  · simp
  · exact hw.derives.kind_ne_eof

theorem DerivesIncrement.kind_ne_eof {w next : List Token} {step : Option Expr}
    (h : DerivesIncrement w step next) : ∀ t ∈ w, t.kind ≠ .eof := by
  obtain _ | hw := h
  · simp
  · exact hw.derives.kind_ne_eof

theorem Derives.kind_ne_eof {w next : List Token} {phrase : Phrase} (h : Derives w phrase next) :
    ∀ t ∈ w, t.kind ≠ .eof := by
  induction h with
  | expression h => exact h.kind_ne_eof
  | declaration h => exact h.kind_ne_eof
  | @write k _ _ _ _ _ hk hw hsemi =>
    have hk' : k.kind ≠ .eof := fun heof ↦ by rw [heof] at hk; cases hk
    simpa [or_imp, forall_and, hk', hsemi] using hw.derives.kind_ne_eof
  | @read k _ _ _ _ _ hk hx hsemi =>
    have hk' : k.kind ≠ .eof := fun heof ↦ by rw [heof] at hk; cases hk
    simp [hk', hx, hsemi]
  | @jump k _ _ _ hk hsemi =>
    have hk' : k.kind ≠ .eof := fun heof ↦ by rw [heof] at hk; cases hk
    simp [hk', hsemi]
  | block hl _ hr ih => simpa [or_imp, forall_and, hl, hr] using ih
  | ifThen hk hc _ _ ih =>
    simpa [or_imp, forall_and, hk] using ⟨hc.derives.kind_ne_eof, ih⟩
  | ifElse hk hc _ halt _ ihy ihn =>
    simpa [or_imp, forall_and, hk, halt] using ⟨hc.derives.kind_ne_eof, ihy, ihn⟩
  | while_ hk hc _ ih => simpa [or_imp, forall_and, hk] using ⟨hc.derives.kind_ne_eof, ih⟩
  | for_ hk hi hc hsemi hs _ ih =>
    simpa [or_imp, forall_and, hk, hsemi] using
      ⟨hi.kind_ne_eof, hc.kind_ne_eof, hs.kind_ne_eof, ih⟩
  | repeatUntil hk _ htail hc hsemi ih | repeatFor hk _ htail hc hsemi ih =>
    simpa [or_imp, forall_and, hk, htail, hsemi] using ⟨ih, hc.derives.kind_ne_eof⟩
  | nil => simp
  | cons _ _ ih₁ ih₂ => exact List.forall_mem_append.mpr ⟨ih₁, ih₂⟩

end Stmt

end BlockScript
