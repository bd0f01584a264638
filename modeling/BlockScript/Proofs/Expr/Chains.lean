import BlockScript.Proofs.Expr.Connectives
import BlockScript.Proofs.Expr.Levels

/-!
# Chains of connectives

Connectives of one level are read one after the other and associated to the left, so what is read is
an operand and some links behind it. The grammar derives a chain from its end, and so a chain of
tokens is described in the same way here (`Chain`): what has been read so far, and one more link.

Together with what trees of connectives do this says what a chain means, from its tokens on.
-/

namespace BlockScript

/-- Whether a level is one of connectives. -/
def Rank.isLogical : Rank → Bool
  | or | xor | and => true
  | equality | comparison | additive | multiplicative => false

namespace Expr

/-- The tokens `ts` begin with operands of the next tighter level and connectives of a rank between
them, and `rest` is left. -/
inductive Chain (r : Rank) (ts : List Token) (first : Expr) : List Link → List Token → Prop where
  /-- The first operand. -/
  | first {rest : List Token} : parse (Level.below r) ts = .ok first rest →
    Chain r ts first [] rest
  /-- One more connective and its operand. -/
  | link {links : List Link} {op : Connective} {t : Token} {mid rest : List Token}
    {operand : Expr} :
    Chain r ts first links (t :: mid) → op.rank = r → t.kind = .keyword op.keyword →
    parse (Level.below r) mid = .ok operand rest →
    Chain r ts first (links ++ [⟨op, operand, t.line⟩]) rest

/-- On the three levels of connectives, nothing but connectives joins two operands. -/
theorem joins_iff_connective {r : Rank} (hr : r.isLogical = true) {kind : TokenKind}
    {node : Expr → Expr → Nat → Expr} : r.Joins kind node ↔
      ∃ op : Connective, op.rank = r ∧ kind = .keyword op.keyword ∧ node = op.node := by
  constructor
  · intro h
    cases h with
    | or => exact ⟨.or, rfl, rfl, rfl⟩
    | nor => exact ⟨.nor, rfl, rfl, rfl⟩
    | xor => exact ⟨.xor, rfl, rfl, rfl⟩
    | xnor => exact ⟨.xnor, rfl, rfl, rfl⟩
    | and => exact ⟨.and, rfl, rfl, rfl⟩
    | nand => exact ⟨.nand, rfl, rfl, rfl⟩
    | _ => nomatch hr
  · rintro ⟨op, rfl, rfl, rfl⟩
    cases op <;> constructor

private theorem linked_concat (first : Expr) (links : List Link) (l : Link) :
    first.linked (links ++ [l]) = l.op.node (first.linked links) l.operand l.line :=
  List.foldl_concat ..

section

variable {r : Rank} {ts rest : List Token} {first e : Expr} {links : List Link}

private theorem Chain.rank_eq (h : Chain r ts first links rest) : ∀ l ∈ links, l.op.rank = r := by
  induction h with
  | first _ => nofun
  | link _ hrank _ _ ih =>
    rw [List.forall_mem_append, List.forall_mem_singleton]
    exact ⟨ih, hrank⟩

theorem Chain.derives (hr : r.isLogical = true) (h : Chain r ts first links rest) :
    ∃ w, ts = w ++ rest ∧ Derives Ends (.rank r) w (first.linked links) rest ∧
      (Level.below r).Stops rest := by
  induction h with
  | first hfirst =>
    obtain ⟨w, hw, hderives, hstops⟩ := exists_derives_of_parse hfirst
    exact ⟨w, hw, .operand hderives, hstops⟩
  | @link links op t mid rest operand _ hrank hkind hoperand ih =>
    obtain ⟨w₁, hw₁, hleft, -⟩ := ih
    obtain ⟨w₂, rfl, hright, hstops⟩ := exists_derives_of_parse hoperand
    have hjoins := (joins_iff_connective hr).mpr ⟨op, hrank, hkind, rfl⟩
    refine ⟨w₁ ++ t :: w₂, by simp [hw₁], ?_, hstops⟩
    rw [linked_concat]
    exact .joined hleft hjoins hright

private theorem exists_chain_of_derives (hr : r.isLogical = true) {level : Level}
    {ends : List Token → Prop} {w : List Token} (h : Derives ends level w e rest)
    (hlevel : level = .rank r) (hstops : (Level.below r).Stops rest) :
    ∃ first links, Chain r (w ++ rest) first links rest ∧ e = first.linked links := by
  induction h with
  | operand hoperand _ =>
    cases hlevel
    exact ⟨_, [], .first (hoperand.parse_eq hstops), rfl⟩
  | @joined _ t node w₁ w₂ a b next _ hjoins hright ih _ =>
    cases hlevel
    obtain ⟨first, links, hchain, rfl⟩ := ih rfl (Level.stops_below_of_joins hjoins _)
    obtain ⟨op, hrank, hkind, rfl⟩ := (joins_iff_connective hr).mp hjoins
    refine ⟨first, links ++ [⟨op, b, t.line⟩], ?_, by rw [linked_concat]⟩
    rw [List.append_assoc]
    exact .link hchain hrank hkind (hright.parse_eq hstops)
  | _ => cases hlevel

/-- The rule of a level of connectives reads a chain, for as long as connectives of the level
follow. -/
theorem parse_rank_eq_ok_iff (hr : r.isLogical = true) :
    parse (.rank r) ts = .ok e rest ↔ ∃ first links, Chain r ts first links rest ∧
      (∀ t ∈ rest.head?, ∀ op : Connective, op.rank = r → t.kind ≠ .keyword op.keyword) ∧
      e = first.linked links := by
  have hends : (∀ t ∈ rest.head?, r.join? t.kind = none) ↔
      ∀ t ∈ rest.head?, ∀ op : Connective, op.rank = r → t.kind ≠ .keyword op.keyword := by
    refine forall₂_congr fun t _ ↦ ?_
    simp only [Option.eq_none_iff_forall_ne_some, ne_eq, Rank.join?_eq_some_iff,
      joins_iff_connective hr]
    constructor
    · intro h op hrank hkind
      exact h op.node ⟨op, hrank, hkind, rfl⟩
    · rintro h _ ⟨op, hrank, hkind, rfl⟩
      exact h op hrank hkind
  constructor
  · intro h
    obtain ⟨w, rfl, hderives, hstops⟩ := exists_derives_of_parse h
    obtain ⟨hnone, hbelow⟩ := Level.stops_rank_iff.mp hstops
    obtain ⟨first, links, hchain, rfl⟩ := exists_chain_of_derives hr hderives rfl hbelow
    exact ⟨first, links, hchain, hends.mp hnone, rfl⟩
  · rintro ⟨first, links, hchain, hnone, rfl⟩
    obtain ⟨w, rfl, hderives, hbelow⟩ := hchain.derives hr
    exact hderives.parse_eq (Level.stops_rank_iff.mpr ⟨hends.mpr hnone, hbelow⟩)

end

/-- **Chains of connectives mean what the truth tables say.** On each of the three levels, what is
read is a chain, and its tree is that of the connectives from left to right. Chains of `or`, `nor`,
`and` and `nand` do what the loop does, whatever their operands do: they evaluate an operand exactly
if the value in hand does not decide the step. Every chain whose operands assign nothing follows the
tables. -/
theorem chains_follow_truth_tables [Memory] (r : Rank) (hr : r.isLogical = true) :
    (∀ ts e rest, parse (.rank r) ts = .ok e rest ↔
      ∃ first links, Chain r ts first links rest ∧
        (∀ t ∈ rest.head?, ∀ op : Connective, op.rank = r → t.kind ≠ .keyword op.keyword) ∧
        e = first.linked links) ∧
    ∀ ts first links rest, Chain r ts first links rest →
      (r ≠ .xor → (first.linked links).eval = first.eval >>= walk links) ∧
      (first.targets = [] → (∀ l ∈ links, l.operand.targets = []) → ∀ env,
        FollowsTables r first links env) := by
  refine ⟨fun ts e rest ↦ parse_rank_eq_ok_iff hr, fun ts first links rest hchain ↦ ⟨?_, ?_⟩⟩
  · intro hne
    funext env
    refine eval_linked (.inl fun l hl ↦ ?_)
    rw [hchain.rank_eq l hl]
    exact hne
  · intro hfirst hlinks env
    exact followsTables hchain.rank_eq hfirst hlinks env

/-- The tokens of `true xor x xnor y`. -/
def exclusions : List Token :=
  [⟨.keyword .true_, "true", 1⟩, ⟨.keyword .xor, "xor", 1⟩, ⟨.name "x", "x", 2⟩,
    ⟨.keyword .xnor, "xnor", 3⟩, ⟨.name "y", "y", 3⟩, .eof 3]

open scoped Memory

/-- Where neither variable exists, it is the first of them that is missed. -/
theorem chains_follow_truth_tables_exclusions :
    parse (.rank .xor) exclusions = .ok ((literal (.bool true) 1).linked
      [⟨.xor, .var "x" 2, 1⟩, ⟨.xnor, .var "y" 3, 3⟩]) [.eof 3] ∧
    ((literal (.bool true) 1).linked
      [⟨.xor, .var "x" 2, 1⟩, ⟨.xnor, .var "y" 3, 3⟩]).eval .initial =
        .error ⟨.undefinedVariable "x", 2⟩ .initial := by
  have hfirst : Chain .xor exclusions (.literal (.bool true) 1) [] (exclusions.drop 1) := .first rfl
  have hsecond : Chain .xor exclusions (.literal (.bool true) 1) [⟨.xor, .var "x" 2, 1⟩]
      (exclusions.drop 3) := hfirst.link (show Connective.xor.rank = .xor from rfl) rfl rfl
  have hchain : Chain .xor exclusions (.literal (.bool true) 1)
      [⟨.xor, .var "x" 2, 1⟩, ⟨.xnor, .var "y" 3, 3⟩] [.eof 3] :=
    hsecond.link (show Connective.xnor.rank = .xor from rfl) rfl rfl
  have hall := chains_follow_truth_tables .xor rfl
  have htables := (hall.2 _ _ _ _ hchain).2 rfl (by simp [targets]) .initial
  refine ⟨(hall.1 _ _ _).mpr ⟨_, _, hchain, by simp [Token.eof], rfl⟩, ?_⟩
  exact htables.leftmost rfl [] _ _ _ rfl ⟨_, rfl⟩ (by simp) rfl

end Expr

end BlockScript
