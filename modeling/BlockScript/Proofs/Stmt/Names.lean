import BlockScript.Stmt
import Mathlib.Data.List.Basic

/-!
# Names that a program mentions

A program can reach a variable only by a name that stands in it: as an operand, as the target of an
assignment or of an input, or in a declaration. These are all of them, with no regard to scopes.

Those among them that can change a variable are its targets. A statement gathers names from its
expressions in one way, whichever names of an expression are asked for, and adds the names that it
declares or reads into itself (`gather`).
-/

namespace BlockScript

/-- The names of an expression: those it takes the value of, and those it assigns to. -/
def Expr.names : Expr → List String
  | literal _ _ => []
  | group inner _ => inner.names
  | unary _ operand _ => operand.names
  | binary left _ right _ => left.names ++ right.names
  | logical left _ right _ => left.names ++ right.names
  | var name _ => [name]
  | assign name value _ => name :: value.names

/-- The names that an expression assigns to. -/
def Expr.targets : Expr → List String
  | literal _ _ => []
  | group inner _ => inner.targets
  | unary _ operand _ => operand.targets
  | binary left _ right _ => left.targets ++ right.targets
  | logical left _ right _ => left.targets ++ right.targets
  | var _ _ => []
  | assign name value _ => name :: value.targets

theorem Expr.targets_subset_names (e : Expr) : e.targets ⊆ e.names := by
  have happend {as bs cs ds : List String} (h : as ⊆ cs) (h' : bs ⊆ ds) : as ++ bs ⊆ cs ++ ds :=
    List.append_subset.mpr
      ⟨List.subset_append_of_subset_left ds h, List.subset_append_of_subset_right cs h'⟩
  induction e with
  | literal value line => exact List.Subset.refl _
  | group inner line ih => exact ih
  | unary op operand line ih => exact ih
  | binary left op right line ihl ihr => exact happend ihl ihr
  | logical left op right line ihl ihr => exact happend ihl ihr
  | var name line => exact List.nil_subset _
  | assign name value line ih => exact List.cons_subset_cons name ih

namespace Stmt

/-- The names of an expression that may be missing. -/
def namesOf (e : Option Expr) : List String := e.elim [] Expr.names

mutual

/-- The names of a statement: those of its expressions, and those it declares or reads into. -/
def names : Stmt → List String
  | expression value _ => value.names
  | write value _ _ => value.names
  | declare name initial _ => name :: namesOf initial
  | block body _ => namesAmong body
  | ifThen condition yes _ => condition.names ++ yes.names
  | ifElse condition yes no _ => condition.names ++ (yes.names ++ no.names)
  | loop condition body increment _ => condition.names ++ (body.names ++ namesOf increment)
  | repeatUntil body condition _ => body.names ++ condition.names
  | repeatFor body count _ => count.names ++ body.names
  | jump _ _ => []
  | read name _ => [name]
  | readNumber name _ => [name]

/-- The names of some statements. -/
def namesAmong : List Stmt → List String
  | [] => []
  | s :: rest => s.names ++ namesAmong rest

end

mutual

/-- Names of a statement: some of each of its expressions, and those it declares or reads into. -/
def gather (f : Expr → List String) : Stmt → List String
  | expression value _ => f value
  | write value _ _ => f value
  | declare name initial _ => name :: initial.elim [] f
  | block body _ => gatherAmong f body
  | ifThen condition yes _ => f condition ++ yes.gather f
  | ifElse condition yes no _ => f condition ++ (yes.gather f ++ no.gather f)
  | loop condition body increment _ => f condition ++ (body.gather f ++ increment.elim [] f)
  | repeatUntil body condition _ => body.gather f ++ f condition
  | repeatFor body count _ => f count ++ body.gather f
  | jump _ _ => []
  | read name _ => [name]
  | readNumber name _ => [name]

/-- Names of some statements. -/
def gatherAmong (f : Expr → List String) : List Stmt → List String
  | [] => []
  | s :: rest => s.gather f ++ gatherAmong f rest

end

/-- The names that a statement can change: those that are assigned to anywhere in it, and those it
declares or reads into. -/
def targets (s : Stmt) : List String := s.gather Expr.targets

variable {f g : Expr → List String} {x : String} {ss : List Stmt} {s : Stmt}

private theorem gatherAmong_eq_flatMap (f : Expr → List String) (ss : List Stmt) :
    gatherAmong f ss = ss.flatMap (gather f) := by
  induction ss with
  | nil => rfl
  | cons s ss ih => rw [gatherAmong, List.flatMap_cons, ih]

theorem mem_gatherAmong (hs : s ∈ ss) (hx : x ∈ s.gather f) : x ∈ gatherAmong f ss := by
  rw [gatherAmong_eq_flatMap]
  exact List.mem_flatMap.mpr ⟨s, hs, hx⟩

private theorem namesAmong_eq_flatMap (ss : List Stmt) : namesAmong ss = ss.flatMap names := by
  induction ss with
  | nil => rfl
  | cons s ss ih => rw [namesAmong, List.flatMap_cons, ih]

theorem mem_namesAmong (hs : s ∈ ss) (hx : x ∈ s.names) : x ∈ namesAmong ss := by
  rw [namesAmong_eq_flatMap]
  exact List.mem_flatMap.mpr ⟨s, hs, hx⟩

/-- The names of a statement are gathered from all names of its expressions. -/
theorem names_eq_gather (s : Stmt) : s.names = s.gather Expr.names := by
  induction s using Stmt.induction with
  | expression value line => rfl
  | write value terminator line => rfl
  | declare name initial line => rfl
  | block body line ih =>
    rw [names, gather, namesAmong_eq_flatMap, gatherAmong_eq_flatMap]
    exact List.flatMap_congr ih
  | ifThen condition yes line ih => rw [names, gather, ih]
  | ifElse condition yes no line ihy ihn => rw [names, gather, ihy, ihn]
  | loop condition body increment line ih => rw [names, gather, ih, namesOf]
  | repeatUntil body condition line ih => rw [names, gather, ih]
  | repeatFor body count line ih => rw [names, gather, ih]
  | jump kind line => rfl
  | read name line => rfl
  | readNumber name line => rfl

end Stmt

end BlockScript
