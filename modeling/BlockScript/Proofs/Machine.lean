import BlockScript.Program.Run
import BlockScript.Proofs.Outcome
import BlockScript.Proofs.Stmt.Names
import BlockScript.Proofs.Value.Operation

/-!
# What execution does to the machine

Execution is put together from a few elementary computations by sequence, repetition and scopes. A
property of computations that passes from the parts of a sequence to the whole (`Closed`) passes
through all of them but scopes, since a repetition is a sequence of its iterations. Most invariants
of execution are of that kind: relations between the states before and after, and conditions on the
errors.

A statement can bind names in the scope it stands in, and a scope hides the names that are bound in
it. So a property of statements is indexed by names: declarations have it for the names they bind,
and a scope has it for any names if its body has it for some. What everything elementary has in that
sense every statement has for the names it declares (`exec_of_pervasive`).

Some properties depend on which variables are touched. Then the elementary computations need to have
them for certain names only, and every statement that mentions no other names has them
(`exec_of_guarded`). Which names of an expression matter depends on the property, too: all of them,
or only those that are assigned to (`exec_of_guardedBy`).
-/

namespace BlockScript

variable {R : Environment → Environment → Prop} {Q : Machine → Machine → Prop}

/-! ## Properties of computations -/

namespace Exec

/-- A property of computations that passes from parts to the whole. -/
structure Closed (P : (α : Type) → Exec α → Prop) : Prop where
  /-- Doing nothing has it. -/
  pure {α : Type} (a : α) : P α (Pure.pure a)
  /-- Two computations that have it have it one after the other. -/
  bind {α β : Type} {x : Exec α} {f : α → Exec β} : P α x → (∀ a, P β (f a)) → P β (x >>= f)
  /-- Running out of iterations has it. -/
  outOfFuel : P Unit (throw .outOfFuel)

theorem loop_succ (step : Exec Bool) (fuel : Nat) :
    loop step (fuel + 1) = step >>= fun again ↦ if again then loop step fuel else Pure.pure () := by
  funext m
  rw [loop]
  rcases h : step m with ⟨_ | _, m'⟩ | ⟨e, m'⟩
  · rw [bind_of_ok h]
    rfl
  · rw [bind_of_ok h]
    rfl
  · rw [bind_of_error h]

theorem times_succ (step : Exec Bool) (count : Nat) :
    times step (count + 1) =
      step >>= fun again ↦ if again then times step count else Pure.pure () := by
  funext m
  rw [times]
  rcases h : step m with ⟨_ | _, m'⟩ | ⟨e, m'⟩
  · rw [bind_of_ok h]
    rfl
  · rw [bind_of_ok h]
    rfl
  · rw [bind_of_error h]

/-- On the way out a scope is left whether or not its body ended in an error. -/
theorem inScope_eq {α : Type} (body : Exec α) (m : Machine) :
    inScope body m =
      mapState (fun m ↦ { m with env := m.env.pop }) (body { m with env := m.env.push }) := by
  rw [inScope]
  rcases body _ with _ | _ <;> rfl

namespace Closed

variable {P : (α : Type) → Exec α → Prop} {step : Exec Bool}

theorem loop (hP : Closed P) (hstep : P Bool step) (fuel : Nat) : P Unit (loop step fuel) := by
  induction fuel with
  | zero => exact hP.outOfFuel
  | succ fuel ih =>
    rw [loop_succ]
    refine hP.bind hstep fun again ↦ ?_
    split
    · exact ih
    · exact hP.pure ()

theorem times (hP : Closed P) (hstep : P Bool step) (count : Nat) : P Unit (times step count) := by
  induction count with
  | zero => exact hP.pure ()
  | succ count ih =>
    rw [times_succ]
    refine hP.bind hstep fun again ↦ ?_
    split
    · exact ih
    · exact hP.pure ()

end Closed

end Exec

/-! ## Iterations and sequences -/

namespace Stmt

open Exec (Closed)

variable {P : (α : Type) → Exec α → Prop} {body : Exec Flow}

theorem increase_of_closed [Memory] (hP : Closed P) {step : Option Expr}
    (hstep : ∀ e ∈ step, P Value (liftM e.eval)) : P Unit (increase step) := by
  rcases step with _ | e
  · exact hP.pure ()
  · exact hP.bind (hstep e rfl) fun _ ↦ hP.pure ()

theorem loopStep_of_closed [Memory] (hP : Closed P) {condition : Expr} {step : Option Expr}
    (hcondition : P Value (liftM condition.eval)) (hbody : P Flow body)
    (hstep : ∀ e ∈ step, P Value (liftM e.eval)) : P Bool (loopStep condition body step) := by
  refine hP.bind hcondition fun v ↦ ?_
  split
  · refine hP.bind hbody fun flow ↦ ?_
    split
    · exact hP.pure false
    · exact hP.bind (increase_of_closed hP hstep) fun _ ↦ hP.pure true
  · exact hP.pure false

theorem untilStep_of_closed [Memory] (hP : Closed P) {condition : Expr} (hbody : P Flow body)
    (hcondition : P Value (liftM condition.eval)) : P Bool (untilStep body condition) := by
  refine hP.bind hbody fun flow ↦ ?_
  split
  · exact hP.pure false
  · exact hP.bind hcondition fun _ ↦ hP.pure _

theorem countedStep_of_closed (hP : Closed P) (hbody : P Flow body) : P Bool (countedStep body) :=
  hP.bind hbody fun _ ↦ hP.pure _

theorem repeatCount_of_closed [Memory] (hP : Closed P) {count : Expr} {line : Nat}
    (hcount : P Value (liftM count.eval))
    (hthrow : P Nat (throw (.error ⟨.invalidRepeatCount, line⟩))) :
    P Nat (repeatCount count line) := by
  refine hP.bind hcount fun v ↦ ?_
  split
  · exact hP.pure _
  · exact hthrow

private theorem execAll_of_closed [Memory] (hP : Closed P) {fuel : Nat} {ss : List Stmt}
    (h : ∀ s ∈ ss, P Flow (s.exec fuel)) : P Flow (execAll fuel ss) := by
  induction ss with
  | nil => exact hP.pure Flow.normal
  | cons s ss ih =>
    rw [List.forall_mem_cons] at h
    rw [execAll]
    refine hP.bind h.1 fun flow ↦ ?_
    rcases flow with _ | kind
    · exact ih h.2
    · exact hP.pure _

end Stmt

theorem Program.execWithin_of_closed [Memory] {P : (α : Type) → Exec α → Prop} (hP : Exec.Closed P)
    {fuel : Nat} {program : Program} (h : ∀ s ∈ program, P Flow (s.exec fuel)) :
    P Unit (program.execWithin fuel) := by
  induction program with
  | nil => exact hP.pure ()
  | cons s program ih =>
    rw [List.forall_mem_cons] at h
    exact hP.bind h.1 fun _ ↦ ih h.2

theorem Program.runWithin_of_closed [Memory] {P : (α : Type) → Exec α → Prop} (hP : Exec.Closed P)
    {fuel : Nat} {program : Program}
    (hthrow : ∀ e, Stmt.strayJumpAmong? program = some e → P Unit (throw (.error e)))
    (h : ∀ s ∈ program, P Flow (s.exec fuel)) : P Unit (program.runWithin fuel) := by
  rw [runWithin]
  rcases hjumps : Stmt.strayJumpAmong? program with _ | e
  · exact execWithin_of_closed hP h
  · exact hthrow e hjumps

/-! ## Statements -/

namespace Exec

/-- A property that everything elementary has, and that passes through sequences and scopes. It is
indexed by the names that may be declared, and it is asked for only where all names are `ok`. Of an
expression, the names that count are those that `f` gives. -/
structure GuardedBy [Memory] (f : Expr → List String) (ok : String → Prop)
    (P : List String → (α : Type) → Exec α → Prop) : Prop where
  /-- It passes through sequences. -/
  closed (names : List String) : Closed (P names)
  /-- Evaluation has it. -/
  eval (names : List String) (e : Expr) (h : ∀ x ∈ f e, ok x) : P names Value (liftM e.eval)
  /-- Assigning what has been read has it. -/
  assign (names : List String) (name : String) (v : Value) (line : Nat) (h : ok name) :
    P names Unit (liftM (Eval.assign name v line))
  /-- Declaring a name that may be declared has it. -/
  define {names : List String} {name : String} (h : name ∈ names) (v : Value) (hok : ok name) :
    P names Unit (define name v)
  /-- Writing has it. -/
  write (names : List String) (v : Value) (terminator : String) (line : Nat) :
    P names Unit (write v terminator line)
  /-- Taking a line of the input has it. -/
  takeLine (names : List String) (line : Nat) : P names (Option String) (takeLine line)
  /-- Complaining about what has been read has it. -/
  badNumber (names : List String) (text : String) (line : Nat) :
    P names Unit (throw (.error ⟨.invalidNumberInput text, line⟩))
  /-- Complaining about a count has it. -/
  badCount (names : List String) (line : Nat) :
    P names Nat (throw (.error ⟨.invalidRepeatCount, line⟩))
  /-- Scopes have it whatever their bodies declare. -/
  inScope (names : List String) {names' : List String} {body : Exec Flow} :
    P names' Flow body → P names Flow (inScope body)

/-- A property of everything that mentions no names but those that are `ok`. -/
abbrev Guarded [Memory] := GuardedBy Expr.names

/-- A property that everything elementary has, whatever names it is about. -/
abbrev Pervasive [Memory] := Guarded fun _ ↦ True

/-- If more names count, the property is asked for in fewer places. -/
theorem GuardedBy.mono [Memory] {f g : Expr → List String} {ok : String → Prop}
    {P : List String → (α : Type) → Exec α → Prop} (hfg : ∀ e, f e ⊆ g e)
    (hP : GuardedBy f ok P) : GuardedBy g ok P :=
  { hP with eval := fun names e h ↦ hP.eval names e fun x hx ↦ h x (hfg e hx) }

variable {P : (α : Type) → Exec α → Prop}

theorem readLine_of_closed (hP : Closed P) {name : String} {line : Nat}
    (htake : P (Option String) (takeLine line))
    (hassign : ∀ v, P Unit (liftM (Eval.assign name v line))) : P Unit (readLine name line) :=
  hP.bind htake fun _ ↦ hassign _

theorem readNumber_of_closed (hP : Closed P) {name : String} {line : Nat}
    (htake : P (Option String) (takeLine line))
    (hassign : ∀ v, P Unit (liftM (Eval.assign name v line)))
    (hthrow : ∀ text, P Unit (throw (.error ⟨.invalidNumberInput text, line⟩))) :
    P Unit (readNumber name line) := by
  refine hP.bind htake fun text ↦ ?_
  dsimp only
  split
  · exact hassign _
  · exact hthrow _

end Exec

/-- The names that a statement declares outside of all its blocks. -/
def Stmt.declares : Stmt → List String
  | declare name _ _ => [name]
  | ifThen _ yes _ => yes.declares
  | ifElse _ yes no _ => yes.declares ++ no.declares
  | loop _ body _ _ => body.declares
  | repeatUntil body _ _ => body.declares
  | repeatFor body _ _ => body.declares
  | _ => []

section

open Exec

variable [Memory] {f : Expr → List String} {ok : String → Prop}
  {P : List String → (α : Type) → Exec α → Prop} {names : List String}

/-- **Every statement** has what everything it is put together from has. -/
theorem Stmt.exec_of_guardedBy (hP : GuardedBy f ok P) (fuel : Nat) (s : Stmt)
    (hs : s.declares ⊆ names) (hok : ∀ x ∈ s.gather f, ok x) : P names Flow (s.exec fuel) := by
  -- the names of the body of a block are its own, so they vary in the induction
  induction s using Stmt.induction generalizing names
  all_goals have hC := hP.closed names
  case expression value line => exact hC.bind (hP.eval names value hok) fun _ ↦ hC.pure _
  case write value terminator line =>
    exact hC.bind (hP.eval names value hok) fun v ↦
      hC.bind (hP.write names v terminator line) fun _ ↦ hC.pure _
  case declare name initial line =>
    rw [Stmt.gather, List.forall_mem_cons] at hok
    have hname : name ∈ names := hs (List.mem_singleton_self name)
    rcases initial with _ | e
    · exact hC.bind (hC.pure Value.nil) fun v ↦
        hC.bind (hP.define hname v hok.1) fun _ ↦ hC.pure _
    · exact hC.bind (hP.eval names e hok.2) fun v ↦
        hC.bind (hP.define hname v hok.1) fun _ ↦ hC.pure _
  case block body line ih =>
    refine hP.inScope names (execAll_of_closed (hP.closed (body.flatMap declares)) fun s hmem ↦ ?_)
    exact ih s hmem (fun x hx ↦ List.mem_flatMap.mpr ⟨s, hmem, hx⟩)
      fun x hx ↦ hok x (mem_gatherAmong hmem hx)
  case ifThen condition yes line ih =>
    rw [Stmt.gather, List.forall_mem_append] at hok
    refine hC.bind (hP.eval names condition hok.1) fun v ↦ ?_
    split
    · exact ih hs hok.2
    · exact hC.pure _
  case ifElse condition yes no line ihy ihn =>
    rw [Stmt.gather, List.forall_mem_append, List.forall_mem_append] at hok
    obtain ⟨hcondition, hyes, hno⟩ := hok
    refine hC.bind (hP.eval names condition hcondition) fun v ↦ ?_
    split
    · exact ihy (fun x hx ↦ hs (List.mem_append_left _ hx)) hyes
    · exact ihn (fun x hx ↦ hs (List.mem_append_right _ hx)) hno
  case loop condition body increment line ih =>
    rw [Stmt.gather, List.forall_mem_append, List.forall_mem_append] at hok
    obtain ⟨hcondition, hbody, hincrement⟩ := hok
    have hincrease (e : Expr) (he : e ∈ increment) : P names Value (liftM e.eval) := by
      cases he
      exact hP.eval names e hincrement
    have hstep := loopStep_of_closed hC (hP.eval names condition hcondition) (ih hs hbody)
      hincrease
    exact hC.bind (hC.loop hstep fuel) fun _ ↦ hC.pure _
  case repeatUntil body condition line ih =>
    rw [Stmt.gather, List.forall_mem_append] at hok
    have hstep := untilStep_of_closed hC (ih hs hok.1) (hP.eval names condition hok.2)
    exact hC.bind (hC.loop hstep fuel) fun _ ↦ hC.pure _
  case repeatFor body count line ih =>
    rw [Stmt.gather, List.forall_mem_append] at hok
    have hcount := repeatCount_of_closed hC (hP.eval names count hok.1) (hP.badCount names line)
    have hstep := countedStep_of_closed hC (ih hs hok.2)
    exact hC.bind hcount fun n ↦ hC.bind (hC.times hstep n) fun _ ↦ hC.pure _
  case jump kind line => exact hC.pure _
  case read name line =>
    rw [Stmt.gather, List.forall_mem_singleton] at hok
    have hread := readLine_of_closed hC (hP.takeLine names line) fun v ↦
      hP.assign names name v line hok
    exact hC.bind hread fun _ ↦ hC.pure _
  case readNumber name line =>
    rw [Stmt.gather, List.forall_mem_singleton] at hok
    have hread := readNumber_of_closed hC (hP.takeLine names line)
      (fun v ↦ hP.assign names name v line hok) fun text ↦ hP.badNumber names text line
    exact hC.bind hread fun _ ↦ hC.pure _

theorem Stmt.exec_of_guarded (hP : Guarded ok P) (fuel : Nat) (s : Stmt) (hs : s.declares ⊆ names)
    (hok : ∀ x ∈ s.names, ok x) : P names Flow (s.exec fuel) := by
  rw [names_eq_gather] at hok
  exact s.exec_of_guardedBy hP fuel hs hok

theorem Stmt.exec_of_pervasive (hP : Pervasive P) (fuel : Nat) (s : Stmt)
    (hs : s.declares ⊆ names) : P names Flow (s.exec fuel) :=
  s.exec_of_guarded hP fuel hs fun _ _ ↦ trivial

theorem Stmt.execAll_of_pervasive (hP : Pervasive P) (fuel : Nat) (body : List Stmt) :
    P (body.flatMap declares) Flow (execAll fuel body) :=
  execAll_of_closed (hP.closed _) fun s hs ↦
    s.exec_of_pervasive hP fuel fun _ hx ↦ List.mem_flatMap.mpr ⟨s, hs, hx⟩

end

/-! ## Expressions -/

/-- A property of evaluations that passes from parts to the whole. -/
structure Eval.Closed (P : (α : Type) → Eval α → Prop) : Prop where
  pure {α : Type} (a : α) : P α (Pure.pure a)
  /-- Two evaluations that have it have it one after the other. -/
  bind {α β : Type} {x : Eval α} {f : α → Eval β} : P α x → (∀ a, P β (f a)) → P β (x >>= f)

/-- Evaluation is put together from operations, which can fail, from taking the values of names that
the expression mentions, and from assigning to its targets. -/
theorem Expr.eval_of_closed [Memory] {P : (α : Type) → Eval α → Prop} (hP : Eval.Closed P)
    (hfail : ∀ cause line, cause.isOperation = true → P Value (throw ⟨cause, line⟩)) (e : Expr)
    (hlookup : ∀ x ∈ e.names, ∀ line, P Value (Eval.lookup x line))
    (hassign : ∀ x ∈ e.targets, ∀ v line, P Unit (Eval.assign x v line)) : P Value e.eval := by
  have honLine {line : Nat} {r : Value.Result}
      (h : ∀ cause, r = .error cause → cause.isOperation = true) :
      P Value (Eval.onLine line r) := by
    rcases r with cause | v
    · exact hfail cause line (h cause rfl)
    · exact hP.pure v
  induction e with
  | literal value line => exact hP.pure value
  | group inner line ih => exact ih hlookup hassign
  | unary op operand line ih =>
    exact hP.bind (ih hlookup hassign) fun v ↦
      honLine fun cause ↦ UnaryOp.isOperation_of_apply
  | binary left op right line ihl ihr =>
    rw [names, List.forall_mem_append] at hlookup
    rw [targets, List.forall_mem_append] at hassign
    exact hP.bind (ihl hlookup.1 hassign.1) fun a ↦ hP.bind (ihr hlookup.2 hassign.2) fun b ↦
      honLine fun cause ↦ BinaryOp.isOperation_of_apply
  | logical left op right line ihl ihr =>
    rw [names, List.forall_mem_append] at hlookup
    rw [targets, List.forall_mem_append] at hassign
    refine hP.bind (ihl hlookup.1 hassign.1) fun a ↦ ?_
    split
    · exact hP.pure a
    · exact ihr hlookup.2 hassign.2
  | var name line => exact hlookup name (List.mem_singleton_self name) line
  | assign name value line ih =>
    rw [names, List.forall_mem_cons] at hlookup
    rw [targets, List.forall_mem_cons] at hassign
    exact hP.bind (ih hlookup.2 hassign.2) fun v ↦
      hP.bind (hassign.1 v line) fun _ ↦ hP.pure v

/-! ## States -/

theorem Exec.closed_respects (hQ : Repeatable Q) : Closed fun _ x ↦ Respects Q x :=
  ⟨fun a ↦ .pure hQ a, fun hx hf ↦ hx.bind hQ hf, .throw hQ _⟩

/-- What happens to the variables, with no regard to input and output. -/
def OnEnv (R : Environment → Environment → Prop) (m m' : Machine) : Prop := R m.env m'.env

theorem Repeatable.onEnv (hR : Repeatable R) : Repeatable (OnEnv R) :=
  ⟨fun m ↦ hR.refl m.env, fun h h' ↦ hR.trans h h'⟩

namespace Exec

theorem respects_lift {α : Type} {e : Eval α} (he : Respects R e) :
    Respects (OnEnv R) (liftM e : Exec α) := by
  intro ⟨env, input, output⟩
  have henv := he env
  change R env (stateAfter (ofEval e ⟨env, input, output⟩)).env
  rw [ofEval]
  rcases h : e env with ⟨a, env'⟩ | ⟨err, env'⟩
  · rwa [h] at henv
  · rwa [h] at henv

theorem respects_write (hR : Repeatable R) (v : Value) (terminator : String) (line : Nat) :
    Respects (OnEnv R) (write v terminator line) := by
  intro ⟨env, input, output⟩
  rw [write]
  rcases Output.emit (v.display ++ terminator) output with _ | _
  · exact hR.refl env
  · exact hR.refl env

theorem respects_takeLine (hR : Repeatable R) (line : Nat) :
    Respects (OnEnv R) (takeLine line) := by
  intro ⟨env, input, output⟩
  rw [takeLine]
  rcases Input.takeLine input with _ | _
  · exact hR.refl env
  · exact hR.refl env

/-- What a scope does to the variables is what its body does between entering and leaving it. -/
theorem respects_inScope {R' : Environment → Environment → Prop} {α : Type} {body : Exec α}
    (hpop : ∀ env env', R env.push env' → R' env env'.pop) (h : Respects (OnEnv R) body) :
    Respects (OnEnv R') (inScope body) := by
  intro ⟨env, input, output⟩
  have hbody := h ⟨env.push, input, output⟩
  rw [inScope]
  rcases hrun : body ⟨env.push, input, output⟩ with ⟨a, m⟩ | ⟨e, m⟩
  · rw [hrun] at hbody
    exact hpop env m.env hbody
  · rw [hrun] at hbody
    exact hpop env m.env hbody

end Exec

/-- Evaluation touches variables through assignments only. -/
theorem Expr.respects_eval [Memory] (hR : Repeatable R) (e : Expr)
    (hassign : ∀ name ∈ e.targets, ∀ v line, Respects R (Eval.assign name v line)) :
    Respects R e.eval := by
  have hclosed : Eval.Closed fun _ x ↦ Respects R x :=
    ⟨fun a ↦ .pure hR a, fun hx hf ↦ hx.bind hR hf⟩
  refine e.eval_of_closed hclosed (fun _ _ _ ↦ .throw hR _) (fun name _ line env ↦ ?_) hassign
  rw [Eval.lookup]
  rcases env.get? name with _ | v
  · exact hR.refl env
  · exact hR.refl env

/-- What every statement does, every source does, whether it is run or rejected. -/
theorem respects_runWithin [Memory] (hQ : Repeatable Q) {fuel : Nat}
    (h : ∀ s : Stmt, Respects Q (s.exec fuel)) (source : String) :
    Respects Q (runWithin fuel source) := by
  intro m
  rw [runWithin]
  rcases parse source with errors | program
  · exact hQ.refl m
  · have hrun : Respects Q (program.runWithin fuel) :=
      Program.runWithin_of_closed (Exec.closed_respects hQ) (fun _ _ ↦ .throw hQ _) fun s _ ↦ h s
    have hm := hrun m
    dsimp only
    rcases hresult : program.runWithin fuel m with ⟨_, m'⟩ | ⟨e, m'⟩
    · rwa [hresult] at hm
    · rwa [hresult] at hm

/-! ## Errors -/

section

variable {E : RuntimeError → Prop}

theorem Eval.onlyFails_assign (hundefined : ∀ name line, E ⟨.undefinedVariable name, line⟩)
    (name : String) (v : Value) (line : Nat) : OnlyFails E (assign name v line) := by
  intro env e env' h
  rw [assign] at h
  split at h
  · cases h
  · cases h
    exact hundefined name line

/-- Evaluation fails for want of a variable, or as an operation fails. -/
theorem Expr.onlyFails_eval [Memory] (hundefined : ∀ name line, E ⟨.undefinedVariable name, line⟩)
    (hoperation : ∀ cause line, cause.isOperation = true → E ⟨cause, line⟩) (e : Expr) :
    OnlyFails E e.eval := by
  have hclosed : Eval.Closed fun _ x ↦ OnlyFails E x := ⟨fun a ↦ .pure a, fun hx hf ↦ hx.bind hf⟩
  refine e.eval_of_closed hclosed (fun cause line h ↦ .throw (hoperation cause line h))
    (fun name _ line env err env' h ↦ ?_) fun name _ ↦ Eval.onlyFails_assign hundefined name
  rw [Eval.lookup] at h
  split at h
  · cases h
  · cases h
    exact hundefined name line

end

namespace Exec

variable {E : Stop → Prop}

theorem closed_onlyFails (hfuel : E .outOfFuel) : Closed fun _ x ↦ OnlyFails E x :=
  ⟨fun a ↦ .pure a, fun hx hf ↦ hx.bind hf, .throw hfuel⟩

theorem onlyFails_lift {α : Type} {e : Eval α} (h : OnlyFails (fun err ↦ E (.error err)) e) :
    OnlyFails E (liftM e : Exec α) := by
  intro ⟨env, input, output⟩ stop m heq
  change ofEval e ⟨env, input, output⟩ = _ at heq
  rw [ofEval] at heq
  rcases hrun : e env with ⟨a, env'⟩ | ⟨err, env'⟩
  · rw [hrun] at heq
    cases heq
  · rw [hrun] at heq
    cases heq
    exact h hrun

theorem onlyFails_inScope {α : Type} {body : Exec α} (h : OnlyFails E body) :
    OnlyFails E (inScope body) := by
  intro ⟨env, input, output⟩ stop m heq
  rw [inScope] at heq
  rcases hrun : body ⟨env.push, input, output⟩ with ⟨a, m'⟩ | ⟨err, m'⟩
  · rw [hrun] at heq
    cases heq
  · rw [hrun] at heq
    cases heq
    exact h hrun

theorem onlyFails_write (h : ∀ fault line, E (.error ⟨.outputFailure fault, line⟩)) (v : Value)
    (terminator : String) (line : Nat) : OnlyFails E (write v terminator line) := by
  intro ⟨env, input, output⟩ stop m heq
  rw [write] at heq
  split at heq
  · cases heq
  · cases heq
    exact h _ line

theorem onlyFails_takeLine (h : ∀ fault line, E (.error ⟨.inputFailure fault, line⟩)) (line : Nat) :
    OnlyFails E (takeLine line) := by
  intro ⟨env, input, output⟩ stop m heq
  rw [takeLine] at heq
  split at heq
  · cases heq
  · cases heq
    exact h _ line

end Exec

end BlockScript
