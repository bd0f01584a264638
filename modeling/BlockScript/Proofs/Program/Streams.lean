import BlockScript.Proofs.Input
import BlockScript.Proofs.Program.FullOutput
import BlockScript.Proofs.Stmt.Visits

/-!
# Input and output, line by line

What a run does to its streams can be read off the statements it executes. Each of those that write
adds its text behind all that has been written before, and each of those that read takes the first
line that is left, if there is one. Nothing else touches either stream.

## The invariant

`Exchanged reads text` says this of two machines, for a number of lines that have been asked for and
a text that has been written. An output that is full makes no exception: it holds as much of the
text as there is room for. But a run goes on only as long as everything fits, so for two
computations in sequence it has to be known of the first that its text fits, which it does if there
is a result (`EndsAfter`). `Exchanges` takes both, the number and the text, from the statements that
are executed.
-/

namespace BlockScript

open Exec (visitsThen visitsRepeating)

/-! ## What a visit exchanges -/

namespace Visit

/-- The text that a statement writes where it is executed; it is empty for all statements that do
not write, and for those that fail to compute what they would write. -/
def text [Memory] : Visit → String
  | ⟨.write value terminator _, m⟩ =>
    match Exec.ofEval value.eval m with
    | .ok v _ => v.display ++ terminator
    | .error _ _ => ""
  | _ => ""

/-- Whether a statement reads a line. -/
def isRead : Visit → Bool
  | ⟨.read _ _, _⟩ => true
  | ⟨.readNumber _ _, _⟩ => true
  | _ => false

/-- All that is written in some visits. -/
def texts [Memory] (visits : List Visit) : String := String.join (visits.map text)

/-- How many of some visits read a line. -/
def reads (visits : List Visit) : Nat := visits.countP isRead

variable (v : Visit) (vs vs' : List Visit)

private theorem texts_append [Memory] : texts (vs ++ vs') = texts vs ++ texts vs' := by
  rw [texts, List.map_append, String.join_append]
  rfl

private theorem reads_append : reads (vs ++ vs') = reads vs + reads vs' := List.countP_append

private theorem texts_singleton [Memory] : texts [v] = v.text := by
  simp [texts]

private theorem reads_singleton : reads [v] = if v.isRead then 1 else 0 := by
  rw [reads, List.countP_cons, List.countP_nil, Nat.zero_add]

end Visit

/-! ## Output as far as there is room -/

namespace Output

variable {out out' : Output} {text text' : String}

theorem toUTF8_append (s t : String) : (s ++ t).toUTF8 = s.toUTF8 ++ t.toUTF8 :=
  String.toByteArray_append

/-- What an output holds when a text has been written to it, as far as there is room. -/
def holding (out : Output) (text : String) : ByteArray :=
  match out.limit with
  | none => out.written ++ text.toUTF8
  | some limit => out.written ++ text.toUTF8.extract 0 (limit - out.written.size)

/-- There is room for a text. -/
def Fits (out : Output) (text : String) : Prop :=
  ∀ limit, out.limit = some limit → text.toUTF8.size ≤ limit - out.written.size

private theorem exists_holding_eq (out : Output) (text : String) :
    ∃ more, out.holding text = out.written ++ more := by
  rw [holding]
  split
  · exact ⟨_, rfl⟩
  · exact ⟨_, rfl⟩

private theorem fits_empty (out : Output) : out.Fits "" := fun _ _ ↦ Nat.zero_le _

theorem holding_of_fits (h : out.Fits text) : out.holding text = out.written ++ text.toUTF8 := by
  rw [holding]
  split
  · rfl
  · next limit hlimit =>
    rw [← Nat.max_eq_left (h limit hlimit), ByteArray.extract_zero_max_size]

section

variable (hlimit : out'.limit = out.limit) (hfits : out.Fits text)
  (hwritten : out'.written = out.written ++ text.toUTF8)

include hlimit hfits hwritten

/-- Behind a text that fits, what is left of the room is the room of the output that holds it. -/
theorem holding_append (text' : String) : out.holding (text ++ text') = out'.holding text' := by
  rw [holding, holding, hlimit, hwritten, toUTF8_append]
  split
  · rw [ByteArray.append_assoc]
  · next limit hsome =>
    rw [extract_append_of_size_le (hfits limit hsome), ByteArray.size_append, ← Nat.sub_sub,
      ByteArray.append_assoc]

private theorem fits_append (hfits' : out'.Fits text') : out.Fits (text ++ text') := by
  intro limit hsome
  have hfirst := hfits limit hsome
  have hsecond := hfits' limit (hlimit.trans hsome)
  rw [hwritten, ByteArray.size_append] at hsecond
  rw [toUTF8_append, ByteArray.size_append]
  omega

end

private theorem write_of_fits (h : out.Fits text) :
    write text.toUTF8 out = .ok () { out with written := out.holding text } := by
  rw [holding_of_fits h, write]
  split
  · rfl
  · next limit hlimit => exact if_pos (h limit hlimit)

private theorem write_of_not_fits (h : ¬out.Fits text) :
    write text.toUTF8 out = .error .incompleteWrite { out with written := out.holding text } := by
  obtain ⟨limit, hlimit, hsize⟩ : ∃ limit, out.limit = some limit ∧
      ¬text.toUTF8.size ≤ limit - out.written.size := by
    simpa [Fits] using h
  rw [write, holding, hlimit]
  exact if_neg hsize

/-- Writing a text leaves what there is room for, and fails if that is not all of it. -/
theorem ends_emit (text : String) (out : Output) :
    Ends (fun _ out' ↦ out'.limit = out.limit ∧ out'.written = out.holding text ∧ out.Fits text)
      (fun _ out' ↦ out'.limit = out.limit ∧ out'.written = out.holding text) (emit text out) := by
  rw [emit]
  by_cases h : out.Fits text
  · rw [bind_of_ok (write_of_fits h), flush]
    split
    · exact .error ⟨rfl, rfl⟩
    · exact .ok ⟨rfl, rfl, h⟩
  · rw [bind_of_error (write_of_not_fits h)]
    exact .error ⟨rfl, rfl⟩

end Output

/-! ## The invariant -/

/-- What has been done to the streams. -/
structure Exchanged (reads : Nat) (text : String) (m m' : Machine) : Prop where
  /-- So many times a line has been taken, as long as there was one. -/
  input : Input.Reads reads m.input m'.input
  /-- The room is the same. -/
  limit : m'.output.limit = m.output.limit
  /-- The text has been written, as far as there was room. -/
  written : m'.output.written = m.output.holding text

/-- Both streams are as they were. -/
structure SameStreams (m m' : Machine) : Prop where
  /-- Nothing has been read. -/
  input : m'.input = m.input
  /-- Nothing has been written. -/
  output : m'.output = m.output

private theorem repeatable_sameStreams : Repeatable SameStreams :=
  ⟨fun _ ↦ ⟨rfl, rfl⟩, fun h h' ↦ ⟨h'.input.trans h.input, h'.output.trans h.output⟩⟩

theorem SameStreams.exchanged {m m' : Machine} (h : SameStreams m m') : Exchanged 0 "" m m' := by
  refine ⟨?_, congrArg Output.limit h.output, ?_⟩
  · rw [h.input]
    exact .zero m.input
  · rw [h.output]
    exact (Output.holding_of_fits (Output.fits_empty m.output)).trans ByteArray.append_empty |>.symm

/-- How a computation ends that has done so much to the streams. If it has a result, all of the text
did fit. -/
def EndsAfter (reads : Nat) (text : String) (m : Machine) {α : Type} :
    EStateM.Result Stop Machine α → Prop :=
  Ends (fun _ m' ↦ Exchanged reads text m m' ∧ m.output.Fits text) fun _ m' ↦
    Exchanged reads text m m'

section

variable {reads reads' : Nat} {text text' : String} {m m' : Machine} {α : Type}
  {r : EStateM.Result Stop Machine α}

theorem EndsAfter.exchanged (h : EndsAfter reads text m r) :
    Exchanged reads text m (stateAfter r) := by
  rcases h with h | h
  · exact h.1
  · exact h

/-- Behind a text that fits, everything goes on on the machine that is left. -/
theorem Exchanged.append (h : Exchanged reads text m m') (hfits : m.output.Fits text)
    (h' : EndsAfter reads' text' m' r) : EndsAfter (reads + reads') (text ++ text') m r := by
  have hwritten := h.written.trans (Output.holding_of_fits hfits)
  have hboth {m'' : Machine} (h' : Exchanged reads' text' m' m'') :
      Exchanged (reads + reads') (text ++ text') m m'' := by
    refine ⟨h.input.add h'.input, h'.limit.trans h.limit, ?_⟩
    rw [Output.holding_append h.limit hfits hwritten]
    exact h'.written
  exact h'.mono
    (fun _ _ h' ↦ ⟨hboth h'.1, Output.fits_append h.limit hfits hwritten h'.2⟩) fun _ _ ↦ hboth

theorem SameStreams.append (h : SameStreams m m') (h' : EndsAfter reads text m' r) :
    EndsAfter reads text m r := by
  have happend := h.exchanged.append (Output.fits_empty m.output) h'
  rwa [Nat.zero_add, String.empty_append] at happend

private theorem Respects.endsAfter {c : Exec α} (h : Respects SameStreams c) (m : Machine) :
    EndsAfter 0 "" m (c m) := by
  have hm := (h m).exchanged
  rcases hc : c m with ⟨a, m'⟩ | ⟨stop, m'⟩
  · rw [hc] at hm
    exact .ok ⟨hm, Output.fits_empty m.output⟩
  · rw [hc] at hm
    exact .error hm

/-- What follows does nothing to the streams. -/
theorem EndsAfter.before {β : Type} {x : Exec α} {f : α → Exec β}
    (hx : EndsAfter reads text m (x m)) (hf : ∀ a, Respects SameStreams (f a)) :
    EndsAfter reads text m ((x >>= f) m) := by
  rcases hrun : x m with ⟨a, m'⟩ | ⟨stop, m'⟩
  · rw [hrun] at hx
    obtain ⟨hfirst, hfits⟩ | _ := hx
    have happend := hfirst.append hfits ((hf a).endsAfter m')
    rw [bind_of_ok hrun]
    rwa [Nat.add_zero, String.append_empty] at happend
  · rw [hrun] at hx
    obtain _ | hfirst := hx
    rw [bind_of_error hrun]
    exact .error hfirst

end

/-! ## Elementary computations -/

namespace Exec

private theorem sameStreams_ofEval {α : Type} (e : Eval α) : Respects SameStreams (ofEval e) := by
  intro ⟨env, input, output⟩
  rw [ofEval]
  rcases e env with ⟨a, env'⟩ | ⟨err, env'⟩
  · exact ⟨rfl, rfl⟩
  · exact ⟨rfl, rfl⟩

private theorem sameStreams_define (name : String) (v : Value) :
    Respects SameStreams (define name v) :=
  fun _ ↦ ⟨rfl, rfl⟩

private theorem endsAfter_write (v : Value) (terminator : String) (line : Nat) (m : Machine) :
    EndsAfter 0 (v.display ++ terminator) m (write v terminator line m) := by
  have hemit := Output.ends_emit (v.display ++ terminator) m.output
  rw [write]
  rcases hrun : Output.emit (v.display ++ terminator) m.output with ⟨a, out⟩ | ⟨fault, out⟩
  · rw [hrun] at hemit
    obtain ⟨hlimit, hwritten, hfits⟩ | _ := hemit
    exact .ok ⟨⟨.zero m.input, hlimit, hwritten⟩, hfits⟩
  · rw [hrun] at hemit
    obtain _ | ⟨hlimit, hwritten⟩ := hemit
    exact .error ⟨.zero m.input, hlimit, hwritten⟩

private theorem endsAfter_takeLine (line : Nat) (m : Machine) :
    EndsAfter 1 "" m (takeLine line m) := by
  have hsame : SameStreams m m := ⟨rfl, rfl⟩
  have hreads := Input.reads_takeLine m.input
  rw [takeLine]
  rcases hrun : Input.takeLine m.input with ⟨text, input⟩ | ⟨fault, input⟩
  · rw [hrun] at hreads
    exact .ok ⟨⟨hreads, rfl, hsame.exchanged.written⟩, Output.fits_empty m.output⟩
  · rw [hrun] at hreads
    exact .error ⟨hreads, rfl, hsame.exchanged.written⟩

end Exec

/-! ## Computations that visit statements -/

variable [Memory]

/-- A computation leaves the streams to the statements that it visits. -/
def Exchanges (visits : Machine → List Visit) {α : Type} (c : Exec α) : Prop :=
  ∀ m, EndsAfter (Visit.reads (visits m)) (Visit.texts (visits m)) m (c m)

namespace Exchanges

variable {α β : Type} {visits : Machine → List Visit} {x : Exec α} {f : α → Exec β}

private theorem of_sameStreams (h : Respects SameStreams x) : Exchanges (fun _ ↦ []) x :=
  h.endsAfter

theorem pure (a : α) : Exchanges (fun _ ↦ []) (Pure.pure a : Exec α) :=
  of_sameStreams (.pure repeatable_sameStreams a)

theorem bind {next : α → Machine → List Visit} (hx : Exchanges visits x)
    (hf : ∀ a, Exchanges (next a) (f a)) :
    Exchanges (fun m ↦ visits m ++ visitsThen x next m) (x >>= f) := by
  intro m
  have hm := hx m
  dsimp only
  rcases hrun : x m with ⟨a, m'⟩ | ⟨stop, m'⟩
  · rw [hrun] at hm
    obtain ⟨hfirst, hfits⟩ | _ := hm
    rw [bind_of_ok hrun, Exec.visitsThen_of_ok hrun, Visit.reads_append, Visit.texts_append]
    exact hfirst.append hfits (hf a m')
  · rw [hrun] at hm
    obtain _ | hfirst := hm
    rw [bind_of_error hrun, Exec.visitsThen_of_error hrun, List.append_nil]
    exact .error hfirst

/-- The second computation does nothing to the streams. -/
theorem before (hx : Exchanges visits x) (hf : ∀ a, Respects SameStreams (f a)) :
    Exchanges visits (x >>= f) := fun m ↦ (hx m).before hf

/-- The first computation does nothing to the streams. -/
theorem after {next : α → Machine → List Visit} (hx : Respects SameStreams x)
    (hf : ∀ a, Exchanges (next a) (f a)) : Exchanges (visitsThen x next) (x >>= f) :=
  (of_sameStreams hx).bind hf

/-- A visit that neither reads nor writes makes no difference. -/
theorem cons {v : Machine → Visit} (htext : ∀ m, (v m).text = "")
    (hread : ∀ m, (v m).isRead = false) (hx : Exchanges visits x) :
    Exchanges (fun m ↦ v m :: visits m) x := by
  intro m
  have hreads : Visit.reads (v m :: visits m) = Visit.reads (visits m) :=
    List.countP_cons_of_neg (by rw [hread]; exact Bool.false_ne_true)
  have htexts : Visit.texts (v m :: visits m) = Visit.texts (visits m) := by
    rw [← List.singleton_append, Visit.texts_append, Visit.texts_singleton, htext,
      String.empty_append]
  rw [hreads, htexts]
  exact hx m

/-- What is repeated visits what its iterations visit. -/
theorem rounds {step : Exec Bool} {rounds : Nat → Exec Unit} (hstep : Exchanges visits step)
    (hzero : Respects SameStreams (rounds 0))
    (hsucc : ∀ n, rounds (n + 1) =
      step >>= fun again ↦ if again then rounds n else Pure.pure ()) (count : Nat) :
    Exchanges (visitsRepeating step visits count) (rounds count) := by
  induction count with
  | zero => exact of_sameStreams hzero
  | succ count ih =>
    rw [hsucc]
    refine hstep.bind fun again ↦ ?_
    rcases again with _ | _
    · exact .pure ()
    · exact ih

theorem loop {step : Exec Bool} (hstep : Exchanges visits step) (fuel : Nat) :
    Exchanges (visitsRepeating step visits fuel) (Exec.loop step fuel) :=
  hstep.rounds (.throw repeatable_sameStreams Stop.outOfFuel) (Exec.loop_succ step) fuel

theorem times {step : Exec Bool} (hstep : Exchanges visits step) (count : Nat) :
    Exchanges (visitsRepeating step visits count) (Exec.times step count) :=
  hstep.rounds (.pure repeatable_sameStreams ()) (Exec.times_succ step) count

theorem inScope (hx : Exchanges visits x) :
    Exchanges (fun m ↦ visits { m with env := m.env.push }) (Exec.inScope x) := by
  intro m
  have hm := hx { m with env := m.env.push }
  rw [Exec.inScope_eq]
  generalize x { m with env := m.env.push } = r at hm ⊢
  rcases hm with ⟨hx, hfits⟩ | hx
  · exact .ok ⟨⟨hx.input, hx.limit, hx.written⟩, hfits⟩
  · exact .error ⟨hx.input, hx.limit, hx.written⟩

end Exchanges

/-! ## Statements -/

namespace Stmt

open Exec (sameStreams_ofEval sameStreams_define endsAfter_write endsAfter_takeLine closed_respects)

variable {fuel : Nat} {visits : Machine → List Visit} {body : Exec Flow}

private theorem exchanges_loopStep (hbody : Exchanges visits body) (condition : Expr)
    (increment : Option Expr) :
    Exchanges (visitsThen condition.eval fun v m ↦ if v.truthy then visits m else [])
      (loopStep condition body increment) := by
  have hincrease : Respects SameStreams (increase increment) :=
    increase_of_closed (closed_respects repeatable_sameStreams) fun e _ ↦ sameStreams_ofEval e.eval
  refine .after (sameStreams_ofEval condition.eval) fun v ↦ ?_
  rcases v.truthy with _ | _
  · exact .pure false
  · refine hbody.before fun flow ↦ ?_
    split
    · exact .pure repeatable_sameStreams false
    · exact hincrease.bind repeatable_sameStreams fun _ ↦ .pure repeatable_sameStreams true

private theorem exchanges_untilStep (hbody : Exchanges visits body) (condition : Expr) :
    Exchanges visits (untilStep body condition) := by
  refine hbody.before fun flow ↦ ?_
  split
  · exact .pure repeatable_sameStreams false
  · exact (sameStreams_ofEval condition.eval).bind repeatable_sameStreams fun _ ↦
      .pure repeatable_sameStreams _

private theorem exchanges_countedStep (hbody : Exchanges visits body) :
    Exchanges visits (countedStep body) :=
  hbody.before fun _ ↦ .pure repeatable_sameStreams _

private theorem exchanges_execAll {ss : List Stmt}
    (h : ∀ s ∈ ss, Exchanges (s.visits fuel) (s.exec fuel)) :
    Exchanges (visitsAmong fuel ss) (execAll fuel ss) := by
  induction ss with
  | nil => exact .pure Flow.normal
  | cons s ss ih =>
    rw [List.forall_mem_cons] at h
    rw [execAll]
    refine h.1.bind fun flow ↦ ?_
    rcases flow with _ | kind
    · exact ih h.2
    · exact .pure _

/-- A write statement writes its text, if there is one. -/
theorem exchanges_write (value : Expr) (terminator : String) (line : Nat) :
    Exchanges ((write value terminator line).visits fuel)
      ((write value terminator line).exec fuel) := by
  intro m
  have hsame := sameStreams_ofEval value.eval m
  change EndsAfter 0 (Visit.texts [⟨write value terminator line, m⟩]) m
    ((write value terminator line).exec fuel m)
  rw [Visit.texts_singleton, Visit.text]
  rcases hrun : Exec.ofEval value.eval m with ⟨v, m'⟩ | ⟨stop, m'⟩
  · rw [show (write value terminator line).exec fuel m = _ from bind_of_ok hrun]
    rw [hrun] at hsame
    exact hsame.append ((endsAfter_write v terminator line m').before fun _ ↦
      .pure repeatable_sameStreams _)
  · rw [show (write value terminator line).exec fuel m = _ from bind_of_error hrun]
    rw [hrun] at hsame
    exact .error hsame.exchanged

private theorem exchanges_takeLine {s : Machine → Visit} (htext : ∀ m, (s m).text = "")
    (hread : ∀ m, (s m).isRead = true) (line : Nat) :
    Exchanges (fun m ↦ [s m]) (Exec.takeLine line) := by
  intro m
  rw [Visit.reads_singleton, hread, Visit.texts_singleton, htext]
  exact endsAfter_takeLine line m

/-- **Every statement** leaves the streams to the statements that are executed. -/
theorem exchanges_exec (fuel : Nat) (s : Stmt) : Exchanges (s.visits fuel) (s.exec fuel) := by
  have hS := closed_respects repeatable_sameStreams
  induction s using Stmt.induction with
  | expression value line =>
    refine .cons (fun _ ↦ rfl) (fun _ ↦ rfl) (.of_sameStreams ?_)
    exact hS.bind (sameStreams_ofEval value.eval) fun _ ↦ hS.pure _
  | write value terminator line => exact exchanges_write value terminator line
  | declare name initial line =>
    refine .cons (fun _ ↦ rfl) (fun _ ↦ rfl) (.of_sameStreams ?_)
    have hdefine (v : Value) : Respects SameStreams (do
        Exec.define name v
        return Flow.normal) := hS.bind (sameStreams_define name v) fun _ ↦ hS.pure _
    rcases initial with _ | e
    · exact hS.bind (hS.pure Value.nil) hdefine
    · exact hS.bind (sameStreams_ofEval e.eval) hdefine
  | block body line ih =>
    exact .cons (fun _ ↦ rfl) (fun _ ↦ rfl) (exchanges_execAll ih).inScope
  | ifThen condition yes line ih =>
    refine .cons (fun _ ↦ rfl) (fun _ ↦ rfl) (.after (sameStreams_ofEval condition.eval) fun v ↦ ?_)
    rcases v.truthy with _ | _
    · exact .pure _
    · exact ih
  | ifElse condition yes no line ihy ihn =>
    refine .cons (fun _ ↦ rfl) (fun _ ↦ rfl) (.after (sameStreams_ofEval condition.eval) fun v ↦ ?_)
    rcases v.truthy with _ | _
    · exact ihn
    · exact ihy
  | loop condition body increment line ih =>
    exact .cons (fun _ ↦ rfl) (fun _ ↦ rfl)
      (((exchanges_loopStep ih condition increment).loop fuel).before fun _ ↦ hS.pure _)
  | repeatUntil body condition line ih =>
    exact .cons (fun _ ↦ rfl) (fun _ ↦ rfl)
      (((exchanges_untilStep ih condition).loop fuel).before fun _ ↦ hS.pure _)
  | repeatFor body count line ih =>
    have hcount : Respects SameStreams (repeatCount count line) :=
      repeatCount_of_closed hS (sameStreams_ofEval count.eval) (.throw repeatable_sameStreams _)
    exact .cons (fun _ ↦ rfl) (fun _ ↦ rfl)
      (.after hcount fun n ↦ ((exchanges_countedStep ih).times n).before fun _ ↦ hS.pure _)
  | jump kind line => exact .cons (fun _ ↦ rfl) (fun _ ↦ rfl) (.pure _)
  | read name line =>
    refine .before (.before (exchanges_takeLine (fun _ ↦ rfl) (fun _ ↦ rfl) line) fun text ↦ ?_)
      fun _ ↦ hS.pure _
    exact sameStreams_ofEval (Eval.assign name _ line)
  | readNumber name line =>
    refine .before (.before (exchanges_takeLine (fun _ ↦ rfl) (fun _ ↦ rfl) line) fun text ↦ ?_)
      fun _ ↦ hS.pure _
    dsimp only
    split
    · exact sameStreams_ofEval (Eval.assign name _ line)
    · exact .throw repeatable_sameStreams _

end Stmt

/-! ## Programs and sources -/

namespace Program

private theorem exchanges_execWithin {fuel : Nat} {program : Program}
    (h : ∀ s ∈ program, OnlyReturns (· = .normal) (s.exec fuel)) :
    Exchanges (Stmt.visitsAmong fuel program) (program.execWithin fuel) := by
  induction program with
  | nil => exact .pure ()
  | cons s program ih =>
    rw [List.forall_mem_cons] at h
    -- statements in sequence are visited up to a jump, but there is none
    have hnormal : execWithin fuel (s :: program) =
        s.exec fuel >>= fun flow ↦ if flow = .normal then execWithin fuel program else pure () :=
      h.1.bind_congr fun flow hflow ↦ (if_pos hflow).symm
    rw [hnormal]
    refine (Stmt.exchanges_exec fuel s).bind fun flow ↦ ?_
    rcases flow with _ | kind
    · exact ih h.2
    · exact .pure ()

private theorem exchanges_runWithin (fuel : Nat) (program : Program) :
    Exchanges (program.visits fuel) (program.runWithin fuel) := by
  intro m
  rw [visits, runWithin]
  rcases hjumps : Stmt.strayJumpAmong? program with _ | stray
  · have hnormal (s : Stmt) (hs : s ∈ program) : OnlyReturns (· = .normal) (s.exec fuel) :=
      Stmt.onlyReturns_normal_exec fuel (Stmt.strayJumpAmong?_eq_none_iff.mp hjumps s hs)
    exact exchanges_execWithin hnormal m
  · exact Exchanges.of_sameStreams (.throw repeatable_sameStreams _) m

end Program

theorem exchanged_runWithin (fuel : Nat) (source : String) (m : Machine) :
    Exchanged (Visit.reads (runVisits fuel source m)) (Visit.texts (runVisits fuel source m)) m
      (stateAfter (runWithin fuel source m)) := by
  rw [runVisits, runWithin]
  rcases parse source with errors | program
  · exact (repeatable_sameStreams.refl m).exchanged
  · have hrun := (program.exchanges_runWithin fuel m).exchanged
    dsimp only
    rcases hresult : program.runWithin fuel m with ⟨_, m'⟩ | ⟨reason, m'⟩
    · rwa [hresult] at hrun
    · rwa [hresult] at hrun

/-- **Output is added at the end, input is taken by lines from the front.** However a program ends,
what it has added to the output are the texts of the write statements it came to, as far as there
was room. It has taken whole lines, one for each read statement it came to, as long as there were
any. Expressions do nothing to either stream. -/
theorem streams_line_exact (fuel : Nat) (program : Program) (m : Machine) :
    let visits := program.visits fuel m
    let m' := stateAfter (program.runWithin fuel m)
    (∀ v, v ∈ visits ↔ Stmt.strayJumpAmong? program = none ∧
      Stmt.ReachesAmong fuel program m v.statement v.machine) ∧
    (∃ more, m'.output.written = m.output.written ++ more) ∧
    m'.output.written = m.output.holding (Visit.texts visits) ∧
    (∃ lines, Input.LinesFrom m.input lines m'.input ∧ lines.length ≤ Visit.reads visits ∧
      (lines.length < Visit.reads visits → m'.input = [])) ∧
    ∀ (e : Expr) (m : Machine), (stateAfter (Exec.ofEval e.eval m)).input = m.input ∧
      (stateAfter (Exec.ofEval e.eval m)).output = m.output := by
  have hrun := (program.exchanges_runWithin fuel m).exchanged
  refine ⟨fun v ↦ Program.mem_visits_iff, ?_, hrun.written, hrun.input, fun e m ↦ ?_⟩
  · rw [hrun.written]
    exact m.output.exists_holding_eq _
  · have hsame := Exec.sameStreams_ofEval e.eval m
    exact ⟨hsame.input, hsame.output⟩

end BlockScript
