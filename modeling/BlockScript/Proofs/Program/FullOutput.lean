import BlockScript.Proofs.Stmt.Jumps
import BlockScript.Proofs.Stmt.Reach
import BlockScript.Proofs.Stmt.Scopes
import Mathlib.Logic.Function.Iterate

/-!
# Output that fills up

An output that takes only so many bytes has no influence on a program until it is full. A run on it
is compared with the same run on an output without a limit: as long as everything fits, they are the
same; otherwise the run ends in the first write that does not fit, with what fits of it written.

## The invariant

The two runs are compared computation by computation (`Capped`), together with the emissions that
the run without a limit comes to. The run that is cut short ends as it stood before its last
emission, except for the scopes it leaves on its way out; how many these are is known from the
depth, which a computation keeps.
-/

namespace BlockScript

/-! ## Outputs with and without a limit -/

/-- The same output, but one that takes at most so many bytes in all. -/
def Output.withLimit (limit : Option Nat) (out : Output) : Output := { out with limit }

/-- The same machine with such an output. -/
def Machine.withLimit (limit : Option Nat) (m : Machine) : Machine :=
  { m with output := m.output.withLimit limit }

/-- The environment after all scopes above a depth have been left. -/
def Environment.unwind (depth : Nat) (env : Environment) : Environment :=
  Environment.pop^[env.depth - depth] env

private theorem Environment.unwind_depth (env : Environment) : env.unwind env.depth = env := by
  rw [unwind, Nat.sub_self]
  rfl

private theorem Environment.pop_unwind_succ {depth : Nat} {env : Environment}
    (h : depth < env.depth) : (env.unwind (depth + 1)).pop = env.unwind depth := by
  rw [unwind, unwind, ← Function.iterate_succ_apply' Environment.pop]
  congr 1
  omega

namespace Emission

/-- An emission that an output takes a part of, but not all. -/
structure Exceeds (e : Emission) (limit : Nat) : Prop where
  /-- All that was written before has been taken. -/
  room : e.machine.output.written.size ≤ limit
  /-- The emission does not fit. -/
  spills : limit < (e.machine.output.written ++ e.text.toUTF8).size

/-- What an emission leaves that exceeds the output: all that fits has been written, and all scopes
above a depth are left. -/
def cutOff (e : Emission) (limit depth : Nat) : Machine where
  env := e.machine.env.unwind depth
  input := e.machine.input
  output :=
    { e.machine.output with
      limit := some limit
      written := (e.machine.output.written ++ e.text.toUTF8).extract 0 limit }

end Emission

/-! ## Writing as far as there is room -/

section Extract

variable {a b : ByteArray} {n : Nat}

theorem extract_append_of_size_le (h : a.size ≤ n) :
    (a ++ b).extract 0 n = a ++ b.extract 0 (n - a.size) := by
  have ha : a.extract 0 n = a := by
    rw [← Nat.max_eq_left h]
    exact ByteArray.extract_zero_max_size
  rw [ByteArray.extract_append, ha, Nat.zero_sub]

private theorem extract_append_of_le_size (h : n ≤ a.size) :
    (a ++ b).extract 0 n = a.extract 0 n := by
  rw [ByteArray.extract_append, Nat.zero_sub, Nat.sub_eq_zero_of_le h, ByteArray.extract_same,
    ByteArray.append_empty]

end Extract

namespace Output

variable {out : Output} {text : String} {limit : Nat}

private theorem flush_withLimit (limit : Option Nat) (out : Output) :
    flush (out.withLimit limit) = mapState (·.withLimit limit) (flush out) := by
  rw [flush, flush, apply_ite (mapState _)]
  rfl

private theorem stateAfter_flush (out : Output) :
    stateAfter (flush out) = { out with flushes := out.flushes + 1 } := by
  rw [flush]
  split
  · rfl
  · rfl

private theorem emit_of_none (h : out.limit = none) :
    emit text out = flush { out with written := out.written ++ text.toUTF8 } :=
  bind_of_ok (by rw [write, h])

private theorem emit_of_fits (hnone : out.limit = none)
    (h : (out.written ++ text.toUTF8).size ≤ limit) :
    emit text (out.withLimit (some limit)) =
      mapState (·.withLimit (some limit)) (emit text out) := by
  rw [ByteArray.size_append] at h
  rw [emit_of_none hnone, ← flush_withLimit]
  exact bind_of_ok (if_pos (show text.toUTF8.size ≤ limit - out.written.size by omega))

private theorem emit_of_exceeds (hroom : out.written.size ≤ limit)
    (hover : limit < (out.written ++ text.toUTF8).size) :
    emit text (out.withLimit (some limit)) = .error .incompleteWrite
      { out with
        limit := some limit
        written := (out.written ++ text.toUTF8).extract 0 limit } := by
  rw [ByteArray.size_append] at hover
  rw [extract_append_of_size_le hroom]
  exact bind_of_error (if_neg (show ¬text.toUTF8.size ≤ limit - out.written.size by omega))

/-- What writing does, whatever the limit: it appends. -/
structure Grows (out out' : Output) : Prop where
  limit : out'.limit = out.limit
  written : ∃ more, out'.written = out.written ++ more

private theorem repeatable_grows : Repeatable Grows := by
  refine ⟨fun out ↦ ⟨rfl, .empty, ByteArray.append_empty.symm⟩, fun h h' ↦ ?_⟩
  obtain ⟨more, hmore⟩ := h.written
  obtain ⟨more', hmore'⟩ := h'.written
  exact ⟨h'.limit.trans h.limit, more ++ more', by rw [hmore', hmore, ByteArray.append_assoc]⟩

private theorem respects_emit (text : String) : Respects Grows (emit text) := by
  refine Respects.bind repeatable_grows (fun out ↦ ?_) fun _ out ↦ ?_
  · rw [write]
    split
    · exact ⟨rfl, _, rfl⟩
    · dsimp only
      split
      · exact ⟨rfl, _, rfl⟩
      · exact ⟨rfl, _, rfl⟩
  · rw [stateAfter_flush]
    exact ⟨rfl, .empty, ByteArray.append_empty.symm⟩

end Output

/-! ## The comparison -/

/-- What any computation keeps: there are as many scopes, and what has been written stays. -/
structure Onward (m m' : Machine) : Prop where
  depth : m'.env.depth = m.env.depth
  grows : m.output.Grows m'.output

private theorem repeatable_onward : Repeatable Onward :=
  ⟨fun m ↦ ⟨rfl, Output.repeatable_grows.refl m.output⟩, fun h h' ↦
    ⟨h'.depth.trans h.depth, Output.repeatable_grows.trans h.grows h'.grows⟩⟩

/-- **The comparison.** `r` is how a run ends without a limit that began at a depth and comes to the
emissions `E`, and the index is how it ends with the limit. -/
inductive Cut (limit depth : Nat) (E : Emission → Prop) {α : Type}
    (r : EStateM.Result Stop Machine α) : EStateM.Result Stop Machine α → Prop where
  /-- All output fits. -/
  | fits : (stateAfter r).output.written.size ≤ limit →
    Cut limit depth E r (mapState (·.withLimit (some limit)) r)
  /-- An emission exceeds the limit. -/
  | short {e : Emission} : E e → e.Exceeds limit → depth ≤ e.machine.env.depth →
    (∃ more, (stateAfter r).output.written = e.machine.output.written ++ e.text.toUTF8 ++ more) →
    Cut limit depth E r
      (.error (.error ⟨.outputFailure .incompleteWrite, e.line⟩) (e.cutOff limit depth))

theorem Cut.mono {limit depth : Nat} {E E' : Emission → Prop} {α : Type}
    {r r' : EStateM.Result Stop Machine α} (hE : ∀ e, E e → E' e) (h : Cut limit depth E r r') :
    Cut limit depth E' r r' := by
  cases h with
  | fits hfits => exact .fits hfits
  | short he hexceeds hdepth hmore => exact .short (hE _ he) hexceeds hdepth hmore

/-- Both runs leave a scope. -/
theorem Cut.leave {limit depth : Nat} {E : Emission → Prop} {α : Type}
    {r r' : EStateM.Result Stop Machine α} (h : Cut limit (depth + 1) E r r') :
    Cut limit depth E (mapState (fun m ↦ { m with env := m.env.pop }) r)
      (mapState (fun m ↦ { m with env := m.env.pop }) r') := by
  cases h with
  | fits hfits =>
    have hcomm : mapState (fun m ↦ { m with env := m.env.pop })
          (mapState (·.withLimit (some limit)) r) =
        mapState (·.withLimit (some limit)) (mapState (fun m ↦ { m with env := m.env.pop }) r) := by
      rcases r with _ | _ <;> rfl
    rw [hcomm]
    exact .fits (by rwa [stateAfter_mapState])
  | @short e he hexceeds hdepth hmore =>
    rw [mapState, Emission.cutOff, Environment.pop_unwind_succ hdepth]
    exact .short he hexceeds (Nat.le_of_succ_le hdepth) (by rwa [stateAfter_mapState])

/-- A computation that a limited output cuts short, and does not influence otherwise; `E` are the
emissions it comes to. -/
structure Capped (limit : Nat) (E : Machine → Emission → Prop) {α : Type} (c : Exec α) : Prop where
  /-- What it keeps. -/
  onward : Respects Onward c
  /-- How it ends if the output is limited. -/
  cut (m : Machine) : m.output.limit = none → m.output.written.size ≤ limit →
    Cut limit m.env.depth (E m) (c m) (c (m.withLimit (some limit)))

namespace Capped

variable {limit : Nat} {E E₁ : Machine → Emission → Prop} {α β : Type}

theorem mono {c : Exec α} (h : ∀ m e, E₁ m e → E m e) (hc : Capped limit E₁ c) :
    Capped limit E c := by
  refine ⟨hc.onward, fun m hnone hsize ↦ ?_⟩
  exact (hc.cut m hnone hsize).mono (h m)

theorem bind {x : Exec α} {f : α → Exec β} {F : α → Machine → Emission → Prop}
    (hx : Capped limit E₁ x) (hf : ∀ a, Capped limit (F a) (f a)) (h₁ : ∀ m e, E₁ m e → E m e)
    (h₂ : ∀ m a m' e, x m = .ok a m' → F a m' e → E m e) : Capped limit E (x >>= f) := by
  refine ⟨hx.onward.bind repeatable_onward fun a ↦ (hf a).onward, fun m hnone hsize ↦ ?_⟩
  have hcut := hx.cut m hnone hsize
  have honward := hx.onward m
  rcases hrun : x m with ⟨a, m'⟩ | ⟨stop, m'⟩
  · rw [hrun] at hcut honward
    rw [bind_of_ok hrun]
    generalize hrun' : x (m.withLimit (some limit)) = r' at hcut
    cases hcut with
    | fits hfits =>
      rw [bind_of_ok hrun']
      have hdepth : m'.env.depth = m.env.depth := honward.depth
      have hrest := (hf a).cut m' (honward.grows.limit.trans hnone) hfits
      rw [hdepth] at hrest
      exact hrest.mono fun e ↦ h₂ m a m' e hrun
    | short he hexceeds hdepth hmore =>
      rw [bind_of_error hrun']
      obtain ⟨more, hmore⟩ := hmore
      obtain ⟨more', hmore'⟩ := ((hf a).onward m').grows.written
      refine .short (h₁ m _ he) hexceeds hdepth ⟨more ++ more', ?_⟩
      rw [hmore', ← ByteArray.append_assoc, ← hmore]
      rfl
  · rw [hrun] at hcut
    rw [bind_of_error hrun]
    generalize hrun' : x (m.withLimit (some limit)) = r' at hcut
    cases hcut with
    | fits hfits =>
      rw [bind_of_error hrun']
      exact .fits hfits
    | short he hexceeds hdepth hmore =>
      rw [bind_of_error hrun']
      exact .short (h₁ m _ he) hexceeds hdepth hmore

theorem before {x : Exec α} {f : α → Exec β} (hx : Capped limit E x)
    (hf : ∀ a E, Capped limit E (f a)) : Capped limit E (x >>= f) :=
  hx.bind (F := fun _ _ _ ↦ False) (fun a ↦ hf a _) (fun _ _ he ↦ he) fun _ _ _ _ _ ↦ False.elim

theorem after {x : Exec α} {f : α → Exec β} {F : α → Machine → Emission → Prop}
    (hx : ∀ E, Capped limit E x) (hf : ∀ a, Capped limit (F a) (f a))
    (h₂ : ∀ m a m' e, x m = .ok a m' → F a m' e → E m e) : Capped limit E (x >>= f) :=
  (hx fun _ _ ↦ False).bind hf (fun _ _ ↦ False.elim) h₂

/-- What neither sees nor changes the output is the same with a limit. -/
theorem of_silent {c : Exec α} {names : List String}
    (hnames : Respects (OnEnv (Environment.Extends names)) c)
    (hkept : ∀ m, (stateAfter (c m)).output = m.output)
    (hsame : ∀ limit m, c (m.withLimit limit) = mapState (·.withLimit limit) (c m)) :
    Capped limit E c := by
  refine ⟨fun m ↦ ⟨(hnames m).depth, ?_⟩, fun m _ hsize ↦ ?_⟩
  · rw [hkept]
    exact Output.repeatable_grows.refl m.output
  · rw [hsame]
    exact .fits (by rwa [hkept])

theorem pure (a : α) : Capped limit E (Pure.pure a : Exec α) :=
  of_silent (.pure (Environment.repeatable_extends []).onEnv a) (fun _ ↦ rfl) fun _ _ ↦ rfl

theorem throw (stop : Stop) : Capped limit E (MonadExcept.throw stop : Exec α) :=
  of_silent (.throw (Environment.repeatable_extends []).onEnv stop) (fun _ ↦ rfl) fun _ _ ↦ rfl

end Capped

/-! ## Elementary computations -/

namespace Exec

variable {limit : Nat} {E : Machine → Emission → Prop}

/-- What is put together from parts that write nothing writes nothing. -/
theorem closed_capped (limit : Nat) : Closed fun _ c ↦ ∀ E, Capped limit E c :=
  ⟨fun a _ ↦ .pure a, fun hx hf E ↦ (hx E).before hf, fun _ ↦ .throw .outOfFuel⟩

private theorem capped_lift {α : Type} {e : Eval α} {names : List String}
    (h : Respects (OnEnv (Environment.Extends names)) (liftM e : Exec α)) :
    Capped limit E (liftM e : Exec α) := by
  refine .of_silent h (fun ⟨env, input, output⟩ ↦ ?_) fun limit ⟨env, input, output⟩ ↦ ?_
  · change (stateAfter (ofEval e _)).output = output
    rw [ofEval]
    rcases e env with _ | _ <;> rfl
  · change ofEval e ⟨env, input, output.withLimit limit⟩ = mapState _ (ofEval e _)
    rw [ofEval, ofEval]
    rcases e env with _ | _ <;> rfl

private theorem capped_eval [Memory] (e : Expr) : Capped limit E (liftM e.eval : Exec Value) :=
  capped_lift (pervasive_extends.eval [] e fun _ _ ↦ trivial)

private theorem capped_assign [Memory] (name : String) (v : Value) (line : Nat) :
    Capped limit E (liftM (Eval.assign name v line) : Exec Unit) :=
  capped_lift (pervasive_extends.assign [] name v line trivial)

private theorem capped_define [Memory] (name : String) (v : Value) :
    Capped limit E (define name v) :=
  .of_silent (pervasive_extends.define (List.mem_singleton_self name) v trivial) (fun _ ↦ rfl)
    fun _ _ ↦ rfl

private theorem capped_takeLine [Memory] (line : Nat) : Capped limit E (takeLine line) := by
  refine .of_silent (pervasive_extends.takeLine [] line) (fun ⟨env, input, output⟩ ↦ ?_)
    fun limit ⟨env, input, output⟩ ↦ ?_
  · rw [takeLine]
    rcases Input.takeLine input with _ | _ <;> rfl
  · change takeLine line ⟨env, input, output.withLimit limit⟩ = mapState _ _
    rw [takeLine, takeLine]
    rcases Input.takeLine input with _ | _ <;> rfl

private theorem stateAfter_write (v : Value) (terminator : String) (line : Nat) (m : Machine) :
    stateAfter (write v terminator line m) =
      { m with output := stateAfter (Output.emit (v.display ++ terminator) m.output) } := by
  rw [write]
  rcases Output.emit (v.display ++ terminator) m.output with _ | _ <;> rfl

/-- **The one place where a limit shows.** -/
theorem capped_write (v : Value) (terminator : String) (line : Nat) :
    Capped limit (fun m e ↦ e = ⟨m, v.display ++ terminator, line⟩) (write v terminator line) := by
  refine ⟨fun m ↦ ?_, fun m hnone hroom ↦ ?_⟩
  · rw [stateAfter_write]
    exact ⟨rfl, Output.respects_emit _ m.output⟩
  · have hfull : (stateAfter (write v terminator line m)).output.written =
        m.output.written ++ (v.display ++ terminator).toUTF8 := by
      rw [stateAfter_write, Output.emit_of_none hnone, Output.stateAfter_flush]
    by_cases hfits : (m.output.written ++ (v.display ++ terminator).toUTF8).size ≤ limit
    · have hsame : write v terminator line (m.withLimit (some limit)) =
          mapState (·.withLimit (some limit)) (write v terminator line m) := by
        rw [Machine.withLimit, write, write, Output.emit_of_fits hnone hfits]
        rcases Output.emit (v.display ++ terminator) m.output with _ | _ <;> rfl
      rw [hsame]
      exact .fits (by rwa [hfull])
    · have hover := Nat.lt_of_not_le hfits
      have hrun : write v terminator line (m.withLimit (some limit)) =
          .error (.error ⟨.outputFailure .incompleteWrite, line⟩)
            (Emission.cutOff ⟨m, v.display ++ terminator, line⟩ limit m.env.depth) := by
        rw [Emission.cutOff, Environment.unwind_depth, Machine.withLimit, write,
          Output.emit_of_exceeds hroom hover]
      rw [hrun]
      exact Cut.short (e := ⟨m, v.display ++ terminator, line⟩) rfl ⟨hroom, hover⟩ le_rfl
        ⟨.empty, by rw [hfull, ByteArray.append_empty]⟩

/-- A scope is left on the way out as well. -/
theorem capped_inScope {α : Type} {body : Exec α} {E : Machine → Emission → Prop}
    (h : Capped limit E body) :
    Capped limit (fun m ↦ E { m with env := m.env.push }) (inScope body) := by
  refine ⟨fun m ↦ ?_, fun m hnone hroom ↦ ?_⟩
  · have honward := h.onward { m with env := m.env.push }
    have hdepth := honward.depth
    have hpos := m.env.nonempty
    rw [Environment.depth_push] at hdepth
    rw [inScope_eq, stateAfter_mapState]
    refine ⟨?_, honward.grows⟩
    rw [Environment.depth_pop (by omega), hdepth, Nat.add_sub_cancel]
  · have hcut := h.cut { m with env := m.env.push } hnone hroom
    rw [Environment.depth_push] at hcut
    rw [inScope_eq, inScope_eq]
    exact hcut.leave

/-- What is repeated comes to what its iterations come to. -/
theorem capped_rounds {step : Exec Bool} {rounds : Nat → Exec Unit} (hstep : Capped limit E step)
    (hzero : ∀ E, Capped limit E (rounds 0))
    (hsucc : ∀ n, rounds (n + 1) =
      step >>= fun again ↦ if again then rounds n else Pure.pure ()) (count : Nat) :
    Capped limit (fun m e ↦ ∃ n m', n < count ∧ Iterates step n m m' ∧ E m' e)
      (rounds count) := by
  induction count with
  | zero => exact hzero _
  | succ count ih =>
    rw [hsucc]
    refine hstep.bind (F := fun again m e ↦ again = true ∧
      ∃ n m', n < count ∧ Iterates step n m m' ∧ E m' e) (fun again ↦ ?_) (fun m e he ↦ ?_) ?_
    · rcases again with _ | _
      · exact .pure ()
      · exact ih.mono fun _ _ he ↦ ⟨rfl, he⟩
    · exact ⟨0, m, Nat.succ_pos count, .zero m, he⟩
    · rintro m _ m₁ e hrun ⟨rfl, n, m', hn, hiterates, he⟩
      exact ⟨n + 1, m', Nat.succ_lt_succ hn, .succ hrun hiterates, he⟩

private theorem capped_loop {step : Exec Bool} (hstep : Capped limit E step) (fuel : Nat) :
    Capped limit (fun m e ↦ ∃ n m', n < fuel ∧ Iterates step n m m' ∧ E m' e)
      (loop step fuel) :=
  capped_rounds hstep (fun _ ↦ .throw .outOfFuel) (loop_succ step) fuel

private theorem capped_times {step : Exec Bool} (hstep : Capped limit E step) (count : Nat) :
    Capped limit (fun m e ↦ ∃ n m', n < count ∧ Iterates step n m m' ∧ E m' e)
      (times step count) :=
  capped_rounds hstep (fun _ ↦ .pure ()) (times_succ step) count

end Exec

/-! ## Statements -/

namespace Stmt

variable {limit : Nat} {E : Machine → Emission → Prop} {body : Exec Flow}

private theorem capped_loopStep [Memory] (hbody : Capped limit E body) (condition : Expr)
    (increment : Option Expr) :
    Capped limit
      (fun m e ↦ ∃ v m', Exec.ofEval condition.eval m = .ok v m' ∧ v.truthy = true ∧ E m' e)
      (loopStep condition body increment) := by
  refine .after (F := fun v m e ↦ v.truthy = true ∧ E m e) (fun _ ↦ Exec.capped_eval condition)
    (fun v ↦ ?_) fun m v m' e hrun he ↦ ⟨v, m', hrun, he⟩
  split
  · next hv =>
    refine .before (hbody.mono fun _ _ he ↦ ⟨hv, he⟩) fun flow E ↦ ?_
    split
    · exact .pure false
    · have hincrease : ∀ E, Capped limit E (increase increment) :=
        increase_of_closed (Exec.closed_capped limit) fun e _ _ ↦ Exec.capped_eval e
      exact (hincrease E).before fun _ _ ↦ .pure true
  · exact .pure false

private theorem capped_untilStep [Memory] (hbody : Capped limit E body) (condition : Expr) :
    Capped limit E (untilStep body condition) := by
  refine hbody.before fun flow E ↦ ?_
  split
  · exact .pure false
  · exact (Exec.capped_eval condition).before fun _ _ ↦ .pure _

private theorem capped_countedStep (hbody : Capped limit E body) :
    Capped limit E (countedStep body) :=
  hbody.before fun _ _ ↦ .pure _

private theorem capped_execAll [Memory] {fuel : Nat} {ss : List Stmt}
    (h : ∀ s ∈ ss, Capped limit (s.Writes fuel) (s.exec fuel)) :
    Capped limit (WritesAmong fuel ss) (execAll fuel ss) := by
  induction ss with
  | nil => exact .pure _
  | cons s ss ih =>
    rw [List.forall_mem_cons] at h
    rw [execAll]
    refine h.1.bind (F := fun flow m e ↦ flow = .normal ∧ WritesAmong fuel ss m e) (fun flow ↦ ?_)
      (fun m e he ↦ .head he) ?_
    · rcases flow with _ | kind
      · exact (ih h.2).mono fun _ _ he ↦ ⟨rfl, he⟩
      · exact .pure _
    · rintro m _ m' e hrun ⟨rfl, he⟩
      exact .tail hrun he

/-- **Every statement** is cut short by a limited output, and otherwise not influenced. -/
theorem capped_exec [Memory] (fuel : Nat) (s : Stmt) :
    Capped limit (s.Writes fuel) (s.exec fuel) := by
  induction s using Stmt.induction with
  | expression value line => exact (Exec.capped_eval value).before fun _ _ ↦ .pure _
  | write value terminator line =>
    refine .after (fun _ ↦ Exec.capped_eval value)
      (fun v ↦ (Exec.capped_write v terminator line).before fun _ _ ↦ .pure _) ?_
    rintro m v m' _ hrun rfl
    exact ⟨_, m, .here _ m, value, terminator, v, rfl, hrun, rfl⟩
  | declare name initial line =>
    have hdefine (v : Value) (E : Machine → Emission → Prop) : Capped limit E (do
        Exec.define name v
        return Flow.normal) := (Exec.capped_define name v).before fun _ _ ↦ .pure _
    rcases initial with _ | e
    · exact (Capped.pure Value.nil).before hdefine
    · exact (Exec.capped_eval e).before hdefine
  | block body line ih =>
    exact (Exec.capped_inScope (capped_execAll ih)).mono fun m e he ↦ .block he
  | ifThen condition yes line ih =>
    refine .after (F := fun v m e ↦ v.truthy = true ∧ yes.Writes fuel m e)
      (fun _ ↦ Exec.capped_eval condition) (fun v ↦ ?_) ?_
    · split
      · next hv => exact ih.mono fun _ _ he ↦ ⟨hv, he⟩
      · exact .pure _
    · rintro m v m' e hrun ⟨hv, he⟩
      exact he.of_part (.ifThen hrun hv)
  | ifElse condition yes no line ihy ihn =>
    refine .after (F := fun v m e ↦ v.truthy = true ∧ yes.Writes fuel m e ∨
      v.truthy = false ∧ no.Writes fuel m e) (fun _ ↦ Exec.capped_eval condition) (fun v ↦ ?_) ?_
    · split
      · next hv => exact ihy.mono fun _ _ he ↦ .inl ⟨hv, he⟩
      · next hv => exact ihn.mono fun _ _ he ↦ .inr ⟨eq_false_of_ne_true hv, he⟩
    · rintro m v m' e hrun (⟨hv, he⟩ | ⟨hv, he⟩)
      · exact he.of_part (.ifElseYes hrun hv)
      · exact he.of_part (.ifElseNo hrun hv)
  | loop condition body increment line ih =>
    refine .before ((Exec.capped_loop (capped_loopStep ih condition increment) fuel).mono ?_)
      fun _ _ ↦ .pure _
    rintro m e ⟨n, m₁, hn, hiterates, v, m₂, hrun, hv, he⟩
    exact he.of_part (.loop hn hiterates hrun hv)
  | repeatUntil body condition line ih =>
    refine .before ((Exec.capped_loop (capped_untilStep ih condition) fuel).mono ?_)
      fun _ _ ↦ .pure _
    rintro m e ⟨n, m₁, hn, hiterates, he⟩
    exact he.of_part (.repeatUntil hn hiterates)
  | repeatFor body count line ih =>
    have hcount : ∀ E, Capped limit E (repeatCount count line) :=
      repeatCount_of_closed (Exec.closed_capped limit) (fun _ ↦ Exec.capped_eval count)
        fun _ ↦ .throw _
    refine .after hcount
      (fun total ↦ (Exec.capped_times (capped_countedStep ih) total).before fun _ _ ↦ .pure _) ?_
    rintro m total m₁ e hcount ⟨n, m₂, hn, hiterates, he⟩
    exact he.of_part (.repeatFor hcount hn hiterates)
  | jump kind line => exact .pure _
  | read name line =>
    have hread := Exec.readLine_of_closed (Exec.closed_capped limit)
      (fun _ ↦ Exec.capped_takeLine line) fun v _ ↦ Exec.capped_assign name v line
    exact (hread _).before fun _ _ ↦ .pure _
  | readNumber name line =>
    have hread := Exec.readNumber_of_closed (Exec.closed_capped limit)
      (fun _ ↦ Exec.capped_takeLine line) (fun v _ ↦ Exec.capped_assign name v line)
      fun _ _ ↦ .throw _
    exact (hread _).before fun _ _ ↦ .pure _

end Stmt

/-! ## Programs -/

variable [Memory]

/-- Running a program comes to a write statement. -/
def Program.Writes (fuel : Nat) (program : Program) (m : Machine) (e : Emission) : Prop :=
  Stmt.strayJumpAmong? program = none ∧ Stmt.WritesAmong fuel program m e

namespace Program

variable {limit : Nat}

private theorem capped_execWithin {fuel : Nat} {program : Program}
    (h : ∀ s ∈ program, OnlyReturns (· = .normal) (s.exec fuel)) :
    Capped limit (Stmt.WritesAmong fuel program) (program.execWithin fuel) := by
  induction program with
  | nil => exact .pure ()
  | cons s program ih =>
    rw [List.forall_mem_cons] at h
    refine (Stmt.capped_exec fuel s).bind (fun _ ↦ ih h.2) (fun m e he ↦ .head he)
      fun m flow m' e hrun he ↦ ?_
    obtain rfl : flow = .normal := h.1 hrun
    exact .tail hrun he

private theorem capped_runWithin (fuel : Nat) (program : Program) :
    Capped limit (program.Writes fuel) (program.runWithin fuel) := by
  rw [runWithin]
  rcases hjumps : Stmt.strayJumpAmong? program with _ | stray
  · have hnormal (s : Stmt) (hs : s ∈ program) : OnlyReturns (· = .normal) (s.exec fuel) :=
      Stmt.onlyReturns_normal_exec fuel (Stmt.strayJumpAmong?_eq_none_iff.mp hjumps s hs)
    exact (capped_execWithin hnormal).mono fun m e he ↦ ⟨hjumps, he⟩
  · exact .throw _

end Program

/-- **A limited output only cuts a run short.** Let a program write `emitted` on an output that
takes everything. On an output that takes `room` more bytes it runs in the same way, if that is
enough. Otherwise it ends in a write statement that it also comes to without the limit: it is the
one whose text passes the limit. The error is reported on the line of that statement, the first
`room` bytes have been written, and variables and input are as they were with its value computed,
except that the scopes entered since the beginning have been left. -/
theorem output_cut_short (fuel : Nat) (program : Program) (m : Machine) (room : Nat) :
    ∃ emitted : ByteArray,
      (stateAfter (program.runWithin fuel (m.withLimit none))).output.written =
        m.output.written ++ emitted ∧
      (emitted.size ≤ room ∧
        program.runWithin fuel (m.withLimit (some (m.output.written.size + room))) =
          mapState (·.withLimit (some (m.output.written.size + room)))
            (program.runWithin fuel (m.withLimit none)) ∨
      room < emitted.size ∧
        ∃ (e : Emission) (m' : Machine), program.Writes fuel (m.withLimit none) e ∧
          e.machine.output.written.size ≤ m.output.written.size + room ∧
          m.output.written.size + room < (e.machine.output.written ++ e.text.toUTF8).size ∧
          program.runWithin fuel (m.withLimit (some (m.output.written.size + room))) =
            .error (.error ⟨.outputFailure .incompleteWrite, e.line⟩) m' ∧
          m'.env = Environment.pop^[e.machine.env.depth - m.env.depth] e.machine.env ∧
          m'.input = e.machine.input ∧
          m'.output.written = m.output.written ++ emitted.extract 0 room) := by
  have hcapped : Capped (m.output.written.size + room) _ _ := program.capped_runWithin fuel
  obtain ⟨emitted, hemitted⟩ : ∃ emitted,
      (stateAfter (program.runWithin fuel (m.withLimit none))).output.written =
        m.output.written ++ emitted := (hcapped.onward (m.withLimit none)).grows.written
  have hcut : Cut (m.output.written.size + room) m.env.depth
      (program.Writes fuel (m.withLimit none)) (program.runWithin fuel (m.withLimit none))
      (program.runWithin fuel (m.withLimit (some (m.output.written.size + room)))) :=
    hcapped.cut (m.withLimit none) rfl (Nat.le_add_right _ room)
  generalize program.runWithin fuel (m.withLimit (some (m.output.written.size + room))) = r'
    at hcut ⊢
  refine ⟨emitted, hemitted, ?_⟩
  cases hcut with
  | fits hfits =>
    rw [hemitted, ByteArray.size_append] at hfits
    exact .inl ⟨Nat.le_of_add_le_add_left hfits, rfl⟩
  | @short e he hexceeds _ hmore =>
    obtain ⟨more, hmore⟩ := hmore
    rw [hemitted] at hmore
    have hover : room < emitted.size := by
      have hsize := congrArg ByteArray.size hmore
      have hexcess := hexceeds.spills
      rw [ByteArray.size_append, ByteArray.size_append] at hsize
      omega
    have hwritten : (e.machine.output.written ++ e.text.toUTF8).extract 0
        (m.output.written.size + room) = m.output.written ++ emitted.extract 0 room := by
      rw [← extract_append_of_le_size (Nat.le_of_lt hexceeds.spills), ← hmore,
        extract_append_of_size_le (Nat.le_add_right _ room), Nat.add_sub_cancel_left]
    exact .inr ⟨hover, e, _, he, hexceeds.room, hexceeds.spills, rfl, rfl, rfl, hwritten⟩

end BlockScript
