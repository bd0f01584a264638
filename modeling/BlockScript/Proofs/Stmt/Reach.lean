import BlockScript.Proofs.Machine

/-!
# Where execution comes to

Execution of a statement comes to statements inside it: to some of them never, to others many times,
each time on the machine that everything before has left. `Reaches` says so for each form of
statement, and names that machine. What a program writes is then known one piece at a time, by the
write statements it comes to (`Writes`).
-/

namespace BlockScript

variable [Memory]

/-- A step is repeated so many times and asks for more each time. -/
inductive Exec.Iterates (step : Exec Bool) : Nat → Machine → Machine → Prop where
  | zero (m : Machine) : Iterates step 0 m m
  | succ {n : Nat} {m m₁ m' : Machine} :
    step m = .ok true m₁ → Iterates step n m₁ m' → Iterates step (n + 1) m m'

namespace Stmt

open Exec (Iterates)

mutual

/-- Executing a statement on `m` comes to the statement `t`, which it finds on the machine `m'`. -/
inductive Reaches (fuel : Nat) : Stmt → Machine → Stmt → Machine → Prop where
  /-- It begins with itself. -/
  | here (s : Stmt) (m : Machine) : Reaches fuel s m s m
  | block {body : List Stmt} {line : Nat} {m m' : Machine} {t : Stmt} :
    ReachesAmong fuel body { m with env := m.env.push } t m' →
    Reaches fuel (.block body line) m t m'
  | ifThen {condition : Expr} {yes : Stmt} {line : Nat} {m m₁ m' : Machine} {v : Value} {t : Stmt} :
    Exec.ofEval condition.eval m = .ok v m₁ → v.truthy = true → Reaches fuel yes m₁ t m' →
    Reaches fuel (.ifThen condition yes line) m t m'
  | ifElseYes {condition : Expr} {yes no : Stmt} {line : Nat} {m m₁ m' : Machine} {v : Value}
      {t : Stmt} :
    Exec.ofEval condition.eval m = .ok v m₁ → v.truthy = true → Reaches fuel yes m₁ t m' →
    Reaches fuel (.ifElse condition yes no line) m t m'
  | ifElseNo {condition : Expr} {yes no : Stmt} {line : Nat} {m m₁ m' : Machine} {v : Value}
      {t : Stmt} :
    Exec.ofEval condition.eval m = .ok v m₁ → v.truthy = false → Reaches fuel no m₁ t m' →
    Reaches fuel (.ifElse condition yes no line) m t m'
  /-- After some iterations the condition holds once more. -/
  | loop {condition : Expr} {body : Stmt} {increment : Option Expr} {line n : Nat}
      {m m₁ m₂ m' : Machine} {v : Value} {t : Stmt} :
    n < fuel → Iterates (loopStep condition (body.exec fuel) increment) n m m₁ →
    Exec.ofEval condition.eval m₁ = .ok v m₂ → v.truthy = true → Reaches fuel body m₂ t m' →
    Reaches fuel (.loop condition body increment line) m t m'
  | repeatUntil {body : Stmt} {condition : Expr} {line n : Nat} {m m₁ m' : Machine} {t : Stmt} :
    n < fuel → Iterates (untilStep (body.exec fuel) condition) n m m₁ →
    Reaches fuel body m₁ t m' → Reaches fuel (.repeatUntil body condition line) m t m'
  | repeatFor {body : Stmt} {count : Expr} {line total n : Nat} {m m₁ m₂ m' : Machine} {t : Stmt} :
    repeatCount count line m = .ok total m₁ → n < total →
    Iterates (countedStep (body.exec fuel)) n m₁ m₂ → Reaches fuel body m₂ t m' →
    Reaches fuel (.repeatFor body count line) m t m'

/-- The same for statements in sequence: all those in front of one have finished normally. -/
inductive ReachesAmong (fuel : Nat) : List Stmt → Machine → Stmt → Machine → Prop where
  | head {s : Stmt} {rest : List Stmt} {m m' : Machine} {t : Stmt} :
    Reaches fuel s m t m' → ReachesAmong fuel (s :: rest) m t m'
  | tail {s : Stmt} {rest : List Stmt} {m m₁ m' : Machine} {t : Stmt} :
    s.exec fuel m = .ok .normal m₁ → ReachesAmong fuel rest m₁ t m' →
    ReachesAmong fuel (s :: rest) m t m'

end

end Stmt

/-! ## Writing -/

/-- A text that is about to be written. -/
structure Emission where
  /-- The machine, on which nothing of the text has been written yet. -/
  machine : Machine
  /-- The text with its terminator. -/
  text : String
  /-- The line of the statement that writes. -/
  line : Nat

/-- A write statement on `m` computes its value and is then about to write it. -/
def Emission.StemsFrom (e : Emission) (s : Stmt) (m : Machine) : Prop :=
  ∃ value terminator v, s = .write value terminator e.line ∧
    Exec.ofEval value.eval m = .ok v e.machine ∧ e.text = v.display ++ terminator

namespace Stmt

variable {fuel : Nat} {e : Emission}

/-- Executing a statement comes to a write statement. -/
def Writes (fuel : Nat) (s : Stmt) (m : Machine) (e : Emission) : Prop :=
  ∃ t m', s.Reaches fuel m t m' ∧ e.StemsFrom t m'

/-- The same for statements in sequence. -/
def WritesAmong (fuel : Nat) (ss : List Stmt) (m : Machine) (e : Emission) : Prop :=
  ∃ t m', ReachesAmong fuel ss m t m' ∧ e.StemsFrom t m'

/-- What a part writes, the whole writes, if it comes to the part. -/
theorem Writes.of_part {s part : Stmt} {m m₁ : Machine}
    (hpart : ∀ {t m'}, part.Reaches fuel m₁ t m' → s.Reaches fuel m t m')
    (h : part.Writes fuel m₁ e) : s.Writes fuel m e := by
  obtain ⟨t, m', hreach, hstems⟩ := h
  exact ⟨t, m', hpart hreach, hstems⟩

theorem Writes.block {body : List Stmt} {line : Nat} {m : Machine}
    (h : WritesAmong fuel body { m with env := m.env.push } e) :
    (Stmt.block body line).Writes fuel m e := by
  obtain ⟨t, m', hreach, hstems⟩ := h
  exact ⟨t, m', .block hreach, hstems⟩

theorem WritesAmong.head {s : Stmt} {rest : List Stmt} {m : Machine} (h : s.Writes fuel m e) :
    WritesAmong fuel (s :: rest) m e := by
  obtain ⟨t, m', hreach, hstems⟩ := h
  exact ⟨t, m', .head hreach, hstems⟩

theorem WritesAmong.tail {s : Stmt} {rest : List Stmt} {m m₁ : Machine}
    (hs : s.exec fuel m = .ok .normal m₁) (h : WritesAmong fuel rest m₁ e) :
    WritesAmong fuel (s :: rest) m e := by
  obtain ⟨t, m', hreach, hstems⟩ := h
  exact ⟨t, m', .tail hs hreach, hstems⟩

end Stmt

end BlockScript
