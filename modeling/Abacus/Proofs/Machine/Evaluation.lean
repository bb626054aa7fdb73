import Abacus.Machine
import Abacus.Proofs.Compiler.Code

/-!
# Evaluation

What an expression means: its value, or the first fault met when operands are evaluated from left to right.  The
operands that wait for an operator count against the stack, so an expression is evaluated at a height, and a literal
at the limit overflows.

The second half says what each operation of the machine makes of the values on top of a stack.
-/

namespace Abacus

/-! ## Meanings of operators -/

/-- The value that a literal stands for. -/
def Literal.value : Literal → Value
  | nil => .nil
  | true => .bool .true
  | false => .bool .false

/-- What an operator before its operand makes of it. -/
def UnaryOp.apply : UnaryOp → Value → Except RuntimeFault Value
  | not, v => .ok (.bool v.isFalsey)
  | negate, .number x => .ok (.number (-x))
  | negate, _ => .error .operandNotNumber

/-- Applies a function of two numbers. -/
def Value.arith (f : Float → Float → Value) : Value → Value → Except RuntimeFault Value
  | number x, number y => .ok (f x y)
  | _, _ => .error .operandsNotNumbers

/-- What an operator between its operands makes of them. -/
def BinaryOp.apply : BinaryOp → Value → Value → Except RuntimeFault Value
  | equal, a, b => .ok (.bool (a == b))
  | notEqual, a, b => .ok (.bool !(a == b))
  | greater, a, b => a.arith (fun x y => .bool (x > y)) b
  | greaterEqual, a, b => a.arith (fun x y => .bool !(x < y)) b
  | less, a, b => a.arith (fun x y => .bool (x < y)) b
  | lessEqual, a, b => a.arith (fun x y => .bool !(x > y)) b
  | add, a, b => a.arith (fun x y => .number (x + y)) b
  | subtract, a, b => a.arith (fun x y => .number (x - y)) b
  | multiply, a, b => a.arith (fun x y => .number (x * y)) b
  | divide, a, b => a.arith (fun x y => .number (x / y)) b

/-- A result, its fault placed on a line. -/
def onLine (line : Line) : Except RuntimeFault Value → Except RunError Value
  | .ok v => .ok v
  | .error fault => .error (.runtime fault line)

/-- A value that is put on a stack of the given height. -/
def pushed (height : Nat) (line : Line) (v : Value) : Except RunError Value :=
  onLine line (if height = stackLimit then .error .stackOverflow else .ok v)

/-- **The meaning of an expression** at a height of the stack. -/
def Tree.eval (height : Nat) : Tree → Except RunError Value
  | number t => pushed height t.line t.constant
  | literal l t => pushed height t.line l.value
  | group _ e _ => e.eval height
  | unary op _ e => do
    let v ← e.eval height
    onLine e.last.line (op.apply v)
  | binary op left _ right => do
    let a ← left.eval height
    let b ← right.eval (height + 1)
    onLine right.last.line (op.apply a b)

/-- An expression ends in a fault of its own, on one of its lines. -/
theorem Tree.exists_runtime_of_eval {e : Tree} {height : Nat} {error : RunError} (h : e.eval height = .error error) :
    ∃ cause line, error = .runtime cause line := by
  have placed {line : Line} {r : Except RuntimeFault Value} (h : onLine line r = .error error) :
      ∃ cause line, error = .runtime cause line := by
    cases r with
    | ok v => cases h
    | error cause => exact ⟨cause, line, (Except.error.inj h).symm⟩
  induction e generalizing height with
  | number t => exact placed h
  | literal l t => exact placed h
  | group opening e closing ih => exact ih h
  | unary op t e ih =>
    simp only [eval] at h
    cases he : e.eval height with
    | error error' =>
      rw [he] at h
      exact ih (he.trans h)
    | ok v =>
      rw [he] at h
      exact placed h
  | binary op left t right ihl ihr =>
    simp only [eval] at h
    cases hl : left.eval height with
    | error error' =>
      rw [hl] at h
      exact ihl (hl.trans h)
    | ok a =>
      rw [hl] at h
      have h : (right.eval (height + 1) >>= fun b => onLine right.last.line (op.apply a b)) = .error error := h
      cases hr : right.eval (height + 1) with
      | error error' =>
        rw [hr] at h
        exact ihr (hr.trans h)
      | ok b =>
        rw [hr] at h
        exact placed h

/-! ## Operations on a stack -/

namespace Stack

variable {s : Stack} {below : List Value}

theorem length_toList_le (s : Stack) : s.toList.length ≤ stackLimit := by
  rw [length_toList]
  exact s.height_le

theorem push_of_lt (h : s.toList.length < stackLimit) (v : Value) :
    ∃ t, s.push v = .continue t ∧ t.toList = s.toList ++ [v] := by
  cases hp : s.push? v with
  | none =>
    have full := push?_eq_none_iff.mp hp
    omega
  | some t => exact ⟨t, by simp only [push, hp], toList_push? hp⟩

theorem push_of_eq (h : s.toList.length = stackLimit) (v : Value) :
    s.push v = .fault (.runtime .stackOverflow) := by
  have none : s.push? v = none := push?_eq_none_iff.mpr h
  simp only [push, none]

theorem popping_of_toList {v : Value} (h : s.toList = below ++ [v]) :
    ∃ t, t.toList = below ∧ below.length < stackLimit ∧ ∀ k, s.popping k = k v t := by
  have le := s.length_toList_le
  rw [h, List.length_append, List.length_singleton] at le
  cases hp : s.pop? with
  | none =>
    rw [pop?_eq_none_iff.mp hp] at h
    cases below <;> cases h
  | some popped =>
    obtain ⟨w, t⟩ := popped
    have top := toList_pop? hp
    rw [h] at top
    obtain ⟨same, single⟩ := List.append_inj' top rfl
    cases single
    exact ⟨t, same.symm, le, fun k => by simp only [popping, hp]⟩

/-- What an operation leads to: a value on top of what was below its operands, or a fault. -/
def Yields (effect : Effect) (below : List Value) : Except RuntimeFault Value → Prop
  | .ok v => ∃ t, effect = .continue t ∧ t.toList = below ++ [v]
  | .error fault => effect = .fault (.runtime fault)

theorem yields_push {t : Stack} (h : t.toList = below) (lt : below.length < stackLimit) (v : Value) :
    Yields (t.push v) below (.ok v) := by
  obtain ⟨u, hu, htop⟩ := push_of_lt (h ▸ lt) v
  exact ⟨u, hu, h ▸ htop⟩

theorem yields_not {v : Value} (h : s.toList = below ++ [v]) :
    Yields (s.perform .not) below (.ok (.bool v.isFalsey)) := by
  obtain ⟨t, rest, lt, ht⟩ := popping_of_toList h
  rw [perform, ht]
  exact yields_push rest lt _

theorem yields_unary (op : UnaryOp) {v : Value} (h : s.toList = below ++ [v]) :
    Yields (s.perform op.operation) below (op.apply v) := by
  cases op with
  | not => exact yields_not h
  | negate =>
    obtain ⟨t, rest, lt, ht⟩ := popping_of_toList h
    rw [UnaryOp.operation, perform, ht]
    cases v with
    | number x => exact yields_push rest lt _
    | _ => rfl

variable {a b : Value} (h : s.toList = below ++ [a, b])
include h

/-- The two upper values are taken off, the right operand first. -/
theorem popping_two : ∃ t, t.toList = below ∧ below.length < stackLimit ∧
    ∀ k : Value → Value → Stack → Effect,
      (s.popping fun right s => s.popping fun left s => k left right s) = k a b t := by
  have upper : s.toList = (below ++ [a]) ++ [b] := by
    rw [h, List.append_assoc]
    rfl
  obtain ⟨t, rest, -, ht⟩ := popping_of_toList upper
  obtain ⟨u, rest', lt, hu⟩ := popping_of_toList rest
  exact ⟨u, rest', lt, fun k => by rw [ht, hu]⟩

theorem yields_equal : Yields (s.perform .equal) below (.ok (.bool (a == b))) := by
  obtain ⟨t, rest, lt, ht⟩ := popping_two h
  rw [perform, ht]
  exact yields_push rest lt _

theorem yields_combine (f : Float → Float → Value) : Yields (s.combine f) below (a.arith f b) := by
  obtain ⟨t, rest, lt, ht⟩ := popping_two h
  rw [combine, ht]
  cases a with
  | number x =>
    cases b with
    | number y => exact yields_push rest lt _
    | _ => rfl
  | _ => rfl

end Stack

end Abacus
