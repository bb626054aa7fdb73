import Abacus.Proofs.Machine.Run

/-!
# Stacks without bounds

The stack as a bare array of slots and a top that nothing keeps within the array.  Operations look at operands where
they lie and overwrite slots in place; an access that no check has let through is an outcome of its own, `outOfSlots`.

* `Stack.bare_execute`: on the slots of a stack an instruction does what it does to the stack, so that this outcome never
  comes up, and what lies above the top is the same as well.
-/

namespace Abacus

/-- Why an instruction is given up. -/
inductive Trap where
  | fault (f : Fault)
  /-- A slot that is not there was read or written, or more slots were given back than are in use. -/
  | outOfSlots
  deriving DecidableEq

/-- Slots, and the number of those in use. -/
structure Slots where
  slots : Array Value
  top : Nat

namespace Slots

/-! ## Accesses -/

/-- The value in a slot. -/
def read (s : Slots) (i : Nat) : Except Trap Value :=
  match s.slots[i]? with
  | some v => .ok v
  | none => .error .outOfSlots

/-- Puts a value into a slot. -/
def store (s : Slots) (i : Nat) (v : Value) : Except Trap Slots :=
  if h : i < s.slots.size then .ok { s with slots := s.slots.set i v h } else .error .outOfSlots

/-- Gives the upper slots back. -/
def drop (s : Slots) (n : Nat) : Except Trap Slots :=
  if n ≤ s.top then .ok { s with top := s.top - n } else .error .outOfSlots

/-! ## Operations -/

/-- Puts a value on top, if there is a slot for it. -/
def push (s : Slots) (v : Value) : Except Trap (Option Value × Slots) :=
  if s.top < s.slots.size then do
    let s ← s.store s.top v
    return (none, { s with top := s.top + 1 })
  else throw (.fault (.runtime .stackOverflow))

/-- Takes the top value off, if there is one. -/
def pop (s : Slots) : Except Trap (Value × Slots) :=
  if s.top = 0 then throw (.fault (.corrupted .stackUnderflow))
  else do
    let s ← s.drop 1
    let v ← s.read s.top
    return (v, s)

/-- The value below as many others, if there is one. -/
def peek (s : Slots) (distance : Nat) : Except Trap Value :=
  if s.top < distance + 1 then throw (.fault (.corrupted .stackUnderflow)) else s.read (s.top - (distance + 1))

/-- Replaces the two upper values, both numbers, by a value computed from them. -/
def combine (s : Slots) (f : Float → Float → Value) : Except Trap (Option Value × Slots) := do
  let right ← s.peek 0
  let left ← s.peek 1
  match left.number?, right.number? with
  | some x, some y => do
    let s ← s.drop 2
    s.push (f x y)
  | _, _ => throw (.fault (.runtime .operandsNotNumbers))

/-- Overwrites the top value, a number, by its negation. -/
def negate (s : Slots) : Except Trap (Option Value × Slots) := do
  let v ← s.peek 0
  match v.number? with
  | some x => do
    let below ← s.drop 1
    let s ← s.store below.top (.number (-x))
    return (none, s)
  | none => throw (.fault (.runtime .operandNotNumber))

/-- Executes an operation: the value that ends the run, if one does, and the slots afterwards. -/
def perform (s : Slots) : Operation → Except Trap (Option Value × Slots)
  | .nil => s.push .nil
  | .true => s.push (.bool true)
  | .false => s.push (.bool false)
  | .equal => do
    let (right, s) ← s.pop
    let (left, s) ← s.pop
    s.push (.bool (left == right))
  | .greater => s.combine fun x y => .bool (x > y)
  | .less => s.combine fun x y => .bool (x < y)
  | .add => s.combine fun x y => .number (x + y)
  | .subtract => s.combine fun x y => .number (x - y)
  | .multiply => s.combine fun x y => .number (x * y)
  | .divide => s.combine fun x y => .number (x / y)
  | .not => do
    let (v, s) ← s.pop
    s.push (.bool v.isFalsey)
  | .negate => s.negate
  | .return => do
    let (v, s) ← s.pop
    return (some v, s)

/-- Executes an instruction. -/
def execute (c : Chunk) (s : Slots) : Instruction → Except Trap (Option Value × Slots)
  | .constant index =>
    match c.constants[index.toNat]? with
    | some v => s.push v
    | none => throw (.fault (.corrupted .noSuchConstant))
  | .truncated => throw (.fault (.corrupted .pastEnd))
  | .plain o => s.perform o
  | .unknown _ => throw (.fault (.corrupted .unknownOpcode))

/-! ## Accesses within the slots -/

variable {s : Slots} {i n : Nat}

theorem read_of_lt (h : i < s.slots.size) : s.read i = .ok s.slots[i] := by
  simp [read, h]

theorem store_of_lt (h : i < s.slots.size) (v : Value) : s.store i v = .ok { s with slots := s.slots.set i v h } :=
  dif_pos h

theorem drop_of_le (h : n ≤ s.top) : s.drop n = .ok { s with top := s.top - n } :=
  if_pos h

theorem push_of_lt (h : s.top < s.slots.size) (v : Value) :
    s.push v = .ok (none, ⟨s.slots.set s.top v h, s.top + 1⟩) := by
  rw [push, if_pos h, store_of_lt h]
  rfl

theorem push_of_le (h : s.slots.size ≤ s.top) (v : Value) : s.push v = .error (.fault (.runtime .stackOverflow)) :=
  if_neg (Nat.not_lt.mpr h)

variable {slots : Array Value}

theorem pop_of_lt (h : n < slots.size) : pop ⟨slots, n + 1⟩ = .ok (slots[n], ⟨slots, n⟩) := by
  have dropped : drop ⟨slots, n + 1⟩ 1 = .ok ⟨slots, n⟩ := drop_of_le (Nat.le_add_left ..)
  have found : read ⟨slots, n⟩ n = .ok slots[n] := read_of_lt h
  simp only [pop, Nat.add_one_ne_zero, if_false, dropped]
  show (read ⟨slots, n⟩ n >>= fun v => pure (v, (⟨slots, n⟩ : Slots))) = _
  rw [found]
  rfl

theorem peek_of_lt (distance : Nat) (h : n < slots.size) :
    peek ⟨slots, n + distance + 1⟩ distance = .ok slots[n] := by
  have inside : ¬ n + distance + 1 < distance + 1 := by omega
  have below : n + distance + 1 - (distance + 1) = n := by omega
  rw [peek, if_neg inside]
  simp only [below]
  exact read_of_lt h

end Slots

/-! ## The slots of a stack -/

/-- The slots of a stack, without the proof that they suffice. -/
def Stack.bare (s : Stack) : Slots :=
  ⟨s.slots.toArray, s.height⟩

/-- What an operation does, in terms of slots. -/
def Effect.bare : Effect → Except Trap (Option Value × Slots)
  | «continue» s => .ok (none, s.bare)
  | finish v s => .ok (some v, s.bare)
  | fault f => .error (.fault f)

theorem Effect.bare_ne_outOfSlots (e : Effect) : e.bare ≠ .error .outOfSlots := by
  cases e <;> simp [bare]

namespace Stack

theorem bare_push (s : Stack) (v : Value) : s.bare.push v = (s.push v).bare := by
  have size : s.bare.slots.size = stackLimit := s.slots.size_toArray
  by_cases room : s.height < stackLimit
  · have here : s.bare.top < s.bare.slots.size := size ▸ room
    rw [Slots.push_of_lt here, push, push?, dif_pos room]
    rfl
  · have full : s.bare.slots.size ≤ s.bare.top := size ▸ Nat.not_lt.mp room
    rw [Slots.push_of_le full, push, push?, dif_neg room]
    rfl

/-- Whatever goes on alike with the top value and what is below it does so after the value is taken off. -/
theorem bare_popping (s : Stack) {k : Value → Stack → Effect}
    {k' : Value × Slots → Except Trap (Option Value × Slots)} (h : ∀ v t, k' (v, t.bare) = (k v t).bare) :
    (s.bare.pop >>= k') = (s.popping k).bare := by
  obtain ⟨slots, height, le⟩ := s
  cases height with
  | zero => rfl
  | succ n =>
    have inside : n < slots.toArray.size := Nat.lt_of_lt_of_eq le slots.size_toArray.symm
    have popped : (bare ⟨slots, n + 1, le⟩).pop = .ok (slots[n], bare ⟨slots, n, Nat.le_of_succ_le le⟩) :=
      Slots.pop_of_lt inside
    rw [popped]
    exact h slots[n] _

/-- The operands are looked at where they lie, and then both are given back at once. -/
theorem bare_combine (s : Stack) (f : Float → Float → Value) : s.bare.combine f = (s.combine f).bare := by
  obtain ⟨slots, height, le⟩ := s
  match height, le with
  | 0, _ => rfl
  | 1, le =>
    have inside : 0 < slots.toArray.size := Nat.lt_of_lt_of_eq le slots.size_toArray.symm
    have right : (bare ⟨slots, 1, le⟩).peek 0 = .ok slots[0] := Slots.peek_of_lt 0 inside
    rw [Slots.combine, right]
    rfl
  | n + 2, le =>
    have inside : n + 1 < slots.toArray.size := Nat.lt_of_lt_of_eq le slots.size_toArray.symm
    have right : (bare ⟨slots, n + 2, le⟩).peek 0 = .ok slots[n + 1] := Slots.peek_of_lt 0 inside
    have left : (bare ⟨slots, n + 2, le⟩).peek 1 = .ok slots[n] :=
      Slots.peek_of_lt 1 (Nat.lt_of_succ_lt inside)
    have dropped : (bare ⟨slots, n + 2, le⟩).drop 2 = .ok (bare ⟨slots, n, Nat.le_of_succ_le (Nat.le_of_succ_le le)⟩) :=
      Slots.drop_of_le (Nat.le_add_left ..)
    simp only [Slots.combine, right, left, combine, popping, pop?, bind, Except.bind]
    cases slots[n].number? with
    | none => rfl
    | some x =>
      cases slots[n + 1].number? with
      | none => rfl
      | some y =>
        simp only [dropped]
        exact bare_push _ _

/-- The top value is overwritten where it lies. -/
theorem bare_negate (s : Stack) : s.bare.negate = (s.perform .negate).bare := by
  obtain ⟨slots, height, le⟩ := s
  cases height with
  | zero => rfl
  | succ n =>
    have inside : n < slots.toArray.size := Nat.lt_of_lt_of_eq le slots.size_toArray.symm
    have top : (bare ⟨slots, n + 1, le⟩).peek 0 = .ok slots[n] := Slots.peek_of_lt 0 inside
    simp only [Slots.negate, top, perform, popping, pop?, bind, Except.bind]
    cases slots[n].number? with
    | none => rfl
    | some x =>
      have dropped : (bare ⟨slots, n + 1, le⟩).drop 1 = .ok (bare ⟨slots, n, Nat.le_of_succ_le le⟩) :=
        Slots.drop_of_le (Nat.le_add_left ..)
      have stored : (bare ⟨slots, n + 1, le⟩).store (bare ⟨slots, n, Nat.le_of_succ_le le⟩).top (.number (-x)) =
          .ok ⟨slots.toArray.set n (.number (-x)), n + 1⟩ := Slots.store_of_lt inside _
      have room : n < stackLimit := le
      simp only [dropped, stored, push, push?, dif_pos room]
      rfl

/-- On slots an operation does what it does to the stack. -/
theorem bare_perform (s : Stack) (o : Operation) : s.bare.perform o = (s.perform o).bare := by
  cases o with
  | equal =>
    refine bare_popping s fun right t => ?_
    exact bare_popping t fun left u => bare_push u _
  | not => exact bare_popping s fun v t => bare_push t _
  | negate => exact bare_negate s
  | «return» => exact bare_popping s fun v t => rfl
  | nil | true | false => exact bare_push s _
  | _ => exact bare_combine s _

/-- **On the slots of a stack an instruction does what it does to the stack.** -/
theorem bare_execute (c : Chunk) (s : Stack) (i : Instruction) : s.bare.execute c i = (s.execute c i).bare := by
  cases i with
  | constant index =>
    simp only [Slots.execute, execute, Chunk.constant?]
    cases c.constants[index.toNat]? with
    | none => rfl
    | some v => exact bare_push s v
  | plain o => exact bare_perform s o
  | _ => rfl

end Stack

end Abacus
