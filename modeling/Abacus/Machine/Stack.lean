import Abacus.Value

/-!
# Value stacks

A stack of 256 slots and a height.  Only the slots below the height are on the stack; those above keep what was
last written there.  `toList` is the view of a stack, bottom first, and the lemmas say what each operation does
to it.
-/

namespace Abacus

/-- The number of slots of a stack. -/
def stackLimit : Nat := 256

/-- A stack of values. -/
structure Stack where
  slots : Vector Value stackLimit
  /-- The number of slots in use. -/
  height : Nat
  height_le : height ≤ stackLimit

namespace Stack

/-- The stack with nothing on it and `nil` in every slot. -/
def fresh : Stack :=
  ⟨Vector.replicate stackLimit .nil, 0, Nat.zero_le _⟩

/-- Takes everything off. -/
def clear (s : Stack) : Stack :=
  ⟨s.slots, 0, Nat.zero_le _⟩

/-- The values on the stack, bottom first. -/
def toList (s : Stack) : List Value :=
  s.slots.toList.take s.height

/-- Puts a value on top, if a slot is left. -/
def push? (s : Stack) (v : Value) : Option Stack :=
  if h : s.height < stackLimit then some ⟨s.slots.set s.height v h, s.height + 1, h⟩ else none

/-- Takes the top value off, if there is one. -/
def pop? (s : Stack) : Option (Value × Stack) :=
  match s with
  | ⟨_, 0, _⟩ => none
  | ⟨slots, height + 1, h⟩ => some (slots[height], ⟨slots, height, Nat.le_of_succ_le h⟩)

/-! ## The view -/

theorem length_toList (s : Stack) : s.toList.length = s.height := by
  simp [toList, Nat.min_eq_left s.height_le]

@[simp] theorem toList_fresh : fresh.toList = [] := by
  simp [toList, fresh]

@[simp] theorem toList_clear (s : Stack) : s.clear.toList = [] := by
  simp [toList, clear]

theorem toList_push? {s t : Stack} {v : Value} (h : s.push? v = some t) : t.toList = s.toList ++ [v] := by
  unfold push? at h
  split at h
  · next room =>
    obtain rfl := Option.some.inj h
    simp only [toList, Vector.toList_set, List.take_add_one, List.take_set_of_le (Nat.le_refl _)]
    simp [room]
  · simp at h

theorem push?_eq_none_iff {s : Stack} {v : Value} : s.push? v = none ↔ s.toList.length = stackLimit := by
  have bound := s.height_le
  rw [length_toList]
  unfold push?
  split
  · simp; omega
  · simp; omega

theorem toList_pop? {s t : Stack} {v : Value} (h : s.pop? = some (v, t)) : s.toList = t.toList ++ [v] := by
  unfold pop? at h
  split at h
  · simp at h
  · next slots height bound =>
    obtain ⟨rfl, rfl⟩ := Prod.mk.inj (Option.some.inj h)
    simp only [toList, List.take_add_one]
    simp [Nat.lt_of_succ_le bound]

theorem pop?_eq_none_iff {s : Stack} : s.pop? = none ↔ s.toList = [] := by
  rw [← List.length_eq_zero_iff, length_toList]
  unfold pop?
  split <;> simp

end Stack

end Abacus
