import Abacus.Chunk
import Mathlib.Data.List.Chain

/-!
# Offsets of instructions

The offsets that are met when one starts at the beginning of the code and goes on after each instruction.  They do not
depend on what the instructions are good for: unknown bytes and a cut-off operand count as well.

* `Chunk.isChain_offsets`: they increase, each is the one after its predecessor, and they end with the code;
* `Chunk.existsUnique_covers`: every byte belongs to exactly one of them.
-/

namespace Abacus

/-- The instruction in front of some bytes. -/
def Instruction.decode? : List UInt8 → Option Instruction
  | [] => none
  | byte :: rest =>
    match Opcode.ofByte? byte with
    | some .constant =>
      match rest with
      | index :: _ => some (.constant index)
      | [] => some .truncated
    | some (.plain o) => some (.plain o)
    | none => some (.unknown byte)

namespace Chunk

variable {c : Chunk} {offset : Nat} {i : Instruction}

/-! ## Single instructions -/

/-- The instruction at an offset is the one in front of the bytes that stand there. -/
theorem instruction?_eq_decode? (c : Chunk) (offset : Nat) :
    c.instruction? offset = Instruction.decode? (c.code.toList.drop offset) := by
  rw [instruction?, ← Array.getElem?_toList, ← Array.getElem?_toList]
  cases hd : c.code.toList.drop offset with
  | nil =>
    rw [List.drop_eq_nil_iff] at hd
    rw [List.getElem?_eq_none hd]
    rfl
  | cons byte rest =>
    have first : c.code.toList[offset]? = some byte := by
      rw [← List.head?_drop, hd, List.head?_cons]
    have second : c.code.toList[offset + 1]? = rest.head? := by
      rw [← List.head?_drop, ← List.drop_drop, hd]
      rfl
    simp only [first, second, Option.map_some, Instruction.decode?]
    cases Opcode.ofByte? byte with
    | none => rfl
    | some op =>
      cases op with
      | plain o => rfl
      | constant => cases rest <;> rfl

theorem instruction?_eq_none_iff : c.instruction? offset = none ↔ c.code.size ≤ offset := by
  rw [instruction?, Option.map_eq_none_iff, Array.getElem?_eq_none_iff]

theorem exists_instruction? (h : offset < c.code.size) : ∃ i, c.instruction? offset = some i := by
  rw [← Option.ne_none_iff_exists', Ne, instruction?_eq_none_iff]
  omega

/-- The operand of a whole instruction is a byte of the code, so every instruction ends within the code. -/
theorem add_width_le (h : c.instruction? offset = some i) : offset + i.width ≤ c.code.size := by
  have inside := lt_size_of_instruction? h
  unfold instruction? at h
  rw [Array.getElem?_eq_getElem inside, Option.map_some] at h
  obtain rfl := Option.some.inj h
  split
  · split
    · next index found =>
      have operand := (Array.getElem?_eq_some_iff.mp found).1
      simp only [Instruction.width]
      omega
    · exact inside
  · exact inside
  · exact inside

theorem nextOffset_of_instruction? (h : c.instruction? offset = some i) : c.nextOffset offset = offset + i.width := by
  simp only [nextOffset, h]

theorem nextOffset_le (h : offset < c.code.size) : c.nextOffset offset ≤ c.code.size := by
  obtain ⟨i, hi⟩ := exists_instruction? h
  rw [nextOffset_of_instruction? hi]
  exact add_width_le hi

/-- A byte of the instruction at an offset: its opcode or its operand. -/
def Covers (c : Chunk) (offset b : Nat) : Prop :=
  b = offset ∨ b = offset + 1 ∧ ∃ index, c.instruction? offset = some (.constant index)

theorem covers_iff (h : offset < c.code.size) {b : Nat} :
    c.Covers offset b ↔ offset ≤ b ∧ b < c.nextOffset offset := by
  obtain ⟨i, hi⟩ := exists_instruction? h
  rw [nextOffset_of_instruction? hi, Covers, hi]
  cases i with
  | constant index => simp [Instruction.width]; omega
  | _ => simp [Instruction.width]; omega

/-! ## All instructions -/

/-- The offsets of the instructions from an offset on. -/
def offsetsFrom (c : Chunk) (offset : Nat) : List Nat :=
  if offset < c.code.size then offset :: c.offsetsFrom (c.nextOffset offset) else []
termination_by c.code.size - offset
decreasing_by
  have := c.lt_nextOffset offset
  omega

/-- The offsets of all instructions. -/
def offsets (c : Chunk) : List Nat :=
  c.offsetsFrom 0

theorem offsetsFrom_of_lt (h : offset < c.code.size) :
    c.offsetsFrom offset = offset :: c.offsetsFrom (c.nextOffset offset) := by
  rw [offsetsFrom, if_pos h]

theorem offsetsFrom_of_le (h : c.code.size ≤ offset) : c.offsetsFrom offset = [] := by
  rw [offsetsFrom, if_neg (Nat.not_lt.mpr h)]

/-- What holds at the end of the code, and at an offset if it holds at the one after it, holds at every offset. -/
@[elab_as_elim]
theorem offset_induction {P : ∀ o, o ≤ c.code.size → Prop} (ending : P c.code.size (Nat.le_refl _))
    (next : ∀ o (lt : o < c.code.size), P (c.nextOffset o) (nextOffset_le lt) → P o (Nat.le_of_lt lt)) (o : Nat)
    (ho : o ≤ c.code.size) : P o ho := by
  rcases Nat.lt_or_ge o c.code.size with lt | ge
  · have forward := c.lt_nextOffset o
    exact next o lt (offset_induction ending next (c.nextOffset o) (nextOffset_le lt))
  · obtain rfl := Nat.le_antisymm ho ge
    exact ending
termination_by c.code.size - o

theorem head?_offsetsFrom (h : offset ≤ c.code.size) :
    (c.offsetsFrom offset ++ [c.code.size]).head? = some offset := by
  rcases Nat.lt_or_ge offset c.code.size with lt | ge
  · rw [offsetsFrom_of_lt lt]
    rfl
  · rw [offsetsFrom_of_le ge, Nat.le_antisymm h ge]
    rfl

theorem le_of_mem_offsetsFrom (h : offset ≤ c.code.size) : ∀ o ∈ c.offsetsFrom offset, offset ≤ o := by
  induction offset, h using offset_induction with
  | ending => simp [offsetsFrom_of_le]
  | next offset lt ih =>
    intro o ho
    rw [offsetsFrom_of_lt lt] at ho
    have forward := c.lt_nextOffset offset
    rcases List.mem_cons.mp ho with rfl | ho
    · exact Nat.le_refl _
    · exact Nat.le_trans (Nat.le_of_lt forward) (ih o ho)

theorem lt_size_of_mem_offsetsFrom (h : offset ≤ c.code.size) : ∀ o ∈ c.offsetsFrom offset, o < c.code.size := by
  induction offset, h using offset_induction with
  | ending => simp [offsetsFrom_of_le]
  | next offset lt ih =>
    intro o ho
    rw [offsetsFrom_of_lt lt] at ho
    rcases List.mem_cons.mp ho with rfl | ho
    · exact lt
    · exact ih o ho

/-- One offset leads to the other: it is smaller, and its instruction ends there. -/
def LeadsTo (c : Chunk) (o o' : Nat) : Prop :=
  o < o' ∧ c.nextOffset o = o'

theorem isChain_offsetsFrom (h : offset ≤ c.code.size) :
    (c.offsetsFrom offset ++ [c.code.size]).IsChain c.LeadsTo := by
  induction offset, h using offset_induction with
  | ending => simp [offsetsFrom_of_le]
  | next offset lt ih =>
    rw [offsetsFrom_of_lt lt, List.cons_append, List.isChain_cons, head?_offsetsFrom (nextOffset_le lt)]
    refine ⟨fun o ho => ?_, ih⟩
    obtain rfl := Option.mem_some.mp ho
    exact ⟨c.lt_nextOffset offset, rfl⟩

/-- **The offsets increase up to the end of the code**, and the instruction at each ends where the next one begins. -/
theorem isChain_offsets (c : Chunk) : (c.offsets ++ [c.code.size]).IsChain c.LeadsTo :=
  isChain_offsetsFrom (Nat.zero_le _)

theorem existsUnique_covers_from (h : offset ≤ c.code.size) :
    ∀ b, offset ≤ b → b < c.code.size → ∃! o, o ∈ c.offsetsFrom offset ∧ c.Covers o b := by
  induction offset, h using offset_induction with
  | ending => intro b le lt; omega
  | next offset lt ih =>
    intro b le hb
    have tail : ∀ o ∈ c.offsetsFrom (c.nextOffset offset), c.nextOffset offset ≤ o ∧ o < c.code.size := fun o ho =>
      ⟨le_of_mem_offsetsFrom (nextOffset_le lt) o ho, lt_size_of_mem_offsetsFrom (nextOffset_le lt) o ho⟩
    rw [offsetsFrom_of_lt lt]
    rcases Nat.lt_or_ge b (c.nextOffset offset) with before | after
    · -- the byte belongs to the instruction in front, and those behind begin after it
      refine ⟨offset, ⟨List.mem_cons_self, (covers_iff lt).mpr ⟨le, before⟩⟩, fun o ho => ?_⟩
      rcases List.mem_cons.mp ho.1 with rfl | mem
      · rfl
      · have behind := ((covers_iff (tail o mem).2).mp ho.2).1
        have := (tail o mem).1
        omega
    · obtain ⟨o, ⟨mem, covers⟩, unique⟩ := ih b after hb
      refine ⟨o, ⟨List.mem_cons_of_mem _ mem, covers⟩, fun o' ho' => ?_⟩
      rcases List.mem_cons.mp ho'.1 with rfl | mem'
      · have := ((covers_iff lt).mp ho'.2).2
        omega
      · exact unique o' ⟨mem', ho'.2⟩

/-- **Every byte belongs to exactly one instruction**: it is its opcode or its operand. -/
theorem existsUnique_covers {b : Nat} (h : b < c.code.size) : ∃! o, o ∈ c.offsets ∧ c.Covers o b :=
  existsUnique_covers_from (Nat.zero_le _) b (Nat.zero_le _) h

end Chunk

end Abacus
