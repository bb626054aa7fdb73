import Abacus.Proofs.Chunk.Offsets
import Abacus.Proofs.Compiler.Code

/-!
# Well-formed chunks

A well-formed chunk is a sequence of whole instructions: opcodes, each constant instruction with an operand that refers
to a constant, every byte on the line of its instruction, and the return operation at the end.

* `Instruction.disassemble?_eq_some_iff`: the instructions can be computed from the bytes and their lines;
* `Chunk.Consists.unique`: a chunk consists of one sequence of instructions only;
* `Chunk.Consists.extend`: whole instructions after a chunk of whole instructions.
-/

namespace Abacus

/-! ## Instructions as bytes -/

namespace Instruction

/-- The bytes of an instruction. -/
def bytes : Instruction → List UInt8
  | constant index => [Opcode.constant.byte, index]
  | truncated => [Opcode.constant.byte]
  | plain o => [o.byte]
  | unknown byte => [byte]

/-- An opcode with its operand, if it takes one, which refers to one of `k` constants. -/
def IsWhole (k : Nat) : Instruction → Prop
  | constant index => index.toNat < k
  | plain _ => True
  | truncated | unknown _ => False

/-- The bytes of an instruction, each with the line of the instruction. -/
def lined (p : Instruction × Line) : List (UInt8 × Line) :=
  p.1.bytes.map (·, p.2)

/-- The bytes of instructions, one after the other. -/
def assemble (is : List (Instruction × Line)) : List (UInt8 × Line) :=
  is.flatMap lined

variable {i : Instruction} {k : Nat} {is js : List (Instruction × Line)}

theorem IsWhole.mono {k' : Nat} (h : i.IsWhole k) (le : k ≤ k') : i.IsWhole k' := by
  cases i with
  | constant index => exact Nat.lt_of_lt_of_le h le
  | _ => exact h

theorem IsWhole.cases (h : i.IsWhole k) : (∃ index, i = constant index) ∨ ∃ o, i = plain o := by
  cases i with
  | constant index => exact .inl ⟨index, rfl⟩
  | plain o => exact .inr ⟨o, rfl⟩
  | truncated => exact h.elim
  | unknown byte => exact h.elim

theorem length_bytes (i : Instruction) : i.bytes.length = i.width := by
  cases i <;> rfl

/-- Whole instructions are told by their bytes. -/
theorem decode?_bytes (h : i.IsWhole k) (rest : List UInt8) : decode? (i.bytes ++ rest) = some i := by
  rcases h.cases with ⟨index, rfl⟩ | ⟨o, rfl⟩
  · rfl
  · have decoded : Opcode.ofByte? o.byte = some (.plain o) := Opcode.ofByte?_byte (.plain o)
    simp only [bytes, List.singleton_append, decode?, decoded]

theorem map_fst_lined (p : Instruction × Line) : (lined p).map Prod.fst = p.1.bytes := by
  simp [lined, Function.comp_def]

theorem map_snd_lined (p : Instruction × Line) : (lined p).map Prod.snd = List.replicate p.1.width p.2 := by
  rw [← length_bytes]
  simp [lined, Function.comp_def]

theorem map_fst_assemble_cons (p : Instruction × Line) (is : List (Instruction × Line)) :
    (assemble (p :: is)).map Prod.fst = p.1.bytes ++ (assemble is).map Prod.fst := by
  rw [assemble, List.flatMap_cons, List.map_append, map_fst_lined]
  rfl

theorem map_snd_assemble_cons (p : Instruction × Line) (is : List (Instruction × Line)) :
    (assemble (p :: is)).map Prod.snd = List.replicate p.1.width p.2 ++ (assemble is).map Prod.snd := by
  rw [assemble, List.flatMap_cons, List.map_append, map_snd_lined]
  rfl

theorem assemble_append (is js : List (Instruction × Line)) : assemble (is ++ js) = assemble is ++ assemble js :=
  List.flatMap_append

/-- The whole instructions that some bytes with their lines are made of. -/
def disassemble? (k : Nat) : List (UInt8 × Line) → Option (List (Instruction × Line))
  | [] => some []
  | (byte, line) :: bs =>
    match Opcode.ofByte? byte with
    | some (.plain o) => (disassemble? k bs).map ((.plain o, line) :: ·)
    | some .constant =>
      match bs with
      | (index, line') :: bs =>
        if line' = line ∧ index.toNat < k then (disassemble? k bs).map ((.constant index, line) :: ·) else none
      | [] => none
    | none => none

theorem disassemble?_assemble (whole : ∀ p ∈ is, p.1.IsWhole k) : disassemble? k (assemble is) = some is := by
  induction is with
  | nil => rfl
  | cons p is ih =>
    obtain ⟨i, line⟩ := p
    obtain ⟨first, rest⟩ := List.forall_mem_cons.mp whole
    rcases first.cases with ⟨index, rfl⟩ | ⟨o, rfl⟩
    · have decoded : Opcode.ofByte? Opcode.constant.byte = some .constant := rfl
      have fits : index.toNat < k := first
      show disassemble? k ((Opcode.constant.byte, line) :: (index, line) :: assemble is) = _
      unfold disassemble?
      simp only [decoded, fits, and_self, if_true, ih rest, Option.map_some]
    · have decoded : Opcode.ofByte? o.byte = some (.plain o) := Opcode.ofByte?_byte (.plain o)
      show disassemble? k ((o.byte, line) :: assemble is) = _
      unfold disassemble?
      simp only [decoded, ih rest, Option.map_some]

theorem assemble_of_disassemble? {bs : List (UInt8 × Line)} (h : disassemble? k bs = some is) :
    bs = assemble is ∧ ∀ p ∈ is, p.1.IsWhole k := by
  -- on the bytes that are read, one case for each way to go on or to give up
  fun_induction disassemble? k bs generalizing is with
  | case1 =>
    cases h
    exact ⟨rfl, nofun⟩
  | case2 byte line bs o decoded ih =>
    obtain ⟨js, hjs, rfl⟩ := Option.map_eq_some_iff.mp h
    obtain ⟨rfl, whole⟩ := ih hjs
    obtain rfl := Opcode.byte_of_ofByte? decoded
    exact ⟨rfl, List.forall_mem_cons.mpr ⟨trivial, whole⟩⟩
  | case3 byte line decoded index line' bs fits ih =>
    obtain ⟨js, hjs, rfl⟩ := Option.map_eq_some_iff.mp h
    obtain ⟨rfl, whole⟩ := ih hjs
    obtain ⟨rfl, fits⟩ := fits
    obtain rfl := Opcode.byte_of_ofByte? decoded
    exact ⟨rfl, List.forall_mem_cons.mpr ⟨fits, whole⟩⟩
  | case4 => cases h
  | case5 => cases h
  | case6 => cases h

/-- **Disassembling inverts assembling.** -/
theorem disassemble?_eq_some_iff {bs : List (UInt8 × Line)} :
    disassemble? k bs = some is ↔ bs = assemble is ∧ ∀ p ∈ is, p.1.IsWhole k :=
  ⟨assemble_of_disassemble?, fun ⟨same, whole⟩ => same ▸ disassemble?_assemble whole⟩

end Instruction

/-! ## Chunks of instructions -/

namespace Chunk

open Instruction (assemble)

variable {c : Chunk} {is js : List (Instruction × Line)}

/-- A whole instruction is met where its bytes stand, and the one behind it after them. -/
theorem instruction?_of_bytes {i : Instruction} {k offset : Nat} {rest : List UInt8} (whole : i.IsWhole k)
    (bytes : c.code.toList.drop offset = i.bytes ++ rest) :
    c.instruction? offset = some i ∧ c.code.toList.drop (offset + i.width) = rest := by
  constructor
  · rw [instruction?_eq_decode?, bytes, Instruction.decode?_bytes whole]
  · rw [← List.drop_drop, bytes, ← Instruction.length_bytes, List.drop_left]

/-- The code of a chunk is the bytes of whole instructions, and its line table has their lines. -/
structure Consists (c : Chunk) (is : List (Instruction × Line)) : Prop where
  code : c.code.toList = (assemble is).map Prod.fst
  lines : c.lines.toList = (assemble is).map Prod.snd
  whole : ∀ p ∈ is, p.1.IsWhole c.constants.size

/-- A chunk of whole instructions, of which the last one is the return operation, or without code. -/
def WellFormed (c : Chunk) : Prop :=
  ∃ is, c.Consists is ∧ ∀ p ∈ is.getLast?, p.1 = .plain .return

theorem Consists.zip_eq (h : c.Consists is) : c.code.toList.zip c.lines.toList = assemble is := by
  have unzipped := List.zip_unzip (assemble is)
  rw [List.unzip_eq_map] at unzipped
  rw [h.code, h.lines]
  exact unzipped

/-- What a chunk consists of can be computed. -/
theorem consists_iff : c.Consists is ↔
    c.code.size = c.lines.size ∧
      Instruction.disassemble? c.constants.size (c.code.toList.zip c.lines.toList) = some is := by
  rw [Instruction.disassemble?_eq_some_iff]
  constructor
  · intro h
    refine ⟨?_, h.zip_eq, h.whole⟩
    rw [← Array.length_toList, ← Array.length_toList, h.code, h.lines, List.length_map, List.length_map]
  · rintro ⟨same, zipped, whole⟩
    rw [← Array.length_toList, ← Array.length_toList] at same
    refine ⟨?_, ?_, whole⟩
    · rw [← zipped, List.map_fst_zip (Nat.le_of_eq same)]
    · rw [← zipped, List.map_snd_zip (Nat.le_of_eq same.symm)]

/-- **A chunk consists of one sequence of instructions only.** -/
theorem Consists.unique (h : c.Consists is) (h' : c.Consists js) : is = js :=
  Option.some.inj ((consists_iff.mp h).2.symm.trans (consists_iff.mp h').2)

instance (c : Chunk) : Decidable c.WellFormed :=
  decidable_of_iff
    (c.code.size = c.lines.size ∧
      ∃ is ∈ Instruction.disassemble? c.constants.size (c.code.toList.zip c.lines.toList),
        ∀ p ∈ is.getLast?, p.1 = .plain .return) <| by
    simp only [WellFormed, consists_iff, Option.mem_def, and_assoc, exists_and_left]

/-- An operand that is the byte of the return operation does not end a chunk. -/
example : ¬ Chunk.WellFormed ⟨#[0x01, 0x00, 0x0D], #[1, 1, 1], .replicate 14 .nil⟩ := by
  decide

theorem consists_empty : empty.Consists [] :=
  ⟨rfl, rfl, nofun⟩

theorem wellFormed_empty : empty.WellFormed :=
  ⟨[], consists_empty, nofun⟩

theorem Consists.extend {constants : List Value} (h : c.Consists is)
    (whole : ∀ p ∈ js, p.1.IsWhole (c.constants.size + constants.length)) :
    (c.extend (assemble js) constants).Consists (is ++ js) := by
  refine ⟨?_, ?_, fun p hp => ?_⟩
  · simp [Chunk.extend, h.code, Instruction.assemble_append]
  · simp [Chunk.extend, h.lines, Instruction.assemble_append]
  · rw [size_constants_extend]
    rcases List.mem_append.mp hp with old | new
    · exact (h.whole p old).mono (Nat.le_add_right ..)
    · exact whole p new

end Chunk

end Abacus
