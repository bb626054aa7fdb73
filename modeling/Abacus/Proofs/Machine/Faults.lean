import Abacus.Proofs.Machine.Corruption

/-!
# Places of corruptions

A corruption is placed at the last byte that was read before it.  That byte belongs to the instruction that was read
last: it is its opcode, unless the instruction is a constant with its operand, of which it is the operand.

* `Machine.Runs.exists_lastRead`: the last instruction that a run reads before it meets a corruption;
* `Chunk.corruption_at_last_byte`: where the corruption is placed, and when that is where the instruction stands.
-/

namespace Abacus

variable {c : Chunk}

/-! ## Instructions and the corruptions that they meet -/

namespace Stack

variable {s : Stack} {cause : Corruption}

theorem push_ne_corrupted (s : Stack) (v : Value) (cause : Corruption) : s.push v ≠ .fault (.corrupted cause) := by
  intro h
  unfold push at h
  split at h <;> cases h

/-- A constant may be missing, and so may an operand byte; an operation may underflow the stack; and that a byte is no
opcode is found as soon as it is read. -/
theorem cause_of_execute {i : Instruction} (h : s.execute c i = .fault (.corrupted cause)) :
    (cause = .noSuchConstant ∧ ∃ index, i = .constant index) ∨ (cause = .pastEnd ∧ i = .truncated) ∨
      (cause = .stackUnderflow ∧ ∃ o, i = .plain o) ∨ cause = .unknownOpcode ∧ ∃ byte, i = .unknown byte := by
  cases i with
  | constant index =>
    simp only [execute] at h
    cases found : c.constant? index with
    | none =>
      rw [found] at h
      cases h
      exact .inl ⟨rfl, index, rfl⟩
    | some v =>
      rw [found] at h
      exact absurd h (s.push_ne_corrupted v cause)
  | truncated =>
    cases h
    exact .inr (.inl ⟨rfl, rfl⟩)
  | plain o => exact .inr (.inr (.inl ⟨s.onlyUnderflows_perform o cause h, o, rfl⟩))
  | unknown byte =>
    cases h
    exact .inr (.inr (.inr ⟨rfl, byte, rfl⟩))

end Stack

/-- An operand byte is missing only at the end of the code. -/
theorem Chunk.succ_eq_size_of_truncated {o : Nat} (h : c.instruction? o = some .truncated) : o + 1 = c.code.size := by
  have inside := lt_size_of_instruction? h
  have missing : c.code[o + 1]? = none := by
    unfold instruction? at h
    rw [Array.getElem?_eq_getElem inside, Option.map_some] at h
    have found := Option.some.inj h
    split at found
    · split at found
      · cases found
      · assumption
    · cases found
    · cases found
  exact Nat.le_antisymm inside (Array.getElem?_eq_none_iff.mp missing)

/-- Only a constant with its operand takes more than its opcode. -/
theorem Instruction.width_eq_one_iff {i : Instruction} : i.width = 1 ↔ ∀ index, i ≠ .constant index := by
  cases i <;> simp [width]

/-! ## The last instruction of a run -/

namespace Machine

variable {m : Machine} {ms : List Machine} {s : Stack} {offset : Nat} {cause : Corruption}

/-- The offset of the last instruction that is read when a run goes through some machines.  At the end of the code there
is none to read. -/
def lastRead? (c : Chunk) (ms : List Machine) : Option Nat :=
  ((ms.map ip).filter (· < c.code.size)).getLast?

theorem lastRead?_cons (inside : m.ip < c.code.size) (ms : List Machine) :
    lastRead? c (m :: ms) = some ((lastRead? c ms).getD m.ip) := by
  rw [lastRead?, List.map_cons, List.filter_cons_of_pos (by simpa using inside), List.getLast?_cons]
  rfl

/-- What is to be said of the last instruction that was read before a corruption was met: the corruption is placed at its
last byte, and came with it or at the end of the code. -/
structure IsBlamed (c : Chunk) (o : Nat) (i : Instruction) (offset : Nat) (cause : Corruption) : Prop where
  instruction : c.instruction? o = some i
  place : offset + 1 = o + i.width
  operation : cause = .unknownOpcode ∨ cause = .stackUnderflow → i.width = 1
  constant : cause = .noSuchConstant → ∃ index, i = .constant index
  ending : cause = .pastEnd → o + i.width = c.code.size

/-- An instruction at which the machine stops is to blame itself. -/
theorem isBlamed_of_execute {i : Instruction} (hi : c.instruction? m.ip = some i)
    (he : m.stack.execute c i = .fault (.corrupted cause)) : IsBlamed c m.ip i (m.ip + i.width - 1) cause := by
  have place : m.ip + i.width - 1 + 1 = m.ip + i.width := Nat.sub_add_cancel (Nat.le_add_left_of_le i.width_pos)
  rcases Stack.cause_of_execute he with ⟨rfl, index, rfl⟩ | ⟨rfl, rfl⟩ | ⟨rfl, o, rfl⟩ | ⟨rfl, byte, rfl⟩
  · exact ⟨hi, place, by simp, fun _ => ⟨index, rfl⟩, nofun⟩
  · exact ⟨hi, place, by simp, nofun, fun _ => Chunk.succ_eq_size_of_truncated hi⟩
  · exact ⟨hi, place, fun _ => rfl, nofun, nofun⟩
  · exact ⟨hi, place, fun _ => rfl, nofun, nofun⟩

theorem lastRead?_of_le (past : c.code.size ≤ m.ip) : lastRead? c [m] = none := by
  rw [lastRead?, List.map_singleton, List.filter_cons_of_neg (by simpa using past)]
  rfl

/-- At the end of the code a run stops at once. -/
theorem Runs.of_size_le (h : Runs c m ms (.error (.corrupted offset cause)) s) (past : c.code.size ≤ m.ip) :
    ms = [m] ∧ cause = .pastEnd ∧ offset = m.ip - 1 := by
  have stops := step_of_size_le past
  generalize hr : Except.error (RunError.corrupted offset cause) = r at h
  cases h with
  | done hstep => cases hr
  | next hstep =>
    rw [stops] at hstep
    cases hstep
  | failed hstep =>
    rw [stops] at hstep
    cases hstep
    cases hr
    exact ⟨rfl, rfl, rfl⟩

/-- **The last instruction that is read before a corruption** is met on the way of the run, and to blame. -/
theorem Runs.exists_lastRead (h : Runs c m ms (.error (.corrupted offset cause)) s) (inside : m.ip < c.code.size) :
    ∃ o i, lastRead? c ms = some o ∧ o ∈ c.offsetsFrom m.ip ∧ IsBlamed c o i offset cause := by
  generalize hr : Except.error (RunError.corrupted offset cause) = r at h
  induction h with
  | done h => cases hr
  | @failed m f ip hstep =>
    cases f with
    | runtime fault => cases hr
    | corrupted reason =>
      cases hr
      rcases execute_of_failed hstep with ⟨past, -, -⟩ | ⟨i, hi, he, rfl⟩
      · omega
      · refine ⟨m.ip, i, lastRead?_cons inside [], ?_, isBlamed_of_execute hi he⟩
        rw [Chunk.offsetsFrom_of_lt inside]
        exact List.mem_cons_self
  | @next m m' ms r s hstep rest ih =>
    obtain ⟨i, hi, -, same⟩ := execute_of_next hstep
    obtain ⟨-, behind, -⟩ := lt_of_step hstep
    rw [lastRead?_cons inside, Chunk.offsetsFrom_of_lt inside, ← behind]
    rcases Nat.lt_or_ge m'.ip c.code.size with further | past
    · obtain ⟨o, j, last, mem, blamed⟩ := ih further hr
      exact ⟨o, j, by rw [last, Option.getD_some], List.mem_cons_of_mem _ mem, blamed⟩
    · -- the instruction was the last one of the code, and the next one was looked for at the end
      have ending : m'.ip = c.code.size := by
        have le := Chunk.add_width_le hi
        omega
      subst hr
      obtain ⟨rfl, rfl, rfl⟩ := rest.of_size_le past
      have pos := i.width_pos
      refine ⟨m.ip, i, by rw [lastRead?_of_le past, Option.getD_none], List.mem_cons_self, hi, ?_, nofun, nofun,
        fun _ => ?_⟩
      · omega
      · omega

end Machine

/-! ## Whole chunks -/

namespace Chunk

/-- Inside an instruction no other one begins. -/
theorem succ_notMem_offsets {o : Nat} {index : UInt8} (mem : o ∈ c.offsets)
    (constant : c.instruction? o = some (.constant index)) : o + 1 ∉ c.offsets := by
  intro begins
  have inside := lt_size_of_mem_offsetsFrom (Nat.zero_le _) _ begins
  obtain ⟨o', -, unique⟩ := existsUnique_covers inside
  have first := unique o ⟨mem, .inr ⟨rfl, index, constant⟩⟩
  have second := unique (o + 1) ⟨begins, .inl rfl⟩
  omega

/-- **A corruption is placed at the last byte of the instruction that was read last.**  That is the instruction at which
the run stopped or, at the end of the code, the one before.  So the place is that of the instruction, and a listing has a
row for it, exactly if the instruction is not a constant with its operand.  It is for an unknown opcode and a stack
underflow, and never for a constant that does not exist; at the end of the code it is the last byte of the code. -/
theorem corruption_at_last_byte (c : Chunk) (s : Stack) (traced : Bool) (ne : c.code ≠ #[]) {offset : Nat}
    {cause : Corruption} (failed : (c.run s traced).result = .error (.corrupted offset cause)) :
    ∃ ms o i, Machine.Runs c ⟨0, s.clear⟩ ms (c.run s traced).result (c.run s traced).stack ∧
      Machine.lastRead? c ms = some o ∧ o ∈ c.offsets ∧ c.instruction? o = some i ∧ offset + 1 = o + i.width ∧
      (offset = o ↔ ∀ index, i ≠ .constant index) ∧ (offset ∈ c.offsets ↔ offset = o) ∧
      (cause = .unknownOpcode ∨ cause = .stackUnderflow → offset = o) ∧
      (cause = .noSuchConstant → offset = o + 1) ∧ (cause = .pastEnd → offset + 1 = c.code.size) := by
  obtain ⟨ms, r, t, runs, same⟩ := c.run_eq s
  rw [same] at failed
  obtain rfl : r = .error (.corrupted offset cause) := failed
  have inside : 0 < c.code.size := Array.size_pos_iff.mpr ne
  obtain ⟨o, i, last, mem, blamed⟩ := runs.exists_lastRead inside
  have place := blamed.place
  have opcode : offset = o ↔ i.width = 1 := by omega
  refine ⟨ms, o, i, by rw [same]; exact runs, last, mem, blamed.instruction, place,
    opcode.trans Instruction.width_eq_one_iff, ⟨fun listed => ?_, fun here => here ▸ mem⟩,
    fun reason => opcode.mpr (blamed.operation reason), fun missing => ?_, fun past => ?_⟩
  · rw [opcode, Instruction.width_eq_one_iff]
    rintro index rfl
    have second : offset = o + 1 := by
      rw [Instruction.width] at place
      omega
    exact succ_notMem_offsets mem blamed.instruction (second ▸ listed)
  · obtain ⟨index, rfl⟩ := blamed.constant missing
    rw [Instruction.width] at place
    omega
  · have := blamed.ending past
    omega

/-- A byte that is no opcode, behind a constant: the corruption is placed at that byte. -/
theorem corruption_at_last_byte_unknown :
    ((mk #[0x00, 0x00, 0xEE] #[1, 1, 1] #[.nil]).run .fresh false).result = .error (.corrupted 2 .unknownOpcode) ∧
      2 ∈ (mk #[0x00, 0x00, 0xEE] #[1, 1, 1] #[.nil]).offsets := by
  have failed : ((mk #[0x00, 0x00, 0xEE] #[1, 1, 1] #[.nil]).run .fresh false).result =
      .error (.corrupted 2 .unknownOpcode) := rfl
  obtain ⟨ms, o, i, -, -, mem, -, -, -, -, opcode, -⟩ :=
    corruption_at_last_byte _ .fresh false (by simp) failed
  exact ⟨failed, opcode (.inl rfl) ▸ mem⟩

/-- A constant that does not exist is reported inside its instruction, where no listing has a row. -/
theorem corruption_beside_instruction :
    ((mk #[0x00, 0x07, 0x0D] #[1, 1, 1] #[]).run .fresh false).result = .error (.corrupted 1 .noSuchConstant) ∧
      1 ∉ (mk #[0x00, 0x07, 0x0D] #[1, 1, 1] #[]).offsets := by
  have first : 0 ∈ (mk #[0x00, 0x07, 0x0D] #[1, 1, 1] #[]).offsets := by
    rw [offsets, offsetsFrom_of_lt (by decide)]
    exact List.mem_cons_self
  have constant : (mk #[0x00, 0x07, 0x0D] #[1, 1, 1] #[]).instruction? 0 = some (.constant 7) := rfl
  exact ⟨rfl, succ_notMem_offsets first constant⟩

end Chunk

end Abacus
