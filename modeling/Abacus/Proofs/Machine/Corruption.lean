import Abacus.Proofs.Chunk.WellFormed
import Abacus.Proofs.Machine.Run

/-!
# Runs of well-formed chunks

In a well-formed chunk the machine always stands in front of a whole instruction, since every instruction but the last
one is followed by another, and the last one ends the run.  So the only corruption that it can meet is a stack that holds
too few operands (`Chunk.WellFormed.cause_eq_stackUnderflow`).
-/

namespace Abacus

/-! ## Corruptions of operations -/

/-- The only corruption that an effect may be is a stack underflow. -/
def Effect.OnlyUnderflows (e : Effect) : Prop :=
  ∀ cause, e = .fault (.corrupted cause) → cause = .stackUnderflow

namespace Stack

theorem onlyUnderflows_push (s : Stack) (v : Value) : (s.push v).OnlyUnderflows := by
  intro cause h
  unfold push at h
  split at h <;> cases h

theorem onlyUnderflows_popping (s : Stack) {k : Value → Stack → Effect} (hk : ∀ v t, (k v t).OnlyUnderflows) :
    (s.popping k).OnlyUnderflows := by
  intro cause h
  unfold popping at h
  split at h
  · exact hk _ _ cause h
  · cases h
    rfl

theorem onlyUnderflows_combine (s : Stack) (f : Float → Float → Value) : (s.combine f).OnlyUnderflows := by
  refine s.onlyUnderflows_popping fun right t => t.onlyUnderflows_popping fun left u => ?_
  split
  · exact u.onlyUnderflows_push _
  · exact nofun

theorem onlyUnderflows_perform (s : Stack) (o : Operation) : (s.perform o).OnlyUnderflows := by
  cases o with
  | nil | true | false => exact s.onlyUnderflows_push _
  | equal => exact s.onlyUnderflows_popping fun _ t => t.onlyUnderflows_popping fun _ u => u.onlyUnderflows_push _
  | not => exact s.onlyUnderflows_popping fun _ t => t.onlyUnderflows_push _
  | negate =>
    refine s.onlyUnderflows_popping fun v t => ?_
    split
    · exact t.onlyUnderflows_push _
    · exact nofun
  | «return» => exact s.onlyUnderflows_popping fun _ _ => nofun
  | _ => exact s.onlyUnderflows_combine _

theorem onlyUnderflows_execute {c : Chunk} {i : Instruction} (whole : i.IsWhole c.constants.size) (s : Stack) :
    (s.execute c i).OnlyUnderflows := by
  cases i with
  | constant index =>
    have found : c.constant? index = some c.constants[index.toNat] := Array.getElem?_eq_getElem whole
    simp only [execute, found]
    exact s.onlyUnderflows_push _
  | plain o => exact s.onlyUnderflows_perform o
  | truncated => exact whole.elim
  | unknown byte => exact whole.elim

/-- The return operation does not go on. -/
theorem perform_return_ne_continue (s t : Stack) : s.perform .return ≠ .continue t := by
  intro h
  simp only [perform, popping] at h
  split at h <;> cases h

end Stack

/-! ## Where the machine stands -/

namespace Machine

open Instruction (assemble)

/-- A machine in front of whole instructions, of which the last one is the return operation. -/
def InFrontOf (c : Chunk) (m : Machine) (is : List (Instruction × Line)) : Prop :=
  c.code.toList.drop m.ip = (assemble is).map Prod.fst ∧ (∀ p ∈ is, p.1.IsWhole c.constants.size) ∧
    ∃ p ∈ is.getLast?, p.1 = .plain .return

namespace InFrontOf

variable {c : Chunk} {m m' : Machine} {is : List (Instruction × Line)}

/-- The instruction that is executed next is the one in front. -/
theorem head (h : InFrontOf c m is) : ∃ p rest, is = p :: rest ∧ c.instruction? m.ip = some p.1 ∧
    p.1.IsWhole c.constants.size ∧ c.code.toList.drop (m.ip + p.1.width) = (assemble rest).map Prod.fst := by
  obtain ⟨code, whole, last, hlast, -⟩ := h
  cases is with
  | nil => cases hlast
  | cons p rest =>
    have first := whole p List.mem_cons_self
    rw [Instruction.map_fst_assemble_cons] at code
    refine ⟨p, rest, rfl, ?_, first, ?_⟩
    · rw [Chunk.instruction?_eq_decode?, code, Instruction.decode?_bytes first]
    · rw [← List.drop_drop, code, ← Instruction.length_bytes, List.drop_left]

/-- Only the return operation is not followed by another instruction, and it does not lead on. -/
theorem step (h : InFrontOf c m is) (hstep : m.step c = .next m') : ∃ rest, InFrontOf c m' rest := by
  obtain ⟨p, rest, rfl, hp, -, code⟩ := h.head
  obtain ⟨-, whole, last, hlast, isReturn⟩ := h
  obtain ⟨i, hi, he, same⟩ := execute_of_next hstep
  rw [hp] at hi
  obtain rfl := Option.some.inj hi
  cases rest with
  | nil =>
    -- the instruction in front is the last one, so the run ends with it
    obtain rfl : p = last := by simpa using hlast
    rw [isReturn] at he
    exact absurd he (Stack.perform_return_ne_continue _ _)
  | cons q rest =>
    refine ⟨q :: rest, same ▸ code, fun p hp => whole p (List.mem_cons_of_mem _ hp), last, ?_, isReturn⟩
    rw [List.getLast?_cons_cons] at hlast
    exact hlast

theorem cause_eq_stackUnderflow (h : InFrontOf c m is) {cause : Corruption} {ip : Nat}
    (hstep : m.step c = .failed (.corrupted cause) ip) : cause = .stackUnderflow := by
  obtain ⟨p, rest, -, hp, whole, -⟩ := h.head
  rcases execute_of_failed hstep with ⟨past, -, -⟩ | ⟨i, hi, he, -⟩
  · have inside := Chunk.lt_size_of_instruction? hp
    omega
  · rw [hp] at hi
    obtain rfl := Option.some.inj hi
    exact Stack.onlyUnderflows_execute whole _ cause he

end InFrontOf

end Machine

/-- **A well-formed chunk with code can only underflow the stack**: its run never meets a byte that is no opcode, an
operand without a constant or the end of the code. -/
theorem Chunk.WellFormed.cause_eq_stackUnderflow {c : Chunk} (h : c.WellFormed) (ne : c.code ≠ #[]) {s : Stack}
    {traced : Bool} {offset : Nat} {cause : Corruption}
    (failed : (c.run s traced).result = .error (.corrupted offset cause)) : cause = .stackUnderflow := by
  obtain ⟨is, consists, ending⟩ := h
  have some : is ≠ [] := by
    rintro rfl
    exact ne (Array.toList_eq_nil_iff.mp consists.code)
  obtain ⟨ms, r, t, runs, same⟩ := c.run_eq s
  rw [same] at failed
  obtain rfl : r = .error (.corrupted offset cause) := failed
  have start : Machine.InFrontOf c ⟨0, s.clear⟩ is :=
    ⟨consists.code, consists.whole, is.getLast some, List.getLast?_eq_some_getLast some,
      ending _ (List.getLast?_eq_some_getLast some)⟩
  have all : ∀ m ∈ ms, ∃ is, Machine.InFrontOf c m is :=
    runs.forall_mem ⟨is, start⟩ fun m m' h hstep => h.elim fun _ h => h.step hstep
  obtain ⟨m, mem, f, ip, hstep, located, -⟩ := runs.exists_fault (Nat.zero_le _)
  obtain ⟨js, inFront⟩ := all m mem
  cases f with
  | runtime cause => cases located
  | corrupted cause =>
    cases located
    exact inFront.cause_eq_stackUnderflow hstep

end Abacus
