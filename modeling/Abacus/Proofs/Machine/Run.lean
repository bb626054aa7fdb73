import Abacus.Machine
import Abacus.Proofs.Chunk.Offsets

/-!
# Runs of the machine

A run as the machines that it goes through, one before each instruction, without the bound that `Machine.run` counts
down.

* `Machine.exists_runs`: every machine has a run, of at most one machine more than there are bytes left;
* `Machine.Runs.run_eq`: the bounded run is that run, whether or not looks are taken;
* `Machine.Runs.forall_mem` and `Machine.Runs.exists_last`: what every step keeps holds all along, and how a run ends.
-/

namespace Abacus

/-- What an instruction does to a stack. -/
def Stack.execute (c : Chunk) (s : Stack) : Instruction → Effect
  | .constant index =>
    match c.constant? index with
    | some v => s.push v
    | none => .fault (.corrupted .noSuchConstant)
  | .truncated => .fault (.corrupted .pastEnd)
  | .plain o => s.perform o
  | .unknown _ => .fault (.corrupted .unknownOpcode)

namespace Machine

variable {c : Chunk} {m m' : Machine} {ms : List Machine} {r : Except RunError Value} {s : Stack}

/-! ## Single instructions -/

theorem step_of_size_le (h : c.code.size ≤ m.ip) : m.step c = .failed (.corrupted .pastEnd) m.ip := by
  simp only [step, Chunk.instruction?_eq_none_iff.mpr h]

theorem step_of_instruction? {i : Instruction} (h : c.instruction? m.ip = some i) :
    m.step c = (m.stack.execute c i).atOffset (m.ip + i.width) := by
  simp only [step, h]
  cases i with
  | constant index =>
    simp only [Stack.execute]
    cases c.constant? index <;> rfl
  | _ => rfl

/-- A step that does not fail at the end of the code executes an instruction. -/
theorem step_cases (c : Chunk) (m : Machine) :
    c.code.size ≤ m.ip ∧ m.step c = .failed (.corrupted .pastEnd) m.ip ∨
      ∃ i, c.instruction? m.ip = some i ∧ m.step c = (m.stack.execute c i).atOffset (m.ip + i.width) := by
  rcases Nat.lt_or_ge m.ip c.code.size with inside | past
  · obtain ⟨i, hi⟩ := Chunk.exists_instruction? inside
    exact .inr ⟨i, hi, step_of_instruction? hi⟩
  · exact .inl ⟨past, step_of_size_le past⟩

/-- A step leads to the next instruction, with the stack that the instruction leaves. -/
theorem execute_of_next (h : m.step c = .next m') :
    ∃ i, c.instruction? m.ip = some i ∧ m.stack.execute c i = .continue m'.stack ∧ m'.ip = m.ip + i.width := by
  rcases step_cases c m with ⟨-, hstep⟩ | ⟨i, hi, hstep⟩
  · rw [hstep] at h
    cases h
  · rw [hstep] at h
    refine ⟨i, hi, ?_⟩
    cases he : m.stack.execute c i <;> rw [he] at h <;> cases h
    exact ⟨rfl, rfl⟩

theorem execute_of_done {v : Value} (h : m.step c = .done v s) :
    ∃ i, c.instruction? m.ip = some i ∧ m.stack.execute c i = .finish v s := by
  rcases step_cases c m with ⟨-, hstep⟩ | ⟨i, hi, hstep⟩
  · rw [hstep] at h
    cases h
  · rw [hstep] at h
    refine ⟨i, hi, ?_⟩
    cases he : m.stack.execute c i <;> rw [he] at h <;> cases h
    rfl

/-- A fault arises at the end of the code, where nothing is read, or after an instruction has been read. -/
theorem execute_of_failed {f : Fault} {ip : Nat} (h : m.step c = .failed f ip) :
    c.code.size ≤ m.ip ∧ f = .corrupted .pastEnd ∧ ip = m.ip ∨
      ∃ i, c.instruction? m.ip = some i ∧ m.stack.execute c i = .fault f ∧ ip = m.ip + i.width := by
  rcases step_cases c m with ⟨past, hstep⟩ | ⟨i, hi, hstep⟩
  · rw [hstep] at h
    cases h
    exact .inl ⟨past, rfl, rfl⟩
  · rw [hstep] at h
    refine .inr ⟨i, hi, ?_⟩
    cases he : m.stack.execute c i <;> rw [he] at h <;> cases h
    exact ⟨rfl, rfl⟩

/-- Instructions move forward, to the next one. -/
theorem lt_of_step (h : m.step c = .next m') :
    m.ip < c.code.size ∧ m'.ip = c.nextOffset m.ip ∧ m.ip < m'.ip := by
  obtain ⟨i, hi, -, same⟩ := execute_of_next h
  rw [← Chunk.nextOffset_of_instruction? hi] at same
  exact ⟨Chunk.lt_size_of_instruction? hi, same, same ▸ c.lt_nextOffset m.ip⟩

/-! ## Runs -/

/-- Running from `m` goes through the machines `ms`, one before each instruction, and ends with a result and a stack. -/
inductive Runs (c : Chunk) : Machine → List Machine → Except RunError Value → Stack → Prop
  | done {m : Machine} {v : Value} {s : Stack} (h : m.step c = .done v s) : Runs c m [m] (.ok v) s
  | failed {m : Machine} {f : Fault} {ip : Nat} (h : m.step c = .failed f ip) :
    Runs c m [m] (.error (f.locate c ip)) m.stack.clear
  | next {m m' : Machine} {ms : List Machine} {r : Except RunError Value} {s : Stack} (h : m.step c = .next m')
    (rest : Runs c m' ms r s) : Runs c m (m :: ms) r s

/-- **Every run ends.** -/
theorem exists_runs (c : Chunk) (m : Machine) : ∃ ms r s, Runs c m ms r s := by
  cases h : m.step c with
  | done v s => exact ⟨_, _, _, .done h⟩
  | failed f ip => exact ⟨_, _, _, .failed h⟩
  | next m' =>
    obtain ⟨inside, -, forward⟩ := lt_of_step h
    obtain ⟨ms, r, s, rest⟩ := exists_runs c m'
    exact ⟨_, _, _, .next h rest⟩
termination_by c.code.size - m.ip

/-- What is seen of a machine that is about to read an instruction. -/
def fetch (m : Machine) : Fetch :=
  ⟨m.ip, m.stack.toList⟩

theorem look_true (m : Machine) (seen : Array Fetch) : m.look true seen = seen.push m.fetch :=
  rfl

namespace Runs

theorem length_le (h : Runs c m ms r s) : ms.length ≤ c.code.size - m.ip + 1 := by
  induction h with
  | done h => exact Nat.le_add_left ..
  | failed h => exact Nat.le_add_left ..
  | next h rest ih =>
    obtain ⟨inside, -, forward⟩ := lt_of_step h
    rw [List.length_cons]
    omega

/-- **The bounded run is the run**: a bound of the bytes that are left takes away nothing, and looks change nothing. -/
theorem run_eq (h : Runs c m ms r s) (traced : Bool) {bound : Nat} (enough : c.code.size - m.ip ≤ bound)
    (seen : Array Fetch) :
    run c traced bound m seen = ⟨r, s, ms.foldl (fun seen m => m.look traced seen) seen⟩ := by
  induction h generalizing bound seen with
  | done h =>
    obtain ⟨i, hi, -⟩ := execute_of_done h
    have inside := Chunk.lt_size_of_instruction? hi
    obtain ⟨bound, rfl⟩ := Nat.exists_eq_add_one_of_ne_zero (n := bound) (by omega)
    simp only [run, h]
    rfl
  | @failed m f ip h =>
    cases bound with
    | zero =>
      -- nothing is left to read, and the step says so as well
      have past : c.code.size ≤ m.ip := by omega
      rw [step_of_size_le past] at h
      cases h
      rfl
    | succ bound =>
      simp only [run, h]
      rfl
  | next h rest ih =>
    obtain ⟨inside, -, forward⟩ := lt_of_step h
    obtain ⟨bound, rfl⟩ := Nat.exists_eq_add_one_of_ne_zero (n := bound) (by omega)
    simp only [run, h]
    exact ih (by omega) _

/-- What the first machine has and each instruction keeps, all machines of a run have. -/
theorem forall_mem {P : Machine → Prop} (h : Runs c m ms r s) (first : P m)
    (keeps : ∀ m m', P m → m.step c = .next m' → P m') : ∀ m' ∈ ms, P m' := by
  induction h with
  | done h => simpa using first
  | failed h => simpa using first
  | next h rest ih => exact List.forall_mem_cons.mpr ⟨first, ih (keeps _ _ first h)⟩

/-- A run ends with a machine that is done or fails. -/
theorem exists_last (h : Runs c m ms r s) : ∃ m' ∈ ms,
    (∃ v, m'.step c = .done v s ∧ r = .ok v) ∨
      ∃ f ip, m'.step c = .failed f ip ∧ r = .error (f.locate c ip) ∧ s = m'.stack.clear := by
  induction h with
  | done h => exact ⟨_, List.mem_singleton_self _, .inl ⟨_, h, rfl⟩⟩
  | failed h => exact ⟨_, List.mem_singleton_self _, .inr ⟨_, _, h, rfl, rfl⟩⟩
  | next h rest ih =>
    obtain ⟨m', mem, ends⟩ := ih
    exact ⟨m', List.mem_cons_of_mem _ mem, ends⟩

/-- A run never leaves the code. -/
theorem ip_le (h : Runs c m ms r s) (first : m.ip ≤ c.code.size) : ∀ m' ∈ ms, m'.ip ≤ c.code.size := by
  refine h.forall_mem first fun m m' _ hstep => ?_
  obtain ⟨inside, same, -⟩ := lt_of_step hstep
  rw [same]
  exact Chunk.nextOffset_le inside

/-- A run that ends in an error has met a fault, after bytes of the code only. -/
theorem exists_fault {e : RunError} (h : Runs c m ms (.error e) s) (first : m.ip ≤ c.code.size) :
    ∃ m' ∈ ms, ∃ f ip, m'.step c = .failed f ip ∧ e = f.locate c ip ∧ ip ≤ c.code.size := by
  obtain ⟨m', mem, ⟨v, -, same⟩ | ⟨f, ip, hstep, same, -⟩⟩ := h.exists_last
  · cases same
  · cases same
    refine ⟨m', mem, f, ip, hstep, rfl, ?_⟩
    rcases execute_of_failed hstep with ⟨-, -, rfl⟩ | ⟨i, hi, -, rfl⟩
    · exact h.ip_le first m' mem
    · exact Chunk.add_width_le hi

end Runs

theorem foldl_look (traced : Bool) (ms : List Machine) (seen : Array Fetch) :
    ms.foldl (fun seen m => m.look traced seen) seen =
      if traced then seen ++ (ms.map fetch).toArray else seen := by
  cases traced with
  | false => induction ms with
    | nil => rfl
    | cons m ms ih => exact ih
  | true =>
    simp only [look_true, if_true]
    induction ms generalizing seen with
    | nil => simp
    | cons m ms ih =>
      rw [List.foldl_cons, ih]
      simp

end Machine

/-- **The run of a chunk** goes through some machines, the first with an empty stack; it has the same result and leaves
the same stack with and without looks, and the looks are at those machines. -/
theorem Chunk.run_eq (c : Chunk) (s : Stack) : ∃ ms r t, Machine.Runs c ⟨0, s.clear⟩ ms r t ∧
    ∀ traced, c.run s traced = ⟨r, t, if traced then (ms.map Machine.fetch).toArray else #[]⟩ := by
  obtain ⟨ms, r, t, runs⟩ := Machine.exists_runs c ⟨0, s.clear⟩
  refine ⟨ms, r, t, runs, fun traced => ?_⟩
  rw [run, runs.run_eq traced (Nat.sub_le ..), Machine.foldl_look]
  simp

end Abacus
