import Abacus.Proofs.Machine.Evaluation
import Abacus.Proofs.Machine.Slots

/-!
# The list machine

A machine that keeps its stack as a list of at most 256 values, the top one first, and takes the code from the front,
one instruction at a time.  It recurs on the bytes that are left.

* `ListMachine.agrees_execute`: the square for one instruction;
* `ListMachine.answers_of_runs`: the runs of the two machines agree;
* `Chunk.run_refines`: any bytes, any lines and any constants run safely, and to the answer of the list machine.
-/

namespace Abacus

namespace ListMachine

/-! ## Instructions on lists -/

/-- Puts a value on top of at most 255 others. -/
def push (v : Value) (vs : List Value) : Except Fault (Option Value × List Value) :=
  if vs.length < stackLimit then .ok (none, v :: vs) else .error (.runtime .stackOverflow)

/-- Puts what an operator makes of its operands in their place. -/
def replace (vs : List Value) : Except RuntimeFault Value → Except Fault (Option Value × List Value)
  | .ok v => .ok (none, v :: vs)
  | .error cause => .error (.runtime cause)

/-- An operation on the top value. -/
def unary (f : Value → Except RuntimeFault Value) : List Value → Except Fault (Option Value × List Value)
  | v :: vs => replace vs (f v)
  | [] => .error (.corrupted .stackUnderflow)

/-- An operation on the two upper values, of which the top one is the right operand. -/
def binary (f : Value → Value → Except RuntimeFault Value) : List Value → Except Fault (Option Value × List Value)
  | b :: a :: vs => replace vs (f a b)
  | _ => .error (.corrupted .stackUnderflow)

/-- Ends the run with the top value. -/
def finish : List Value → Except Fault (Option Value × List Value)
  | v :: vs => .ok (some v, vs)
  | [] => .error (.corrupted .stackUnderflow)

/-- Executes an operation: the value that ends the run, if one does, and the values that are left. -/
def perform : Operation → List Value → Except Fault (Option Value × List Value)
  | .nil => push .nil
  | .true => push (.bool true)
  | .false => push (.bool false)
  | .equal => binary fun a b => .ok (.bool (a == b))
  | .greater => binary (Value.arith fun x y => .bool (x > y))
  | .less => binary (Value.arith fun x y => .bool (x < y))
  | .add => binary (Value.arith fun x y => .number (x + y))
  | .subtract => binary (Value.arith fun x y => .number (x - y))
  | .multiply => binary (Value.arith fun x y => .number (x * y))
  | .divide => binary (Value.arith fun x y => .number (x / y))
  | .not => unary fun v => .ok (.bool v.isFalsey)
  | .negate => unary UnaryOp.negate.apply
  | .return => finish

/-- Executes an instruction. -/
def execute (c : Chunk) : Instruction → List Value → Except Fault (Option Value × List Value)
  | .constant index, vs =>
    match c.constants[index.toNat]? with
    | some v => push v vs
    | none => .error (.corrupted .noSuchConstant)
  | .truncated, _ => .error (.corrupted .pastEnd)
  | .plain o, vs => perform o vs
  | .unknown _, _ => .error (.corrupted .unknownOpcode)

/-! ## Runs on lists -/

/-- A fault, placed at the byte that was read last: by its line, 0 if it has none, or by its offset. -/
def place (c : Chunk) (last : Nat) : Fault → RunError
  | .runtime cause => .runtime cause (c.lines[last]?.getD 0)
  | .corrupted cause => .corrupted last cause

/-- Goes on after an instruction. -/
def follow (c : Chunk) (last : Nat) (rest : List Value → Except RunError (Value × List Value)) :
    Except Fault (Option Value × List Value) → Except RunError (Value × List Value)
  | .ok (none, vs) => rest vs
  | .ok (some v, vs) => .ok (v, vs)
  | .error fault => .error (place c last fault)

/-- Executes the bytes that stand at an offset: the value that ends the run with what is left below it, or the fault
that does. -/
def run (c : Chunk) : Nat → List UInt8 → List Value → Except RunError (Value × List Value)
  | ip, [], _ => .error (place c (ip - 1) (.corrupted .pastEnd))
  | ip, byte :: code, vs =>
    match Opcode.ofByte? byte with
    | some .constant =>
      match code with
      | index :: code => follow c (ip + 1) (run c (ip + 2) code) (execute c (.constant index) vs)
      | [] => .error (place c ip (.corrupted .pastEnd))
    | some (.plain o) => follow c ip (run c (ip + 1) code) (execute c (.plain o) vs)
    | none => .error (place c ip (.corrupted .unknownOpcode))

/-- The list machine takes the instruction in front of the code. -/
theorem run_of_decode? {c : Chunk} {code : List UInt8} {i : Instruction} (h : Instruction.decode? code = some i)
    (ip : Nat) (vs : List Value) :
    run c ip code vs = follow c (ip + i.width - 1) (run c (ip + i.width) (code.drop i.width)) (execute c i vs) := by
  cases code with
  | nil => cases h
  | cons byte rest =>
    simp only [Instruction.decode?] at h
    unfold run
    cases hb : Opcode.ofByte? byte with
    | none =>
      rw [hb] at h
      cases h
      rfl
    | some op =>
      rw [hb] at h
      cases op with
      | plain o =>
        cases h
        rfl
      | constant => cases rest <;> cases h <;> rfl

/-! ## One instruction -/

/-- What an instruction does to a stack is what it does to the list of its values. -/
def Agrees : Effect → Except Fault (Option Value × List Value) → Prop
  | .continue t, .ok (none, vs) => t.toList = vs.reverse
  | .finish v t, .ok (some w, vs) => v = w ∧ t.toList = vs.reverse
  | .fault f, .error g => f = g
  | _, _ => False

variable {s : Stack} {vs : List Value}

theorem agrees_replace {e : Effect} {r : Except RuntimeFault Value} (h : Stack.Yields e vs.reverse r) :
    Agrees e (replace vs r) := by
  cases r with
  | ok v =>
    obtain ⟨t, rfl, ht⟩ := h
    rw [replace, Agrees, ht, List.reverse_cons]
  | error cause =>
    obtain rfl : e = .fault (.runtime cause) := h
    rfl

theorem popping_of_nil (h : s.toList = []) (k : Value → Stack → Effect) :
    s.popping k = .fault (.corrupted .stackUnderflow) := by
  rw [Stack.popping, Stack.pop?_eq_none_iff.mpr h]

/-- With fewer than two values the second one cannot be taken off. -/
theorem popping_two_of_short (h : s.toList = [] ∨ ∃ v, s.toList = [v]) (k : Value → Value → Stack → Effect) :
    (s.popping fun right s => s.popping fun left s => k left right s) = .fault (.corrupted .stackUnderflow) := by
  rcases h with none | ⟨v, one⟩
  · exact popping_of_nil none _
  · have one : s.toList = [] ++ [v] := one
    obtain ⟨t, rest, -, ht⟩ := Stack.popping_of_toList one
    rw [ht]
    exact popping_of_nil rest _

variable (h : s.toList = vs.reverse)
include h

theorem agrees_push (v : Value) : Agrees (s.push v) (push v vs) := by
  have length : s.toList.length = vs.length := by rw [h, List.length_reverse]
  unfold push
  split
  · next room =>
    obtain ⟨t, ht, top⟩ := Stack.push_of_lt (length ▸ room) v
    rw [ht, Agrees, top, h, List.reverse_cons]
  · next full =>
    have le := s.length_toList_le
    rw [Stack.push_of_eq (by omega) v]
    rfl

theorem agrees_unary {e : Effect} {f : Value → Except RuntimeFault Value}
    (underflow : s.toList = [] → e = .fault (.corrupted .stackUnderflow))
    (yields : ∀ v below, s.toList = below ++ [v] → Stack.Yields e below (f v)) : Agrees e (unary f vs) := by
  cases vs with
  | nil =>
    rw [underflow h]
    rfl
  | cons v vs => exact agrees_replace (yields v vs.reverse (by rw [h, List.reverse_cons]))

theorem agrees_binary {e : Effect} {f : Value → Value → Except RuntimeFault Value}
    (underflow : (s.toList = [] ∨ ∃ v, s.toList = [v]) → e = .fault (.corrupted .stackUnderflow))
    (yields : ∀ a b below, s.toList = below ++ [a, b] → Stack.Yields e below (f a b)) : Agrees e (binary f vs) := by
  match vs, h with
  | [], h =>
    rw [underflow (.inl h)]
    rfl
  | [v], h =>
    rw [underflow (.inr ⟨v, h⟩)]
    rfl
  | b :: a :: vs, h => exact agrees_replace (yields a b vs.reverse (by simp [h]))

theorem agrees_combine (f : Float → Float → Value) : Agrees (s.combine f) (binary (Value.arith f) vs) :=
  agrees_binary h (fun short => popping_two_of_short short _) fun _ _ _ two => Stack.yields_combine two f

theorem agrees_finish : Agrees (s.popping .finish) (finish vs) := by
  cases vs with
  | nil =>
    rw [popping_of_nil h]
    rfl
  | cons v vs =>
    rw [List.reverse_cons] at h
    obtain ⟨t, rest, -, ht⟩ := Stack.popping_of_toList h
    rw [ht]
    exact ⟨rfl, rest⟩

theorem agrees_perform (o : Operation) : Agrees (s.perform o) (perform o vs) := by
  cases o with
  | nil | true | false => exact agrees_push h _
  | equal => exact agrees_binary h (fun short => popping_two_of_short short _) fun _ _ _ => Stack.yields_equal
  | not => exact agrees_unary h (fun none => popping_of_nil none _) fun _ _ => Stack.yields_not
  | negate => exact agrees_unary h (fun none => popping_of_nil none _) fun _ _ => Stack.yields_unary .negate
  | «return» => exact agrees_finish h
  | _ => exact agrees_combine h _

/-- **One instruction does the same to a stack and to the list of its values.** -/
theorem agrees_execute (c : Chunk) (i : Instruction) : Agrees (s.execute c i) (execute c i vs) := by
  cases i with
  | constant index =>
    simp only [Stack.execute, execute, Chunk.constant?]
    cases c.constants[index.toNat]? with
    | none => rfl
    | some v => exact agrees_push h v
  | plain o => exact agrees_perform h o
  | _ => rfl

/-! ## Whole runs -/

/-- What the list machine gives is how a run ends: after a value the stack holds what was left below it, after a fault
nothing. -/
def Answers : Except RunError (Value × List Value) → Except RunError Value → Stack → Prop
  | .ok (v, vs), r, s => r = .ok v ∧ s.toList = vs.reverse
  | .error e, r, s => r = .error e ∧ s.toList = []

omit h in
/-- The answer of the list machine leaves nothing open. -/
theorem Answers.unique {a : Except RunError (Value × List Value)} {r r' : Except RunError Value} {s' : Stack}
    (ha : Answers a r s) (ha' : Answers a r' s') : r = r' ∧ s.toList = s'.toList := by
  cases a <;> exact ⟨ha.1.trans ha'.1.symm, ha.2.trans ha'.2.symm⟩

omit h in
theorem answers_of_runs {c : Chunk} {m : Machine} {ms : List Machine} {r : Except RunError Value}
    (runs : Machine.Runs c m ms r s) (h : m.stack.toList = vs.reverse) :
    Answers (run c m.ip (c.code.toList.drop m.ip) vs) r s := by
  induction runs generalizing vs with
  | done hstep =>
    obtain ⟨i, hi, he⟩ := Machine.execute_of_done hstep
    have agrees := agrees_execute h c i
    rw [Chunk.instruction?_eq_decode?] at hi
    rw [run_of_decode? hi]
    rw [he] at agrees
    match execute c i vs, agrees with
    | .ok (some w, ws), ⟨same, left⟩ => exact ⟨congrArg _ same, left⟩
  | @failed m f ip hstep =>
    rcases Machine.execute_of_failed hstep with ⟨past, rfl, rfl⟩ | ⟨i, hi, he, rfl⟩
    · rw [List.drop_eq_nil_of_le (by simpa using past)]
      exact ⟨rfl, Stack.toList_clear _⟩
    · have agrees := agrees_execute h c i
      rw [Chunk.instruction?_eq_decode?] at hi
      rw [run_of_decode? hi]
      rw [he] at agrees
      match execute c i vs, agrees with
      | .error g, same =>
        obtain rfl : f = g := same
        cases f <;> exact ⟨rfl, Stack.toList_clear _⟩
  | next hstep rest ih =>
    obtain ⟨i, hi, he, same⟩ := Machine.execute_of_next hstep
    have agrees := agrees_execute h c i
    rw [Chunk.instruction?_eq_decode?] at hi
    rw [run_of_decode? hi, List.drop_drop, ← same]
    rw [he] at agrees
    match execute c i vs, agrees with
    | .ok (none, ws), after => exact ih after

end ListMachine

/-- The answer of the list machine to a chunk. -/
def Chunk.listRun (c : Chunk) : Except RunError (Value × List Value) :=
  ListMachine.run c 0 c.code.toList []

/-- A run of a chunk gives the answer of the list machine, whatever was on the stack and whether or not looks are
taken. -/
theorem Chunk.run_answers (c : Chunk) (s : Stack) (traced : Bool) :
    ListMachine.Answers c.listRun (c.run s traced).result (c.run s traced).stack := by
  obtain ⟨ms, r, t, runs, same⟩ := c.run_eq s
  rw [same]
  exact ListMachine.answers_of_runs runs (Stack.toList_clear s)

/-- **Any chunk runs safely on any stack**: through at most one machine more than the code has bytes, and to the answer
of the list machine.  At each of these machines the instruction to come does to the bare slots what it does to the
stack, without leaving them; a corruption is placed inside the code and a fault of the program on the line of the byte
that was read last. -/
theorem Chunk.run_refines (c : Chunk) (s : Stack) (traced : Bool) :
    ∃ ms, Machine.Runs c ⟨0, s.clear⟩ ms (c.run s traced).result (c.run s traced).stack ∧
      (c.run s true).fetches.size = ms.length ∧ ms.length ≤ c.code.size + 1 ∧
      (∀ m ∈ ms, m.stack.bare.slots.size = 256 ∧ m.stack.bare.top ≤ 256 ∧
        ∀ i, c.instruction? m.ip = some i →
          m.stack.bare.execute c i = (m.stack.execute c i).bare ∧ m.stack.bare.execute c i ≠ .error .outOfSlots) ∧
      ListMachine.Answers c.listRun (c.run s traced).result (c.run s traced).stack ∧
      (∀ offset cause, (c.run s traced).result = .error (.corrupted offset cause) →
        offset = 0 ∨ offset < c.code.size) ∧
      ∀ cause line, (c.run s traced).result = .error (.runtime cause line) →
        ∃ m ∈ ms, ∃ ip, m.step c = .failed (.runtime cause) ip ∧ line = c.lines[ip - 1]?.getD 0 := by
  obtain ⟨ms, r, t, runs, same⟩ := c.run_eq s
  have answers := c.run_answers s traced
  rw [same] at answers
  rw [same, same]
  refine ⟨ms, runs, by simp, runs.length_le, fun m _ => ?_, answers, ?_, ?_⟩
  · refine ⟨m.stack.slots.size_toArray, m.stack.height_le, fun i _ => ⟨Stack.bare_execute c m.stack i, ?_⟩⟩
    rw [Stack.bare_execute]
    exact Effect.bare_ne_outOfSlots _
  · rintro offset cause rfl
    obtain ⟨m, -, f, ip, -, located, le⟩ := runs.exists_fault (Nat.zero_le _)
    cases f <;> cases located
    omega
  · rintro cause line rfl
    obtain ⟨m, mem, f, ip, hstep, located, -⟩ := runs.exists_fault (Nat.zero_le _)
    cases f <;> cases located
    exact ⟨m, mem, ip, hstep, rfl⟩

end Abacus
