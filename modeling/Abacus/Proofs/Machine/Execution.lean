import Abacus.Interpreter
import Abacus.Proofs.Compiler.Outcome
import Abacus.Proofs.Machine.Evaluation
import Abacus.Proofs.Machine.Run
import Mathlib.Logic.Relation

/-!
# Running the code of an expression

The machine runs the code of a tree, wherever it stands in a chunk, to the value of the tree on top of what was on the
stack before, or to the fault that evaluation meets.

* `Machine.computes_eval`: the simulation, for every tree, place in the code and stack;
* `Interpreter.interpret_evaluates`: interpreting a source gives what its tree evaluates to.
-/

namespace Abacus

/-! ## Code in a chunk -/

namespace Chunk

/-- Bytes with their lines that stand at an offset of a chunk. -/
def Holds (c : Chunk) (offset : Nat) (code : List (UInt8 × Line)) : Prop :=
  ∀ i byte line, code[i]? = some (byte, line) → c.code[offset + i]? = some byte ∧ c.lines[offset + i]? = some line

namespace Holds

variable {c : Chunk} {offset : Nat} {as bs : List (UInt8 × Line)}

theorem left (h : c.Holds offset (as ++ bs)) : c.Holds offset as := by
  intro i byte line hi
  have lt := (List.getElem?_eq_some_iff.mp hi).1
  refine h i byte line ?_
  rw [List.getElem?_append_left lt, hi]

theorem right (h : c.Holds offset (as ++ bs)) : c.Holds (offset + as.length) bs := by
  intro i byte line hi
  have := h (as.length + i) byte line
  rw [List.getElem?_append_right (Nat.le_add_right ..), Nat.add_sub_cancel_left] at this
  rw [Nat.add_assoc]
  exact this hi

theorem byte_head {byte : UInt8} {line : Line} (h : c.Holds offset ((byte, line) :: as)) :
    c.code[offset]? = some byte :=
  (h 0 byte line rfl).1

theorem lineAt_head {byte : UInt8} {line : Line} (h : c.Holds offset ((byte, line) :: as)) :
    c.lineAt offset = line := by
  have := (h 0 byte line rfl).2
  rw [Nat.add_zero] at this
  rw [lineAt, lineAt?, this, Option.getD_some]

theorem tail {b : UInt8 × Line} (h : c.Holds offset (b :: as)) : c.Holds (offset + 1) as := by
  have : c.Holds offset ([b] ++ as) := h
  exact this.right

end Holds

/-- The code and the constants of a tree that stand in a chunk, the constants from the index `k` on. -/
structure Contains (c : Chunk) (offset k : Nat) (e : Tree) : Prop where
  code : c.Holds offset (e.code k)
  constants : ∀ i v, e.constants[i]? = some v → c.constants[k + i]? = some v ∧ k + i < 256

namespace Contains

variable {c : Chunk} {offset k : Nat} {op : BinaryOp} {left right : Tree} {t : Token}

theorem binary_left (h : c.Contains offset k (.binary op left t right)) : c.Contains offset k left := by
  refine ⟨h.code.left.left, fun i v hi => h.constants i v ?_⟩
  have lt := (List.getElem?_eq_some_iff.mp hi).1
  rw [Tree.constants_binary, List.getElem?_append_left lt]
  exact hi

theorem binary_right (h : c.Contains offset k (.binary op left t right)) :
    c.Contains (offset + (left.code k).length) (k + left.numbers.length) right := by
  refine ⟨h.code.left.right, fun i v hi => ?_⟩
  rw [Nat.add_assoc, ← left.length_constants]
  refine h.constants (left.constants.length + i) v ?_
  rw [Tree.constants_binary, List.getElem?_append_right (Nat.le_add_right ..), Nat.add_sub_cancel_left]
  exact hi

theorem binary_operations (h : c.Contains offset k (.binary op left t right)) :
    c.Holds (offset + (left.code k).length + (right.code (k + left.numbers.length)).length)
      (op.operations.map fun o => (o.byte, right.last.line)) := by
  have := h.code.right
  rwa [List.length_append, ← Nat.add_assoc] at this

end Contains

end Chunk

namespace Machine

/-! ## Single instructions -/

variable {c : Chunk} {m : Machine}

theorem step_plain {o : Operation} (h : c.code[m.ip]? = some o.byte) :
    m.step c = (m.stack.perform o).atOffset (m.ip + 1) := by
  have decoded : Opcode.ofByte? o.byte = some (.plain o) := Opcode.ofByte?_byte (.plain o)
  have found : c.instruction? m.ip = some (.plain o) := by
    simp only [Chunk.instruction?, h, Option.map_some, decoded]
  exact step_of_instruction? found

theorem step_constant {index : UInt8} {v : Value} (h : c.code[m.ip]? = some Opcode.constant.byte)
    (hi : c.code[m.ip + 1]? = some index) (hv : c.constant? index = some v) :
    m.step c = (m.stack.push v).atOffset (m.ip + 2) := by
  have decoded : Opcode.ofByte? Opcode.constant.byte = some .constant := Opcode.ofByte?_byte .constant
  have found : c.instruction? m.ip = some (.constant index) := by
    simp only [Chunk.instruction?, h, Option.map_some, decoded, hi]
  rw [step_of_instruction? found, Stack.execute, hv]
  rfl

/-! ## Runs -/

/-- Some instructions lead from one machine to the other. -/
def Reaches (c : Chunk) : Machine → Machine → Prop :=
  Relation.ReflTransGen fun m m' => m.step c = .next m'

/-- Instructions that lead to a machine go before a run from there. -/
theorem Runs.of_reaches {m' : Machine} {ms : List Machine} {r : Except RunError Value} {s : Stack}
    (rest : Runs c m' ms r s) (h : Reaches c m m') : ∃ ms', Runs c m ms' r s := by
  induction h using Relation.ReflTransGen.head_induction_on with
  | refl => exact ⟨ms, rest⟩
  | head hstep _ ih =>
    obtain ⟨ms', runs⟩ := ih
    exact ⟨_, .next hstep runs⟩

/-- Running from a machine leads to a result: a value on top of `below` at the offset `ip`, or a fault. -/
def Computes (c : Chunk) (m : Machine) (below : List Value) (ip : Nat) : Except RunError Value → Prop
  | .ok v => ∃ s, s.toList = below ++ [v] ∧ Reaches c m ⟨ip, s⟩
  | .error error => ∃ m' fault ip', Reaches c m m' ∧ m'.ip < c.code.size ∧ m'.step c = .failed fault ip' ∧
      fault.locate c ip' = error

/-- One instruction computes what its operation yields, a fault being placed on the line of the last byte read. -/
theorem computes_of_yields {below : List Value} {ip : Nat} {effect : Effect} {line : Line}
    {r : Except RuntimeFault Value} (hstep : m.step c = effect.atOffset ip) (inside : m.ip < c.code.size)
    (hline : c.lineAt (ip - 1) = line) (h : Stack.Yields effect below r) :
    Computes c m below ip (onLine line r) := by
  cases r with
  | ok v =>
    obtain ⟨s, rfl, hs⟩ := h
    exact ⟨s, hs, .single hstep⟩
  | error fault =>
    obtain rfl : effect = .fault (.runtime fault) := h
    exact ⟨m, .runtime fault, ip, .refl, inside, hstep, by rw [Fault.locate, hline]⟩

/-- What is computed from a first result is computed from its beginning. -/
theorem Computes.bind {middle below : List Value} {ip ip' : Nat} {r : Except RunError Value}
    {k : Value → Except RunError Value} (h : Computes c m middle ip r)
    (further : ∀ v s, s.toList = middle ++ [v] → Computes c ⟨ip, s⟩ below ip' (k v)) :
    Computes c m below ip' (r >>= k) := by
  cases r with
  | error error => exact h
  | ok v =>
    obtain ⟨s, hs, reach⟩ := h
    have next := further v s hs
    show Computes c m below ip' (k v)
    cases hk : k v with
    | ok w =>
      rw [hk] at next
      obtain ⟨t, ht, reach'⟩ := next
      exact ⟨t, ht, reach.trans reach'⟩
    | error error =>
      rw [hk] at next
      obtain ⟨m', fault, at', reach', failed⟩ := next
      exact ⟨m', fault, at', reach.trans reach', failed⟩

/-! ## The simulation -/

theorem computes_operation {s : Stack} {ip : Nat} {below : List Value} {o : Operation} {line : Line}
    {code : List (UInt8 × Line)} {r : Except RuntimeFault Value} (holds : c.Holds ip ((o.byte, line) :: code))
    (h : Stack.Yields (s.perform o) below r) : Computes c ⟨ip, s⟩ below (ip + 1) (onLine line r) := by
  have here := holds.byte_head
  have inside := (Array.getElem?_eq_some_iff.mp here).1
  have hstep : step c ⟨ip, s⟩ = (s.perform o).atOffset (ip + 1) := step_plain here
  exact computes_of_yields hstep inside holds.lineAt_head h

/-- A value is put on top, unless the stack is full. -/
theorem yields_pushed (s : Stack) (v : Value) :
    Stack.Yields (s.push v) s.toList (if s.toList.length = stackLimit then .error .stackOverflow else .ok v) := by
  split
  · next full => exact Stack.push_of_eq full v
  · next room =>
    have le := s.length_toList_le
    exact Stack.push_of_lt (Nat.lt_of_le_of_ne le room) v

theorem computes_literal {l : Literal} {t : Token} {k : Nat} (h : c.Contains m.ip k (.literal l t)) :
    Computes c m m.stack.toList (m.ip + 1) (pushed m.stack.toList.length t.line l.value) := by
  have hpush : m.stack.perform l.operation = m.stack.push l.value := by
    cases l <;> rfl
  exact computes_operation h.code (hpush ▸ yields_pushed m.stack l.value)

theorem computes_number {t : Token} {k : Nat} (h : c.Contains m.ip k (.number t)) :
    Computes c m m.stack.toList (m.ip + 2) (pushed m.stack.toList.length t.line t.constant) := by
  have here := h.code.byte_head
  have inside := (Array.getElem?_eq_some_iff.mp here).1
  obtain ⟨found, lt⟩ := h.constants 0 t.constant rfl
  rw [Nat.add_zero] at found lt
  have index : (UInt8.ofNat k).toNat = k := UInt8.toNat_ofNat_of_lt' lt
  have hv : c.constant? (UInt8.ofNat k) = some t.constant := by
    rw [Chunk.constant?, index, found]
  exact computes_of_yields (step_constant here h.code.tail.byte_head hv) inside h.code.tail.lineAt_head
    (yields_pushed m.stack t.constant)

/-- An operation with a negation after it computes the negated result. -/
theorem computes_negated {s : Stack} {ip : Nat} {below : List Value} {o : Operation} {line : Line}
    {r : Except RuntimeFault Value} (holds : c.Holds ip [(o.byte, line), (Operation.not.byte, line)])
    (h : Stack.Yields (s.perform o) below r) :
    Computes c ⟨ip, s⟩ below (ip + 2) (onLine line (r.map fun v => .bool v.isFalsey)) := by
  have first := computes_operation holds h
  have both : Computes c ⟨ip, s⟩ below (ip + 2) (onLine line r >>= fun v => onLine line (.ok (.bool v.isFalsey))) :=
    first.bind fun v t ht => computes_operation holds.tail (Stack.yields_not ht)
  cases r <;> exact both

theorem map_isFalsey_arith (f : Float → Float → Bool) (a b : Value) :
    (a.arith (fun x y => .bool (f x y)) b).map (fun v => Value.bool v.isFalsey) =
      a.arith (fun x y => .bool !(f x y)) b := by
  cases a <;> cases b <;> rfl

/-- The operations of an operator compute what it makes of its operands. -/
theorem computes_operations (op : BinaryOp) {s : Stack} {ip : Nat} {below : List Value} {a b : Value} {line : Line}
    (holds : c.Holds ip (op.operations.map fun o => (o.byte, line))) (h : s.toList = below ++ [a, b]) :
    Computes c ⟨ip, s⟩ below (ip + op.operations.length) (onLine line (op.apply a b)) := by
  cases op with
  | equal => exact computes_operation holds (Stack.yields_equal h)
  | notEqual => exact computes_negated holds (Stack.yields_equal h)
  | greaterEqual =>
    rw [BinaryOp.apply, ← map_isFalsey_arith]
    exact computes_negated holds (Stack.yields_combine h _)
  | lessEqual =>
    rw [BinaryOp.apply, ← map_isFalsey_arith]
    exact computes_negated holds (Stack.yields_combine h _)
  | _ => exact computes_operation holds (Stack.yields_combine h _)

/-- **The code of a tree computes its meaning**, wherever it stands and whatever is on the stack. -/
theorem computes_eval (e : Tree) {k : Nat} (h : c.Contains m.ip k e) :
    Computes c m m.stack.toList (m.ip + (e.code k).length) (e.eval m.stack.toList.length) := by
  induction e generalizing m k with
  | number t => exact computes_number h
  | literal l t => exact computes_literal h
  | group opening e closing ih => exact ih ⟨h.code, h.constants⟩
  | unary op t e ih =>
    have operand := ih ⟨h.code.left, h.constants⟩
    rw [Tree.code, List.length_append, ← Nat.add_assoc]
    exact operand.bind fun v s hs => computes_operation h.code.right (Stack.yields_unary op hs)
  | binary op left t right ihl ihr =>
    -- the left value waits on the stack while the right operand is evaluated, hence the height one up
    have first := ihl h.binary_left
    rw [Tree.code, List.length_append, List.length_append, List.length_map, ← Nat.add_assoc, ← Nat.add_assoc]
    refine first.bind fun a s hs => ?_
    have second := ihr (m := ⟨_, s⟩) h.binary_right
    rw [hs, List.length_append, List.length_singleton] at second
    refine second.bind fun b s' hs' => ?_
    exact computes_operations op h.binary_operations (by rw [hs', List.append_assoc]; rfl)

end Machine

/-! ## Whole chunks -/

/-- **Running a chunk** that holds the code of a tree and the return operation gives what the tree evaluates to, and
leaves nothing on the stack. -/
theorem Chunk.run_eval {c : Chunk} {k : Nat} {e : Tree} {line : Line} (h : c.Contains 0 k e)
    (ending : c.Holds (e.code k).length [(Operation.return.byte, line)]) (s : Stack) (traced : Bool) :
    (c.run s traced).result = e.eval 0 ∧ (c.run s traced).stack.toList = [] := by
  have computes := Machine.computes_eval (m := ⟨0, s.clear⟩) e h
  simp only [Stack.toList_clear, List.length_nil, Nat.zero_add] at computes
  cases hr : e.eval 0 with
  | ok v =>
    rw [hr] at computes
    obtain ⟨t, ht, reach⟩ := computes
    obtain ⟨u, rest, -, hu⟩ := Stack.popping_of_toList ht
    have hstep : Machine.step c ⟨(e.code k).length, t⟩ = .done v u := by
      rw [Machine.step_plain ending.byte_head, Stack.perform, hu]
      rfl
    obtain ⟨ms, runs⟩ := (Machine.Runs.done hstep).of_reaches reach
    rw [run, runs.run_eq traced (Nat.sub_le ..)]
    exact ⟨rfl, rest⟩
  | error error =>
    rw [hr] at computes
    obtain ⟨m', fault, ip, reach, -, hstep, located⟩ := computes
    obtain ⟨ms, runs⟩ := (Machine.Runs.failed hstep).of_reaches reach
    rw [run, runs.run_eq traced (Nat.sub_le ..)]
    exact ⟨congrArg _ located, Stack.toList_clear _⟩

theorem Chunk.holds_empty_extend (code : List (UInt8 × Line)) (constants : List Value) :
    (Chunk.empty.extend code constants).Holds 0 code := by
  intro i byte line hi
  simp [empty, extend, hi]

/-- A source compiled on its own leaves the code of its tree and the return operation. -/
theorem Parses.contains {source : String} {e : Tree} {t : Token} (h : Parses source .empty e t) :
    (compile source .empty).chunk.Contains 0 0 e ∧
      (compile source .empty).chunk.Holds (e.code 0).length [(Operation.return.byte, t.line)] := by
  rw [h.chunk_eq]
  have holds := Chunk.holds_empty_extend (e.code 0 ++ [(Operation.return.byte, t.line)]) e.constants
  refine ⟨⟨holds.left, fun i v hi => ?_⟩, by simpa using holds.right⟩
  have lt := (List.getElem?_eq_some_iff.mp hi).1
  rw [Tree.length_constants] at lt
  refine ⟨by simpa [Chunk.empty, Chunk.extend] using hi, ?_⟩
  rcases h.numbers_fit with none | some
  · rw [none] at lt
    cases lt
  · simp only [Chunk.empty, List.size_toArray, List.length_nil] at some
    omega

/-- **Interpreting an expression gives what it evaluates to**: its value is written as the result, or its fault is
reported, and the stack is empty afterwards, whatever was on it before. -/
theorem Interpreter.interpret_evaluates (i : Interpreter) (source : String)
    (compiles : (compile source .empty).diagnostics = []) :
    ∃ (e : Tree) (eof : Token), tokens source = e.tokens ++ [eof] ∧ eof.kind = .eof ∧ Derives .equality e ∧
      (∀ e', Derives .equality e' → e'.tokens = e.tokens → e' = e) ∧
      (i.run (compile source .empty).chunk).result = e.eval 0 ∧
      (i.interpret source).interpreter.stack.toList = [] ∧
      match e.eval 0 with
      | .ok v => (i.interpret source).outcome = .ok ∧ (i.interpret source).out = (i.out.writeLine v.display).1 ∧
          (i.interpret source).err = ""
      | .error error => (i.interpret source).outcome = .runtimeError ∧ (i.interpret source).out = "" ∧
          (i.interpret source).err = (i.err.writeLine error.text).1 := by
  obtain ⟨e, eof, h⟩ := diagnostics_eq_nil_iff.mp compiles
  obtain ⟨contains, ending⟩ := h.contains
  obtain ⟨result, empty⟩ := Chunk.run_eval contains ending i.stack i.options.trace
  have result : (i.run (compile source .empty).chunk).result = e.eval 0 := result
  have empty : (i.run (compile source .empty).chunk).interpreter.stack.toList = [] := empty
  refine ⟨e, eof, h.tokens_eq, h.ending, h.fits.derives, fun e' he' same => he'.unique h.fits.derives same, result, ?_⟩
  simp only [interpret, compiles]
  cases hr : e.eval 0 with
  | ok v =>
    rw [hr] at result
    simp only [result]
    exact ⟨empty, trivial, trivial, trivial⟩
  | error error =>
    rw [hr] at result
    simp only [result]
    exact ⟨empty, trivial, trivial, trivial⟩

/-- A truth value cannot be negated. -/
theorem Interpreter.interpret_evaluates_negated :
    ((Interpreter.fresh {} .working .working).interpret "-true").err =
      "Operand must be a number.\n[line 1] in script\n" := by
  obtain ⟨e, eof, htok, -, -, unique, -, -, report⟩ :=
    Interpreter.interpret_evaluates (.fresh {} .working .working) "-true" (by decide +kernel)
  have written : tokens "-true" = [⟨.minus, 1, 0, "-"⟩, ⟨.trueWord, 1, 1, "true"⟩] ++ [⟨.eof, 1, 5, ""⟩] := by
    decide +kernel
  rw [written] at htok
  obtain ⟨same, -⟩ := List.append_inj' htok rfl
  have negated : Derives .unary (.unary .negate ⟨.minus, 1, 0, "-"⟩ (.literal .true ⟨.trueWord, 1, 1, "true"⟩)) :=
    .unary rfl (.literal rfl)
  obtain rfl := unique _ (negated.of_rank_le (Nat.zero_le _)) same
  exact report.2.2

end Abacus
