import Abacus.Proofs.Compiler.Building
import Abacus.Proofs.Interpreter.History

/-!
# Runs of growing chunks

Appending to a chunk leaves alone what was there, so a run that ended within the chunk goes the same way through every
longer one.  Only a run that met the end of a table, of the code or of the constants, may go on where it had stopped.

* `Machine.step_of_precedes`: an instruction does the same in a longer chunk, unless it reached the end of a table;
* `Machine.Runs.of_precedes`: so does a whole run;
* `Chunk.growth_keeps_runs`: the answer of a run outlasts all growth, in particular that of a source compiled first.
-/

namespace Abacus

/-! ## Corruptions that growth can heal -/

/-- A corruption that is met at the end of a table: there is no further byte, or no such constant. -/
def Corruption.IsShortage : Corruption → Prop
  | pastEnd | noSuchConstant => True
  | unknownOpcode | stackUnderflow => False

/-- A run ends within its chunk: with a value, or for a reason that no longer table would take away. -/
def EndsWithin : Except RunError Value → Prop
  | .error (.corrupted _ cause) => ¬cause.IsShortage
  | _ => True

/-! ## Instructions of a longer chunk -/

/-- More bytes behind an instruction do not change it, unless they bring the operand that it lacked. -/
theorem Instruction.decode?_append {bytes : List UInt8} {i : Instruction} (h : decode? bytes = some i)
    (whole : i ≠ .truncated) (more : List UInt8) : decode? (bytes ++ more) = some i := by
  cases bytes with
  | nil => cases h
  | cons byte rest =>
    rw [List.cons_append]
    simp only [decode?] at h ⊢
    cases hb : Opcode.ofByte? byte with
    | none =>
      rw [hb] at h
      exact h
    | some op =>
      rw [hb] at h
      cases op with
      | plain o => exact h
      | constant =>
        cases rest with
        | nil =>
          cases h
          exact absurd rfl whole
        | cons index rest => exact h

variable {c c' : Chunk}

namespace Chunk.Precedes

variable (h : c.Precedes c')
include h

theorem instruction?_eq {offset : Nat} {i : Instruction} (found : c.instruction? offset = some i)
    (whole : i ≠ .truncated) : c'.instruction? offset = some i := by
  have le : offset ≤ c.code.toList.length := Nat.le_of_lt (lt_size_of_instruction? found)
  obtain ⟨more, grown⟩ := h.code
  rw [instruction?_eq_decode?] at found ⊢
  rw [← grown, List.drop_append_of_le_length le]
  exact Instruction.decode?_append found whole more

/-- An instruction does to a stack what it did, unless it lacked its constant. -/
theorem execute_eq {s : Stack} {i : Instruction} (known : s.execute c i ≠ .fault (.corrupted .noSuchConstant)) :
    s.execute c' i = s.execute c i := by
  cases i with
  | constant index =>
    simp only [Stack.execute] at known ⊢
    cases found : c.constant? index with
    | none =>
      rw [found] at known
      exact absurd rfl known
    | some v => rw [h.constant?_eq found]
  | truncated | plain o | unknown byte => rfl

/-- A fault is placed where it was, if there was a line for the byte that was read last. -/
theorem locate_eq {ip : Nat} (lined : ip - 1 < c.lines.size) (f : Fault) : f.locate c' ip = f.locate c ip := by
  cases f with
  | corrupted cause => rfl
  | runtime cause =>
    have found : c.lineAt? (ip - 1) = some c.lines[ip - 1] := Array.getElem?_eq_getElem lined
    rw [Fault.locate, Fault.locate, Chunk.lineAt, Chunk.lineAt, found, h.lineAt?_eq found]

end Chunk.Precedes

/-! ## Runs through a longer chunk -/

namespace Machine

variable {m : Machine}

/-- **An instruction leads where it led**, unless it stopped at the end of a table. -/
theorem step_of_precedes (h : c.Precedes c')
    (within : ∀ cause ip, m.step c = .failed (.corrupted cause) ip → ¬cause.IsShortage) : m.step c' = m.step c := by
  rcases step_cases c m with ⟨-, failed⟩ | ⟨i, hi, led⟩
  · exact absurd trivial (within _ _ failed)
  · have whole : i ≠ .truncated := by
      rintro rfl
      exact within _ _ led trivial
    have known : m.stack.execute c i ≠ .fault (.corrupted .noSuchConstant) := by
      intro lacks
      rw [lacks] at led
      exact within _ _ led trivial
    rw [led, step_of_instruction? (h.instruction?_eq hi whole), h.execute_eq known]

/-- **A run that ends within its chunk is a run of every longer chunk**, through the same machines. -/
theorem Runs.of_precedes {ms : List Machine} {r : Except RunError Value} {s : Stack} (runs : Runs c m ms r s)
    (aligned : c.code.size = c.lines.size) (h : c.Precedes c') (within : EndsWithin r) : Runs c' m ms r s := by
  induction runs with
  | done hstep =>
    refine .done ((step_of_precedes h fun cause ip failed => ?_).trans hstep)
    rw [hstep] at failed
    cases failed
  | @failed m f ip hstep =>
    have same : m.step c' = m.step c := step_of_precedes h fun cause ip' failed => by
      rw [hstep] at failed
      cases failed
      exact within
    -- the fault was not met at the end of the code, so the byte read before it has a line
    rcases execute_of_failed hstep with ⟨-, rfl, -⟩ | ⟨i, hi, -, rfl⟩
    · exact absurd trivial within
    · have lined : m.ip + i.width - 1 < c.lines.size := by
        have le := Chunk.add_width_le hi
        have pos := i.width_pos
        omega
      rw [← h.locate_eq lined]
      exact .failed (same.trans hstep)
  | next hstep rest ih =>
    refine .next ((step_of_precedes h fun cause ip failed => ?_).trans hstep) (ih within)
    rw [hstep] at failed
    cases failed

end Machine

namespace Chunk

/-- Nothing about a run that ends within its chunk shows what was appended, not even the looks taken. -/
theorem Precedes.run_eq (h : c.Precedes c') (aligned : c.code.size = c.lines.size) (s : Stack) (traced : Bool)
    (within : EndsWithin (c.run s traced).result) : c'.run s traced = c.run s traced := by
  obtain ⟨ms, r, t, runs, same⟩ := c.run_eq s
  rw [same] at within ⊢
  rw [run, (runs.of_precedes aligned h within).run_eq traced (Nat.sub_le ..), Machine.foldl_look]
  simp

/-- A source that compiles runs to an end within its chunk. -/
theorem endsWithin_of_compiles {source : String} (compiles : (compile source .empty).diagnostics = []) (s : Stack)
    (traced : Bool) : EndsWithin ((compile source .empty).chunk.run s traced).result := by
  obtain ⟨e, t, parses⟩ := diagnostics_eq_nil_iff.mp compiles
  obtain ⟨contains, ending⟩ := parses.contains
  have result := (run_eval contains ending s traced).1
  cases hr : e.eval 0 with
  | ok v =>
    rw [result, hr]
    trivial
  | error error =>
    obtain ⟨cause, line, rfl⟩ := Tree.exists_runtime_of_eval hr
    rw [result, hr]
    trivial

/-- **Growth keeps runs.**  Whatever is appended to the code, the lines and the constants of a chunk whose bytes all have
lines: a run that ended with a value, a fault of the program, a byte that is no opcode or a stack underflow ends with the
same answer, at the same place, and leaves the same values.  So a source that compiles runs as if it were alone, whatever
is compiled behind it. -/
theorem growth_keeps_runs :
    (∀ c c' : Chunk, c.code.size = c.lines.size → c.Precedes c' → ∀ (s : Stack) (traced : Bool),
      ((∃ v, (c.run s traced).result = .ok v) ∨ (∃ cause line, (c.run s traced).result = .error (.runtime cause line)) ∨
        ∃ offset cause, (c.run s traced).result = .error (.corrupted offset cause) ∧
          (cause = .unknownOpcode ∨ cause = .stackUnderflow)) →
      ∀ (s' : Stack) (traced' : Bool), (c'.run s' traced').result = (c.run s traced).result ∧
        (c'.run s' traced').stack.toList = (c.run s traced).stack.toList) ∧
    ∀ first second : String, (compile first .empty).diagnostics = [] → ∀ (s s' : Stack) (traced traced' : Bool),
      ((compile second (compile first .empty).chunk).chunk.run s' traced').result =
          ((compile first .empty).chunk.run s traced).result ∧
        ((compile second (compile first .empty).chunk).chunk.run s' traced').stack.toList =
          ((compile first .empty).chunk.run s traced).stack.toList := by
  have keeps {c c' : Chunk} (aligned : c.code.size = c.lines.size) (h : c.Precedes c') {s : Stack} {traced : Bool}
      (within : EndsWithin (c.run s traced).result) (s' : Stack) (traced' : Bool) :
      (c'.run s' traced').result = (c.run s traced).result ∧
        (c'.run s' traced').stack.toList = (c.run s traced).stack.toList := by
    rw [← h.run_eq aligned s traced within]
    exact (c'.run_answers s' traced').unique (c'.run_answers s traced)
  refine ⟨fun c c' aligned h s traced ended s' traced' => keeps aligned h ?_ s' traced',
    fun first second compiles s s' traced traced' => ?_⟩
  · rcases ended with ⟨v, result⟩ | ⟨cause, line, result⟩ | ⟨offset, cause, result, reason⟩
    · rw [result]
      trivial
    · rw [result]
      trivial
    · rw [result]
      rcases reason with rfl | rfl <;> exact id
  · exact keeps (Aligned.empty.compile first).lines (precedes_compile second _)
      (endsWithin_of_compiles compiles s traced) s' traced'

/-- The negation of `nil` fails on its line, whether the code ends there or a byte follows that is no opcode. -/
theorem growth_keeps_runs_negated :
    ((mk #[0x01, 0x0C] #[3, 4] #[]).run .fresh false).result = .error (.runtime .operandNotNumber 4) ∧
      (((mk #[0x01, 0x0C] #[3, 4] #[]).write 0xEE 5).run .fresh true).result =
        .error (.runtime .operandNotNumber 4) := by
  have alone : ((mk #[0x01, 0x0C] #[3, 4] #[]).run .fresh false).result = .error (.runtime .operandNotNumber 4) := rfl
  have grown := growth_keeps_runs.1 (mk #[0x01, 0x0C] #[3, 4] #[]) _ rfl (precedes_write _ 0xEE 5) .fresh false
    (.inr (.inl ⟨_, _, alone⟩)) .fresh true
  exact ⟨alone, grown.1.trans alone⟩

end Chunk

end Abacus
