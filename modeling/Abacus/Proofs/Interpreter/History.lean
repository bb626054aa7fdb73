import Abacus.Proofs.Machine.Execution
import Abacus.Proofs.Machine.ListMachine

/-!
# Independence of the history

What an interpreter answers is a function of the source or the chunk alone.  What it did before, which values its stack
still holds, its options and refusing streams do not show in an answer, nor in the text on a stream that works.

* `Interpreter.interpret_verdict`: an interpretation comes to the verdict on its source;
* `Interpreter.forgets_history`: two interpreters with any two histories give the same answers.
-/

namespace Abacus

/-! ## Verdicts -/

/-- What interpreting a source comes to, whoever does it: the outcome, and the line for each stream. -/
structure Verdict where
  outcome : Outcome
  /-- The line for the stream for results. -/
  out : Option String
  /-- The line for the stream for reports. -/
  err : Option String

/-- The verdict on a source, by the list machine. -/
def verdict (source : String) : Verdict :=
  match (compile source .empty).diagnostics with
  | [] =>
    match (compile source .empty).chunk.listRun with
    | .ok (v, _) => ⟨.ok, some v.display, none⟩
    | .error e => ⟨.runtimeError, none, some e.text⟩
  | ds => ⟨.compileError, none, some (diagnosticsText ds)⟩

/-- What a stream takes when there may be a line to write. -/
def Stream.takes (s : Stream) : Option String → String
  | some line => (s.writeLine line).1
  | none => ""

/-- A stream that refuses everything has only itself to record. -/
theorem Stream.eq_writeFailed_of_mem {s : Stream} {line : String} {e : Event} (h : e ∈ (s.writeLine line).2) :
    e = .writeFailed := by
  cases s with
  | working => cases h
  | broken => exact List.mem_singleton.mp h

namespace Interpreter

theorem interpret_of_compiles (i : Interpreter) {source : String} (h : (compile source .empty).diagnostics = []) :
    (i.interpret source).interpreter = (i.run (compile source .empty).chunk).interpreter := by
  simp only [interpret, h]
  split <;> rfl

/-- A source that does not compile is reported, and that is all. -/
theorem interpret_of_not_compiles (i : Interpreter) {source : String}
    (h : (compile source .empty).diagnostics ≠ []) :
    i.interpret source =
      ⟨.compileError, "", (i.err.writeLine (diagnosticsText (compile source .empty).diagnostics)).1,
        (compile source .empty).diagnostics.map .problem,
        (i.err.writeLine (diagnosticsText (compile source .empty).diagnostics)).2, i⟩ := by
  obtain ⟨d, ds, hds⟩ := List.exists_cons_of_ne_nil h
  simp only [interpret, Compiled.events, hds]

/-- **An interpretation comes to the verdict on its source**: its outcome, and the lines as far as the streams take
them. -/
theorem interpret_verdict (i : Interpreter) (source : String) :
    (i.interpret source).outcome = (verdict source).outcome ∧
      (i.interpret source).out = i.out.takes (verdict source).out ∧
      (i.interpret source).err = i.err.takes (verdict source).err := by
  cases hds : (compile source .empty).diagnostics with
  | nil =>
    have answers := (compile source .empty).chunk.run_answers i.stack i.options.trace
    cases hr : (compile source .empty).chunk.listRun with
    | ok p =>
      rw [hr] at answers
      obtain ⟨result, -⟩ := answers
      simp only [interpret, verdict, hds, hr, run, result]
      exact ⟨trivial, rfl, rfl⟩
    | error e =>
      rw [hr] at answers
      obtain ⟨result, -⟩ := answers
      simp only [interpret, verdict, hds, hr, run, result]
      exact ⟨trivial, rfl, rfl⟩
  | cons d ds =>
    simp only [interpret, verdict, hds]
    exact ⟨trivial, rfl, rfl⟩

/-- The outcome tells whether the source compiled. -/
theorem outcome_eq_compileError_iff (i : Interpreter) (source : String) :
    (i.interpret source).outcome = .compileError ↔ (compile source .empty).diagnostics ≠ [] := by
  rw [(i.interpret_verdict source).1, verdict]
  cases (compile source .empty).diagnostics with
  | nil => cases (compile source .empty).chunk.listRun <;> simp
  | cons d ds => simp

/-- What compiles leaves nothing on the stack. -/
theorem toList_of_compiles (i : Interpreter) {source : String} (h : (compile source .empty).diagnostics = []) :
    (i.interpret source).interpreter.stack.toList = [] := by
  obtain ⟨e, t, parses⟩ := diagnostics_eq_nil_iff.mp h
  obtain ⟨contains, ending⟩ := parses.contains
  rw [i.interpret_of_compiles h]
  exact (Chunk.run_eval contains ending i.stack i.options.trace).2

/-- **A run of a chunk is the same on every interpreter**, in its result and in the values that it leaves. -/
theorem run_congr (i j : Interpreter) (c : Chunk) :
    (i.run c).result = (j.run c).result ∧
      (i.run c).interpreter.stack.toList = (j.run c).interpreter.stack.toList :=
  (c.run_answers i.stack i.options.trace).unique (c.run_answers j.stack j.options.trace)

/-! ## Histories -/

/-- A thing that happens to an interpreter. -/
inductive Action where
  | interpret (source : String)
  | run (c : Chunk)
  | setOptions (options : Options)
  /-- Not the user's doing: the streams work or refuse from now on. -/
  | setStreams (out err : Stream)

/-- Whether something is executed. -/
def Action.executes : Action → Bool
  | interpret _ | run _ => true
  | setOptions _ | setStreams .. => false

/-- The interpreter after an action. -/
def act (i : Interpreter) : Action → Interpreter
  | .interpret source => (i.interpret source).interpreter
  | .run c => (i.run c).interpreter
  | .setOptions options => { i with options }
  | .setStreams out err => { i with out, err }

/-- The interpreter after some actions. -/
def after (i : Interpreter) (history : List Action) : Interpreter :=
  history.foldl act i

section View

variable {i j : Interpreter}

/-- An interpretation shows on the stack, if at all, in the same way. -/
theorem toList_interpret (h : i.stack.toList = j.stack.toList) (source : String) :
    (i.interpret source).interpreter.stack.toList = (j.interpret source).interpreter.stack.toList := by
  by_cases compiles : (compile source .empty).diagnostics = []
  · rw [i.toList_of_compiles compiles, j.toList_of_compiles compiles]
  · rw [i.interpret_of_not_compiles compiles, j.interpret_of_not_compiles compiles]
    exact h

theorem toList_act (h : i.stack.toList = j.stack.toList) (a : Action) :
    (i.act a).stack.toList = (j.act a).stack.toList := by
  cases a with
  | interpret source => exact toList_interpret h source
  | run c => exact (run_congr i j c).2
  | setOptions options => exact h
  | setStreams out err => exact h

/-- Options and streams do not show on the stack, ever after. -/
theorem toList_after (h : i.stack.toList = j.stack.toList) (history : List Action) :
    (i.after history).stack.toList = (j.after (history.filter Action.executes)).stack.toList := by
  induction history generalizing i j with
  | nil => exact h
  | cons a history ih =>
    cases a with
    | interpret source => exact ih (toList_act h (.interpret source))
    | run c => exact ih (toList_act h (.run c))
    | setOptions options => exact ih (i := i.act (.setOptions options)) h
    | setStreams out err => exact ih (i := i.act (.setStreams out err)) h

end View

/-- **Interpreters forget their history.**  Whatever two interpreters have been through, a source has the same outcome on
both, and a stream that works on both takes the same text; a chunk has the same result and leaves the same values.  A
source that does not compile is only reported: the stack stays as it was.  Any other leaves the stack empty. -/
theorem forgets_history (i j : Interpreter) (as bs : List Action) :
    (∀ source,
      ((i.after as).interpret source).outcome = ((j.after bs).interpret source).outcome ∧
      ((i.after as).out = .working → (j.after bs).out = .working →
        ((i.after as).interpret source).out = ((j.after bs).interpret source).out) ∧
      ((i.after as).err = .working → (j.after bs).err = .working →
        ((i.after as).interpret source).err = ((j.after bs).interpret source).err) ∧
      (((i.after as).interpret source).outcome = .compileError →
        ((i.after as).interpret source).out = "" ∧
        ((i.after as).interpret source).interpreter.stack.toList = (i.after as).stack.toList ∧
        ∀ e ∈ ((i.after as).interpret source).events, (∃ d, e = .problem d) ∨ e = .writeFailed) ∧
      (((i.after as).interpret source).outcome ≠ .compileError →
        ((i.after as).interpret source).interpreter.stack.toList = [])) ∧
    ∀ c, ((i.after as).run c).result = ((j.after bs).run c).result ∧
      ((i.after as).run c).interpreter.stack.toList = ((j.after bs).run c).interpreter.stack.toList := by
  -- all that a history leaves behind is an interpreter, and the verdict on a source mentions none
  generalize i.after as = i', j.after bs = j'
  refine ⟨fun source => ?_, run_congr i' j'⟩
  obtain ⟨outcome, out, err⟩ := i'.interpret_verdict source
  obtain ⟨outcome', out', err'⟩ := j'.interpret_verdict source
  refine ⟨outcome.trans outcome'.symm, fun works works' => ?_, fun works works' => ?_, fun failed => ?_, fun ran => ?_⟩
  · rw [out, out', works, works']
  · rw [err, err', works, works']
  · rw [i'.interpret_of_not_compiles ((i'.outcome_eq_compileError_iff source).mp failed)]
    refine ⟨rfl, rfl, fun e he => ?_⟩
    rcases List.mem_append.mp he with reported | recorded
    · obtain ⟨d, -, rfl⟩ := List.mem_map.mp reported
      exact .inl ⟨d, rfl⟩
    · exact .inr (Stream.eq_writeFailed_of_mem recorded)
  · rw [ne_eq, i'.outcome_eq_compileError_iff, ne_eq, not_not] at ran
    exact i'.toList_of_compiles ran

end Interpreter

end Abacus
