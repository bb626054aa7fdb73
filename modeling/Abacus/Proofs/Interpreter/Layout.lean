import Abacus.Proofs.Compiler.Layout
import Abacus.Proofs.Interpreter.History

/-!
# Independence of the layout

Sources whose tokens have the same kinds and texts are compiled to the same code and constants and interpreted with the
same results, however they are broken into lines.  Nothing but line numbers tells them apart.

* `Chunk.listRun_unplaced`: a chunk runs to the same answer whatever its lines;
* `Interpreter.interpret_layout`: two layouts of one text.
-/

namespace Abacus

/-! ## Runs without lines -/

/-- An error that names no line. -/
def RunError.unplaced : RunError → RunError
  | runtime cause _ => .runtime cause 0
  | corrupted offset cause => .corrupted offset cause

/-- Some instruction stands in front of any byte string but the empty one. -/
theorem Instruction.exists_decode? (byte : UInt8) (code : List UInt8) : ∃ i, decode? (byte :: code) = some i := by
  simp only [decode?]
  repeat' split
  all_goals exact ⟨_, rfl⟩

namespace ListMachine

variable (c : Chunk)

theorem place_unplaced (last : Nat) (f : Fault) : place c.unplaced last f = (place c last f).unplaced := by
  cases f with
  | runtime cause =>
    have none : (c.lines.map fun _ => (0 : Line))[last]?.getD 0 = 0 := by
      rw [Array.getElem?_map]
      cases c.lines[last]? <;> rfl
    exact congrArg (RunError.runtime cause) none
  | corrupted cause => rfl

theorem execute_unplaced (i : Instruction) (vs : List Value) : execute c.unplaced i vs = execute c i vs := by
  cases i <;> rfl

theorem follow_unplaced {last : Nat} {rest rest' : List Value → Except RunError (Value × List Value)}
    (h : ∀ vs, rest' vs = (rest vs).mapError RunError.unplaced) (r : Except Fault (Option Value × List Value)) :
    follow c.unplaced last rest' r = (follow c last rest r).mapError RunError.unplaced := by
  match r with
  | .ok (none, vs) => exact h vs
  | .ok (some v, vs) => rfl
  | .error fault => exact congrArg Except.error (place_unplaced c last fault)

/-- The list machine does the same without lines, instruction by instruction. -/
theorem run_unplaced (ip : Nat) (code : List UInt8) (vs : List Value) :
    run c.unplaced ip code vs = (run c ip code vs).mapError RunError.unplaced := by
  induction hn : code.length using Nat.strongRecOn generalizing ip code vs with
  | ind n ih =>
    cases code with
    | nil => exact congrArg Except.error (place_unplaced c (ip - 1) _)
    | cons byte code =>
      obtain ⟨i, decoded⟩ := Instruction.exists_decode? byte code
      have shorter : ((byte :: code).drop i.width).length < n := by
        have := i.width_pos
        rw [List.length_drop, hn]
        simp only [List.length_cons] at hn
        omega
      rw [run_of_decode? decoded, run_of_decode? decoded, execute_unplaced]
      exact follow_unplaced c (fun ws => ih _ shorter _ _ ws rfl) _

end ListMachine

theorem Chunk.listRun_unplaced (c : Chunk) : c.unplaced.listRun = c.listRun.mapError RunError.unplaced :=
  ListMachine.run_unplaced c 0 c.code.toList []

/-! ## Layouts -/

/-- These tokens have the same kinds and texts. -/
def SameTokens (a b : String) : Prop :=
  (tokens a).map (fun t => (t.kind, t.text)) = (tokens b).map fun t => (t.kind, t.text)

/-- The first text becomes the second one when one line number in it is replaced, if at all. -/
def DifferInLine (s t : String) : Prop :=
  s = t ∨ ∃ (before after : String) (m n : Line),
    s = before ++ "[line " ++ Nat.repr m.toNat ++ "]" ++ after ∧ t = before ++ "[line " ++ Nat.repr n.toNat ++ "]" ++ after

namespace DifferInLine

variable {s t : String}

theorem append (h : DifferInLine s t) (end' : String) : DifferInLine (s ++ end') (t ++ end') := by
  rcases h with rfl | ⟨before, after, m, n, rfl, rfl⟩
  · exact .inl rfl
  · exact .inr ⟨before, after ++ end', m, n, by simp only [String.append_assoc], by simp only [String.append_assoc]⟩

theorem takes (h : DifferInLine s t) (stream : Stream) : DifferInLine (stream.takes (some s)) (stream.takes (some t)) := by
  cases stream with
  | working => exact h.append "\n"
  | broken => exact .inl rfl

theorem of_diagnostics {d e : Diagnostic} (h : d.unplaced = e.unplaced) : DifferInLine d.text e.text := by
  obtain ⟨m, location, message⟩ := d
  obtain ⟨n, location', message'⟩ := e
  obtain ⟨rfl, rfl⟩ : location = location' ∧ message = message' := by simpa [Diagnostic.unplaced] using h
  have close : "] Error" = "]" ++ " Error" := rfl
  refine .inr ⟨"", " Error" ++ location.text ++ ": " ++ message, m, n, ?_, ?_⟩
  all_goals simp only [Diagnostic.text, close, String.append_assoc, String.empty_append]

theorem of_runErrors {d e : RunError} (h : d.unplaced = e.unplaced) : DifferInLine d.text e.text := by
  cases d with
  | runtime cause m =>
    cases e with
    | runtime cause' n =>
      obtain rfl : cause = cause' := by simpa [RunError.unplaced] using h
      have start : "\n[line " = "\n" ++ "[line " := rfl
      have close : "] in script" = "]" ++ " in script" := rfl
      have text (l : Line) : (RunError.runtime cause l).text =
          cause.message ++ "\n" ++ "[line " ++ Nat.repr l.toNat ++ "]" ++ " in script" := by
        unfold RunError.text
        dsimp only
        rw [start, close]
        simp only [String.append_assoc]
      exact .inr ⟨cause.message ++ "\n", " in script", m, n, text m, text n⟩
    | corrupted => cases h
  | corrupted offset cause =>
    cases e with
    | runtime => cases h
    | corrupted offset' cause' =>
      obtain ⟨rfl, rfl⟩ : offset = offset' ∧ cause = cause' := by simpa [RunError.unplaced] using h
      exact .inl rfl

end DifferInLine

theorem unplaced_tokens {a b : String} (h : SameTokens a b) :
    (tokens a).map Token.unplaced = (tokens b).map Token.unplaced := by
  have rebuild (ts : List Token) :
      ts.map Token.unplaced = (ts.map fun t => (t.kind, t.text)).map fun p => ⟨p.1, 0, 0, p.2⟩ := by
    rw [List.map_map]
    rfl
  rw [rebuild, rebuild, h]

section Compile

variable {a b : String} (h : SameTokens a b) (c : Chunk)
include h

/-- Two layouts are compiled alike, on every chunk. -/
theorem unplaced_ofTokens_tokens :
    (Compilation.ofTokens (tokens a) c).unplaced = (Compilation.ofTokens (tokens b) c).unplaced :=
  Compilation.unplaced_ofTokens (unplaced_tokens h) rfl

theorem unplaced_chunk : (compile a c).chunk.unplaced = (compile b c).chunk.unplaced :=
  congrArg Compilation.chunk (unplaced_ofTokens_tokens h c)

/-- Both are accepted, or both have a report, and the same one but for the line. -/
theorem diagnostics_layout :
    ((compile a c).diagnostics = [] ∧ (compile b c).diagnostics = []) ∨
      ∃ d e, (compile a c).diagnostics = [d] ∧ (compile b c).diagnostics = [e] ∧ d.unplaced = e.unplaced := by
  have same : (Compilation.ofTokens (tokens a) c).diagnostic.map Diagnostic.unplaced =
      (Compilation.ofTokens (tokens b) c).diagnostic.map Diagnostic.unplaced :=
    congrArg Compilation.diagnostic (unplaced_ofTokens_tokens h c)
  simp only [compile]
  cases hd : (Compilation.ofTokens (tokens a) c).diagnostic with
  | none =>
    rw [hd, Option.map_none, eq_comm, Option.map_eq_none_iff] at same
    exact .inl ⟨rfl, by rw [same]; rfl⟩
  | some d =>
    rw [hd, Option.map_some, eq_comm, Option.map_eq_some_iff] at same
    obtain ⟨e, he, unplaced⟩ := same
    exact .inr ⟨d, e, rfl, by rw [he]; rfl, unplaced.symm⟩

/-- The list machine answers both alike. -/
theorem listRun_layout :
    (compile a c).chunk.listRun.mapError RunError.unplaced = (compile b c).chunk.listRun.mapError RunError.unplaced := by
  rw [← Chunk.listRun_unplaced, ← Chunk.listRun_unplaced, unplaced_chunk h]

end Compile

/-- The verdicts on two layouts: the same outcome and result, and reports that differ in a line number at most. -/
theorem verdict_layout {a b : String} (h : SameTokens a b) :
    (verdict a).outcome = (verdict b).outcome ∧ (verdict a).out = (verdict b).out ∧
      ∀ s : Stream, DifferInLine (s.takes (verdict a).err) (s.takes (verdict b).err) := by
  rcases diagnostics_layout h .empty with ⟨da, db⟩ | ⟨d, e, da, db, same⟩
  · have runs := listRun_layout h .empty
    simp only [verdict, da, db]
    cases ra : (compile a .empty).chunk.listRun with
    | ok p =>
      cases rb : (compile b .empty).chunk.listRun with
      | ok q =>
        rw [ra, rb] at runs
        cases runs
        exact ⟨rfl, rfl, fun s => .inl rfl⟩
      | error e =>
        rw [ra, rb] at runs
        cases runs
    | error d =>
      cases rb : (compile b .empty).chunk.listRun with
      | ok q =>
        rw [ra, rb] at runs
        cases runs
      | error e =>
        rw [ra, rb] at runs
        have same : d.unplaced = e.unplaced := Except.error.inj runs
        exact ⟨rfl, rfl, (DifferInLine.of_runErrors same).takes⟩
  · simp only [verdict, da, db]
    refine ⟨trivial, trivial, ?_⟩
    simp only [diagnosticsText, List.map_cons, List.map_nil, String.intercalate_singleton]
    exact (DifferInLine.of_diagnostics same).takes

/-- **Layout does not matter.**  Two sources whose tokens have the same kinds and texts both compile or both do not, on
every chunk, with the same code, the same constants and the same report but for its line; they are interpreted with the
same outcome and the same result, and the texts of errors differ in one line number at most. -/
theorem Interpreter.interpret_layout (a b : String) (same : SameTokens a b) :
    (∀ c, ((compile a c).diagnostics = [] ↔ (compile b c).diagnostics = []) ∧
      (compile a c).chunk.code = (compile b c).chunk.code ∧
      (compile a c).chunk.constants = (compile b c).chunk.constants ∧
      (compile a c).chunk.lines.size = (compile b c).chunk.lines.size ∧
      (compile a c).diagnostics.map (fun d => (d.location, d.message)) =
        (compile b c).diagnostics.map fun d => (d.location, d.message)) ∧
    ∀ i : Interpreter,
      (i.interpret a).outcome = (i.interpret b).outcome ∧
      (i.interpret a).out = (i.interpret b).out ∧
      DifferInLine (i.interpret a).err (i.interpret b).err := by
  refine ⟨fun c => ?_, fun i => ?_⟩
  · have chunks := unplaced_chunk same c
    have lines : (compile a c).chunk.lines.size = (compile b c).chunk.lines.size := by
      simpa [Chunk.unplaced] using congrArg (fun c => c.lines.size) chunks
    have code := congrArg Chunk.code chunks
    have constants := congrArg Chunk.constants chunks
    rcases diagnostics_layout same c with ⟨da, db⟩ | ⟨d, e, da, db, report⟩
    · simp only [da, db]
      exact ⟨trivial, code, constants, lines, trivial⟩
    · simp only [da, db]
      have located := congrArg (fun d => [(d.location, d.message)]) report
      exact ⟨by simp, code, constants, lines, located⟩
  · obtain ⟨outcome, out, err⟩ := i.interpret_verdict a
    obtain ⟨outcome', out', err'⟩ := i.interpret_verdict b
    obtain ⟨outcomes, outs, errs⟩ := verdict_layout same
    rw [outcome, outcome', out, out', err, err', outs]
    exact ⟨outcomes, rfl, errs i.err⟩

/-- A fault of one line, and the same on three. -/
theorem Interpreter.interpret_layout_negated :
    SameTokens "-true" "- // no number\n\ntrue" ∧
      DifferInLine ((Interpreter.fresh {} .working .working).interpret "-true").err
        ((Interpreter.fresh {} .working .working).interpret "- // no number\n\ntrue").err := by
  have same : SameTokens "-true" "- // no number\n\ntrue" := by
    unfold SameTokens
    decide +kernel
  exact ⟨same, ((interpret_layout _ _ same).2 _).2.2⟩

end Abacus
