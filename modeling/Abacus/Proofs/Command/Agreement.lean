import Abacus.Proofs.Command.Log

/-!
# The commands agree

Three commands read a source, decode it and go on with it each in its own way.  They come to the same view of it: none
accepts bytes that are no text, and listing the code fails exactly when running it finds that it does not compile.

* `Command.withSource_of_decodes`, `Command.withSource_of_not_decodes`: reading a source;
* `Command.agree_on_source`: what the three commands leave for any bytes.
-/

namespace Abacus

namespace Printed

@[simp] theorem empty_append (p : Printed) : {} ++ p = p := by
  show Printed.mk ("" ++ p.out) ("" ++ p.err) = p
  rw [String.empty_append, String.empty_append]

@[simp] theorem append_empty (p : Printed) : p ++ {} = p := by
  show Printed.mk (p.out ++ "") (p.err ++ "") = p
  rw [String.append_empty, String.append_empty]

theorem append_assoc (p q r : Printed) : p ++ q ++ r = p ++ (q ++ r) := by
  show Printed.mk (p.out ++ q.out ++ r.out) (p.err ++ q.err ++ r.err) = _
  rw [String.append_assoc, String.append_assoc]
  rfl

end Printed

/-- The bytes of a text are decoded to that text. -/
theorem fromUTF8?_toUTF8 (text : String) : String.fromUTF8? text.toUTF8 = some text :=
  dif_pos text.isValidUTF8

namespace Input

/-- The source of an input. -/
def contents (t : FileTree) (stdin : ByteArray) : Input → Except ReadError String
  | .stdin => decodeStdin stdin
  | .path text => decode text (t.entry (.ofText text))

/-- An input leads to these bytes: they are the standard input, or a file at the end of the path. -/
def Gives (t : FileTree) (stdin bytes : ByteArray) : Input → Prop
  | .stdin => stdin = bytes
  | .path text => t.entry (.ofText text) = .ok (.file bytes)

variable {t : FileTree} {stdin bytes : ByteArray} {input : Input} (given : input.Gives t stdin bytes)
include given

theorem Gives.contents_of_decodes {source : String} (decodes : String.fromUTF8? bytes = some source) :
    input.contents t stdin = .ok source := by
  have text : decodeText bytes = .ok source := by rw [decodeText, decodes]
  cases input with
  | stdin =>
    obtain rfl := given
    rw [contents, decodeStdin, text]
    rfl
  | path p =>
    have entry : t.entry (.ofText p) = .ok (.file bytes) := given
    rw [contents, entry, decode, text]
    rfl

theorem Gives.exists_contents_eq_error (fails : String.fromUTF8? bytes = none) :
    ∃ e, input.contents t stdin = .error e := by
  have text : decodeText bytes = .error .notText := by rw [decodeText, fails]
  cases input with
  | stdin =>
    obtain rfl := given
    exact ⟨_, by rw [contents, decodeStdin, text]; rfl⟩
  | path p =>
    have entry : t.entry (.ofText p) = .ok (.file bytes) := given
    exact ⟨_, by rw [contents, entry, decode, text]; rfl⟩

end Input

namespace Command

/-! ## Carrying out a task -/

variable (t : FileTree) (stdin : ByteArray) (elapsed : String) (c : Console) (input : Input)

/-- Reading the source leaves the files as they are. -/
theorem run_withSource (k : String → StateM FileTree Exit) :
    (withSource (FileTree.world stdin elapsed) c input k).run t =
      match input.contents t stdin with
      | .ok text => (k text).run t
      | .error e => (⟨unreadableCode, c.status .bad "IO" e.text⟩, t) := by
  have read : (source (FileTree.world stdin elapsed) input).run t = (input.contents t stdin, t) := by
    cases input <;> rfl
  rw [withSource, StateT.run_bind, read]
  show (match input.contents t stdin with | .ok text => k text | .error e => pure _).run t = _
  cases input.contents t stdin <;> rfl

/-- The commands that read a source and write no file. -/
def readers (input : Input) : List Task :=
  [.run input false, .disasm input none, .tokens input]

/-- What a task leaves in a world where no filter is set. -/
def exitOf (s : Settings) (t : FileTree) (stdin : ByteArray) (elapsed : String) (task : Task) : Exit :=
  ((Request.task s task).runIn t stdin none elapsed).1

/-- The exit code tells whether the source compiled. -/
theorem exitCode_eq_65_iff (i : Interpreter) (source : String) :
    (i.interpret source).outcome.exitCode = 65 ↔ (compile source .empty).diagnostics ≠ [] := by
  rw [← i.outcome_eq_compileError_iff]
  cases (i.interpret source).outcome <;> decide

section Terse

variable {s : Settings} (terse : s.IsTerse)
include terse

theorem runIn_of_isTerse (task : Task) :
    (Request.task s task).runIn t stdin none elapsed =
      (perform (FileTree.world stdin elapsed) ⟨.terse s.quiet s.printCode, s.color == .always⟩ ⟨false, s.printCode⟩
        task).run t := by
  have options : interpreterOptions s = ⟨false, s.printCode⟩ := by rw [interpreterOptions, terse.trace]
  simp only [Request.runIn, answer, console_of_isTerse terse, options, Printed.empty_append]
  rfl

/-! ## The three commands -/

variable {t} {stdin} {input}

theorem runIn_run {source : String} (reads : input.contents t stdin = .ok source) :
    (Request.task s (.run input false)).runIn t stdin none elapsed =
      let r := (Interpreter.fresh ⟨false, s.printCode⟩ .working .working).interpret source
      (⟨r.outcome.exitCode, ⟨r.out, Console.codeRecord s.printCode source ++ r.err⟩⟩, t) := by
  rw [runIn_of_isTerse _ _ _ terse, perform, run, run_withSource, reads]
  generalize fresh : Interpreter.fresh ⟨false, s.printCode⟩ .working .working = i
  show (Exit.mk (i.interpret source).outcome.exitCode
    (Console.interpreted _ source (i.interpret source) ++ Console.concluded _ _ _ ++ {}), t) = _
  rw [Console.interpreted_interpret rfl (by rw [← fresh]; rfl) (by rw [← fresh]; rfl) (by rw [← fresh]; rfl),
    Console.concluded_eq rfl, Printed.append_empty, Printed.append_empty]

theorem runIn_disasm {source : String} (reads : input.contents t stdin = .ok source) :
    (Request.task s (.disasm input none)).runIn t stdin none elapsed =
      (match (compile source .empty).diagnostics with
        | [] => ⟨0, { out := (compile source .empty).chunk.listing input.label }⟩
        | ds => ⟨65, { err := diagnosticsText ds ++ "\n" }⟩, t) := by
  rw [runIn_of_isTerse _ _ _ terse, perform, disasm, run_withSource, reads]
  simp only [Console.listed_eq (c := ⟨.terse s.quiet s.printCode, _⟩) rfl, Printed.empty_append, listingOf]
  cases (compile source .empty).diagnostics <;> rfl

theorem runIn_tokens {source : String} (reads : input.contents t stdin = .ok source) :
    (Request.task s (.tokens input)).runIn t stdin none elapsed = (⟨0, { out := Token.dump source }⟩, t) := by
  rw [runIn_of_isTerse _ _ _ terse, perform, tokens, run_withSource, reads]
  rfl

theorem runIn_of_unreadable {e : ReadError} (fails : input.contents t stdin = .error e) :
    ∀ task ∈ readers input, ∃ report,
      (Request.task s task).runIn t stdin none elapsed = (⟨unreadableCode, { err := report }⟩, t) := by
  intro task mem
  simp only [runIn_of_isTerse _ _ _ terse]
  rcases List.mem_cons.mp mem with rfl | mem
  · rw [perform, run, run_withSource, fails]
    exact ⟨_, rfl⟩
  rcases List.mem_cons.mp mem with rfl | mem
  · rw [perform, disasm, run_withSource, fails]
    exact ⟨_, rfl⟩
  · rw [List.mem_singleton.mp mem, perform, tokens, run_withSource, fails]
    exact ⟨_, rfl⟩

/-- No file is changed, whatever the input is. -/
theorem runIn_keeps_files (input : Input) :
    ∀ task ∈ readers input, ((Request.task s task).runIn t stdin none elapsed).2 = t := by
  intro task mem
  cases reads : input.contents t stdin with
  | error e =>
    obtain ⟨report, left⟩ := runIn_of_unreadable elapsed terse reads task mem
    rw [left]
  | ok source =>
    rcases List.mem_cons.mp mem with rfl | mem
    · rw [runIn_run elapsed terse reads]
    rcases List.mem_cons.mp mem with rfl | mem
    · rw [runIn_disasm elapsed terse reads]
    · rw [List.mem_singleton.mp mem, runIn_tokens elapsed terse reads]

/-- **The commands agree on every source**, wherever its bytes come from.  None of the three accepts bytes that are no
text, and none changes a file.  Running leaves what interpreting leaves.  Listing the code fails exactly when running
reports that the source does not compile, with the same report, and gives the code otherwise, whether or not running it
goes well.  The tokens are listed in any case. -/
theorem agree_on_source (unlisted : s.printCode = false) {bytes : ByteArray} (given : input.Gives t stdin bytes) :
    (String.fromUTF8? bytes = none → ∀ task ∈ readers input,
      (exitOf s t stdin elapsed task).code = 74 ∧ (exitOf s t stdin elapsed task).printed.out = "") ∧
    (∀ source, String.fromUTF8? bytes = some source →
      let r := (Interpreter.fresh {} .working .working).interpret source
      let run := exitOf s t stdin elapsed (.run input false)
      let disasm := exitOf s t stdin elapsed (.disasm input none)
      run = ⟨r.outcome.exitCode, ⟨r.out, r.err⟩⟩ ∧
      (disasm.code = 65 ↔ run.code = 65) ∧
      (run.code = 65 → disasm = ⟨65, ⟨"", run.printed.err⟩⟩) ∧
      (run.code ≠ 65 → disasm = ⟨0, ⟨(compile source .empty).chunk.listing input.label, ""⟩⟩) ∧
      exitOf s t stdin elapsed (.tokens input) = ⟨0, ⟨Token.dump source, ""⟩⟩) ∧
    ∀ task ∈ readers input, ((Request.task s task).runIn t stdin none elapsed).2 = t := by
  refine ⟨fun fails task mem => ?_, fun source decodes => ?_, runIn_keeps_files elapsed terse input⟩
  · obtain ⟨e, unread⟩ := given.exists_contents_eq_error fails
    obtain ⟨report, left⟩ := runIn_of_unreadable elapsed terse unread task mem
    rw [exitOf, left]
    exact ⟨rfl, rfl⟩
  · have reads := given.contents_of_decodes decodes
    intro r run disasm
    have ran : run = ⟨r.outcome.exitCode, ⟨r.out, r.err⟩⟩ := by
      show exitOf _ _ _ _ _ = _
      rw [exitOf, runIn_run elapsed terse reads, unlisted]
      show Exit.mk _ ⟨_, "" ++ _⟩ = _
      rw [String.empty_append]
    have refused : run.code = 65 ↔ (compile source .empty).diagnostics ≠ [] := by
      rw [ran]
      exact exitCode_eq_65_iff _ source
    have tokens := congrArg Prod.fst (runIn_tokens elapsed terse reads)
    have listed := congrArg Prod.fst (runIn_disasm elapsed terse reads)
    cases compiles : (compile source .empty).diagnostics with
    | nil =>
      rw [compiles] at listed
      have code : disasm = ⟨0, ⟨(compile source .empty).chunk.listing input.label, ""⟩⟩ := listed
      have succeeds : run.code ≠ 65 := fun fails => refused.mp fails compiles
      exact ⟨ran, by simp [code, succeeds], fun fails => absurd fails succeeds, fun _ => code, tokens⟩
    | cons d ds =>
      rw [compiles] at listed
      have report : disasm = ⟨65, ⟨"", diagnosticsText (d :: ds) ++ "\n"⟩⟩ := listed
      have fails : run.code = 65 := refused.mpr (by simp [compiles])
      have same : run.printed.err = diagnosticsText (d :: ds) ++ "\n" := by
        rw [ran, ← compiles]
        exact congrArg Report.err (Interpreter.interpret_of_not_compiles _ (by simp [compiles]))
      exact ⟨ran, by simp [report, fails], fun _ => report.trans (by rw [same]), fun succeeds => absurd fails succeeds,
        tokens⟩

end Terse

/-- A source that compiles and fails when it is run. -/
theorem agree_on_source_negated :
    Settings.IsTerse {} ∧ Input.Gives ⟨[], []⟩ "-true".toUTF8 "-true".toUTF8 .stdin ∧
      (exitOf {} ⟨[], []⟩ "-true".toUTF8 "0" (.run .stdin false)).code = 70 ∧
      (exitOf {} ⟨[], []⟩ "-true".toUTF8 "0" (.disasm .stdin none)).code = 0 := by
  have terse : Settings.IsTerse {} := ⟨rfl, rfl⟩
  have given : Input.Gives ⟨[], []⟩ "-true".toUTF8 "-true".toUTF8 .stdin := rfl
  obtain ⟨ran, -, -, listed, -⟩ := (agree_on_source "0" terse rfl given).2.1 "-true" (fromUTF8?_toUTF8 _)
  have code : ((Interpreter.fresh {} .working .working).interpret "-true").outcome.exitCode = 70 := by decide +kernel
  have run : (exitOf {} ⟨[], []⟩ "-true".toUTF8 "0" (.run .stdin false)).code = 70 := by rw [ran, code]
  exact ⟨terse, given, run, by rw [listed (by rw [run]; decide)]⟩

end Command

end Abacus
