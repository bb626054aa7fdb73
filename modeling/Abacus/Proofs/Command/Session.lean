import Abacus.Proofs.Command.Agreement
import Abacus.Proofs.Command.Lines

/-!
# Sessions

What the line by line mode writes is put together from replies to single lines.  A reply depends on its line, and that to
`:disasm` on the expression before it; nothing else is carried from line to line, although one interpreter serves all.

* `Repl.reply`, `Repl.replies`: the replies to lines that do not quit;
* `Repl.Serves`: what is kept of the interpreter from line to line, and `Repl.respond_eq`, the answer to one line;
* `Repl.answerAll_eq`, `Repl.session_replies`: a whole session.
-/

namespace Abacus

namespace Printed

/-- Texts one after the other, on each stream. -/
def concat (ps : List Printed) : Printed :=
  ⟨String.join (ps.map out), String.join (ps.map err)⟩

@[simp] theorem concat_nil : concat [] = {} :=
  rfl

@[simp] theorem concat_cons (p : Printed) (ps : List Printed) : concat (p :: ps) = p ++ concat ps := by
  show Printed.mk (String.join (p.out :: ps.map out)) (String.join (p.err :: ps.map err)) = _
  rw [String.join_cons, String.join_cons]
  rfl

end Printed

namespace Repl

/-! ## Replies -/

/-- Is this what ends a session? -/
def quits (line : String) : Bool :=
  line = ":q" || line = ":quit"

/-- Is a trimmed line an expression, neither empty nor a directive? -/
def isExpression (line : String) : Bool :=
  line ≠ "" && line.toList.head? ≠ some ':'

/-- The lines that are answered: without the blanks at both ends, up to the one that quits. -/
def answered (lines : List String) : List String :=
  (lines.map Blank.trim).takeWhile fun line => !quits line

theorem answered_cons (line : String) (lines : List String) :
    answered (line :: lines) = if quits (Blank.trim line) then [] else Blank.trim line :: answered lines := by
  rw [answered, List.map_cons, List.takeWhile_cons]
  cases quits (Blank.trim line) <;> rfl

/-- The reply to a trimmed line, given the last expression before it. An expression is interpreted as if it were the
first one. -/
def reply (c : Console) (printCode : Bool) (last : Option String) (line : String) : Printed :=
  if line = "" then {}
  else if line = ":help" then { out := helpText }
  else if line = ":disasm" then
    match last.map fun source => listingOf source "repl" with
    | none => c.status .neutral "DISASM" "aucune ligne à désassembler"
    | some (.ok listing) => { out := listing }
    | some (.error ds) => Console.diagnostics ds
  else if line.toList.head? = some ':' then c.status .bad "REPL" ("commande inconnue : " ++ line)
  else
    let r := (Interpreter.fresh {} .working .working).interpret line
    ⟨r.out, Console.codeRecord printCode line ++ r.err⟩

/-- The replies to trimmed lines, after some earlier ones. -/
def repliesAfter (c : Console) (printCode : Bool) (earlier lines : List String) : List Printed :=
  lines.mapIdx fun n line => reply c printCode ((earlier ++ lines.take n).filter isExpression).getLast? line

/-- The replies to the trimmed lines of a session. -/
def replies (c : Console) (printCode : Bool) (lines : List String) : List Printed :=
  lines.mapIdx fun n line => reply c printCode ((lines.take n).filter isExpression).getLast? line

theorem repliesAfter_cons (c : Console) (printCode : Bool) (earlier : List String) (line : String) (lines : List String) :
    repliesAfter c printCode earlier (line :: lines) =
      reply c printCode (earlier.filter isExpression).getLast? line ::
        repliesAfter c printCode (earlier ++ [line]) lines := by
  rw [repliesAfter, List.mapIdx_cons]
  simp [repliesAfter]

/-! ## One line -/

/-- An interpreter with these options, no trace among them, serves on working streams, and the last expression of some
lines is at hand. -/
structure Serves (s : Repl) (printCode : Bool) (earlier : List String) : Prop where
  options : s.interpreter.options = ⟨false, printCode⟩
  out : s.interpreter.out = .working
  err : s.interpreter.err = .working
  last : s.last = (earlier.filter isExpression).getLast?

variable {s : Repl} {c : Console} {quiet printCode : Bool} {earlier : List String}

theorem serves_start (printCode : Bool) : (start ⟨false, printCode⟩).Serves printCode [] :=
  ⟨rfl, rfl, rfl, rfl⟩

namespace Serves

/-- What is no expression is not remembered. -/
theorem pass (h : s.Serves printCode earlier) {line : String} (other : isExpression line = false) :
    s.Serves printCode (earlier ++ [line]) where
  options := h.options
  out := h.out
  err := h.err
  last := by rw [h.last, List.filter_append, List.filter_cons_of_neg (by simp [other]), List.filter_nil, List.append_nil]

/-- An expression is interpreted and remembered, however that ends. -/
theorem interpret (h : s.Serves printCode earlier) {line : String} (expression : isExpression line = true) :
    Serves ⟨(s.interpreter.interpret line).interpreter, some line⟩ printCode (earlier ++ [line]) := by
  have remembered : some line = ((earlier ++ [line]).filter isExpression).getLast? := by
    rw [List.filter_append, List.filter_cons_of_pos expression, List.filter_nil, List.getLast?_concat]
  by_cases compiles : (compile line .empty).diagnostics = []
  · rw [Interpreter.interpret_of_compiles _ compiles]
    exact ⟨h.options, h.out, h.err, remembered⟩
  · rw [Interpreter.interpret_of_not_compiles _ compiles]
    exact ⟨h.options, h.out, h.err, remembered⟩

end Serves

section

variable (serves : s.Serves printCode earlier) (filter : c.filter = .terse quiet printCode)
include serves filter

/-- The interpreter at hand answers like a fresh one. -/
theorem evaluate_eq (line : String) :
    s.evaluate c line =
      ⟨⟨((Interpreter.fresh {} .working .working).interpret line).out,
        Console.codeRecord printCode line ++ ((Interpreter.fresh {} .working .working).interpret line).err⟩,
        .next ⟨(s.interpreter.interpret line).interpreter, some line⟩⟩ := by
  obtain ⟨-, out, err⟩ := s.interpreter.interpret_verdict line
  obtain ⟨-, out', err'⟩ := (Interpreter.fresh {} .working .working).interpret_verdict line
  have listed : s.interpreter.options.printCode = printCode := by rw [serves.options]
  simp only [evaluate]
  rw [Console.interpreted_interpret filter listed serves.out serves.err, Console.concluded_eq filter,
    Printed.append_empty, out, err, out', err', serves.out, serves.err]
  rfl

theorem disassemble_eq :
    s.disassemble c =
      match ((earlier.filter isExpression).getLast?).map fun source => listingOf source "repl" with
      | none => c.status .neutral "DISASM" "aucune ligne à désassembler"
      | some (.ok listing) => { out := listing }
      | some (.error ds) => Console.diagnostics ds := by
  rw [disassemble, serves.last]
  cases (earlier.filter isExpression).getLast? with
  | none => rfl
  | some source =>
    simp only [Console.listed_eq filter, Printed.empty_append, Option.map_some]
    cases listingOf source "repl" <;> rfl

end

/-- A line as it is answered. -/
def trimmed (line : String) : String :=
  Blank.trim (String.ofList (Backspace.erase line.toList))

theorem respond_of_quits (s : Repl) (c : Console) {line : String} (h : quits (trimmed line) = true) :
    s.respond c line = ⟨{}, .stop 0⟩ := by
  unfold respond
  rw [← trimmed]
  simp only [quits, Bool.or_eq_true, decide_eq_true_eq] at h
  rcases h with h | h <;> rw [h] <;> rfl

theorem respond_of_not_quits (serves : s.Serves printCode earlier) (filter : c.filter = .terse quiet printCode)
    {line : String} (h : quits (trimmed line) = false) :
    ∃ s', s.respond c line =
      ⟨reply c printCode (earlier.filter isExpression).getLast? (trimmed line), .next s'⟩ ∧
      s'.Serves printCode (earlier ++ [trimmed line]) := by
  unfold respond
  rw [← trimmed]
  generalize trimmed line = line at h
  dsimp only
  simp only [quits, Bool.or_eq_false_iff, decide_eq_false_iff_not] at h
  split
  · exact ⟨s, rfl, serves.pass rfl⟩
  · exact absurd rfl h.1
  · exact absurd rfl h.2
  · exact ⟨s, rfl, serves.pass rfl⟩
  · exact ⟨s, by rw [disassemble_eq serves filter]; rfl, serves.pass rfl⟩
  · next blank _ _ help disasm =>
    rw [reply, if_neg blank, if_neg help, if_neg disasm]
    split
    · next directive => exact ⟨s, rfl, serves.pass (by simp [isExpression, directive])⟩
    · next expression =>
      rw [evaluate_eq serves filter]
      exact ⟨_, rfl, serves.interpret (by simpa [isExpression, expression] using blank)⟩

/-! ## Whole sessions -/

/-- **Lines are answered by replies**, one after the other, until one quits. -/
theorem answerAll_eq (filter : c.filter = .terse quiet printCode) (lines : List String)
    (serves : s.Serves printCode earlier) (printed : Printed) :
    answerAll c (lines.map String.toUTF8) s printed =
      ⟨0, printed ++ .concat (repliesAfter c printCode earlier (answered
        (lines.map fun line => String.ofList (Backspace.erase line.toList))))⟩ := by
  induction lines generalizing s earlier printed with
  | nil => exact congrArg (Exit.mk 0) (Printed.append_empty printed).symm
  | cons line lines ih =>
    have decoded : s.respondBytes c line.toUTF8 = s.respond c line := by
      rw [respondBytes, decodeText, fromUTF8?_toUTF8]
    rw [List.map_cons, answerAll, decoded, List.map_cons, answered_cons, ← trimmed]
    cases h : quits (trimmed line) with
    | true =>
      rw [respond_of_quits s c h]
      rfl
    | false =>
      obtain ⟨s', answer, serves'⟩ := respond_of_not_quits serves filter h
      rw [answer, if_neg Bool.false_ne_true, repliesAfter_cons, Printed.concat_cons, ← Printed.append_assoc]
      simp only
      rw [ih serves']

/-- The mode as it is entered by a command. -/
theorem runIn_repl {s : Settings} (terse : s.IsTerse) (t : FileTree) (prompt text elapsed : String) :
    (Request.task s (.repl prompt)).runIn t text.toUTF8 none elapsed =
      (⟨0, banner (Command.console none s).1 ++
        .concat (replies (Command.console none s).1 s.printCode (answered (handed text)))⟩, t) := by
  rw [Command.runIn_of_isTerse _ _ _ terse, Command.console_of_isTerse terse]
  show (run _ _ text.toUTF8, t) = _
  rw [run, linesOf_toUTF8, answerAll_eq rfl _ (serves_start s.printCode)]
  simp only [repliesAfter, replies, handed, List.nil_append]

end Repl

end Abacus
