import Abacus.Command
import Abacus.Proofs.Interpreter.History

/-!
# The log of a command

Unless its options ask for more, a command logs warnings and errors, and nothing that it does on working streams is one.
So it writes what the interpreter writes and no more.  If code is to be printed, the listing of a source that compiles
comes first.

* `Filter.read_filterText`: the filter of such a command, and `Record.lines_of_isMinor`, what it leaves out;
* `Console.interpreted_interpret`: what is written when a source is interpreted.
-/

namespace Abacus

/-- Nothing is asked of the log, but for listings of code. -/
structure Settings.IsTerse (s : Settings) : Prop where
  verbosity : s.verbosity = 0
  trace : s.trace = false

/-! ## The filter -/

namespace Filter

/-- What passes whatever it is about: errors, and warnings unless it is to be quiet. -/
def terseThreshold (quiet : Bool) : Severity :=
  if quiet then .error else .warn

/-- The rule for listings of code. -/
def codeDirective : Directive :=
  ⟨some "brume::code".toList, some .debug⟩

/-- The filter when nothing but listings of code may be asked for. -/
def terse (quiet printCode : Bool) : Filter :=
  ⟨⟨none, some (terseThreshold quiet)⟩ :: (if printCode then [codeDirective] else []), none⟩

theorem read_filterText (quiet printCode : Bool) :
    read (filterText none 0 quiet false printCode) = (terse quiet printCode, []) := by
  have alone : ∀ quiet printCode, Pieces.split '/' (filterText none 0 quiet false printCode).toList =
      [(filterText none 0 quiet false printCode).toList] := by decide +kernel
  have parts : ∀ quiet printCode,
      let found := readDirectives (Pieces.split ',' (filterText none 0 quiet false printCode).toList)
      found.1.foldl addDirective [] = (terse quiet printCode).directives ∧ found.2 = [] := by decide +kernel
  have sorted : ∀ quiet printCode,
      (terse quiet printCode).directives.Pairwise fun a b => decide (targetSize a ≤ targetSize b) = true := by
    decide +kernel
  obtain ⟨rules, complaints⟩ := parts quiet printCode
  simp only [read, alone, rules, complaints]
  rw [ofDirectives, List.mergeSort_of_pairwise (sorted quiet printCode)]
  · rfl
  · exact List.cons_ne_nil _ _

end Filter

namespace Severity

/-- Less than a warning, and of a target that no listing of code has. -/
def isMinor (severity : Severity) (target : String) : Bool :=
  warn.rank < severity.rank && !Filter.covers Filter.codeDirective target.toList

end Severity

namespace Record

/-- A record that is left out whatever its text is. -/
def IsMinor (r : Record) : Prop :=
  r.severity.isMinor r.target = true

variable {quiet printCode : Bool}

theorem IsMinor.not_passes {r : Record} (h : r.IsMinor) : r.passes (.terse quiet printCode) = false := by
  simp only [IsMinor, Severity.isMinor, Bool.and_eq_true, decide_eq_true_eq, Bool.not_eq_true'] at h
  obtain ⟨minor, other⟩ := h
  have low : (Filter.terseThreshold quiet).rank ≤ Severity.warn.rank := by cases quiet <;> decide
  have decides : (Filter.terse quiet printCode).directives.reverse.find? (fun d => Filter.covers d r.target.toList) =
      some ⟨none, some (Filter.terseThreshold quiet)⟩ := by
    cases printCode with
    | false => rfl
    | true =>
      show List.find? _ [Filter.codeDirective, _] = _
      rw [List.find?_cons, other]
      rfl
  simp only [passes, Filter.passes, decides]
  rw [decide_eq_false (by omega), Bool.false_and]

theorem lines_append (f : Filter) (as bs : List Record) : lines f (as ++ bs) = lines f as ++ lines f bs := by
  simp [lines]

/-- Minor records are left out. -/
theorem lines_of_isMinor {rs : List Record} (h : ∀ r ∈ rs, r.IsMinor) : lines (.terse quiet printCode) rs = "" := by
  have none : rs.filter (passes (.terse quiet printCode)) = [] :=
    List.filter_eq_nil_iff.mpr fun r hr => by simp [(h r hr).not_passes]
  rw [lines, none]
  rfl

theorem isMinor_compiling (source : String) : (compiling source).IsMinor := by
  show Severity.isMinor .debug "brume_compiler" = true
  decide +kernel

/-- Of a compilation its events may be worth a line, but not that it begins and ends. -/
theorem lines_compilation (source : String) (events : List Event) :
    lines (.terse quiet printCode) (compilation source events) =
      lines (.terse quiet printCode) (events.map ofEvent) := by
  have spans : Severity.isMinor .trace activityTarget = true ∧ Severity.isMinor .trace lifecycleTarget = true := by
    decide +kernel
  have before : lines (.terse quiet printCode) [compiling source, ⟨.trace, activityTarget, "-> compile;"⟩] = "" :=
    lines_of_isMinor (List.forall_mem_cons.mpr ⟨isMinor_compiling source, List.forall_mem_singleton.mpr spans.1⟩)
  have behind : lines (.terse quiet printCode)
      [⟨.trace, activityTarget, "<- compile;"⟩, ⟨.trace, lifecycleTarget, "-- compile;"⟩] = "" :=
    lines_of_isMinor (List.forall_mem_cons.mpr ⟨spans.1, List.forall_mem_singleton.mpr spans.2⟩)
  rw [compilation, lines_append, lines_append, before, behind, String.empty_append, String.append_empty]

end Record

/-! ## Events of the interpreter -/

namespace Event

/-- An event whose record is left out. -/
def IsMinor (e : Event) : Prop :=
  (Record.ofEvent e).IsMinor

theorem isMinor_problem (d : Diagnostic) : (problem d).IsMinor := by
  show Severity.isMinor .debug "brume_compiler" = true
  decide +kernel

theorem isMinor_fetched (text : String) : (fetched text).IsMinor := by
  show Severity.isMinor .trace "brume::trace" = true
  decide +kernel

/-- The target of the machine's own reports. -/
theorem isMinor_machine : Severity.isMinor .debug "brume_vm" = true := by
  decide +kernel

/-- The events of a run that ends as an expression does are minor. -/
theorem isMinor_of_mem_run {r : Run} {c : Chunk} {e : Tree} {height : Nat} (result : r.result = e.eval height) :
    ∀ event ∈ r.events c, event.IsMinor := by
  intro event mem
  simp only [Run.events, List.cons_append, List.mem_cons, List.mem_append, List.mem_map] at mem
  rcases mem with rfl | ⟨fetch, -, rfl⟩ | ending
  · exact isMinor_machine
  · exact isMinor_fetched _
  · cases hr : r.result with
    | ok v =>
      rw [hr] at ending
      cases ending
    | error error =>
      obtain ⟨cause, line, rfl⟩ := Tree.exists_runtime_of_eval (result.symm.trans hr)
      rw [hr] at ending
      rw [List.mem_singleton.mp ending]
      exact isMinor_machine

end Event

namespace Interpreter

theorem compileEvents_eq (i : Interpreter) (source : String) :
    (i.interpret source).compileEvents = (compile source .empty).events i.options.printCode := by
  cases compiles : (compile source .empty).diagnostics with
  | nil =>
    simp only [interpret, compiles]
    split <;> rfl
  | cons d ds => simp only [interpret, compiles]

variable {i : Interpreter} (out : i.out = .working) (err : i.err = .working)
include out err

/-- What happens after compiling is minor, if the streams take all. -/
theorem isMinor_of_mem_laterEvents (source : String) : ∀ event ∈ (i.interpret source).laterEvents, event.IsMinor := by
  by_cases compiles : (compile source .empty).diagnostics = []
  · obtain ⟨e, t, parses⟩ := diagnostics_eq_nil_iff.mp compiles
    obtain ⟨contains, ending⟩ := parses.contains
    have run := Event.isMinor_of_mem_run (c := (compile source .empty).chunk)
      (Chunk.run_eval contains ending i.stack i.options.trace).1
    have later : (i.interpret source).laterEvents = (i.run (compile source .empty).chunk).events := by
      simp only [interpret, compiles]
      split
      · rw [out]
        exact List.append_nil _
      · rw [err]
        exact List.append_nil _
    rw [later]
    exact run
  · rw [i.interpret_of_not_compiles compiles, err]
    exact List.forall_mem_nil _

end Interpreter

/-! ## The console -/

namespace Console

/-- The record that shows the code of a source: there is one if the source compiles and code is to be printed. -/
def codeRecord (printCode : Bool) (source : String) : String :=
  match printCode, (compile source .empty).diagnostics with
  | true, [] => (Record.ofEvent (.codeListed ((compile source .empty).chunk.listing "code"))).line
  | _, _ => ""

theorem lines_compiled_events (quiet printCode : Bool) (source : String) :
    Record.lines (.terse quiet printCode) (((compile source .empty).events printCode).map .ofEvent) =
      codeRecord printCode source := by
  cases compiles : (compile source .empty).diagnostics with
  | nil =>
    cases printCode with
    | false => simp only [Compiled.events, compiles, codeRecord]; rfl
    | true =>
      have passes : ∀ quiet, (Filter.terse quiet true).passes .debug "brume::code" = true := by decide +kernel
      have matching (r : Record) : (Filter.terse quiet true).matchesText r.text = true := rfl
      simp only [Compiled.events, compiles, codeRecord, Record.lines, if_true, List.map_singleton]
      rw [List.filter_cons_of_pos]
      · exact String.empty_append
      · rw [Record.passes, matching, Bool.and_true]
        exact passes quiet
  | cons d ds =>
    have minor : ∀ r ∈ ((compile source .empty).events printCode).map Record.ofEvent, r.IsMinor := by
      simp only [Compiled.events, compiles, List.map_map, List.forall_mem_map]
      exact fun d _ => Event.isMinor_problem d
    rw [Record.lines_of_isMinor minor]
    simp only [codeRecord, compiles]

variable {c : Console} {quiet printCode : Bool} (filter : c.filter = .terse quiet printCode)
include filter

/-- A terse console writes what the interpreter writes, behind the record that shows the code. -/
theorem interpreted_interpret {i : Interpreter} (options : i.options.printCode = printCode)
    (out : i.out = .working) (err : i.err = .working) (source : String) :
    c.interpreted source (i.interpret source) =
      ⟨(i.interpret source).out, codeRecord printCode source ++ (i.interpret source).err⟩ := by
  have later : Record.lines c.filter ((i.interpret source).laterEvents.map .ofEvent) = "" := by
    rw [filter]
    exact Record.lines_of_isMinor (List.forall_mem_map.mpr (i.isMinor_of_mem_laterEvents out err source))
  rw [interpreted, log, Record.lines_append, later, filter, Record.lines_compilation, i.compileEvents_eq, options,
    lines_compiled_events, String.append_empty]
  show Printed.mk ("" ++ _) _ = _
  rw [String.empty_append]

theorem concluded_eq (what : String) (outcome : Outcome) : c.concluded what outcome = {} := by
  have minor : Record.IsMinor ⟨.debug, "brume_cli", what ++ " -> " ++ outcome.name⟩ := by
    show Severity.isMinor .debug "brume_cli" = true
    decide +kernel
  rw [concluded, log, filter, Record.lines_of_isMinor (List.forall_mem_singleton.mpr minor)]

theorem listed_eq (source : String) (listing : Except (List Diagnostic) String) : c.listed source listing = {} := by
  have minor (ds : List Diagnostic) : ∀ r ∈ (ds.map Event.problem).map Record.ofEvent, r.IsMinor := by
    rw [List.map_map, List.forall_mem_map]
    exact fun d _ => Event.isMinor_problem d
  cases listing with
  | ok text =>
    simp only [listed, log, filter, Record.lines_compilation]
    rfl
  | error ds => simp only [listed, log, filter, Record.lines_compilation, Record.lines_of_isMinor (minor ds)]

end Console

theorem Command.console_of_isTerse {s : Settings} (h : s.IsTerse) :
    console none s = (⟨.terse s.quiet s.printCode, s.color == .always⟩, {}) := by
  rw [console, h.verbosity, h.trace, Filter.read_filterText]
  rfl

end Abacus
