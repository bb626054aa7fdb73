import Abacus.Log.Severity
import Abacus.Text.Blank
import Abacus.Text.Pieces

/-!
# Log filters

A filter is written as one text: directives between commas and, after a slash, a text that messages must
contain.  A directive is a threshold for everything (`warn`), a target (`brume_vm`) or a target with its own
threshold (`brume_vm=debug`).  Of the directives whose target a record's target starts with, the one with the
longest target decides.

`request` composes the text from the options of the command line; `Filter.read` reads it.
-/

namespace Abacus

/-! ## Composing a filter text -/

/-- The threshold that the number of verbosity options stands for. -/
def verbosityName : Nat → String
  | 0 => "warn"
  | 1 => "info"
  | 2 => "debug"
  | _ => "trace"

/-- The filter text in effect: the user's own, unless it is blank, or else the one that the options choose;
tracing and code listings are switched on behind it when they are asked for. -/
def filterText (user : Option String) (verbosity : Nat) (quiet trace printCode : Bool) : String :=
  let chosen := if quiet then "error" else verbosityName verbosity
  let base :=
    match user.map Blank.trim with
    | none => chosen
    | some text => if text.isEmpty then chosen else text
  base ++ (if trace then ",brume::trace=trace" else "") ++ (if printCode then ",brume::code=debug" else "")

/-! ## Reading a filter text -/

/-- A rule of a filter. -/
structure Directive where
  /-- The start of the targets that the rule is about; `none` for all. -/
  target : Option (List Char)
  /-- What is let through; `none` for nothing. -/
  threshold : Option Severity
  deriving Repr, DecidableEq

/-- A rule for which records are written. -/
structure Filter where
  /-- The rules, those with a shorter target first. -/
  directives : List Directive
  /-- What the message of a record must contain. -/
  pattern : Option (List Char)
  deriving Repr, DecidableEq

namespace Filter

/-- The names of thresholds. -/
def thresholds : List (String × Option Severity) :=
  [("off", none), ("error", some .error), ("warn", some .warn), ("info", some .info), ("debug", some .debug),
    ("trace", some .trace)]

/-- Reads a threshold, in letters of either case. -/
def threshold? (cs : List Char) : Option (Option Severity) :=
  thresholds.lookup (String.ofList (cs.map Char.toLower))

/-- Reads a directive without blanks at its ends; an error is the part that cannot be read. Blanks before a
threshold are skipped; those before an equals sign belong to the target. -/
def readDirective (cs : List Char) : Except (List Char) Directive :=
  match Pieces.split '=' cs with
  | [word] =>
    match threshold? word with
    | some threshold => .ok ⟨none, threshold⟩
    | none => .ok ⟨some word, some .trace⟩
  | [target, level] =>
    let level := Blank.trimList level
    if level.isEmpty then .ok ⟨some target, some .trace⟩
    else
      match threshold? level with
      | some threshold => .ok ⟨some target, threshold⟩
      | none => .error level
  | _ => .error cs

/-- Adds a directive; one for the same target is replaced. -/
def addDirective (ds : List Directive) (d : Directive) : List Directive :=
  if ds.any fun e => e.target == d.target then ds.map fun e => if e.target == d.target then d else e
  else ds ++ [d]

/-- The number of bytes of a directive's target. -/
def targetSize (d : Directive) : Nat :=
  (d.target.map fun cs => (String.ofList cs).utf8ByteSize).getD 0

/-- The filter of a list of directives: without any, only errors pass. -/
def ofDirectives (ds : List Directive) (pattern : Option (List Char)) : Filter :=
  match ds with
  | [] => ⟨[⟨none, some .error⟩], pattern⟩
  | ds => ⟨ds.mergeSort fun a b => targetSize a ≤ targetSize b, pattern⟩

/-- The complaint about a part of a filter text. -/
def complaint (part : List Char) : String :=
  "warning: invalid logging spec '" ++ String.ofList part ++ "', ignoring it\n"

/-- Reads directives; those that cannot be read are left out with a complaint. -/
def readDirectives : List (List Char) → List Directive × List String
  | [] => ([], [])
  | part :: parts =>
    let (ds, complaints) := readDirectives parts
    let part := Blank.trimList part
    if part.isEmpty then (ds, complaints)
    else
      match readDirective part with
      | .ok d => (d :: ds, complaints)
      | .error bad => (ds, complaint bad :: complaints)

/-- Reads a filter text, with the complaints about it. -/
def read (text : String) : Filter × List String :=
  match Pieces.split '/' text.toList with
  | [] => (ofDirectives [] none, [])
  | directives :: patterns =>
    match patterns with
    | _ :: _ :: _ =>
      (ofDirectives [] none,
        ["warning: invalid logging spec '" ++ text ++ "' (too many '/'s), ignoring it\n"])
    | patterns =>
      let (ds, complaints) := readDirectives (Pieces.split ',' directives)
      (ofDirectives (ds.foldl addDirective []) patterns.head?, complaints)

/-! ## Applying a filter -/

/-- Is a directive about a target? -/
def covers (d : Directive) (target : List Char) : Bool :=
  match d.target with
  | none => true
  | some start => start.isPrefixOf target

/-- Does a filter let records of a severity and target through? -/
def passes (f : Filter) (severity : Severity) (target : String) : Bool :=
  match f.directives.reverse.find? fun d => covers d target.toList with
  | some ⟨_, some threshold⟩ => severity.rank ≤ threshold.rank
  | _ => false

/-- Does a text occur in another one? -/
def occursIn (pattern : List Char) : List Char → Bool
  | [] => pattern.isEmpty
  | c :: cs => pattern.isPrefixOf (c :: cs) || occursIn pattern cs

/-- Does a filter let a message through? -/
def matchesText (f : Filter) (text : String) : Bool :=
  match f.pattern with
  | none => true
  | some pattern => occursIn pattern text.toList

end Filter

end Abacus
