import Abacus.Proofs.Command.Lines
import Abacus.Proofs.Command.Log

/-!
# Requests to the log

Tracing and code listings are switched on by directives that are written behind the filter text in effect.  A text without
a message pattern reads as before, with the requested directives after its own, and what was requested passes.  A text with
a pattern has that behind its directives, so what is written there goes on with the pattern, and no directive is added.

* `Filter.parse`: what a filter text says in the order in which it is written, and `Filter.read_eq` about reading it;
* `Filter.specOf_requests`: what a text says with directives behind it;
* `Filter.Decides.find?_eq`: the only rule for a target decides about it;
* `Filter.requests_read`: the filter text of a command.
-/

namespace Abacus

namespace Pieces

variable {α : Type} [DecidableEq α] {sep : α}

theorem addFront_append (x : α) {ps : List (List α)} (ne : ps ≠ []) (qs : List (List α)) :
    addFront sep x (ps ++ qs) = addFront sep x ps ++ qs := by
  obtain ⟨p, ps, rfl⟩ := List.exists_cons_of_ne_nil ne
  simp only [addFront, List.cons_append]
  split <;> rfl

/-- A separator ends a piece, wherever it stands. -/
theorem split_append_sep (as bs : List α) : split sep (as ++ sep :: bs) = split sep as ++ split sep bs := by
  induction as with
  | nil => simp [addFront, split]
  | cons a as ih => rw [List.cons_append, split_cons, ih, addFront_append a (split_ne_nil sep as), ← split_cons]

theorem split_of_not_mem {as : List α} (none : sep ∉ as) : split sep as = [as] := by
  have whole : split sep (as ++ []) = [as ++ []] := split_append none rfl
  rwa [List.append_nil] at whole

end Pieces

namespace Filter

/-! ## What a text says -/

/-- What a filter text says, in the order in which it is written. -/
structure Spec where
  directives : List Directive
  complaints : List String
  pattern : Option (List Char)
  deriving Repr, DecidableEq

/-- The directives between commas, with a pattern. -/
def specOf (directives : List Char) (pattern : Option (List Char)) : Spec :=
  let found := readDirectives (Pieces.split ',' directives)
  ⟨found.1, found.2, pattern⟩

/-- What a text says: directives up to a slash and a pattern behind it.  There may be one slash at most. -/
def parse (cs : List Char) : Option Spec :=
  match Pieces.split '/' cs with
  | [directives] => some (specOf directives none)
  | [directives, pattern] => some (specOf directives (some pattern))
  | _ => none

/-- A filter is what its text says, with one rule for each target and those with a longer target last. -/
theorem read_eq (text : String) : read text =
    match parse text.toList with
    | some spec => (ofDirectives (spec.directives.foldl addDirective []) spec.pattern, spec.complaints)
    | none => (ofDirectives [] none,
        ["warning: invalid logging spec '" ++ text ++ "' (too many '/'s), ignoring it\n"]) := by
  unfold read parse
  match pieces : Pieces.split '/' text.toList with
  | [] => exact absurd pieces (Pieces.split_ne_nil '/' text.toList)
  | [_] => rfl
  | [_, _] => rfl
  | _ :: _ :: _ :: _ => rfl

theorem parse_of_not_mem {cs : List Char} (none : '/' ∉ cs) : parse cs = some (specOf cs Option.none) := by
  rw [parse, Pieces.split_of_not_mem none]

theorem parse_of_slash {directives pattern : List Char} (none : '/' ∉ directives) (none' : '/' ∉ pattern) :
    parse (directives ++ '/' :: pattern) = some (specOf directives (some pattern)) := by
  rw [parse, Pieces.split_append_sep, Pieces.split_of_not_mem none, Pieces.split_of_not_mem none']
  rfl

/-- A text with one slash at most has directives only, or directives and a pattern. -/
theorem slash_cases {cs : List Char} (few : cs.count '/' ≤ 1) :
    '/' ∉ cs ∨ ∃ directives pattern, cs = directives ++ '/' :: pattern ∧ '/' ∉ directives ∧ '/' ∉ pattern := by
  by_cases mem : '/' ∈ cs
  · obtain ⟨directives, pattern, rfl⟩ := List.append_of_mem mem
    rw [List.count_append, List.count_cons_self] at few
    exact .inr ⟨directives, pattern, rfl, List.count_eq_zero.mp (by omega), List.count_eq_zero.mp (by omega)⟩
  · exact .inl mem

/-! ## Directives behind a text -/

theorem readDirectives_append (ps qs : List (List Char)) :
    readDirectives (ps ++ qs) =
      ((readDirectives ps).1 ++ (readDirectives qs).1, (readDirectives ps).2 ++ (readDirectives qs).2) := by
  induction ps with
  | nil => rfl
  | cons p ps ih =>
    simp only [List.cons_append, readDirectives, ih]
    split
    · rfl
    · split <;> rfl

/-- Directives behind a text come after those of the text, whatever the text ends with. -/
theorem specOf_requests {requests : List (String × Directive)}
    (reads : ∀ r ∈ requests, readDirectives (Pieces.split ',' r.1.toList) = ([r.2], [])) (cs : List Char)
    (pattern : Option (List Char)) :
    specOf (cs ++ requests.flatMap fun r => ',' :: r.1.toList) pattern =
      ⟨(specOf cs pattern).directives ++ requests.map Prod.snd, (specOf cs pattern).complaints, pattern⟩ := by
  induction requests generalizing cs with
  | nil =>
    rw [List.flatMap_nil, List.append_nil, List.map_nil, List.append_nil]
    rfl
  | cons r requests ih =>
    obtain ⟨first, rest⟩ := List.forall_mem_cons.mp reads
    have behind : specOf (cs ++ ',' :: r.1.toList) pattern =
        ⟨(specOf cs pattern).directives ++ [r.2], (specOf cs pattern).complaints, pattern⟩ := by
      rw [specOf, Pieces.split_append_sep, readDirectives_append, first, List.append_nil]
      rfl
    rw [List.flatMap_cons, ← List.append_assoc, ih rest, behind, List.map_cons, List.append_assoc]
    rfl

/-- The rule for records of the instructions that are carried out. -/
def traceDirective : Directive :=
  ⟨some "brume::trace".toList, some .trace⟩

/-- What is asked for, as it is written and as it is read. -/
def requests (trace printCode : Bool) : List (String × Directive) :=
  (if trace then [("brume::trace=trace", traceDirective)] else []) ++
    if printCode then [("brume::code=debug", codeDirective)] else []

/-- The text that asks for it. -/
def requestText (trace printCode : Bool) : List Char :=
  (requests trace printCode).flatMap fun r => ',' :: r.1.toList

/-- The rules that are asked for. -/
def requested (trace printCode : Bool) : List Directive :=
  (requests trace printCode).map Prod.snd

theorem specOf_requestText (cs : List Char) (pattern : Option (List Char)) (trace printCode : Bool) :
    specOf (cs ++ requestText trace printCode) pattern =
      ⟨(specOf cs pattern).directives ++ requested trace printCode, (specOf cs pattern).complaints, pattern⟩ := by
  have reads : ∀ trace printCode, ∀ r ∈ requests trace printCode,
      readDirectives (Pieces.split ',' r.1.toList) = ([r.2], []) := by decide +kernel
  exact specOf_requests (reads trace printCode) cs pattern

theorem slash_not_mem_requestText : ∀ trace printCode, '/' ∉ requestText trace printCode := by
  decide +kernel

/-! ## Texts in effect -/

/-- The text that the options choose. -/
def levelText (verbosity : Nat) (quiet : Bool) : String :=
  if quiet then "error" else verbosityName verbosity

/-- The text in effect before anything is asked for: the user's own unless it is blank. -/
def chosenText (user : Option String) (verbosity : Nat) (quiet : Bool) : String :=
  match user.map Blank.trim with
  | none => levelText verbosity quiet
  | some text => if text.isEmpty then levelText verbosity quiet else text

theorem toList_filterText (user : Option String) (verbosity : Nat) (quiet trace printCode : Bool) :
    (filterText user verbosity quiet trace printCode).toList =
      (chosenText user verbosity quiet).toList ++ requestText trace printCode := by
  have behind : ∀ trace printCode, ((if trace then ",brume::trace=trace" else "") : String).toList ++
      ((if printCode then ",brume::code=debug" else "") : String).toList = requestText trace printCode := by
    decide +kernel
  rw [filterText, String.toList_append, String.toList_append, List.append_assoc, behind]
  rfl

theorem count_trimList_le (c : Char) (cs : List Char) : (Blank.trimList cs).count c ≤ cs.count c := by
  have right : (Blank.trimList cs).count c ≤ (cs.dropWhile Blank.isBlank).count c := by
    rw [Blank.trimList, List.count_reverse, ← List.count_reverse (l := cs.dropWhile Blank.isBlank)]
    exact (List.dropWhile_sublist _).count_le _
  exact right.trans ((List.dropWhile_sublist _).count_le _)

/-- The text in effect has no more slashes than the user's. -/
theorem count_chosenText_le (user : Option String) (verbosity : Nat) (quiet : Bool) :
    (chosenText user verbosity quiet).toList.count '/' ≤ (user.getD "").toList.count '/' := by
  have level : (levelText verbosity quiet).toList.count '/' = 0 := by
    unfold levelText verbosityName
    cases quiet with
    | true =>
      rw [if_pos rfl]
      decide
    | false =>
      rw [if_neg Bool.false_ne_true]
      split <;> decide
  cases user with
  | none => exact Nat.le_of_eq level
  | some text =>
    simp only [chosenText, Option.map_some]
    split
    · rw [level]
      exact Nat.zero_le _
    · rw [Blank.trim, String.toList_ofList]
      exact count_trimList_le '/' text.toList

/-! ## Which rule decides -/

/-- A rule that is added replaces those for its target. -/
theorem mem_addDirective {ds : List Directive} {d e : Directive} :
    e ∈ addDirective ds d ↔ e = d ∨ e ∈ ds ∧ e.target ≠ d.target := by
  unfold addDirective
  split
  · next known =>
    obtain ⟨a, mem, same⟩ := List.any_eq_true.mp known
    rw [List.mem_map]
    constructor
    · rintro ⟨b, mem', rfl⟩
      split
      · exact .inl rfl
      · next other => exact .inr ⟨mem', fun same' => other (beq_iff_eq.mpr same')⟩
    · rintro (rfl | ⟨mem', other⟩)
      · exact ⟨a, mem, if_pos same⟩
      · exact ⟨e, mem', if_neg fun same' => other (beq_iff_eq.mp same')⟩
  · next new =>
    rw [List.mem_append, List.mem_singleton, or_comm]
    refine or_congr Iff.rfl ⟨fun mem => ⟨mem, fun same => new ?_⟩, And.left⟩
    exact List.any_eq_true.mpr ⟨e, mem, beq_iff_eq.mpr same⟩

/-- A rule, and the only one for its target. -/
structure Decides (d : Directive) (ds : List Directive) : Prop where
  mem : d ∈ ds
  only : ∀ e ∈ ds, e.target = d.target → e = d

namespace Decides

variable {d e : Directive} {ds : List Directive}

theorem perm (h : Decides d ds) {es : List Directive} (same : es.Perm ds) : Decides d es :=
  ⟨same.mem_iff.mpr h.mem, fun e mem => h.only e (same.mem_iff.mp mem)⟩

theorem added (d : Directive) (ds : List Directive) : Decides d (addDirective ds d) := by
  refine ⟨mem_addDirective.mpr (.inl rfl), fun e mem same => ?_⟩
  rcases mem_addDirective.mp mem with new | ⟨-, other⟩
  · exact new
  · exact absurd same other

/-- A rule for another target changes nothing about it. -/
theorem add (h : Decides d ds) (other : d.target ≠ e.target) : Decides d (addDirective ds e) := by
  refine ⟨mem_addDirective.mpr (.inr ⟨h.mem, other⟩), fun e' mem same => ?_⟩
  rcases mem_addDirective.mp mem with rfl | ⟨old, -⟩
  · exact absurd same.symm other
  · exact h.only e' old same

end Decides

/-- A rule that covers a target and is no shorter than it is one for exactly that target. -/
theorem target_eq_of_covers {e : Directive} {target : List Char} (covered : covers e target = true)
    (le : utf8Length target ≤ targetSize e) (ne : target ≠ []) : e.target = some target := by
  unfold covers at covered
  unfold targetSize at le
  cases start : e.target with
  | none =>
    rw [start] at le
    exact absurd (utf8Length_eq_zero.mp (Nat.le_zero.mp le)) ne
  | some s =>
    rw [start] at covered le
    obtain ⟨more, rfl⟩ := List.isPrefixOf_iff_prefix.mp covered
    rw [Option.map_some, Option.getD_some, utf8ByteSize_ofList, utf8Length_append] at le
    rw [utf8Length_eq_zero.mp (show utf8Length more = 0 by omega), List.append_nil]

/-- Of rules with the longer targets first, the only one for a target is the first that covers it. -/
theorem Decides.find?_of_pairwise {d : Directive} {ds : List Directive} (h : Decides d ds) {target : List Char}
    (ne : target ≠ []) (exactly : d.target = some target)
    (ordered : ds.Pairwise fun a b => targetSize b ≤ targetSize a) : ds.find? (covers · target) = some d := by
  have covered : covers d target = true := by
    unfold covers
    rw [exactly]
    exact List.isPrefixOf_iff_prefix.mpr List.prefix_rfl
  have size : targetSize d = utf8Length target := by
    rw [targetSize, exactly, Option.map_some, Option.getD_some, utf8ByteSize_ofList]
  cases found : ds.find? (covers · target) with
  | none => exact absurd covered (List.find?_eq_none.mp found d h.mem)
  | some e =>
    obtain ⟨covered', before, after, rfl, uncovered⟩ := List.find?_eq_some_iff_append.mp found
    -- the rules in front of `e` are not about the target, so `d` is not one of them
    have le : targetSize d ≤ targetSize e := by
      rcases List.mem_append.mp h.mem with early | late
      · have not_covered := uncovered d early
        simp [covered] at not_covered
      · rcases List.mem_cons.mp late with rfl | late
        · exact Nat.le_refl _
        · exact (List.pairwise_cons.mp (List.pairwise_append.mp ordered).2.1).1 d late
    have same := target_eq_of_covers covered' (size ▸ le) ne
    rw [h.only e (List.mem_append_right _ List.mem_cons_self) (same.trans exactly.symm)]

/-- **The only rule for a target decides** about the records of that target. -/
theorem Decides.find?_eq {d : Directive} {ds : List Directive} (h : Decides d ds) {target : List Char}
    (ne : target ≠ []) (exactly : d.target = some target) (pattern : Option (List Char)) :
    (ofDirectives ds pattern).directives.reverse.find? (covers · target) = some d := by
  have sorted : (ofDirectives ds pattern).directives = ds.mergeSort fun a b => targetSize a ≤ targetSize b := by
    cases ds with
    | nil => cases h.mem
    | cons => rfl
  rw [sorted]
  refine (h.perm ((List.reverse_perm _).trans (List.mergeSort_perm ds _))).find?_of_pairwise ne exactly ?_
  rw [List.pairwise_reverse]
  refine (List.pairwise_mergeSort ?_ ?_ ds).imp of_decide_eq_true
  · intro a b c le le'
    exact decide_eq_true ((of_decide_eq_true le).trans (of_decide_eq_true le'))
  · intro a b
    simp only [Bool.or_eq_true, decide_eq_true_eq]
    exact Nat.le_total _ _

/-- What was requested passes, whatever comes before it. -/
theorem passes_requested (ds : List Directive) (trace printCode : Bool) (pattern : Option (List Char)) :
    let f := ofDirectives ((ds ++ requested trace printCode).foldl addDirective []) pattern
    (trace = true → f.passes .trace "brume::trace" = true) ∧
      (printCode = true → f.passes .debug "brume::code" = true) := by
  intro f
  have different : traceDirective.target ≠ codeDirective.target := by decide +kernel
  have passes {d : Directive} {threshold : Severity} {target : String} (asked : d = ⟨some target.toList, some threshold⟩)
      (ne : target.toList ≠ []) (h : Decides d ((ds ++ requested trace printCode).foldl addDirective [])) :
      f.passes threshold target = true := by
    subst asked
    have found := h.find?_eq ne rfl pattern
    simp only [Filter.passes, f, found]
    exact decide_eq_true (Nat.le_refl _)
  simp only [List.foldl_append] at passes
  generalize ds.foldl addDirective [] = ds at passes
  constructor
  · rintro rfl
    refine passes (d := traceDirective) rfl (by decide) ?_
    cases printCode with
    | false => exact .added traceDirective ds
    | true => exact (Decides.added traceDirective ds).add different
  · rintro rfl
    refine passes (d := codeDirective) rfl (by decide) ?_
    cases trace with
    | false => exact .added codeDirective ds
    | true => exact .added codeDirective (addDirective ds traceDirective)

/-! ## The filter text of a command -/

/-- What a text says with requests behind it, by what it says without them. -/
theorem exists_parse_requests {cs : List Char} (few : cs.count '/' ≤ 1) (trace printCode : Bool) :
    ∃ spec, parse cs = some spec ∧ parse (cs ++ requestText trace printCode) =
      match spec.pattern with
      | none => some { spec with directives := spec.directives ++ requested trace printCode }
      | some pattern => some { spec with pattern := some (pattern ++ requestText trace printCode) } := by
  have none := slash_not_mem_requestText trace printCode
  rcases slash_cases few with bare | ⟨front, back, rfl, bare, bare'⟩
  · have behind : '/' ∉ cs ++ requestText trace printCode := by
      rw [List.mem_append, not_or]
      exact ⟨bare, none⟩
    refine ⟨_, parse_of_not_mem bare, ?_⟩
    rw [parse_of_not_mem behind, specOf_requestText]
    rfl
  · have behind : '/' ∉ back ++ requestText trace printCode := by
      rw [List.mem_append, not_or]
      exact ⟨bare', none⟩
    refine ⟨_, parse_of_slash bare bare', ?_⟩
    rw [List.append_assoc, List.cons_append, parse_of_slash bare behind]
    rfl

/-- **What requests do to a filter text** with one slash at most.  Without a pattern the text says what it said before, with
the requested directives behind its own, and what is asked for passes.  With a pattern its directives are those that it had
before, and the text that asks for more goes on with the pattern. -/
theorem requests_read (user : Option String) (verbosity : Nat) (quiet trace printCode : Bool)
    (few : (user.getD "").toList.count '/' ≤ 1) :
    ∃ spec, parse (chosenText user verbosity quiet).toList = some spec ∧
      (spec.pattern = none →
        parse (filterText user verbosity quiet trace printCode).toList =
            some { spec with directives := spec.directives ++ requested trace printCode } ∧
          (trace = true →
            (read (filterText user verbosity quiet trace printCode)).1.passes .trace "brume::trace" = true) ∧
          (printCode = true →
            (read (filterText user verbosity quiet trace printCode)).1.passes .debug "brume::code" = true)) ∧
      ∀ pattern, spec.pattern = some pattern → parse (filterText user verbosity quiet trace printCode).toList =
        some { spec with pattern := some (pattern ++ requestText trace printCode) } := by
  obtain ⟨⟨rules, complaints, pattern⟩, chosen, behind⟩ :=
    exists_parse_requests ((count_chosenText_le user verbosity quiet).trans few) trace printCode
  rw [← toList_filterText] at behind
  refine ⟨_, chosen, ?_, ?_⟩
  · rintro rfl
    refine ⟨behind, ?_⟩
    rw [read_eq, behind]
    exact passes_requested rules trace printCode none
  · rintro pattern rfl
    exact behind

/-- A text with a comma at its end. -/
theorem requests_read_comma :
    "brume_vm=debug,".toList.count '/' ≤ 1 ∧
      parse (filterText (some "brume_vm=debug,") 0 false true true).toList =
        some ⟨[⟨some "brume_vm".toList, some .debug⟩, traceDirective, codeDirective], [], none⟩ ∧
      (read (filterText (some "brume_vm=debug,") 0 false true true)).1.passes .trace "brume::trace" = true := by
  have few : "brume_vm=debug,".toList.count '/' ≤ 1 := by decide
  have alone : parse (chosenText (some "brume_vm=debug,") 0 false).toList =
      some ⟨[⟨some "brume_vm".toList, some .debug⟩], [], none⟩ := by decide +kernel
  obtain ⟨spec, chosen, bare, -⟩ := requests_read (some "brume_vm=debug,") 0 false true true few
  obtain rfl := Option.some.inj (alone.symm.trans chosen)
  obtain ⟨behind, traces, -⟩ := bare rfl
  exact ⟨few, behind, traces rfl⟩

/-- Requests behind a pattern are lost, and the pattern is another one. -/
theorem requests_lost_behind_pattern :
    (¬ ∀ (user : Option String) (verbosity : Nat) (quiet trace printCode : Bool), (user.getD "").toList.count '/' ≤ 1 →
      parse (filterText user verbosity quiet trace printCode).toList =
        (parse (chosenText user verbosity quiet).toList).map fun spec =>
          { spec with directives := spec.directives ++ requested trace printCode }) ∧
      (read (filterText (some "warn/OP_") 0 false true false)).1.passes .trace "brume::trace" = false := by
  refine ⟨fun claim => ?_, by decide +kernel⟩
  have few : "warn/OP_".toList.count '/' ≤ 1 := by decide
  have differs : parse (filterText (some "warn/OP_") 0 false true false).toList ≠
      (parse (chosenText (some "warn/OP_") 0 false).toList).map fun spec =>
        { spec with directives := spec.directives ++ requested true false } := by decide +kernel
  exact differs (claim (some "warn/OP_") 0 false true false few)

end Filter

end Abacus
