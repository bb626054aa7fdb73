import Abacus.Proofs.Interpreter.ReadBack
import Abacus.Proofs.Sample.Sums

/-!
# Samples at the limits

The sums use up the constants, the nests of negated groups use up the levels of nesting: a negation and its group take two
of them, and `nil` takes the last one.

* `Sample.exists_isNest`: the tokens of a nest are those of a tree;
* `Sample.IsNest.fits`, `Sample.IsNest.eval`: a nest that is not too deep, and what it evaluates to;
* `Sample.IsNest.stuck`: a nest that is too deep;
* `Sample.samples_meet_limits`: which of the samples compile, and what is reported about the others.
-/

namespace Abacus.Sample

/-! ## Texts -/

/-- The text of a nest. -/
def nest : Nat → List Char
  | 0 => ['n', 'i', 'l']
  | d + 1 => ['!'] ++ (['('] ++ (nest d ++ [')']))

theorem toList_times_succ (n : Nat) (text : String) : (times (n + 1) text).toList = text.toList ++ (times n text).toList := by
  simp [times, List.replicate_succ]

theorem toList_times_succ' (n : Nat) (text : String) : (times (n + 1) text).toList = (times n text).toList ++ text.toList := by
  simp [times, List.replicate_succ']

theorem toList_nestedNot (d : Nat) : (nestedNot d).toList = nest d := by
  induction d with
  | zero => rfl
  | succ d ih =>
    simp only [nestedNot, String.toList_append] at ih ⊢
    rw [toList_times_succ, toList_times_succ', nest, ← ih]
    simp

/-! ## Trees -/

/-- An opening parenthesis of a nest. -/
structure IsOpening (t : Token) : Prop where
  kind : t.kind = .leftParen
  line : t.line = 1
  text : t.text = "("

/-- The tree of a nest. -/
inductive IsNest : Nat → Tree → Prop
  | nil {t : Token} : t.kind = .nilWord → IsNest 0 (.literal .nil t)
  | not {d : Nat} {bang opening closing : Token} {e : Tree} : bang.kind = .bang → IsOpening opening →
      closing.kind = .rightParen → IsNest d e → IsNest (d + 1) (.unary .not bang (.group opening e closing))

open Cursor (ahead ahead_lexeme ahead_ending)

/-- One character of punctuation, read on the first line. -/
theorem ahead_single {c : Char} {k : Kind} {rest : List Char} (bare : IsBare ([c] ++ rest))
    (lexes : Lexes ([c] ++ rest) k [c]) (line : c ≠ '\n') (proper : k.isError = false) (offset : Nat) :
    ∃ t offset', t.kind = k ∧ t.line = 1 ∧ t.text = String.ofList [c] ∧
      ahead ⟨[c] ++ rest, offset, 1⟩ = t :: ahead ⟨rest, offset', 1⟩ := by
  have one : lineAfter 1 ([] ++ [c]) = 1 := lineAfter_of_not_mem (by simpa using line.symm) 1
  have read := ahead_lexeme .nil bare lexes offset 1
  rw [one] at read
  exact ⟨_, _, rfl, one, Kind.carried_of_proper proper _, read⟩

/-- The tokens of a nest, whatever follows it other than more of a word. -/
theorem exists_isNest (d offset : Nat) {rest : List Char} (next : ∀ c ∈ rest.head?, Lexeme.isWordChar c = false) :
    ∃ e offset', IsNest d e ∧ ahead ⟨nest d ++ rest, offset, 1⟩ = e.tokens ++ ahead ⟨rest, offset', 1⟩ := by
  induction d generalizing offset rest with
  | zero =>
    have mem : (String.ofList ['n', 'i', 'l'], Kind.nilWord) ∈ Kind.keywords := by decide
    have read := ahead_lexeme .nil ((isWord_of_mem_keywords mem).isBare rest) (.keyword_of_next mem next) offset 1
    exact ⟨.literal .nil _, _, .nil rfl, read⟩
  | succ d ih =>
    have split : nest (d + 1) ++ rest = ['!'] ++ (['('] ++ (nest d ++ ([')'] ++ rest))) := by simp [nest]
    have single {c : Char} (cs : List Char) (bare : c ∈ ['!', '(', ')']) : IsBare ([c] ++ cs) :=
      isBare_cons (p := (['!', '(', ')'].contains ·)) (by decide) (by simpa using bare) cs
    have next' : ∀ c ∈ ([')'] ++ rest).head?, Lexeme.isWordChar c = false := forall_mem_head?_cons.mpr (by decide)
    obtain ⟨bang, offset, isBang, -, -, readBang⟩ := ahead_single (k := .bang)
      (single (['('] ++ (nest d ++ ([')'] ++ rest))) (by decide)) (Lexeme.lexes_scan '!' _) (by decide) rfl offset
    obtain ⟨opening, offset, isOpening, line, text, readOpening⟩ := ahead_single (k := .leftParen)
      (single (nest d ++ ([')'] ++ rest)) (by decide)) (Lexeme.lexes_scan '(' _) (by decide) rfl offset
    obtain ⟨e, offset, isNest, readInner⟩ := ih offset next'
    obtain ⟨closing, offset, isClosing, -, -, readClosing⟩ := ahead_single (k := .rightParen)
      (single rest (by decide)) (Lexeme.lexes_scan ')' rest) (by decide) rfl offset
    refine ⟨.unary .not bang (.group opening e closing), offset, .not isBang ⟨isOpening, line, text⟩ isClosing isNest, ?_⟩
    rw [split, readBang, readOpening, readInner, readClosing]
    simp [Tree.tokens]

/-- **The tokens of a nest** are those of its tree and the end token. -/
theorem exists_tokens_nestedNot (d : Nat) :
    ∃ e t, IsNest d e ∧ tokens (nestedNot d) = e.tokens ++ [t] ∧ t.kind = .eof := by
  obtain ⟨e, offset, isNest, read⟩ := @exists_isNest d 0 [] nofun
  rw [List.append_nil, ← toList_nestedNot, ahead_ending .nil] at read
  exact ⟨e, _, isNest, read, rfl⟩

/-! ## Nests that are not too deep -/

/-- The value of a nest: `nil`, negated as often as it says. -/
def nestValue (d : Nat) : Value :=
  if d = 0 then .nil else .bool (d % 2 = 1)

theorem isFalsey_nestValue (d : Nat) : (nestValue d).isFalsey = decide ((d + 1) % 2 = 1) := by
  unfold nestValue
  split
  · next zero => subst zero; rfl
  · show (!decide (d % 2 = 1)) = _
    rw [← decide_not]
    exact decide_eq_decide.mpr (by omega)

namespace IsNest

variable {d : Nat} {e : Tree}

theorem derives (h : IsNest d e) : Derives .unary e := by
  induction h with
  | nil isNil => exact .literal isNil
  | not isBang isOpening isClosing _ ih =>
    have inner : Derives .equality _ := ih.of_rank_le (Nat.zero_le _)
    exact .unary isBang (.group isOpening.kind inner isClosing)

theorem nesting_eq (h : IsNest d e) : e.nesting = 2 * d + 1 := by
  induction h with
  | nil => rfl
  | not _ _ _ _ ih =>
    simp only [Tree.nesting, ih]
    omega

theorem numbers_eq (h : IsNest d e) : e.numbers = [] := by
  induction h with
  | nil => rfl
  | not _ _ _ _ ih => exact ih

theorem fits (h : IsNest d e) (le : d ≤ 511) (room : Nat) : Reader.Fits .equality Compilation.maxNesting room e where
  derives := h.derives.of_rank_le (Nat.zero_le _)
  nesting := by
    rw [h.nesting_eq, Compilation.maxNesting]
    omega
  numbers := by
    rw [h.numbers_eq]
    exact Nat.zero_le room

/-- **What a nest evaluates to.** -/
theorem eval (h : IsNest d e) : e.eval 0 = .ok (nestValue d) := by
  induction h with
  | nil => rfl
  | @not d _ _ _ _ _ _ _ _ ih =>
    have negated : nestValue (d + 1) = .bool (nestValue d).isFalsey := by
      rw [isFalsey_nestValue, nestValue, if_neg (Nat.succ_ne_zero d)]
    rw [negated]
    simp only [Tree.eval, ih]
    rfl

/-! ## Nests that are too deep -/

theorem exists_cons (h : IsNest d e) (rest : List Token) : ∃ t ts, e.tokens ++ rest = t :: ts ∧ t.kind.isError = false := by
  cases h with
  | nil isNil => exact ⟨_, _, rfl, by rw [isNil]; rfl⟩
  | not isBang => exact ⟨_, _, rfl, by rw [isBang]; rfl⟩

/-- A reader that has fewer levels left than a nest takes up stops behind an opening parenthesis. -/
theorem stuck (h : IsNest d e) {left : Nat} (deep : left ≤ d) (bound : Nat) (level : Level) (room : Nat) (before : Token)
    (rest : List Token) (opened : left = 0 → IsOpening before) :
    ∃ p t ts, Reader.expression bound (2 * left) level room before (e.tokens ++ rest) =
      .stuck .nestsTooDeeply (p :: t :: ts) ∧ IsOpening p ∧ t.kind.isError = false := by
  -- on the levels left, two for each step into the nest, which goes on behind the parenthesis reported
  induction left generalizing d e level before rest with
  | zero =>
    obtain ⟨t, ts, front, proper⟩ := h.exists_cons rest
    rw [front]
    exact ⟨before, t, ts, rfl, opened rfl, proper⟩
  | succ left ih =>
    cases h with
    | nil => omega
    | @not d bang opening closing e isBang isOpening isClosing inner =>
      obtain ⟨p, t, ts, read, isOpening', proper⟩ :=
        ih inner (Nat.le_of_succ_le_succ deep) .equality opening (closing :: rest) fun _ => isOpening
      refine ⟨p, t, ts, ?_, isOpening', proper⟩
      have tokens : (Tree.unary .not bang (.group opening e closing)).tokens ++ rest =
          bang :: opening :: (e.tokens ++ closing :: rest) := by simp [Tree.tokens]
      have levels : 2 * (left + 1) = 2 * left + 1 + 1 := rfl
      rw [tokens, levels]
      have unary := Reader.operand_unary (Reader.expression bound (2 * left + 1)) room
        (opening :: (e.tokens ++ closing :: rest)) .not isBang
      have group := Reader.operand_group (Reader.expression bound (2 * left)) room (e.tokens ++ closing :: rest)
        isOpening.kind
      rw [Reader.expression, unary, Reader.expression, group, read]
      rfl

end IsNest

/-! ## Compilations -/

theorem report_of_isOpening {p t : Token} (isOpening : IsOpening p) (proper : t.kind.isError = false) (ts : List Token) :
    Complaint.nestsTooDeeply.report (p :: t :: ts) = ⟨1, .lexeme "(", "Expression nests too deeply."⟩ := by
  have proper' : p.kind.isError = false := by rw [isOpening.kind]; rfl
  have report : Complaint.nestsTooDeeply.report (p :: t :: ts) = .atToken p Complaint.nestsTooDeeply.message := by
    simp [Complaint.report, Complaint.lookahead, firstError?, proper, proper']
  rw [report, Diagnostic.atToken, Location.ofToken, isOpening.kind, isOpening.line, isOpening.text]
  rfl

/-- A nest that is not too deep is parsed. -/
theorem exists_parses_nestedNot {d : Nat} (le : d ≤ 511) (c : Chunk) :
    ∃ e t, Parses (nestedNot d) c e t ∧ e.eval 0 = .ok (nestValue d) := by
  obtain ⟨e, t, isNest, read, eof⟩ := exists_tokens_nestedNot d
  exact ⟨e, t, ⟨read, eof, isNest.fits le c.room⟩, isNest.eval⟩

theorem diagnostics_nestedNot_of_deep {d : Nat} (deep : 512 ≤ d) (c : Chunk) :
    (compile (nestedNot d) c).diagnostics = [⟨1, .lexeme "(", "Expression nests too deeply."⟩] := by
  obtain ⟨e, t, isNest, read, -⟩ := exists_tokens_nestedNot d
  obtain ⟨p, u, us, stuck, isOpening, proper⟩ := isNest.stuck deep (tokens (nestedNot d)).length .equality c.room
    (.synthetic .eof 1) [t] nofun
  rw [← read] at stuck
  have source : Reader.source c.room (tokens (nestedNot d)) = .stuck .nestsTooDeeply (p :: u :: us) :=
    Reading.bind_eq_stuck.mpr (.inl stuck)
  rw [compile_diagnostics_of_stuck source, report_of_isOpening isOpening proper]

theorem diagnostics_nestedNot_eq_nil {d : Nat} (le : d ≤ 511) (c : Chunk) :
    (compile (nestedNot d) c).diagnostics = [] := by
  obtain ⟨e, t, parses, -⟩ := exists_parses_nestedNot le c
  exact diagnostics_eq_nil_iff.mpr ⟨e, t, parses⟩

/-- What is reported about a sum, and how many constants it takes up. -/
theorem compile_sumChain (n : Nat) :
    (compile (sumChain (n + 1)) .empty).diagnostics = (report? (n + 1)).toList ∧
      (compile (sumChain (n + 1)) .empty).chunk.constants.size = min (n + 1) 256 := by
  obtain ⟨constants, diagnostic⟩ := added_sumChain n
  exact ⟨congrArg Option.toList diagnostic, constants⟩

theorem compile_sumChain_zero :
    (compile (sumChain 0) .empty).diagnostics = [⟨1, .atEnd, "Expect expression."⟩] := by
  decide +kernel

theorem diagnostics_sumChain_eq_nil_iff (n : Nat) :
    (compile (sumChain n) .empty).diagnostics = [] ↔ 1 ≤ n ∧ n ≤ 256 := by
  cases n with
  | zero =>
    rw [compile_sumChain_zero]
    exact ⟨nofun, fun h => absurd h.1 (Nat.lt_irrefl 0)⟩
  | succ n =>
    rw [(compile_sumChain n).1, Option.toList_eq_nil_iff, report?, ite_eq_left_iff]
    constructor
    · intro none
      refine ⟨Nat.le_add_left 1 n, ?_⟩
      by_contra past
      cases none past
    · intro h past
      exact absurd h.2 past

/-- **The samples meet the limits.**  A sum compiles on its own if and only if it has from 1 to 256 terms.  Without terms an
expression is missing; with more, the first term that finds no constant is reported, and 256 constants are left.  A nest
compiles, after any chunk, if and only if it is at most 511 deep; it evaluates to `nil`, negated as often as it says.  Of a
deeper one a parenthesis is reported that opens too many levels. -/
theorem samples_meet_limits :
    (∀ n, (compile (sumChain n) .empty).diagnostics = [] ↔ 1 ≤ n ∧ n ≤ 256) ∧
    (compile (sumChain 0) .empty).diagnostics = [⟨1, .atEnd, "Expect expression."⟩] ∧
    (∀ n, 256 < n →
      (compile (sumChain n) .empty).diagnostics = [⟨1, .lexeme "256.5", "Too many constants in one chunk."⟩] ∧
        (compile (sumChain n) .empty).chunk.constants.size = 256) ∧
    (∀ d c, (compile (nestedNot d) c).diagnostics = [] ↔ d ≤ 511) ∧
    (∀ d, d ≤ 511 → ∀ i : Interpreter, (i.interpret (nestedNot d)).outcome = .ok ∧
      (i.interpret (nestedNot d)).out = (i.out.writeLine (nestValue d).display).1 ∧
        (i.run (compile (nestedNot d) .empty).chunk).result = .ok (if d = 0 then .nil else .bool (d % 2 = 1))) ∧
    ∀ d c, 512 ≤ d → (compile (nestedNot d) c).diagnostics = [⟨1, .lexeme "(", "Expression nests too deeply."⟩] := by
  refine ⟨diagnostics_sumChain_eq_nil_iff, compile_sumChain_zero, fun n past => ?_, fun d c => ?_, fun d le i => ?_,
    fun d c deep => diagnostics_nestedNot_of_deep deep c⟩
  · obtain ⟨n, rfl⟩ := Nat.exists_eq_add_of_lt past
    obtain ⟨diagnostics, constants⟩ := compile_sumChain (256 + n)
    rw [diagnostics, constants, report?, if_neg (by omega)]
    exact ⟨rfl, by omega⟩
  · constructor
    · intro compiles
      by_contra deep
      rw [diagnostics_nestedNot_of_deep (by omega) c] at compiles
      cases compiles
    · exact fun le => diagnostics_nestedNot_eq_nil le c
  · obtain ⟨e, t, parses, eval⟩ := exists_parses_nestedNot le .empty
    obtain ⟨outcome, out, -, result⟩ := i.interpret_of_eval parses eval
    exact ⟨outcome, out, result⟩

/-- One term too many, and the deepest nest and the next one. -/
theorem samples_meet_limits_past :
    256 < 257 ∧ (compile (sumChain 257) .empty).chunk.constants.size = 256 ∧
      511 ≤ 511 ∧ (∀ i : Interpreter, (i.run (compile (nestedNot 511) .empty).chunk).result = .ok (.bool true)) ∧
      512 ≤ 512 ∧ (compile (nestedNot 512) .empty).diagnostics ≠ [] := by
  obtain ⟨-, -, sums, -, shallow, deep⟩ := samples_meet_limits
  refine ⟨by decide, (sums 257 (by decide)).2, by decide, fun i => (shallow 511 (by decide) i).2.2, by decide, ?_⟩
  rw [deep 512 .empty (by decide)]
  nofun

end Abacus.Sample
