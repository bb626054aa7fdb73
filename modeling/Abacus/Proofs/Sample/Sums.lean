import Abacus.Proofs.Compiler.Demand
import Abacus.Proofs.Token.Joining
import Abacus.Sample

/-!
# Sums as samples

A sum of `n` terms reads as `n` numbers with a plus sign between any two.  Each number takes up a constant, so the first 256
terms are written, the next one is reported, and the rest is read in silence.

* `Sample.terms_ahead`: the tokens of a sum;
* `Sample.Added.emitNumber`, `Sample.added_operators`: what one further term does, and all of them;
* `Sample.added_sumChain`: a compiled sum.
-/

namespace Abacus.Sample

/-! ## Texts -/

/-- The text of the term with index `k`. -/
def term (k : Nat) : List Char :=
  Nat.toDigits 10 k ++ ['.', '5']

/-- The text of `m` further terms, from index `k` on. -/
def terms : Nat → Nat → List Char
  | _, 0 => []
  | k, m + 1 => [' '] ++ (['+'] ++ ([' '] ++ (term k ++ terms (k + 1) m)))

theorem toList_sum (k m : Nat) :
    (" + ".intercalate ((List.range' k (m + 1)).map fun i => Nat.repr i ++ ".5")).toList = term k ++ terms (k + 1) m := by
  induction m generalizing k with
  | zero => simp [term, terms, Nat.repr]
  | succ m ih =>
    rw [List.range'_succ, List.map_cons]
    obtain ⟨t, ts, more⟩ : ∃ t ts, (List.range' (k + 1) (m + 1)).map (fun i => Nat.repr i ++ ".5") = t :: ts :=
      ⟨_, _, rfl⟩
    rw [more, String.intercalate_cons_cons, ← more, String.toList_append, String.toList_append, ih]
    simp [term, terms, Nat.repr]

theorem toList_sumChain (n : Nat) : (sumChain (n + 1)).toList = term 0 ++ terms 1 n := by
  rw [sumChain, List.range_eq_range']
  exact toList_sum 0 n

theorem isNumeral_term (k : Nat) : Decimal.IsNumeral (term k) := by
  refine .point Nat.toDigits_ne_nil ?_ nofun (List.forall_mem_singleton.mpr rfl)
  intro c mem
  exact Nat.isDigit_of_mem_toDigits (by decide) (by decide) mem

theorem lexes_term (k : Nat) {rest : List Char} (blank : StartsBlank rest) : Lexes (term k ++ rest) .number (term k) := by
  have alone : Lexes (term k ++ ([] ++ [])) .number (term k) := .number_gap .nil (isNumeral_term k)
  exact alone.replace blank [] nofun

theorem startsBlank_terms (k m : Nat) : StartsBlank (terms k m) := by
  cases m with
  | zero => exact startsBlank_nil
  | succ m => exact startsBlank_cons (by decide) _

/-! ## Tokens -/

/-- The token of the term with index `k`. -/
structure IsTerm (k : Nat) (t : Token) : Prop where
  kind : t.kind = .number
  line : t.line = 1
  text : t.text = String.ofList (term k)

/-- The tokens of `m` further terms, from index `k` on, and the end token. -/
inductive Terms : Nat → Nat → List Token → Prop
  | ending {k : Nat} {t : Token} : t.kind = .eof → Terms k 0 [t]
  | cons {k m : Nat} {plus number : Token} {ts : List Token} : plus.kind = .plus → IsTerm k number →
      Terms (k + 1) m ts → Terms k (m + 1) (plus :: number :: ts)

open Cursor (ahead ahead_lexeme ahead_ending)

theorem newline_not_mem_term (k : Nat) : '\n' ∉ term k :=
  (isNumeral_term k).not_mem (by decide) (by decide)

/-- A term with a gap in front of it, read on the first line. -/
theorem ahead_term (k offset : Nat) {gap rest : List Char} (isGap : IsGap (term k ++ rest) gap) (line : '\n' ∉ gap)
    (blank : StartsBlank rest) :
    ∃ t offset', IsTerm k t ∧ ahead ⟨gap ++ (term k ++ rest), offset, 1⟩ = t :: ahead ⟨rest, offset', 1⟩ := by
  have one : lineAfter 1 (gap ++ term k) = 1 := by
    refine lineAfter_of_not_mem ?_ 1
    simp [line, newline_not_mem_term]
  rw [ahead_lexeme isGap ((isNumeral_term k).isBare rest) (lexes_term k blank), one]
  exact ⟨_, _, ⟨rfl, one, rfl⟩, rfl⟩

theorem terms_ahead (k m offset : Nat) : Terms k m (ahead ⟨terms k m, offset, 1⟩) := by
  induction m generalizing k offset with
  | zero =>
    rw [terms, ahead_ending .nil]
    exact .ending rfl
  | succ m ih =>
    have space {rest : List Char} : IsGap rest [' '] := .blank (by decide) .nil
    have plus (rest : List Char) : Lexes (['+'] ++ rest) .plus ['+'] := Lexeme.lexes_scan '+' rest
    rw [terms, ahead_lexeme space (isBare_cons (p := (· == '+')) (by decide) rfl _) (plus _)]
    obtain ⟨t, offset', isTerm, read⟩ :=
      ahead_term k (offset + utf8Length ([' '] ++ ['+'])) space (by decide) (startsBlank_terms (k + 1) m)
    have one : lineAfter 1 ([' '] ++ ['+']) = 1 := rfl
    rw [one, read]
    exact .cons rfl isTerm (ih ..)

/-- The tokens of a sum. -/
theorem exists_tokens_sumChain (n : Nat) :
    ∃ t ts, tokens (sumChain (n + 1)) = t :: ts ∧ IsTerm 0 t ∧ Terms 1 n ts := by
  obtain ⟨t, offset, isTerm, read⟩ := @ahead_term 0 0 [] _ .nil nofun (startsBlank_terms 1 n)
  refine ⟨t, _, ?_, isTerm, terms_ahead 1 n offset⟩
  rw [List.nil_append, ← toList_sumChain] at read
  exact read

/-! ## States -/

/-- What is reported after `k` terms. -/
def report? (k : Nat) : Option Diagnostic :=
  if k ≤ 256 then none else some ⟨1, .lexeme "256.5", "Too many constants in one chunk."⟩

/-- A compilation that has written `k` terms, as far as there are constants for them. -/
structure Added (k : Nat) (s : Compilation) : Prop where
  constants : s.chunk.constants.size = min k 256
  diagnostic : s.diagnostic = report? k

namespace Added

variable {k : Nat} {s : Compilation}

theorem emit (h : Added k s) (o : Operation) : Added k (s.emit o) :=
  ⟨h.constants, h.diagnostic⟩

/-- **A further term** takes the next constant.  The first one that finds none is reported. -/
theorem emitNumber (h : Added k s) (isTerm : IsTerm k s.previous) (spelled : s.previous.IsSpelled) :
    Added (k + 1) s.emitNumber := by
  obtain ⟨constants, diagnostic⟩ := h
  have room : 0 < s.chunk.room ↔ k < 256 := by
    unfold Chunk.room Chunk.maxConstants
    omega
  simp only [Compilation.emitNumber, spelled isTerm.kind, Compilation.emitConstant]
  rcases Nat.lt_trichotomy k 256 with fits | rfl | past
  · rw [Chunk.addConstant_of_room (room.mpr fits)]
    refine ⟨?_, ?_⟩
    · show (s.chunk.extend [] [_]).constants.size = _
      rw [Chunk.size_constants_extend, List.length_singleton]
      omega
    · show s.diagnostic = _
      rw [diagnostic, report?, if_pos (by omega), report?, if_pos (by omega)]
  · rw [Chunk.addConstant_of_full fun has => Nat.lt_irrefl _ (room.mp has)]
    refine ⟨constants, ?_⟩
    show s.diagnostic.or (some (.atToken s.previous _)) = _
    rw [diagnostic, Diagnostic.atToken, Location.ofToken, isTerm.kind, isTerm.line, isTerm.text]
    decide
  · rw [Chunk.addConstant_of_full fun has => Nat.lt_asymm past (room.mp has)]
    refine ⟨?_, ?_⟩
    · show s.chunk.constants.size = _
      omega
    · show s.diagnostic.or (some (.atToken s.previous _)) = _
      rw [diagnostic, report?, if_neg (by omega), report?, if_neg (by omega)]
      rfl

end Added

/-! ## Compilations -/

open Compilation (operators expression expression_of_start)

section Compilations

variable {k m : Nat} {s : Compilation}

/-- A proper token behind the one that is looked at is taken up next. -/
theorem pending_advance {t : Token} {ts : List Token} (ahead : s.rest = t :: ts) (proper : t.kind.isError = false) :
    s.advance.pending = t :: ts ∧ s.advance.diagnostic = s.diagnostic := by
  simp [Compilation.pending, Compilation.advance, ahead, Compilation.fetch, proper]

theorem pending_emit (s : Compilation) (o : Operation) : (s.emit o).pending = s.pending :=
  rfl

theorem Added.advance (h : Added k s) {t : Token} {ts : List Token} (ahead : s.rest = t :: ts)
    (proper : t.kind.isError = false) : Added k s.advance :=
  ⟨h.constants, (pending_advance ahead proper).2.trans h.diagnostic⟩

/-- Behind a term there is the end or a plus sign. -/
theorem Terms.exists_cons {ts : List Token} (h : Terms k m ts) :
    ∃ t us, ts = t :: us ∧ t.kind.isError = false ∧ ∀ op, t.kind.binaryOp? = some op → op = .add := by
  cases h with
  | ending eof =>
    refine ⟨_, _, rfl, by rw [eof]; rfl, fun op found => ?_⟩
    rw [eof] at found
    cases found
  | cons plus _ _ =>
    refine ⟨_, _, rfl, by rw [plus]; rfl, fun op found => ?_⟩
    rw [plus] at found
    exact (Option.some.inj found).symm

/-- A number that is taken as an operand. -/
theorem Added.number (h : Added k s) (isTerm : IsTerm k s.current) (spelled : s.current.IsSpelled)
    (terms : Terms (k + 1) m s.rest) :
    Added (k + 1) s.advance.emitNumber ∧ s.advance.emitNumber.pending = s.rest := by
  obtain ⟨t, ts, ahead, proper, -⟩ := terms.exists_cons
  have isLocal := Compilation.IsLocal.emitNumber
  refine ⟨(h.advance ahead proper).emitNumber isTerm spelled, ?_⟩
  rw [Compilation.pending, isLocal.current, isLocal.rest, ahead]
  exact (pending_advance ahead proper).1

/-- Nothing binds as tightly as a factor in front of the end or a plus sign. -/
theorem operators_factor (operand : Level → Compilation → Compilation) (fuel : Nat) {ts : List Token}
    (terms : Terms k m ts) (ahead : s.pending = ts) : operators operand .factor fuel s = s := by
  obtain ⟨t, us, rfl, -, only⟩ := terms.exists_cons
  obtain ⟨rfl, -⟩ := List.cons.inj ahead
  cases fuel with
  | zero => rfl
  | succ fuel =>
    unfold operators
    split
    · next op found =>
      rw [only op found]
      rfl
    · rfl

/-- **All further terms** are added one by one, up to the end. -/
theorem added_operators (bound left : Nat) {fuel : Nat} (terms : Terms k m s.pending) (h : Added k s)
    (spelled : ∀ t ∈ s.rest, t.IsSpelled) (enough : m ≤ fuel) :
    Added (k + m) (operators (expression bound (left + 1)) .equality fuel s) ∧
      ∃ t, (operators (expression bound (left + 1)) .equality fuel s).pending = [t] ∧ t.kind = .eof := by
  -- on the terms left; each takes one step of the fuel, of which there may be more
  induction m generalizing k s fuel with
  | zero =>
    generalize ahead : s.pending = ts at terms
    cases terms with
    | @ending _ t eof =>
      obtain ⟨rfl, -⟩ := List.cons.inj ahead
      have none : s.current.kind.binaryOp? = Option.none := by rw [eof]; rfl
      have stays : operators (expression bound (left + 1)) .equality fuel s = s := by
        cases fuel with
        | zero => rfl
        | succ fuel => simp only [operators, none]
      rw [stays]
      exact ⟨h, _, ahead, eof⟩
  | succ m ih =>
    generalize front : s.pending = ts at terms
    cases terms with
    | @cons _ _ plus number ts isPlus isTerm terms =>
      obtain ⟨rfl, ahead⟩ := List.cons.inj front
      obtain ⟨fuel, rfl⟩ := Nat.exists_eq_add_of_lt (Nat.lt_of_lt_of_le (Nat.zero_lt_succ m) enough)
      rw [Nat.zero_add] at *
      have proper : number.kind.isError = false := by rw [isTerm.kind]; rfl
      obtain ⟨rfl, rfl⟩ := List.cons.inj (pending_advance ahead proper).1
      rw [ahead] at spelled
      obtain ⟨here, later⟩ := List.forall_mem_cons.mp spelled
      obtain ⟨added, behind⟩ := (h.advance ahead proper).number isTerm here terms
      have operator : s.current.kind.binaryOp? = some .add := by rw [isPlus]; rfl
      have found : s.advance.current.kind.operandStart? = some .number := by rw [isTerm.kind]; rfl
      have step : operators (expression bound (left + 1)) .equality (fuel + 1) s =
          operators (expression bound (left + 1)) .equality fuel (s.advance.advance.emitNumber.emit .add) := by
        have operand : expression bound (left + 1) .factor s.advance = s.advance.advance.emitNumber :=
          (expression_of_start found bound left .factor).trans (operators_factor _ bound terms behind)
        rw [operators, operator, ← operand]
        rfl
      have all : k + (m + 1) = k + 1 + m := by omega
      rw [step, all]
      refine ih ?_ (added.emit .add) ?_ (Nat.le_of_succ_le_succ enough)
      · rw [pending_emit, behind]
        exact terms
      · intro t mem
        refine later t ?_
        rw [← behind, ← pending_emit _ .add]
        exact List.mem_cons_of_mem _ mem

/-- The end token is taken where it is expected. -/
theorem Added.expect (h : Added k s) {t : Token} (front : s.pending = [t]) (eof : t.kind = .eof) (c : Complaint) :
    Added k (s.expect .eof c) := by
  obtain ⟨rfl, none⟩ := List.cons.inj front
  rw [Compilation.expect, if_pos eof]
  refine ⟨h.constants, ?_⟩
  simp only [Compilation.advance, none, Compilation.fetch]
  exact h.diagnostic

end Compilations

theorem Terms.length_eq {k m : Nat} {ts : List Token} (h : Terms k m ts) : ts.length = 2 * m + 1 := by
  induction h with
  | ending => rfl
  | cons _ _ _ ih =>
    rw [List.length_cons, List.length_cons, ih]
    omega

/-- **What is left of a sum** that is compiled on its own. -/
theorem added_sumChain (n : Nat) : Added (n + 1) (Compilation.ofTokens (tokens (sumChain (n + 1))) .empty) := by
  obtain ⟨t, ts, read, isTerm, terms⟩ := exists_tokens_sumChain n
  obtain ⟨here, later⟩ : t.IsSpelled ∧ ∀ u ∈ ts, u.IsSpelled := by
    have spelled := (isStream_tokens (sumChain (n + 1))).isSpelled_of_mem
    rw [read] at spelled
    exact List.forall_mem_cons.mp spelled
  have proper : t.kind.isError = false := by rw [isTerm.kind]; rfl
  obtain ⟨s, begun, rfl, rfl, added⟩ : ∃ s, (Compilation.start (t :: ts) .empty).advance = s ∧ s.current = t ∧
      s.rest = ts ∧ Added 0 s := by
    refine ⟨⟨.synthetic .eof 1, t, ts, .empty, none⟩, ?_, rfl, rfl, ⟨rfl, rfl⟩⟩
    simp [Compilation.start, Compilation.advance, Compilation.fetch, proper]
  have found : s.current.kind.operandStart? = some .number := by rw [isTerm.kind]; rfl
  have enough : n ≤ (s.current :: s.rest).length := by
    rw [List.length_cons, terms.length_eq]
    omega
  rw [read, Compilation.ofTokens, begun]
  generalize (s.current :: s.rest).length = bound at *
  obtain ⟨first, behind⟩ := added.number isTerm here terms
  rw [← behind] at terms
  obtain ⟨all, last, front, eof⟩ := added_operators bound 1022 terms first
    (fun u mem => later u (behind ▸ List.mem_cons_of_mem _ mem)) enough
  rw [Nat.add_comm] at all
  have operand : expression bound Compilation.maxNesting .equality s = _ := expression_of_start found bound 1023 .equality
  rw [operand]
  exact (all.expect front eof _).emit .return

end Abacus.Sample
