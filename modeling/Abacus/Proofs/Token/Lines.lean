import Abacus.Proofs.Token.Joining
import Mathlib.Data.List.Count

/-!
# Lines of tokens

A token is on the line on which it ends, whether it is a string over several lines, an error or the end of the source: its
line is one more than the number of line feeds in front of its end.

* `Reads.line_eq`: the line of a token in a reading, from any place on;
* `Reads.pairwise_stop`: the ends of the tokens come one behind the other, and so do their lines.
-/

namespace Abacus

/-! ## Line feeds -/

/-- The line feeds among the first bytes of a source. -/
def lineFeedsBefore (source : String) (stop : Nat) : Nat :=
  (source.toUTF8.data.toList.take stop).count '\n'.toUInt8

theorem lineFeedsBefore_mono (source : String) {a b : Nat} (le : a ≤ b) :
    lineFeedsBefore source a ≤ lineFeedsBefore source b :=
  List.Sublist.count_le _ (List.take_sublist_take_left le)

/-- The line feeds among the bytes of a text are those of the text. -/
theorem count_bytesOf (cs : List Char) : (bytesOf cs).count '\n' = cs.count '\n' := by
  induction cs with
  | nil => rfl
  | cons c cs ih =>
    have first : (bytesOf [c]).count '\n' = [c].count '\n' := by
      by_cases feed : c = '\n'
      · rw [feed, bytesOf_ascii (by decide)]
      · have all : ∀ d ∈ [c], (d != '\n') = true := by simpa using feed
        have none : '\n' ∉ bytesOf [c] := by
          intro mem
          simpa using (uniform_bne (by decide)).all_bytes all _ mem
        rw [List.count_eq_zero_of_not_mem none, List.count_eq_zero_of_not_mem (by simpa using Ne.symm feed)]
    rw [bytesOf_cons, List.count_append, first, ih, ← List.count_append]
    rfl

/-- In front of a place there are the line feeds of the text in front of it. -/
theorem lineFeedsBefore_place {source : String} {before after : List Char} (split : source.toList = before ++ after) :
    lineFeedsBefore source (utf8Length before) = before.count '\n' := by
  have injective : Function.Injective Char.ofUInt8 := by
    intro a b same
    have numbers := congrArg Char.toNat same
    rw [toNat_ofUInt8, toNat_ofUInt8] at numbers
    exact UInt8.toNat_inj.mp numbers
  have bytes : (source.toUTF8.data.toList.take (utf8Length before)).map Char.ofUInt8 = bytesOf before := by
    have whole := bytesOf_toList source
    rw [split, bytesOf_append] at whole
    rw [List.map_take, ← length_bytesOf, show source.toUTF8 = source.toByteArray from rfl, ← whole, List.take_left]
  rw [← count_bytesOf before, ← bytes]
  exact (List.count_map_of_injective _ _ injective _).symm

theorem lineFeedsBefore_le (source : String) (stop : Nat) : lineFeedsBefore source stop ≤ source.toList.count '\n' := by
  have size : utf8Length source.toList = source.toUTF8.data.toList.length := by
    rw [← length_bytesOf, ← utf8ByteSize_eq]
    exact (Array.length_toList).symm
  have whole := lineFeedsBefore_place (List.append_nil source.toList).symm
  rw [← whole, size, lineFeedsBefore, lineFeedsBefore, List.take_length]
  exact List.Sublist.count_le _ (List.take_sublist _ _)

/-! ## Readings -/

/-- A lexeme, or the end, is on the line on which it ends. -/
theorem Span.line_read (k : Kind) {source : String} {before gap text rest : List Char}
    (split : source.toList = before ++ (gap ++ text) ++ rest) :
    (Span.read k (utf8Length before) (lineAfter 1 before) gap text).token.line =
      1 + UInt32.ofNat (lineFeedsBefore source (Span.read k (utf8Length before) (lineAfter 1 before) gap text).stop) := by
  simp only [Span.read]
  rw [← utf8Length_append, lineFeedsBefore_place split, ← lineAfter_append, lineAfter_eq]

namespace Reads

variable {offset : Nat} {line : Line} {cs : List Char} {spans : List Span}

/-- **The line of a token** is moved on by the line feeds in front of the end of the token. -/
theorem line_eq (h : Reads offset line cs spans) {source : String} {before : List Char}
    (split : source.toList = before ++ cs) (place : offset = utf8Length before) (here : line = lineAfter 1 before) :
    ∀ s ∈ spans, s.token.line = 1 + UInt32.ofNat (lineFeedsBefore source s.stop) := by
  induction h generalizing before with
  | @ending offset line gap _ =>
    subst place here
    intro s hs
    rw [List.mem_singleton.mp hs]
    have split' : source.toList = before ++ (gap ++ []) ++ [] := by simpa using split
    exact Span.line_read .eof split'
  | @lexeme offset line gap text rest k spans _ _ _ _ ih =>
    subst place here
    have split' : source.toList = before ++ (gap ++ text) ++ rest := by simpa using split
    intro s hs
    rcases List.mem_cons.mp hs with rfl | hs
    · exact Span.line_read k split'
    · exact ih split' (utf8Length_append before _).symm (lineAfter_append 1 before _).symm s hs

/-- The ends of the tokens come one behind the other. -/
theorem pairwise_stop (h : Reads offset line cs spans) :
    (∀ s ∈ spans, offset ≤ s.stop) ∧ spans.Pairwise fun a b => a.stop ≤ b.stop := by
  induction h with
  | ending _ =>
    refine ⟨?_, List.pairwise_singleton _ _⟩
    intro s hs
    rw [List.mem_singleton.mp hs]
    exact Nat.le_add_right ..
  | lexeme _ _ _ _ ih =>
    obtain ⟨later, ordered⟩ := ih
    refine ⟨?_, List.pairwise_cons.mpr ⟨later, ordered⟩⟩
    intro s hs
    rcases List.mem_cons.mp hs with rfl | hs
    · exact Nat.le_add_right ..
    · exact Nat.le_trans (Nat.le_add_right ..) (later s hs)

end Reads

/-! ## Sources -/

section Sources

variable {source : String} {spans : List Span} (reads : Reads 0 1 source.toList spans)
  (few : source.toList.count '\n' < UInt32.size - 1)
include reads few

/-- As long as lines can be counted, a token is on the line after the line feeds in front of its end. -/
theorem toNat_line_of_reads : ∀ s ∈ spans, s.token.line.toNat = 1 + lineFeedsBefore source s.stop := by
  intro s hs
  have one : (1 : UInt32).toNat = 1 := rfl
  have size : UInt32.size = 2 ^ 32 := rfl
  have le := lineFeedsBefore_le source s.stop
  rw [reads.line_eq (List.nil_append _).symm rfl rfl s hs, UInt32.toNat_add, UInt32.toNat_ofNat', one]
  omega

/-- Lines never decrease. -/
theorem pairwise_line_of_reads : (spans.map Span.token).Pairwise fun t u => t.line ≤ u.line := by
  rw [List.pairwise_map]
  refine reads.pairwise_stop.2.imp_of_mem ?_
  intro a b ha hb le
  rw [UInt32.le_iff_toNat_le, toNat_line_of_reads reads few a ha, toNat_line_of_reads reads few b hb]
  exact Nat.add_le_add_left (lineFeedsBefore_mono source le) 1

end Sources

end Abacus
