import Abacus.Proofs.Token.ByteScan

/-!
# Longest matches

Every source has one reading by the lexical grammar, and the scanner hands out its tokens, on bytes as on characters.  Two
slashes side by side start a comment and are never two tokens.
-/

namespace Abacus

/-- These are not the tokens of two slashes, one right behind the other. -/
def SlashesApart (a b : Span) : Prop :=
  a.token.kind = .slash → b.token.kind = .slash → b.token.start ≠ a.stop

/-- A slash token that starts at the very beginning of a text is a slash there. -/
theorem Reads.head?_of_slash {offset : Nat} {line : Line} {cs : List Char} {s : Span} {spans : List Span}
    (h : Reads offset line cs (s :: spans)) (slash : s.token.kind = .slash) (start : s.token.start = offset) :
    cs.head? = some '/' := by
  cases h with
  | ending => cases slash
  | @lexeme _ _ gap text rest k _ isGap _ lexes _ =>
    obtain rfl : k = .slash := slash
    obtain rfl : gap = [] := utf8Length_eq_zero.mp (by simpa [Span.read] using start)
    rw [lexes.eq_slash]
    rfl

theorem Reads.slashesApart {offset : Nat} {line : Line} {cs : List Char} {spans : List Span}
    (h : Reads offset line cs spans) : spans.IsChain SlashesApart := by
  induction h with
  | ending => exact .singleton _
  | @lexeme offset line gap text rest k spans isGap bare lexes reads ih =>
    cases spans with
    | nil => exact .singleton _
    | cons s spans =>
      refine .cons_cons (fun slash slash' start => ?_) ih
      obtain rfl : k = .slash := slash
      obtain ⟨tail, rfl⟩ := List.head?_eq_some_iff.mp (reads.head?_of_slash slash' start)
      rw [lexes.eq_slash] at bare
      exact bare.2 ⟨tail, rfl⟩

/-- **Tokens are the longest match of the lexical grammar.** -/
theorem Scanner.yields_longest_matches (source : String) :
    ∃ spans last last',
      (∀ other, Reads 0 1 source.toList other ↔ other = spans) ∧
      (ofSource source).Yields spans last ∧ (ByteCursor.ofSource source).Yields spans last' ∧
      tokens source = spans.map Span.token ∧
      spans.IsChain SlashesApart := by
  obtain ⟨spans, reads⟩ := exists_reads 0 1 source.toList
  have split : source.toList = [] ++ source.toList := rfl
  have onBytes := ByteCursor.yields_of_reads reads split rfl
  refine ⟨spans, _, _, fun other => ⟨fun reads' => ?_, ?_⟩, yields_of_reads reads, onBytes, ?_, reads.slashesApart⟩
  · exact ((yields_of_reads reads').unique (yields_of_reads reads)).1
  · rintro rfl
    exact reads
  · exact Cursor.ahead_of_reads reads

end Abacus
