import Abacus.Proofs.Token.Joining

/-!
# The normal form of a source

The texts of the tokens of a source with single spaces between them.  The space ends every token where it ended before, so
the normal form of a source without errors has the same tokens, at other places, and is its own normal form.

* `Reads.respaced`: the reading of a normal form;
* `tokens_normalForm`: what the normal form of a source without errors keeps.
-/

namespace Abacus

/-- What is left of a token when its place is forgotten. -/
def Token.content (t : Token) : Kind × String :=
  (t.kind, t.text)

/-- The texts of the tokens in front of the end, with single spaces between them. -/
def normalForm (source : String) : String :=
  " ".intercalate (((tokens source).filter (·.kind ≠ .eof)).map Token.text)

/-- The texts in front of the end, from the contents of tokens. -/
def writtenTexts (contents : List (Kind × String)) : List (List Char) :=
  (contents.filter (·.1 ≠ .eof)).map fun p => p.2.toList

theorem toList_normalForm (source : String) :
    (normalForm source).toList = [' '].intercalate (writtenTexts ((tokens source).map Token.content)) := by
  rw [normalForm, String.toList_intercalate, writtenTexts, List.filter_map, List.map_map, List.map_map]
  rfl

/-- Sources whose tokens have the same contents have the same normal form. -/
theorem normalForm_congr {source source' : String}
    (same : (tokens source).map Token.content = (tokens source').map Token.content) :
    normalForm source = normalForm source' := by
  apply String.toList_injective
  rw [toList_normalForm, toList_normalForm, same]

theorem writtenTexts_cons {k : Kind} (ne : k ≠ .eof) (text : List Char) (contents : List (Kind × String)) :
    writtenTexts ((k, String.ofList text) :: contents) = text :: writtenTexts contents := by
  rw [writtenTexts, List.filter_cons_of_pos (by simpa using ne), List.map_cons, String.toList_ofList, writtenTexts]

/-- The token of a lexeme that is no error has its text. -/
theorem Span.content_read {k : Kind} (proper : k.isError = false) (offset : Nat) (line : Line) (gap text : List Char) :
    (Span.read k offset line gap text).token.content = (k, String.ofList text) := by
  rw [Token.content, Span.read, Kind.carried_of_proper proper]

namespace Reads

variable {offset : Nat} {line : Line}

/-- Behind the first of some texts there is nothing, or a space and the others, which are read as they are without it. -/
theorem exists_tail (text : List Char) {texts : List (List Char)} {P : List Span → Prop}
    (h : ∀ offset line, ∃ spans, Reads offset line ([' '].intercalate texts) spans ∧ P spans) :
    ∃ tail spans, StartsBlank tail ∧ [' '].intercalate (text :: texts) = text ++ tail ∧
      Reads offset line tail spans ∧ P spans := by
  cases texts with
  | nil =>
    obtain ⟨spans, reads, holds⟩ := h offset line
    exact ⟨[], spans, startsBlank_nil, by simp, reads, holds⟩
  | cons next texts =>
    obtain ⟨spans, reads, holds⟩ := h (offset + 1) line
    have space : IsGap ([' '].intercalate (next :: texts)) [' '] := .blank (by decide) .nil
    refine ⟨_, spans, startsBlank_cons (by decide) _, ?_, behind_gap space reads, holds⟩
    rw [List.intercalate_cons_cons, List.append_assoc]
    rfl

/-- **The texts of a reading with single spaces between them** are read as the same lexemes, from any place on. -/
theorem respaced {cs : List Char} {spans : List Span} (h : Reads offset line cs spans)
    (proper : ∀ s ∈ spans, s.token.kind.isError = false) (offset' : Nat) (line' : Line) :
    ∃ spans', Reads offset' line' ([' '].intercalate (writtenTexts (spans.map (·.token.content)))) spans' ∧
      spans'.map (·.token.content) = spans.map (·.token.content) := by
  induction h generalizing offset' line' with
  | ending => exact ⟨_, .ending .nil, rfl⟩
  | @lexeme offset line gap text rest k spans _ bare lexes _ ih =>
    obtain ⟨first, others⟩ := List.forall_mem_cons.mp proper
    have first : k.isError = false := first
    have terminated : k ≠ .error .unterminatedString := by
      rintro rfl
      cases first
    have content (offset : Nat) (line : Line) (gap : List Char) := Span.content_read first offset line gap text
    obtain ⟨tail, spans', blank, joined, reads, same⟩ := exists_tail text (ih others)
    have bare' : IsBare (text ++ tail) := bare.replace blank [] lexes.ne_nil
    have lexes' : Lexes (text ++ tail) k text := lexes.replace blank [] terminated
    refine ⟨.read k offset' line' [] text :: spans', ?_, ?_⟩
    · rw [List.map_cons, content, writtenTexts_cons lexes.ne_eof, joined]
      exact .lexeme .nil bare' lexes' reads
    · rw [List.map_cons, List.map_cons, content, content, same]

end Reads

/-- **Tokens scan to themselves.**  The normal form of a source without errors has tokens with the same kinds and texts,
no error among them, and it is its own normal form. -/
theorem tokens_normalForm (source : String) (proper : ∀ t ∈ tokens source, t.kind.isError = false) :
    (tokens (normalForm source)).map (fun t => (t.kind, t.text)) = (tokens source).map (fun t => (t.kind, t.text)) ∧
      (∀ t ∈ tokens (normalForm source), t.kind.isError = false) ∧
      normalForm (normalForm source) = normalForm source := by
  obtain ⟨spans, reads, written⟩ := exists_reads_tokens source
  have proper' : ∀ s ∈ spans, s.token.kind.isError = false := by
    intro s hs
    refine proper s.token ?_
    rw [written]
    exact List.mem_map_of_mem hs
  have contents : spans.map (·.token.content) = (tokens source).map Token.content := by
    rw [written, List.map_map]
    rfl
  obtain ⟨spans', reads', same⟩ := reads.respaced proper' 0 1
  rw [contents, ← toList_normalForm] at reads'
  have same : (tokens (normalForm source)).map Token.content = (tokens source).map Token.content := by
    have ahead : tokens (normalForm source) = spans'.map Span.token := Cursor.ahead_of_reads reads'
    rw [ahead, List.map_map, ← contents, ← same]
    rfl
  refine ⟨same, fun t ht => ?_, normalForm_congr same⟩
  obtain ⟨u, hu, content⟩ : ∃ u ∈ tokens source, u.content = t.content := by
    rw [← List.mem_map, ← same]
    exact List.mem_map_of_mem ht
  have kind : u.kind = t.kind := congrArg Prod.fst content
  rw [← kind]
  exact proper u hu

/-- Tokens that touch each other, a string with slashes over two lines, and a comment. -/
theorem tokens_normalForm_touching :
    (∀ t ∈ tokens "1.5.a!=!\"x\n//\"/ / // y", t.kind.isError = false) ∧
      normalForm "1.5.a!=!\"x\n//\"/ / // y" = "1.5 . a != ! \"x\n//\" / /" ∧
      (tokens "1.5 . a != ! \"x\n//\" / /").map (fun t => (t.kind, t.text)) =
        (tokens "1.5.a!=!\"x\n//\"/ / // y").map (fun t => (t.kind, t.text)) := by
  have proper : ∀ t ∈ tokens "1.5.a!=!\"x\n//\"/ / // y", t.kind.isError = false := by decide +kernel
  have form : normalForm "1.5.a!=!\"x\n//\"/ / // y" = "1.5 . a != ! \"x\n//\" / /" := by decide +kernel
  have kept := (tokens_normalForm _ proper).1
  rw [form] at kept
  exact ⟨proper, form, kept⟩

end Abacus
