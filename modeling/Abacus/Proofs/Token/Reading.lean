import Abacus.Proofs.Token.Bytes
import Abacus.Token.Scanner

/-!
# Readings

A source is read by the lexical grammar from left to right: a gap, the longest lexeme behind it, and so on up to the end.

* `Cursor.scan_lexeme`, `Cursor.scan_ending`: one token of a reading is one step of a cursor;
* `exists_reads`, `Scanner.yields_of_reads`: every source has a reading, and a scanner hands out its tokens;
* `forall_mem_tokens`, `isNumeral_of_mem_tokens`, `exists_message_of_mem_tokens`: the texts of tokens by their kinds;
* `Lexes.keyword_gap`, `Lexes.number_gap`: reserved words and numerals with a gap behind them are read as a whole.
-/

namespace Abacus

/-! ## Readings -/

/-- A token and the number of bytes in front of its end. -/
structure Span where
  token : Token
  stop : Nat
  deriving DecidableEq

/-- The text that a token carries: an error has its message in place of the source text. -/
def Kind.carried (k : Kind) (text : List Char) : String :=
  match k with
  | .error cause => cause.message
  | _ => String.ofList text

theorem Kind.carried_of_proper {k : Kind} (proper : k.isError = false) (text : List Char) :
    k.carried text = String.ofList text := by
  cases k with
  | error cause => cases proper
  | _ => rfl

/-- The span of a lexeme with a gap in front of it. -/
def Span.read (k : Kind) (offset : Nat) (line : Line) (gap text : List Char) : Span where
  token := ⟨k, lineAfter line (gap ++ text), offset + utf8Length gap, k.carried text⟩
  stop := offset + utf8Length (gap ++ text)

/-- **The reading of a source** from a place on: its spans, up to the end. -/
inductive Reads : Nat → Line → List Char → List Span → Prop
  | ending {offset : Nat} {line : Line} {gap : List Char} : IsGap [] gap →
      Reads offset line gap [.read .eof offset line gap []]
  | lexeme {offset : Nat} {line : Line} {gap text rest : List Char} {k : Kind} {spans : List Span} :
      IsGap (text ++ rest) gap → IsBare (text ++ rest) → Lexes (text ++ rest) k text →
      Reads (offset + utf8Length (gap ++ text)) (lineAfter line (gap ++ text)) rest spans →
      Reads offset line (gap ++ (text ++ rest)) (.read k offset line gap text :: spans)

namespace Lexes

variable {source text : List Char} {k : Kind}

theorem exists_cons (h : Lexes source k text) : ∃ c cs, source = c :: cs := by
  cases h with
  | keyword longest _ | identifier longest _ =>
    obtain ⟨⟨rest, rfl⟩, isWord, -⟩ := longest
    cases text with
    | nil => exact isWord.elim
    | cons c cs => exact ⟨c, cs ++ rest, rfl⟩
  | number longest =>
    obtain ⟨⟨rest, rfl⟩, isNumeral, -⟩ := longest
    cases isNumeral with
    | whole ne _ | point ne _ _ _ =>
      obtain ⟨c, cs, rfl⟩ := List.exists_cons_of_ne_nil ne
      exact ⟨c, _, rfl⟩
  | string split _ | unterminated split _ | unexpected split _ _ _ _ => exact ⟨_, _, split⟩
  | symbol longest _ =>
    obtain ⟨⟨rest, rfl⟩, isSymbol, -⟩ := longest
    obtain ⟨c, -, rfl | ⟨rfl, -⟩⟩ := Lexeme.symbol_cases isSymbol
    all_goals exact ⟨c, _, rfl⟩

theorem ne_nil (h : Lexes source k text) : text ≠ [] := by
  obtain ⟨c, cs, rfl⟩ := h.exists_cons
  obtain ⟨-, rfl⟩ := Lexeme.lexes_iff_scan.mp h
  exact Lexeme.text_ne_nil c cs

theorem ne_eof (h : Lexes source k text) : k ≠ .eof := by
  have words : ∀ p ∈ Kind.keywords, p.2 ≠ .eof := by decide
  have table : ∀ p ∈ symbols, p.2 ≠ .eof := by decide
  cases h with
  | keyword _ mem => exact words _ mem
  | symbol _ mem => exact table _ mem
  | _ => nofun

theorem isNumeral (h : Lexes source .number text) : Decimal.IsNumeral text := by
  obtain ⟨c, cs, rfl⟩ := h.exists_cons
  obtain ⟨kind, rfl⟩ := Lexeme.lexes_iff_scan.mp h
  exact Lexeme.isNumeral_scan kind

/-- A slash stands alone. -/
theorem eq_slash (h : Lexes source .slash text) : text = ['/'] := by
  have words : ∀ p ∈ Kind.keywords, p.2 ≠ .slash := by decide
  have table : ∀ p ∈ symbols, p.2 = .slash → p.1 = ['/'] := by decide
  cases h with
  | keyword _ mem => exact absurd rfl (words _ mem)
  | symbol _ mem => exact table _ mem rfl

end Lexes

namespace Cursor

variable {c : Cursor} {gap text rest : List Char} {k : Kind}

/-- One lexeme, read from a cursor. -/
theorem scan_lexeme (split : c.rest = gap ++ (text ++ rest)) (isGap : IsGap (text ++ rest) gap)
    (bare : IsBare (text ++ rest)) (lexes : Lexes (text ++ rest) k text) :
    c.scan = ((Span.read k c.offset c.line gap text).token, c.pass (gap ++ text) rest) := by
  have start : c.skipGap = c.pass gap (text ++ rest) := skipGap_eq split isGap bare
  obtain ⟨ch, chs, source⟩ := lexes.exists_cons
  rw [source] at lexes start
  obtain ⟨rfl, rfl⟩ := Lexeme.lexes_iff_scan.mp lexes
  have after : (Lexeme.scan ch chs).rest = rest := by
    have := Lexeme.text_append_rest ch chs
    rw [← source] at this
    exact List.append_cancel_left this
  rw [scan_of_skipGap start]
  simp only [taken, after, Span.read, pass, lineAfter_append, utf8Length_append, Nat.add_assoc]
  rfl

/-- The end, read from a cursor. -/
theorem scan_ending (isGap : IsGap [] c.rest) :
    c.scan = ((Span.read .eof c.offset c.line c.rest []).token, c.pass c.rest []) := by
  have start : c.skipGap = c.pass c.rest [] :=
    skipGap_eq (List.append_nil _).symm isGap ⟨nofun, by decide⟩
  simp only [scan, start, Span.read, List.append_nil]
  rfl

end Cursor

/-! ## There is one reading -/

theorem exists_reads (offset : Nat) (line : Line) (cs : List Char) : ∃ spans, Reads offset line cs spans := by
  induction hn : cs.length using Nat.strongRecOn generalizing offset line cs with
  | ind n ih =>
    obtain ⟨gap, rest, rfl, isGap, bare⟩ := Cursor.exists_gap cs
    cases rest with
    | nil =>
      rw [List.append_nil]
      exact ⟨_, .ending isGap⟩
    | cons c cs =>
      have lexes := Lexeme.lexes_scan c cs
      rw [← Lexeme.text_append_rest c cs] at isGap bare lexes hn ⊢
      have shorter : (Lexeme.scan c cs).rest.length < n := by
        have := Lexeme.length_rest_lt c cs
        rw [← Lexeme.text_append_rest c cs] at this
        rw [← hn, List.length_append]
        exact Nat.lt_of_lt_of_le this (Nat.le_add_left ..)
      obtain ⟨spans, reads⟩ := ih _ shorter _ _ _ rfl
      exact ⟨_, .lexeme isGap bare lexes reads⟩

/-! ## Scanners -/

namespace Scanner

/-- A scanner hands out the tokens of these spans, one by one, and has none left at the end. -/
inductive Yields : Scanner → List Span → Scanner → Prop
  | finished {s : Scanner} : s.next?.1 = none → Yields s [] s
  | token {s last : Scanner} {t : Token} {spans : List Span} : s.next?.1 = some t → Yields s.next?.2 spans last →
      Yields s (⟨t, s.next?.2.cursor.offset⟩ :: spans) last

theorem Yields.unique {s last last' : Scanner} {spans spans' : List Span} (h : Yields s spans last)
    (h' : Yields s spans' last') : spans = spans' ∧ last = last' := by
  induction h generalizing spans' with
  | finished none =>
    cases h' with
    | finished => exact ⟨rfl, rfl⟩
    | token some => rw [none] at some; cases some
  | token some _ ih =>
    cases h' with
    | finished none => rw [none] at some; cases some
    | token some' rest =>
      obtain ⟨rfl, rfl⟩ := ih rest
      obtain rfl := Option.some.inj (some.symm.trans some')
      exact ⟨rfl, rfl⟩

theorem next?_of_scan {c c' : Cursor} {t : Token} (h : c.scan = (t, c')) :
    next? ⟨c, false⟩ = (some t, ⟨c', t.kind == .eof⟩) := by
  simp [next?, h]

theorem Yields.of_scan {c c' : Cursor} {t : Token} {spans : List Span} {last : Scanner} (h : c.scan = (t, c'))
    (rest : Yields ⟨c', t.kind == .eof⟩ spans last) : Yields ⟨c, false⟩ (⟨t, c'.offset⟩ :: spans) last := by
  have next := next?_of_scan h
  have first : Yields ⟨c, false⟩ (⟨t, (next? ⟨c, false⟩).2.cursor.offset⟩ :: spans) last :=
    .token (by rw [next]) (by rw [next]; exact rest)
  rwa [next] at first

/-- What the reading of a source gives is handed out, up to the end. -/
theorem yields_of_reads {offset : Nat} {line : Line} {cs : List Char} {spans : List Span}
    (h : Reads offset line cs spans) :
    Yields ⟨⟨cs, offset, line⟩, false⟩ spans ⟨⟨[], offset + utf8Length cs, lineAfter line cs⟩, true⟩ := by
  induction h with
  | @ending offset line gap isGap =>
    have scanned := Cursor.scan_ending (c := ⟨gap, offset, line⟩) isGap
    have atEnd : Yields ⟨⟨[], offset + utf8Length gap, lineAfter line gap⟩, true⟩ [] _ := .finished rfl
    simpa only [Span.read, Cursor.pass, List.append_nil] using Yields.of_scan scanned atEnd
  | @lexeme offset line gap text rest k spans isGap bare lexes _ ih =>
    have scanned := Cursor.scan_lexeme (c := ⟨_, offset, line⟩) rfl isGap bare lexes
    have goes : (k == .eof) = false := beq_eq_false_iff_ne.mpr lexes.ne_eof
    rw [← List.append_assoc, utf8Length_append, lineAfter_append, ← Nat.add_assoc]
    rw [← goes] at ih
    rw [List.append_assoc]
    exact Yields.of_scan scanned ih

end Scanner

/-- The tokens ahead of a lexeme are its own and those behind it. -/
theorem Cursor.ahead_lexeme {gap text rest : List Char} {k : Kind} (isGap : IsGap (text ++ rest) gap)
    (bare : IsBare (text ++ rest)) (lexes : Lexes (text ++ rest) k text) (offset : Nat) (line : Line) :
    ahead ⟨gap ++ (text ++ rest), offset, line⟩ = (Span.read k offset line gap text).token ::
      ahead ⟨rest, offset + utf8Length (gap ++ text), lineAfter line (gap ++ text)⟩ := by
  have scanned := scan_lexeme (c := ⟨_, offset, line⟩) rfl isGap bare lexes
  have goes : (scan ⟨gap ++ (text ++ rest), offset, line⟩).1.kind ≠ .eof := by
    rw [scanned]
    exact lexes.ne_eof
  rw [ahead_of_ne_eof goes, scanned]
  rfl

theorem Cursor.ahead_ending {gap : List Char} (isGap : IsGap [] gap) (offset : Nat) (line : Line) :
    ahead ⟨gap, offset, line⟩ = [(Span.read .eof offset line gap []).token] := by
  have scanned := scan_ending (c := ⟨gap, offset, line⟩) isGap
  have eof : (scan ⟨gap, offset, line⟩).1.kind = .eof := by rw [scanned]; rfl
  rw [ahead_of_eof eof, scanned]

theorem Cursor.ahead_of_reads {offset : Nat} {line : Line} {cs : List Char} {spans : List Span}
    (h : Reads offset line cs spans) : ahead ⟨cs, offset, line⟩ = spans.map Span.token := by
  induction h with
  | ending isGap => exact ahead_ending isGap _ _
  | lexeme isGap bare lexes _ ih => rw [ahead_lexeme isGap bare lexes, ih, List.map_cons]

theorem exists_reads_tokens (source : String) :
    ∃ spans, Reads 0 1 source.toList spans ∧ tokens source = spans.map Span.token := by
  obtain ⟨spans, reads⟩ := exists_reads 0 1 source.toList
  exact ⟨spans, reads, Cursor.ahead_of_reads reads⟩

theorem Reads.forall_token {p : Kind → String → Prop} (ending : p .eof "")
    (lexeme : ∀ {source text : List Char} {k : Kind}, Lexes source k text → p k (k.carried text)) {offset : Nat}
    {line : Line} {cs : List Char} {spans : List Span} (h : Reads offset line cs spans) :
    ∀ s ∈ spans, p s.token.kind s.token.text := by
  induction h with
  | ending => exact List.forall_mem_singleton.mpr ending
  | lexeme _ _ lexes _ ih => exact List.forall_mem_cons.mpr ⟨lexeme lexes, ih⟩

/-- What holds of every lexeme and of the end holds of the tokens of a source. -/
theorem forall_mem_tokens {p : Kind → String → Prop} (ending : p .eof "")
    (lexeme : ∀ {source text : List Char} {k : Kind}, Lexes source k text → p k (k.carried text)) (source : String) :
    ∀ t ∈ tokens source, p t.kind t.text := by
  obtain ⟨spans, reads, same⟩ := exists_reads_tokens source
  rw [same]
  exact List.forall_mem_map.mpr (reads.forall_token ending lexeme)

/-- **The text of every number token is a numeral**: digits, or digits on both sides of a point. -/
theorem isNumeral_of_mem_tokens (source : String) :
    ∀ t ∈ tokens source, t.kind = .number → Decimal.IsNumeral t.text.toList := by
  refine forall_mem_tokens (p := fun k text => k = .number → Decimal.IsNumeral text.toList) nofun ?_ source
  rintro source text k lexes rfl
  rw [Kind.carried_of_proper rfl, String.toList_ofList]
  exact lexes.isNumeral

/-- The text of every error token is the message of its cause. -/
theorem exists_message_of_mem_tokens (source : String) :
    ∀ t ∈ tokens source, t.kind.isError = true → ∃ cause : LexicalError, t.text = cause.message := by
  refine forall_mem_tokens (p := fun k text => k.isError = true → ∃ cause, text = LexicalError.message cause) nofun
    ?_ source
  intro source text k _ error
  cases k with
  | error cause => exact ⟨cause, rfl⟩
  | _ => cases error

/-! ## In front of a gap -/

/-- The characters that a gap can start with. -/
def gapHeads : List Char :=
  [' ', '\t', '\r', '\n', '/']

theorem isBare_cons {p : Char → Bool} (none : gapHeads.all (fun c => !p c) = true) {c : Char} (hc : p c = true)
    (cs : List Char) : IsBare (c :: cs) := by
  have head : c ∉ gapHeads := by
    intro mem
    have := List.all_eq_true.mp none c mem
    simp [hc] at this
  simp only [gapHeads, List.mem_cons, List.not_mem_nil, or_false, not_or] at head
  refine ⟨?_, fun slashes => head.2.2.2.2 (List.cons_prefix_cons.mp slashes).1.symm⟩
  exact forall_mem_head?_cons.mpr (by simp [head])

namespace IsGap

variable {gap : List Char} (h : IsGap [] gap)
include h

theorem head_mem : ∀ c ∈ gap.head?, c ∈ gapHeads := by
  cases h with
  | nil => nofun
  | blank blank _ => exact forall_mem_head?_cons.mpr (List.mem_append_left ['/'] blank)
  | comment _ _ _ => exact forall_mem_head?_cons.mpr (by decide)

theorem head_eq_false {p : Char → Bool} (none : gapHeads.all (fun c => !p c) = true) : ∀ c ∈ gap.head?, p c = false := by
  intro c hc
  simpa using List.all_eq_true.mp none c (h.head_mem c hc)

theorem noFraction : Lexeme.NoFraction gap := by
  rintro d more rfl
  have point := h.head_mem '.' rfl
  simp [gapHeads] at point

end IsGap

/-! ## Single lexemes -/

theorem isWord_of_mem_keywords {text : List Char} {k : Kind} (mem : (String.ofList text, k) ∈ Kind.keywords) :
    IsWord text := by
  have table : ∀ p ∈ Kind.keywords,
      (p.1.toList.head?.any Lexeme.isWordStart && p.1.toList.tail.all Lexeme.isWordChar) = true := by decide
  have word := table _ mem
  rw [String.toList_ofList] at word
  cases text with
  | nil => cases word
  | cons c cs => simpa [IsWord] using word

namespace Lexes

/-- A reserved word ends where a word cannot go on. -/
theorem keyword_of_next {text rest : List Char} {k : Kind} (mem : (String.ofList text, k) ∈ Kind.keywords)
    (next : ∀ c ∈ rest.head?, Lexeme.isWordChar c = false) : Lexes (text ++ rest) k text := by
  have isWord := isWord_of_mem_keywords mem
  cases text with
  | nil => exact isWord.elim
  | cons c cs =>
    have longest := Lexeme.isLongest_word isWord.1 (cs ++ rest)
    rw [Lexeme.word_append isWord.2 next] at longest
    exact .keyword longest mem

variable {text gap : List Char} (isGap : IsGap [] gap)
include isGap

/-- A reserved word ends in front of a gap. -/
theorem keyword_gap {k : Kind} (mem : (String.ofList text, k) ∈ Kind.keywords) : Lexes (text ++ gap) k text :=
  keyword_of_next mem (isGap.head_eq_false (by decide))

/-- A numeral ends in front of a gap. -/
theorem number_gap (isNumeral : Decimal.IsNumeral text) : Lexes (text ++ gap) .number text := by
  have next : ∀ c ∈ gap.head?, c.isDigit = false := isGap.head_eq_false (by decide)
  cases isNumeral with
  | whole ne digits =>
    obtain ⟨c, cs, rfl⟩ := List.exists_cons_of_ne_nil ne
    obtain ⟨hc, hcs⟩ := List.forall_mem_cons.mp digits
    have longest := Lexeme.isLongest_number hc (cs ++ gap)
    rw [Lexeme.number_append hcs next isGap.noFraction] at longest
    exact .number longest
  | @point ds fs ne digits ne' digits' =>
    obtain ⟨c, cs, rfl⟩ := List.exists_cons_of_ne_nil ne
    obtain ⟨d, fs, rfl⟩ := List.exists_cons_of_ne_nil ne'
    obtain ⟨hc, hcs⟩ := List.forall_mem_cons.mp digits
    obtain ⟨hd, hfs⟩ := List.forall_mem_cons.mp digits'
    have longest := Lexeme.isLongest_number hc (cs ++ '.' :: d :: (fs ++ gap))
    rw [Lexeme.number_append_fraction hcs hd hfs next] at longest
    simpa using Lexes.number longest

end Lexes

/-- A minus sign stands alone. -/
theorem Lexes.minus (cs : List Char) : Lexes ('-' :: cs) .minus ['-'] :=
  Lexeme.lexes_scan '-' cs

theorem Decimal.IsNumeral.isBare {text : List Char} (h : IsNumeral text) (rest : List Char) : IsBare (text ++ rest) := by
  obtain ⟨c, cs, rfl, digit⟩ := h.exists_cons
  exact isBare_cons (p := Char.isDigit) (by decide) digit _

theorem IsWord.isBare {text : List Char} (h : IsWord text) (rest : List Char) : IsBare (text ++ rest) := by
  cases text with
  | nil => exact h.elim
  | cons c cs => exact isBare_cons (by decide) h.1 _

namespace Reads

/-- A single lexeme, read. -/
theorem single (offset : Nat) (line : Line) {k : Kind} {text gap : List Char} (bare : IsBare (text ++ gap))
    (lexes : Lexes (text ++ gap) k text) (isGap : IsGap [] gap) :
    Reads offset line (text ++ gap) [.read k offset line [] text,
      .read .eof (offset + utf8Length text) (lineAfter line text) gap []] :=
  .lexeme .nil bare lexes (.ending isGap)

/-- A minus sign, read. -/
theorem minus {offset : Nat} {line : Line} {cs : List Char} {spans : List Span} (h : Reads (offset + 1) line cs spans) :
    Reads offset line ('-' :: cs) (.read .minus offset line [] ['-'] :: spans) := by
  show Reads offset line ([] ++ (['-'] ++ cs)) _
  exact .lexeme .nil (isBare_cons (p := (· == '-')) (by decide) rfl cs) (.minus cs) h

theorem tokens_ofList {cs : List Char} {spans : List Span} (h : Reads 0 1 cs spans) :
    tokens (String.ofList cs) = spans.map Span.token := by
  have ahead : Cursor.ahead ⟨(String.ofList cs).toList, 0, 1⟩ = spans.map Span.token := by
    rw [String.toList_ofList, Cursor.ahead_of_reads h]
  exact ahead

end Reads

end Abacus
