import Abacus.Proofs.Token.Reading

/-!
# Sources one behind the other

No token but an unterminated string can go on behind white space: no word, number or symbol holds any, a string that has
ended does not look further, and two slashes with white space between them start no comment.  So the text behind a token
may be replaced from any place on by one that starts with white space, and two sources with a line feed between them have
the tokens of the one and, moved on, those of the other.

* `Lexes.replace`, `IsBare.replace`: a lexeme when the text behind it is replaced;
* `Reads.behind_gap`, `Reads.moved`: a reading with a gap in front of it, or at another place;
* `tokens_append_line`: the tokens of two sources with a line feed between them.
-/

namespace Abacus

/-! ## White space -/

/-- The characters of white space. -/
def blanks : List Char :=
  [' ', '\t', '\r', '\n']

theorem forall_mem_blanks {p : Char → Prop} : (∀ c ∈ blanks, p c) ↔ p ' ' ∧ p '\t' ∧ p '\r' ∧ p '\n' := by
  simp [blanks]

/-- A text that is empty or starts with white space. -/
def StartsBlank (cs : List Char) : Prop :=
  ∀ c ∈ cs.head?, c ∈ blanks

theorem startsBlank_nil : StartsBlank [] :=
  nofun

theorem startsBlank_cons {c : Char} (h : c ∈ blanks) (cs : List Char) : StartsBlank (c :: cs) :=
  forall_mem_head?_cons.mpr h

/-- A text without white space does not go beyond the white space behind another one. -/
theorem isPrefix_of_startsBlank {text front tail : List Char} (begins : text <+: front ++ tail)
    (blank : StartsBlank tail) (none : ∀ c ∈ blanks, c ∉ text) : text <+: front := by
  obtain ⟨rest, split⟩ := begins
  rcases List.append_eq_append_iff.mp split with ⟨more, rfl, -⟩ | ⟨more, rfl, rfl⟩
  · exact List.prefix_append text more
  · cases more with
    | nil => simp
    | cons c more =>
      have mem : c ∈ front ++ c :: more := by simp
      exact absurd mem (none c (blank c rfl))

/-! ## Lexemes in front of white space -/

theorem IsWord.blank_not_mem {text : List Char} (h : IsWord text) : ∀ c ∈ blanks, c ∉ text := by
  have outside : ∀ c ∈ blanks, Lexeme.isWordChar c = false := forall_mem_blanks.mpr (by decide)
  intro c hc
  exact h.not_mem (outside c hc)

theorem Decimal.IsNumeral.blank_not_mem {text : List Char} (h : IsNumeral text) : ∀ c ∈ blanks, c ∉ text := by
  have outside : ∀ c ∈ blanks, c.isDigit = false ∧ c ≠ '.' := forall_mem_blanks.mpr (by decide)
  intro c hc
  exact h.not_mem (outside c hc).1 (outside c hc).2

theorem IsSymbol.blank_not_mem {text : List Char} (h : IsSymbol text) : ∀ c ∈ blanks, c ∉ text := by
  have table : ∀ p ∈ symbols.map Prod.fst, ' ' ∉ p ∧ '\t' ∉ p ∧ '\r' ∉ p ∧ '\n' ∉ p := by decide
  exact forall_mem_blanks.mpr (table text h)

section Replace

variable {text front rest tail : List Char} (blank : StartsBlank tail)
include blank

/-- The longest beginning is the same, if the texts of the class hold no white space. -/
theorem IsLongest.replace {class' : List Char → Prop} (h : IsLongest class' (text ++ (front ++ rest)) text)
    (none : ∀ other, class' other → ∀ c ∈ blanks, c ∉ other) : IsLongest class' (text ++ (front ++ tail)) text where
  isPrefix := List.prefix_append ..
  mem := h.mem
  longest := by
    intro other begins mem
    rw [← List.append_assoc] at begins
    have before : other <+: text ++ front := isPrefix_of_startsBlank begins blank (none other mem)
    refine h.longest other (before.trans ?_) mem
    rw [← List.append_assoc]
    exact List.prefix_append ..

/-- **A lexeme does not change** when the text behind it is replaced, from any place on, by one that starts with white
space; only a string that is not terminated would go on. -/
theorem Lexes.replace (front : List Char) {k : Kind} (h : Lexes (text ++ (front ++ rest)) k text)
    (terminated : k ≠ .error .unterminatedString) : Lexes (text ++ (front ++ tail)) k text := by
  generalize source : text ++ (front ++ rest) = cs at h
  cases h with
  | keyword longest mem =>
    rw [← source] at longest
    exact .keyword (longest.replace blank fun _ => IsWord.blank_not_mem) mem
  | identifier longest free =>
    rw [← source] at longest
    exact .identifier (longest.replace blank fun _ => IsWord.blank_not_mem) free
  | number longest =>
    rw [← source] at longest
    exact .number (longest.replace blank fun _ => Decimal.IsNumeral.blank_not_mem)
  | @string body _ _ none =>
    have split : '"' :: body ++ ['"'] ++ (front ++ tail) = '"' :: body ++ '"' :: (front ++ tail) := by simp
    exact .string split none
  | unterminated => exact absurd rfl terminated
  | symbol longest mem =>
    rw [← source] at longest
    exact .symbol (longest.replace blank fun _ => IsSymbol.blank_not_mem) mem
  | @unexpected c cs split hw hd hq none =>
    refine .unexpected rfl hw hd hq fun other isSymbol begins => none other isSymbol ?_
    rw [← List.append_assoc] at begins
    have before : other <+: [c] ++ front := isPrefix_of_startsBlank begins blank isSymbol.blank_not_mem
    rw [← source, ← List.append_assoc]
    exact before.trans (List.prefix_append ..)

theorem IsBare.replace (front : List Char) (h : IsBare (text ++ (front ++ rest))) (ne : text ≠ []) :
    IsBare (text ++ (front ++ tail)) := by
  obtain ⟨head, slashes⟩ := h
  obtain ⟨c, cs, rfl⟩ := List.exists_cons_of_ne_nil ne
  refine ⟨head, fun begins => slashes ?_⟩
  rw [← List.append_assoc] at begins
  have before : ['/', '/'] <+: c :: cs ++ front := isPrefix_of_startsBlank begins blank (forall_mem_blanks.mpr (by decide))
  refine before.trans ?_
  rw [← List.append_assoc]
  exact List.prefix_append ..

end Replace

/-! ## Gaps -/

namespace IsGap

variable {rest rest' gap gap' : List Char}

/-- A gap depends on the next character only; a line feed is as good as any. -/
theorem of_head (h : IsGap rest gap) (next : ∀ c ∈ rest'.head?, c = '\n' ∨ c ∈ rest.head?) : IsGap rest' gap := by
  induction h with
  | nil => exact .nil
  | blank blank _ ih => exact .blank blank ih
  | @comment body gap none ends _ ih =>
    refine .comment none (fun c hc => ?_) ih
    cases gap with
    | nil => exact (next c hc).elim id (ends c)
    | cons d gap => exact ends c hc

/-- Two gaps side by side are one. -/
theorem append (h : IsGap (gap' ++ rest) gap) (h' : IsGap rest gap') : IsGap rest (gap ++ gap') := by
  induction h with
  | nil => exact h'
  | blank blank _ ih => exact .blank blank ih
  | @comment body gap none ends _ ih =>
    rw [List.append_assoc]
    refine .comment none (fun c hc => ends c ?_) ih
    rwa [List.append_assoc] at hc

end IsGap

/-! ## Lines -/

/-- The line after a text is moved on by the number of its line feeds. -/
theorem lineAfter_eq (line : Line) (cs : List Char) : lineAfter line cs = line + UInt32.ofNat (cs.count '\n') := by
  induction cs generalizing line with
  | nil => simp
  | cons c cs ih =>
    have step : lineAfter line (c :: cs) = lineAfter (if c = '\n' then line + 1 else line) cs := rfl
    rw [step, ih, List.count_cons]
    by_cases feed : c = '\n'
    · simp only [feed, if_true, beq_self_eq_true, UInt32.ofNat_add]
      rw [UInt32.add_assoc, UInt32.add_comm 1]
      rfl
    · simp [feed]

namespace Reads

variable {offset : Nat} {line : Line} {cs : List Char} {spans : List Span}

/-! ## Readings at other places -/

/-- A gap in front of a reading belongs to the gap of its first token. -/
theorem behind_gap {gap : List Char} (isGap : IsGap cs gap)
    (h : Reads (offset + utf8Length gap) (lineAfter line gap) cs spans) : Reads offset line (gap ++ cs) spans := by
  have joined (k : Kind) (gap' text : List Char) : Span.read k (offset + utf8Length gap) (lineAfter line gap) gap' text =
      .read k offset line (gap ++ gap') text := by
    simp [Span.read, Nat.add_assoc]
  cases h with
  | ending isGap' =>
    rw [joined]
    rw [← List.append_nil cs] at isGap
    exact .ending (isGap.append isGap')
  | @lexeme _ _ gap' text rest k spans isGap' bare lexes h =>
    rw [joined, ← List.append_assoc]
    refine .lexeme (isGap.append isGap') bare lexes ?_
    simpa [Nat.add_assoc] using h

end Reads

/-- A token behind further bytes and further lines. -/
def Token.moved (bytes lines : Nat) (t : Token) : Token :=
  { t with start := t.start + bytes, line := t.line + UInt32.ofNat lines }

/-- A span behind further bytes and further lines. -/
def Span.moved (bytes lines : Nat) (s : Span) : Span :=
  ⟨s.token.moved bytes lines, s.stop + bytes⟩

namespace Reads

variable {offset : Nat} {line : Line} {cs : List Char} {spans : List Span}

/-- **A reading at another place** has the same tokens, moved. -/
theorem moved (h : Reads offset line cs spans) (bytes lines : Nat) :
    Reads (offset + bytes) (line + UInt32.ofNat lines) cs (spans.map (Span.moved bytes lines)) := by
  have lineAfter_moved (line : Line) (text : List Char) :
      lineAfter (line + UInt32.ofNat lines) text = lineAfter line text + UInt32.ofNat lines := by
    rw [lineAfter_eq, lineAfter_eq, UInt32.add_assoc, UInt32.add_assoc, UInt32.add_comm (UInt32.ofNat lines)]
  have offset_moved (offset n : Nat) : offset + bytes + n = offset + n + bytes := Nat.add_right_comm ..
  have read_moved (k : Kind) (offset : Nat) (line : Line) (gap text : List Char) :
      (Span.read k offset line gap text).moved bytes lines =
        .read k (offset + bytes) (line + UInt32.ofNat lines) gap text := by
    simp only [Span.moved, Token.moved, Span.read, lineAfter_moved, offset_moved]
  induction h with
  | ending isGap =>
    rw [List.map_singleton, read_moved]
    exact .ending isGap
  | lexeme isGap bare lexes _ ih =>
    rw [List.map_cons, read_moved]
    refine .lexeme isGap bare lexes ?_
    rw [offset_moved, lineAfter_moved]
    exact ih

/-- **A reading goes on behind a line feed** with that of the text behind it. -/
theorem append_line {cs' : List Char} {spans' : List Span} (h : Reads offset line cs spans)
    (terminated : ∀ s ∈ spans, s.token.kind ≠ .error .unterminatedString)
    (h' : Reads (offset + (utf8Length cs + 1)) (lineAfter line cs + 1) cs' spans') :
    Reads offset line (cs ++ '\n' :: cs') (spans.filter (·.token.kind ≠ .eof) ++ spans') := by
  induction h with
  | @ending offset line gap isGap =>
    have feed : IsGap cs' ['\n'] := .blank (by decide) .nil
    have behind : Reads (offset + utf8Length gap) (lineAfter line gap) ('\n' :: cs') spans' := behind_gap feed h'
    have isGap' : IsGap ('\n' :: cs') gap := isGap.of_head fun c hc => .inl (Option.some.inj hc).symm
    have none : [Span.read .eof offset line gap []].filter (·.token.kind ≠ .eof) = [] := rfl
    rw [none]
    exact behind_gap isGap' behind
  | @lexeme offset line gap text rest k spans isGap bare lexes _ ih =>
    have last : StartsBlank ('\n' :: cs') := startsBlank_cons (by decide) cs'
    obtain ⟨first, others⟩ := List.forall_mem_cons.mp terminated
    have goes : (Span.read k offset line gap text).token.kind ≠ .eof := lexes.ne_eof
    have behind := ih others (by simpa [Nat.add_assoc] using h')
    rw [List.filter_cons_of_pos (by simpa using goes), List.append_assoc, List.append_assoc]
    -- the lexeme is looked at with the text behind it as far as the line feed
    rw [← List.append_nil rest] at bare lexes
    refine .lexeme (isGap.of_head fun c hc => .inr ?_) (bare.replace last rest lexes.ne_nil)
      (lexes.replace last rest first) behind
    obtain ⟨d, ds, rfl⟩ := List.exists_cons_of_ne_nil lexes.ne_nil
    exact hc

/-- The line of a token is moved on by some of the line feeds of the text. -/
theorem exists_line_eq (h : Reads offset line cs spans) :
    ∀ s ∈ spans, ∃ n ≤ cs.count '\n', s.token.line = line + UInt32.ofNat n := by
  induction h with
  | @ending offset line gap _ =>
    intro s hs
    rw [List.mem_singleton.mp hs]
    exact ⟨_, Nat.le_refl _, by rw [Span.read, List.append_nil, lineAfter_eq]⟩
  | @lexeme offset line gap text rest k spans _ _ _ _ ih =>
    intro s hs
    rw [← List.append_assoc, List.count_append]
    rcases List.mem_cons.mp hs with rfl | hs
    · exact ⟨_, Nat.le_add_right .., by rw [Span.read, lineAfter_eq]⟩
    · obtain ⟨n, le, eq⟩ := ih s hs
      refine ⟨(gap ++ text).count '\n' + n, Nat.add_le_add_left le _, ?_⟩
      rw [eq, lineAfter_eq, UInt32.add_assoc, UInt32.ofNat_add]

end Reads

/-! ## Sources -/

/-- As long as lines can be counted, they are moved on as numbers are. -/
theorem toNat_line_moved {source : String} {bytes lines : Nat} (few : source.toList.count '\n' + lines < UInt32.size - 1) :
    ∀ t ∈ tokens source, (t.moved bytes lines).line.toNat = t.line.toNat + lines := by
  obtain ⟨spans, reads, same⟩ := exists_reads_tokens source
  intro t ht
  rw [same] at ht
  obtain ⟨s, hs, rfl⟩ := List.mem_map.mp ht
  obtain ⟨n, le, line⟩ := reads.exists_line_eq s hs
  have one : (1 : UInt32).toNat = 1 := rfl
  have size : UInt32.size = 2 ^ 32 := rfl
  have small : n < 2 ^ 32 ∧ lines < 2 ^ 32 := by omega
  rw [Token.moved, UInt32.toNat_add, line, UInt32.toNat_add, one, UInt32.toNat_ofNat', UInt32.toNat_ofNat']
  omega

/-- **Scanning is compositional across a line feed.**  The tokens of two sources with a line feed between them are those of
the first one without its end token, and those of the second one, moved on by the bytes and the lines in front of it; as
long as there are fewer than 2³² − 1 line feeds in all, the numbers of the lines grow by that much. -/
theorem tokens_append_line (a b : String) (terminated : ∀ t ∈ tokens a, t.kind ≠ .error .unterminatedString) :
    tokens (a ++ "\n" ++ b) =
        (tokens a).filter (·.kind ≠ .eof) ++
          (tokens b).map (Token.moved (a.utf8ByteSize + 1) (a.toList.count '\n' + 1)) ∧
      ((a ++ "\n" ++ b).toList.count '\n' < UInt32.size - 1 →
        ∀ t ∈ tokens b, (t.moved (a.utf8ByteSize + 1) (a.toList.count '\n' + 1)).line.toNat =
          t.line.toNat + (a.toList.count '\n' + 1)) := by
  obtain ⟨spans, reads, same⟩ := exists_reads_tokens a
  obtain ⟨spans', reads', same'⟩ := exists_reads_tokens b
  have text : (a ++ "\n" ++ b).toList = a.toList ++ '\n' :: b.toList := by simp
  have size : a.utf8ByteSize = utf8Length a.toList := by rw [utf8ByteSize_eq, length_bytesOf]
  constructor
  · have terminated' : ∀ s ∈ spans, s.token.kind ≠ .error .unterminatedString := by
      intro s hs
      refine terminated s.token ?_
      rw [same]
      exact List.mem_map_of_mem hs
    have line : lineAfter 1 a.toList + 1 = 1 + UInt32.ofNat (a.toList.count '\n' + 1) := by
      rw [lineAfter_eq, UInt32.ofNat_add, UInt32.add_assoc]
      rfl
    have behind := reads'.moved (utf8Length a.toList + 1) (a.toList.count '\n' + 1)
    rw [← line] at behind
    have joined := reads.append_line terminated' behind
    have ahead := Cursor.ahead_of_reads joined
    show Cursor.ahead ⟨(a ++ "\n" ++ b).toList, 0, 1⟩ = _
    rw [text, ahead, same, same', size, List.map_append, List.filter_map, List.map_map, List.map_map]
    rfl
  · intro few
    rw [text, List.count_append, List.count_cons_self] at few
    exact toNat_line_moved (by omega)

/-- A comment in front of the line feed and a string over two lines behind it. -/
theorem tokens_append_line_comment :
    (∀ t ∈ tokens "!/ // \"", t.kind ≠ .error .unterminatedString) ∧
      tokens ("!/ // \"" ++ "\n" ++ "= \"é\n\"") =
        [⟨.bang, 1, 0, "!"⟩, ⟨.slash, 1, 1, "/"⟩, ⟨.equal, 2, 8, "="⟩, ⟨.string, 3, 10, "\"é\n\""⟩, ⟨.eof, 3, 15, ""⟩] := by
  have terminated : ∀ t ∈ tokens "!/ // \"", t.kind ≠ .error .unterminatedString := by decide +kernel
  refine ⟨terminated, (tokens_append_line _ "= \"é\n\"" terminated).1.trans ?_⟩
  decide +kernel

end Abacus
