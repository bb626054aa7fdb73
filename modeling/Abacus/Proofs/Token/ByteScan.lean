import Abacus.Proofs.Token.ByteCursor
import Abacus.Proofs.Token.Reading

/-!
# Scanning bytes

The scanner on bytes finds the tokens that are found on characters, and it never slips.

* `ByteCursor.lexeme_place`, `ByteCursor.skipGap_place`: the same lexeme is found behind the same gap;
* `ByteCursor.scan_eq`: the same token is found and the scan stops at the same place;
* `ByteCursor.yields_of_reads`: the scanner on bytes yields the reading of its source.
-/

namespace Abacus.ByteCursor

/-! ## Lexemes -/

section Lexemes

variable {source : String} {before after cs : List Char} {c : Char} (line : Line)

/-- What is to be found for a lexeme. -/
def finds (source : String) (before : List Char) (line : Line) (l : Lexeme) : Except Slip (Token × ByteCursor) :=
  .ok ((Cursor.taken (utf8Length before) line l).1,
    ⟨source, utf8Length (before ++ l.text), lineAfter line l.text⟩)

theorem token_place {text : List Char} {k : Kind} (split : source.toList = before ++ (text ++ after))
    (proper : k.isError = false) :
    token (utf8Length before) k ⟨source, utf8Length (before ++ text), lineAfter line text⟩ =
      finds source before line ⟨k, text, after⟩ := by
  simp only [token, slice_place split, finds, Cursor.taken, bind, Except.bind]
  cases k with
  | error cause => cases proper
  | _ => rfl

/-- Where no line feed is passed, the line is the same. -/
theorem token_inline {text : List Char} {k : Kind} (split : source.toList = before ++ (text ++ after))
    (proper : k.isError = false) (none : '\n' ∉ text) :
    token (utf8Length before) k ⟨source, utf8Length (before ++ text), line⟩ =
      finds source before line ⟨k, text, after⟩ := by
  have tokens := token_place line split proper
  rwa [lineAfter_of_not_mem none] at tokens

theorem isError_ofWord (w : String) : (Kind.ofWord w).isError = false := by
  have table : ∀ k ∈ Kind.keywords.map Prod.snd, k.isError = false := by decide
  rcases Kind.ofWord_cases w with h | h
  · rw [h]
    rfl
  · exact table _ h

theorem word_place (split : source.toList = before ++ c :: cs) (hc : Lexeme.isWordStart c = true) :
    word (utf8Length before) ⟨source, utf8Length (before ++ [c]), line⟩ = finds source before line (Lexeme.word c cs) := by
  have split₁ : source.toList = before ++ [c] ++ cs := by simpa using split
  have split₂ : source.toList = before ++ ((Lexeme.word c cs).text ++ (Lexeme.word c cs).rest) := by
    rw [Lexeme.word_text_append_rest, split]
  have none : '\n' ∉ (Lexeme.word c cs).text := not_mem_of_all (p := Lexeme.isWordChar) rfl fun d hd => by
    rcases List.mem_cons.mp hd with rfl | hd
    · simp [Lexeme.isWordChar, hc]
    · exact List.mem_takeWhile_imp hd
  have text : before ++ [c] ++ cs.takeWhile Lexeme.isWordChar = before ++ (Lexeme.word c cs).text := by
    simp [Lexeme.word]
  have advanced := advanceWhile_place line unmarked uniform_isWordChar (test_of_nul rfl) split₁
  rw [text, foldl_unmarked] at advanced
  simp only [word, advanced, bind, Except.bind, slice_place split₂]
  exact token_inline line split₂ (isError_ofWord _) none

/-- Two bytes are seen at once: a certain character and, behind it, one of a class. -/
theorem pair_place {d : Char} {p : Char → Bool} {wide : Bool} (hd : d.toNat < 128) (nul : d ≠ '\x00')
    (uniform : Uniform p wide) (nul' : p '\x00' = false) (split : source.toList = before ++ after) :
    (peek ⟨source, utf8Length before, line⟩ = d ∧ p (peekNext ⟨source, utf8Length before, line⟩) = true) ↔
      ∃ e more, after = d :: e :: more ∧ p e = true := by
  rw [peek_eq_iff line hd nul split, peekNext_ascii line before hd]
  have next {tail : List Char} (first : after = d :: tail) :
      p (peek ⟨source, utf8Length (before ++ [d]), line⟩) = true ↔ ∃ e more, tail = e :: more ∧ p e = true :=
    class_place line uniform nul' (by simp [split, first])
  constructor
  · rintro ⟨⟨tail, first⟩, second⟩
    obtain ⟨e, more, rfl, he⟩ := (next first).mp second
    exact ⟨e, more, first, he⟩
  · rintro ⟨e, more, first, he⟩
    exact ⟨⟨_, first⟩, (next first).mpr ⟨e, more, rfl, he⟩⟩

theorem number_place (split : source.toList = before ++ c :: cs) (hc : c.isDigit = true) :
    number (utf8Length before) ⟨source, utf8Length (before ++ [c]), line⟩ =
      finds source before line (Lexeme.number c cs) := by
  have split₁ : source.toList = before ++ [c] ++ cs := by simpa using split
  have split₂ : source.toList = before ++ ((Lexeme.number c cs).text ++ (Lexeme.number c cs).rest) := by
    rw [Lexeme.number_text_append_rest, split]
  have tokens := token_inline (k := .number) line split₂ rfl ((Lexeme.isNumeral_number hc cs).not_mem rfl (by decide))
  have same : (⟨.number, (Lexeme.number c cs).text, (Lexeme.number c cs).rest⟩ : Lexeme) = Lexeme.number c cs := by
    rw [← Lexeme.kind_number c cs]
  rw [same] at tokens
  have whole : ∀ d ∈ cs.takeWhile Char.isDigit, d.isDigit = true := fun _ => List.mem_takeWhile_imp
  have parts : cs = cs.takeWhile Char.isDigit ++ cs.dropWhile Char.isDigit := List.takeWhile_append_dropWhile.symm
  have split₃ : source.toList = before ++ [c] ++ cs.takeWhile Char.isDigit ++ cs.dropWhile Char.isDigit := by
    rw [List.append_assoc, ← parts, split₁]
  have fraction := pair_place line (d := '.') (by decide) (by decide) uniform_isDigit rfl split₃
  have advanced := advanceWhile_place line unmarked uniform_isDigit (test_of_nul rfl) split₁
  simp only [number, advanced, bind, Except.bind, foldl_unmarked]
  by_cases point : ∃ d more, cs.dropWhile Char.isDigit = '.' :: d :: more ∧ d.isDigit = true
  · obtain ⟨d, more, tail, hd⟩ := point
    have split₄ : source.toList = before ++ [c] ++ cs.takeWhile Char.isDigit ++ ['.'] ++ d :: more := by
      rw [split₃, tail]
      simp
    have text : (Lexeme.number c cs).text = c :: cs.takeWhile Char.isDigit ++ '.' :: d :: more.takeWhile Char.isDigit := by
      conv_lhs => rw [parts, tail, Lexeme.number_point whole hd]
    have moved := advance_ascii line (tail ▸ split₃) (by decide)
    have advanced' := advanceWhile_place line unmarked uniform_isDigit (test_of_nul rfl) split₄
    rw [List.takeWhile_cons_of_pos hd] at advanced'
    rw [if_pos (fraction.mpr ⟨d, more, tail, hd⟩)]
    simp only [moved, advanced', foldl_unmarked]
    rw [text] at tokens
    simpa using tokens
  · have none : Lexeme.NoFraction (cs.dropWhile Char.isDigit) := by
      intro d more tail
      by_contra hd
      exact point ⟨d, more, tail, by simpa using hd⟩
    have text : (Lexeme.number c cs).text = c :: cs.takeWhile Char.isDigit := by
      conv_lhs => rw [parts, Lexeme.number_append whole (head?_dropWhile_eq_false _ _) none]
    rw [if_neg (fun seen => point (fraction.mp seen))]
    rw [text] at tokens
    simpa using tokens

theorem string_place (split : source.toList = before ++ '"' :: cs) :
    string (utf8Length before) ⟨source, utf8Length (before ++ ['"']), line⟩ =
      finds source before line (Lexeme.string cs) := by
  have split₁ : source.toList = before ++ ['"'] ++ cs := by simpa using split
  have test (s : ByteCursor) : (s.peek != '"' && !s.isAtEnd) = (!s.isAtEnd && (s.peek != '"')) := Bool.and_comm ..
  have advanced := advanceWhile_place line feed (uniform_bne (d := '"') (by decide)) test split₁
  have marked : (bytesOf (cs.takeWhile (· != '"'))).foldl feed line = lineAfter line ('"' :: cs.takeWhile (· != '"')) :=
    lineAfter_bytesOf line _
  have quoted : before ++ ['"'] ++ cs.takeWhile (· != '"') = before ++ '"' :: cs.takeWhile (· != '"') := by simp
  have split₂ : source.toList = before ++ '"' :: cs.takeWhile (· != '"') ++ cs.dropWhile (· != '"') := by
    rw [← quoted, List.append_assoc, List.takeWhile_append_dropWhile, split₁]
  rw [quoted, marked] at advanced
  have atEnd := isAtEnd_place (lineAfter line ('"' :: cs.takeWhile (· != '"'))) split₂
  simp only [string, advanced, bind, Except.bind, atEnd]
  have head := head?_dropWhile_eq_false (· != '"') cs
  unfold Lexeme.string
  cases tail : cs.dropWhile (· != '"') with
  | nil => rfl
  | cons quote rest =>
    obtain rfl : quote = '"' := by simpa [tail] using head
    rw [tail] at split₂
    have closed := advance_ascii (lineAfter line ('"' :: cs.takeWhile (· != '"'))) split₂ (by decide)
    have split₃ : source.toList = before ++ ('"' :: cs.takeWhile (· != '"') ++ ['"'] ++ rest) := by
      simpa using split₂
    have tokens := token_place (k := .string) line split₃ rfl
    have marked' : lineAfter (lineAfter line ('"' :: cs.takeWhile (· != '"'))) ['"'] =
        lineAfter line ('"' :: cs.takeWhile (· != '"')) := rfl
    rw [lineAfter_append, marked'] at tokens
    simp only [List.isEmpty_cons, Bool.false_eq_true, if_false, closed]
    simpa using tokens

theorem operator_place (split : source.toList = before ++ c :: cs) (pair single : Kind)
    (proper : pair.isError = false ∧ single.isError = false) (hn : c ≠ '\n') :
    operator (utf8Length before) pair single ⟨source, utf8Length (before ++ [c]), line⟩ =
      finds source before line (Lexeme.operator c pair single cs) := by
  have split₁ : source.toList = before ++ [c] ++ cs := by simpa using split
  have atEnd := isAtEnd_place line split₁
  have equals := peek_eq_iff line (d := '=') (by decide) (by decide) split₁
  have none : '\n' ∉ [c] := by simpa using hn.symm
  unfold operator
  by_cases pairs : ∃ more, cs = '=' :: more
  · obtain ⟨more, rfl⟩ := pairs
    have seen := equals.mpr ⟨more, rfl⟩
    have moved := advance_ascii line split₁ (by decide)
    have split₂ : source.toList = before ++ ([c, '='] ++ more) := split
    have tokens := token_inline line split₂ proper.1 (by simp [hn.symm])
    simp only [atEnd, seen, moved, bind, Except.bind]
    simpa [Lexeme.operator] using tokens
  · have single' : Lexeme.operator c pair single cs = ⟨single, [c], cs⟩ := by
      unfold Lexeme.operator
      split
      · next more => exact absurd ⟨more, rfl⟩ pairs
      · rfl
    have unseen : (peek ⟨source, utf8Length (before ++ [c]), line⟩ != '=') = true :=
      bne_iff_ne.mpr fun seen => pairs (equals.mp seen)
    rw [single', unseen, Bool.or_true, if_pos rfl]
    exact token_inline line (by simpa using split) proper.2 none

/-- A text does not start inside of a character. -/
theorem head?_bytesOf (cs : List Char) : ∀ d ∈ (bytesOf cs).head?, isContinuation d = false := by
  cases cs with
  | nil => nofun
  | cons c cs =>
    rw [bytesOf_cons]
    by_cases ascii : c.toNat < 128
    · rw [bytesOf_ascii ascii]
      exact forall_mem_head?_cons.mpr (by simp [isContinuation, Nat.not_le.mpr ascii])
    · obtain ⟨b, bs, bytes, first, -⟩ := bytesOf_wide (Nat.not_lt.mp ascii)
      rw [bytes]
      exact forall_mem_head?_cons.mpr (by simp [isContinuation, Nat.not_lt.mpr first])

/-- The other bytes of a character are passed with its first one. -/
theorem unexpected_place {b : Char} {bs : List Char} (split : source.toList = before ++ c :: cs)
    (bytes : bytesOf [c] = b :: bs) (hn : c ≠ '\n') :
    unexpected (utf8Length before) b ⟨source, utf8Length before + 1, line⟩ =
      finds source before line ⟨.error .unexpectedCharacter, [c], cs⟩ := by
  have none : '\n' ∉ [c] := by simpa using hn.symm
  have found : Except.ok (error (utf8Length before) .unexpectedCharacter ⟨source, utf8Length (before ++ [c]), line⟩) =
      finds source before line ⟨.error .unexpectedCharacter, [c], cs⟩ := by
    simp only [finds, Cursor.taken, lineAfter_of_not_mem none]
    rfl
  have size : utf8Length (before ++ [c]) = (bytesOf before ++ [b] ++ bs).length := by
    rw [utf8Length_append, ← length_bytesOf before, ← length_bytesOf [c], bytes]
    simp
  have size' : utf8Length before + 1 = (bytesOf before ++ [b]).length := by simp
  by_cases ascii : c.toNat < 128
  · rw [bytesOf_ascii ascii] at bytes
    obtain ⟨rfl, rfl⟩ := List.cons.inj bytes
    rw [unexpected, if_pos ascii, size', ← found, size, List.append_nil]
    rfl
  · rw [Nat.not_lt] at ascii
    obtain ⟨b', bs', bytes', first, others⟩ := bytesOf_wide ascii
    obtain ⟨rfl, rfl⟩ := List.cons.inj (bytes.symm.trans bytes')
    have split' : bytesOf source.toList = bytesOf before ++ [b] ++ (bs ++ bytesOf cs) := by
      rw [bytesOf_split split, bytesOf_cons, bytes]
      simp
    have passed : ∀ d ∈ bs, isContinuation d = true := by
      intro d hd
      simpa [isContinuation] using others d hd
    have test (s : ByteCursor) : (!s.isAtEnd && isContinuation s.peek) = (!s.isAtEnd && isContinuation s.peek) := rfl
    have advanced := advanceWhile_bytes line unmarked test split' passed (head?_bytesOf cs)
    have wide : ¬ b.toNat < 128 := by omega
    rw [unexpected, if_neg wide, size', advanced, ← size, foldl_unmarked]
    exact found

section Cases

variable {start : Nat} {b : Char} {s : ByteCursor}

theorem lexeme_of_isWordStart (hw : Lexeme.isWordStart b = true) : lexeme start b s = s.word start := by
  unfold lexeme
  rw [if_pos hw]

theorem lexeme_of_isDigit (hw : ¬ Lexeme.isWordStart b = true) (hd : b.isDigit = true) :
    lexeme start b s = s.number start := by
  unfold lexeme
  rw [if_neg hw, if_pos hd]

/-- A byte that starts no word, number, string or symbol. -/
theorem lexeme_of_unexpected (hw : Lexeme.isWordStart b = false) (hd : b.isDigit = false)
    (hq : b ≠ '"') (hs : b ∉ Lexeme.symbolHeads) : lexeme start b s = s.unexpected start b := by
  unfold lexeme
  rw [if_neg (Bool.eq_false_iff.mp hw), if_neg (Bool.eq_false_iff.mp hd)]
  split
  case h_16 => exact absurd rfl hq
  case h_17 => rfl
  all_goals exact absurd (by decide) hs

end Cases

theorem isWordStart_wide {c : Char} (h : 128 ≤ c.toNat) : Lexeme.isWordStart c = false := by
  have := uniform_isWordChar c h
  rw [Lexeme.isWordChar, Bool.or_eq_false_iff] at this
  exact this.1

theorem symbolHeads_ascii {c : Char} (h : c ∈ Lexeme.symbolHeads) : c.toNat < 128 := by
  have table : Lexeme.symbolHeads.all (fun c => c.toNat < 128) = true := by decide
  exact of_decide_eq_true (List.all_eq_true.mp table c h)

theorem symbol_place (split : source.toList = before ++ c :: cs) (h : c ∈ Lexeme.symbolHeads) :
    lexeme (utf8Length before) c ⟨source, utf8Length (before ++ [c]), line⟩ =
      finds source before line (Lexeme.scan c cs) := by
  have split : source.toList = before ++ ([c] ++ cs) := split
  have alone (k : Kind) (proper : k.isError = false) (none : '\n' ∉ [c]) :=
    token_inline line split proper none
  have either (pair single : Kind) (proper : pair.isError = false ∧ single.isError = false) (hn : c ≠ '\n') :=
    operator_place line split pair single proper hn
  simp only [Lexeme.symbolHeads, Lexeme.punctuation, Lexeme.operatorHeads, List.cons_append, List.nil_append,
    List.mem_cons, List.not_mem_nil, or_false] at h
  rcases h with rfl | rfl | rfl | rfl | rfl | rfl | rfl | rfl | rfl | rfl | rfl | rfl | rfl | rfl | rfl
  all_goals first
    | exact alone _ rfl (by decide)
    | exact either _ _ ⟨rfl, rfl⟩ (by decide)

/-- **A lexeme on bytes** is the one on characters. -/
theorem lexeme_place {b : Char} {bs : List Char} (split : source.toList = before ++ c :: cs)
    (bytes : bytesOf [c] = b :: bs) (hn : c ≠ '\n') :
    lexeme (utf8Length before) b ⟨source, utf8Length before + 1, line⟩ =
      finds source before line (Lexeme.scan c cs) := by
  by_cases ascii : c.toNat < 128
  · have same := bytes
    rw [bytesOf_ascii ascii] at same
    obtain ⟨rfl, rfl⟩ := List.cons.inj same
    by_cases hs : c ∈ Lexeme.symbolHeads
    · rw [← utf8Length_ascii before ascii]
      exact symbol_place line split hs
    by_cases hw : Lexeme.isWordStart c = true
    · rw [lexeme_of_isWordStart hw, Lexeme.scan_of_isWordStart hw, ← utf8Length_ascii before ascii]
      exact word_place line split hw
    by_cases hd : c.isDigit = true
    · rw [lexeme_of_isDigit hw hd, Lexeme.scan_of_isDigit hw hd, ← utf8Length_ascii before ascii]
      exact number_place line split hd
    by_cases hq : c = '"'
    · subst hq
      rw [← utf8Length_ascii before ascii]
      exact string_place line split
    rw [Bool.not_eq_true] at hw hd
    rw [lexeme_of_unexpected hw hd hq hs, Lexeme.scan_of_unexpected hw hd hq hs]
    exact unexpected_place line split bytes hn
  · have unexpected {d : Char} (wide : 128 ≤ d.toNat) :
        Lexeme.isWordStart d = false ∧ d.isDigit = false ∧ d ≠ '"' ∧ d ∉ Lexeme.symbolHeads := by
      refine ⟨isWordStart_wide wide, uniform_isDigit d wide, ?_, fun mem => ?_⟩
      · rintro rfl
        exact absurd wide (by decide)
      · exact absurd (symbolHeads_ascii mem) (Nat.not_lt.mpr wide)
    obtain ⟨b', bs', bytes', first, -⟩ := bytesOf_wide (Nat.not_lt.mp ascii)
    obtain ⟨rfl, rfl⟩ := List.cons.inj (bytes.symm.trans bytes')
    obtain ⟨hw, hd, hq, hs⟩ := unexpected (Nat.not_lt.mp ascii)
    obtain ⟨hw', hd', hq', hs'⟩ := unexpected (d := b) (Nat.le_trans (by decide) first)
    rw [lexeme_of_unexpected hw' hd' hq' hs', Lexeme.scan_of_unexpected hw hd hq hs]
    exact unexpected_place line split bytes hn

end Lexemes

/-! ## Gaps -/

theorem isBlank_iff {c : Char} : Cursor.isBlank c = true ↔ c = ' ' ∨ c = '\r' ∨ c = '\t' := by
  simp [Cursor.isBlank, or_assoc]

theorem uniform_isBlank : Uniform Cursor.isBlank false := by
  intro c h
  rw [Bool.eq_false_iff, Ne, isBlank_iff]
  rintro (rfl | rfl | rfl) <;> exact absurd h (by decide)

section Gaps

variable {source : String}

theorem slashes_place {before after : List Char} (line : Line) (split : source.toList = before ++ after) :
    (peek ⟨source, utf8Length before, line⟩ = '/' ∧ peekNext ⟨source, utf8Length before, line⟩ = '/') ↔
      ['/', '/'] <+: after := by
  have pair := pair_place line (d := '/') (by decide) (by decide) (uniform_beq (d := '/') (by decide)) rfl split
  simp only [beq_iff_eq] at pair
  rw [pair]
  constructor
  · rintro ⟨_, more, rfl, rfl⟩
    exact ⟨more, rfl⟩
  · rintro ⟨more, rfl⟩
    exact ⟨'/', more, rfl, rfl⟩

theorem skipGap_bare {before rest : List Char} (split : source.toList = before ++ rest) (bare : IsBare rest) (rounds : Nat)
    (line : Line) :
    skipGap (rounds + 1) ⟨source, utf8Length before, line⟩ = .ok ⟨source, utf8Length before, line⟩ := by
  have blank : Cursor.isBlank (peek ⟨source, utf8Length before, line⟩) = false := by
    rw [Bool.eq_false_iff, Ne, class_place line uniform_isBlank rfl split]
    rintro ⟨c, more, rfl, hc⟩
    refine bare.1 c rfl ?_
    rcases isBlank_iff.mp hc with rfl | rfl | rfl <;> decide
  have feed : peek ⟨source, utf8Length before, line⟩ ≠ '\n' := by
    rw [Ne, peek_eq_iff line (by decide) (by decide) split]
    rintro ⟨more, rfl⟩
    exact bare.1 '\n' rfl (by decide)
  simp only [skipGap, blank, feed, slashes_place line split, bare.2, if_false, Bool.false_eq_true]
  rfl

theorem skipGap_blank {before cs : List Char} {c : Char} (split : source.toList = before ++ c :: cs)
    (blank : c ∈ [' ', '\t', '\r', '\n']) (rounds : Nat) (line : Line) :
    skipGap (rounds + 1) ⟨source, utf8Length before, line⟩ =
      skipGap rounds ⟨source, utf8Length (before ++ [c]), lineAfter line [c]⟩ := by
  simp only [List.mem_cons, List.not_mem_nil, or_false] at blank
  have ascii : c.toNat < 128 := by
    rcases blank with rfl | rfl | rfl | rfl <;> decide
  simp only [skipGap, peek_ascii line split ascii, advance_ascii line split ascii, bind, Except.bind]
  rcases blank with rfl | rfl | rfl | rfl <;> rfl

theorem skipGap_comment {before body cs : List Char} (split : source.toList = before ++ ('/' :: '/' :: body ++ cs))
    (inner : '\n' ∉ body) (ends : ∀ c ∈ cs.head?, c = '\n') (rounds : Nat) (line : Line) :
    skipGap (rounds + 1) ⟨source, utf8Length before, line⟩ =
      skipGap rounds ⟨source, utf8Length (before ++ '/' :: '/' :: body), line⟩ := by
  have slashes := (slashes_place line split).mpr ⟨body ++ cs, rfl⟩
  have test (s : ByteCursor) : (s.peek != '\n' && !s.isAtEnd) = (!s.isAtEnd && (s.peek != '\n')) := Bool.and_comm ..
  have all : ∀ c ∈ '/' :: '/' :: body, (c != '\n') = true :=
    Lexeme.bne_of_not_mem (by simpa using inner)
  have next : ∀ c ∈ cs.head?, (c != '\n') = false := by
    intro c hc
    rw [ends c hc]
    rfl
  have advanced := advanceWhile_place line unmarked (uniform_bne (d := '\n') (by decide)) test split
  rw [takeWhile_append_of_head all next, foldl_unmarked] at advanced
  simp only [skipGap, slashes, advanced, bind, Except.bind]
  rfl

theorem skipGap_place {gap rest : List Char} (isGap : IsGap rest gap) (bare : IsBare rest) {before : List Char}
    (split : source.toList = before ++ (gap ++ rest)) {rounds : Nat} (room : gap.length < rounds) (line : Line) :
    skipGap rounds ⟨source, utf8Length before, line⟩ =
      .ok ⟨source, utf8Length (before ++ gap), lineAfter line gap⟩ := by
  obtain ⟨rounds, rfl⟩ := Nat.exists_eq_add_one_of_ne_zero (Nat.ne_zero_of_lt room)
  induction isGap generalizing before rounds line with
  | nil =>
    rw [skipGap_bare split bare, List.append_nil]
    rfl
  | @blank c gap blank _ ih =>
    have split' : source.toList = before ++ [c] ++ (gap ++ rest) := by simpa using split
    obtain ⟨rounds, rfl⟩ := Nat.exists_eq_add_one_of_ne_zero (n := rounds) (by
      rintro rfl
      simp at room)
    rw [skipGap_blank split blank, ih split' _ _ (by simpa using room), ← lineAfter_append, List.append_assoc]
    rfl
  | @comment body gap inner ends _ ih =>
    have split₁ : source.toList = before ++ ('/' :: '/' :: body ++ (gap ++ rest)) := by simpa using split
    have split₂ : source.toList = before ++ '/' :: '/' :: body ++ (gap ++ rest) := by simpa using split
    have less : gap.length < rounds := by
      simp at room
      omega
    obtain ⟨rounds, rfl⟩ := Nat.exists_eq_add_one_of_ne_zero (Nat.ne_zero_of_lt less)
    have same : lineAfter line ('/' :: '/' :: body) = line := lineAfter_of_not_mem (by simpa using inner) line
    rw [skipGap_comment split₁ inner ends, ih split₂ _ _ less, lineAfter_append, same, List.append_assoc]

end Gaps

/-! ## Tokens -/

/-- **The token on bytes** is the one on characters, and the scan stops at the same place. -/
theorem scan_eq {source : String} {before : List Char} {c : Cursor} (split : source.toList = before ++ c.rest)
    (offset : c.offset = utf8Length before) :
    scan ⟨source, c.offset, c.line⟩ = .ok (c.scan.1, ⟨source, c.scan.2.offset, c.scan.2.line⟩) := by
  obtain ⟨gap, rest, parts, isGap, bare⟩ := Cursor.exists_gap c.rest
  have start : c.skipGap = c.pass gap rest := Cursor.skipGap_eq parts isGap bare
  rw [parts] at split
  have room : gap.length < source.utf8ByteSize + 1 := by
    have := length_le_utf8Length gap
    rw [utf8ByteSize_eq, length_bytesOf, split, utf8Length_append, utf8Length_append]
    omega
  have split' : source.toList = before ++ gap ++ rest := by rw [split, List.append_assoc]
  have place : c.offset + utf8Length gap = utf8Length (before ++ gap) := by rw [offset, utf8Length_append]
  have atEnd := isAtEnd_place (lineAfter c.line gap) split'
  simp only [scan, offset, skipGap_place isGap bare split room, bind, Except.bind, atEnd]
  cases rest with
  | nil =>
    have split₂ : source.toList = before ++ gap ++ ([] ++ []) := split'
    have ended := token_inline (k := .eof) (lineAfter c.line gap) split₂ rfl nofun
    rw [List.append_nil] at ended
    rw [List.isEmpty_nil, if_pos rfl, ended]
    simp only [finds, Cursor.taken, List.append_nil, lineAfter_nil, Cursor.scan, start, Cursor.pass, place]
  | cons ch chs =>
    obtain ⟨b, bs, bytes, -⟩ := exists_bytesOf_cons ch []
    have atByte := peek_first (lineAfter c.line gap) split' bytes
    have hn : ch ≠ '\n' := by
      rintro rfl
      exact bare.1 _ rfl (by decide)
    have moved : advance ⟨source, utf8Length (before ++ gap), lineAfter c.line gap⟩ =
        .ok ⟨source, utf8Length (before ++ gap) + 1, lineAfter c.line gap⟩ := by
      rw [advance, atEnd]
      rfl
    simp only [List.isEmpty_cons, Bool.false_eq_true, if_false, moved, atByte, lexeme_place _ split' bytes hn]
    rw [Cursor.scan_of_skipGap start]
    simp only [finds, Cursor.taken, place, utf8Length_append]

/-- A scanner on bytes hands out the tokens of these spans, the end token last. -/
inductive Yields : ByteCursor → List Span → ByteCursor → Prop
  | ending {s last : ByteCursor} {t : Token} : s.scan = .ok (t, last) → t.kind = .eof →
      Yields s [⟨t, last.current⟩] last
  | token {s next last : ByteCursor} {t : Token} {spans : List Span} : s.scan = .ok (t, next) → t.kind ≠ .eof →
      Yields next spans last → Yields s (⟨t, next.current⟩ :: spans) last

/-- What the reading of a source gives is found on its bytes. -/
theorem yields_of_reads {offset : Nat} {line : Line} {cs : List Char} {spans : List Span} (h : Reads offset line cs spans)
    {source : String} {before : List Char} (split : source.toList = before ++ cs) (place : offset = utf8Length before) :
    Yields ⟨source, offset, line⟩ spans ⟨source, offset + utf8Length cs, lineAfter line cs⟩ := by
  induction h generalizing before with
  | @ending offset line gap isGap =>
    have scanned := scan_eq (c := ⟨gap, offset, line⟩) split place
    rw [Cursor.scan_ending (c := ⟨gap, offset, line⟩) isGap] at scanned
    simpa only [Span.read, Cursor.pass, List.append_nil] using Yields.ending scanned rfl
  | @lexeme offset line gap text rest k spans isGap bare lexes _ ih =>
    have scanned := scan_eq (c := ⟨_, offset, line⟩) split place
    rw [Cursor.scan_lexeme (c := ⟨_, offset, line⟩) rfl isGap bare lexes] at scanned
    have split' : source.toList = before ++ (gap ++ text) ++ rest := by simpa using split
    have yields := Yields.token scanned lexes.ne_eof (ih split' (by rw [utf8Length_append before, place]))
    rwa [Nat.add_assoc, ← utf8Length_append, ← lineAfter_append, List.append_assoc] at yields

end Abacus.ByteCursor
