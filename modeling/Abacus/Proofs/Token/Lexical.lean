import Abacus.Proofs.Token.Cut

/-!
# The lexical grammar

A source is a sequence of gaps and lexemes.  A gap is made of white space and comments; a lexeme is the longest
beginning of the text that belongs to one of the classes below, or else an error.

    word      = (LETTER | "_") (LETTER | "_" | DIGIT)*
    numeral   = DIGIT+ ("." DIGIT+)?
    string    = '"' (any character but '"')* '"'
    symbol    = "(" | ")" | "{" | "}" | "," | "." | "-" | "+" | ";" | "/" | "*"
              | "!" | "!=" | "=" | "==" | "<" | "<=" | ">" | ">="

* `Lexeme.lexes_iff_scan`: the lexeme of a text is the one that the grammar gives;
* `Cursor.skipGap_eq`: the gap in front of a lexeme is as long as it can be.
-/

namespace Abacus

/-! ## Gaps -/

/-- White space and comments in front of `rest`.  A comment runs to just before the next line feed or to the end of the
source. -/
inductive IsGap (rest : List Char) : List Char → Prop
  | nil : IsGap rest []
  | blank {c : Char} {gap : List Char} : c ∈ [' ', '\t', '\r', '\n'] → IsGap rest gap → IsGap rest (c :: gap)
  | comment {body gap : List Char} : '\n' ∉ body → (∀ c ∈ (gap ++ rest).head?, c = '\n') → IsGap rest gap →
      IsGap rest ('/' :: '/' :: body ++ gap)

/-- A text that starts with neither white space nor a comment. -/
def IsBare (cs : List Char) : Prop :=
  (∀ c ∈ cs.head?, c ∉ [' ', '\t', '\r', '\n']) ∧ ¬ ['/', '/'] <+: cs

/-! ## Lexemes -/

/-- The longest beginning of a text that belongs to a class. -/
structure IsLongest (class' : List Char → Prop) (source text : List Char) : Prop where
  isPrefix : text <+: source
  mem : class' text
  longest : ∀ other, other <+: source → class' other → other.length ≤ text.length

theorem IsLongest.unique {class' : List Char → Prop} {source text text' : List Char} (h : IsLongest class' source text)
    (h' : IsLongest class' source text') : text = text' := by
  have same : text.length = text'.length :=
    Nat.le_antisymm (h'.longest _ h.isPrefix h.mem) (h.longest _ h'.isPrefix h'.mem)
  exact (List.prefix_of_prefix_length_le h.isPrefix h'.isPrefix (Nat.le_of_eq same)).eq_of_length same

/-- A letter or the underscore, with letters, underscores and digits after it. -/
def IsWord : List Char → Prop
  | [] => False
  | c :: cs => Lexeme.isWordStart c = true ∧ ∀ d ∈ cs, Lexeme.isWordChar d = true

/-- The operators and the punctuation. -/
def symbols : List (List Char × Kind) :=
  [(['('], .leftParen), ([')'], .rightParen), (['{'], .leftBrace), (['}'], .rightBrace), ([','], .comma), (['.'], .dot),
    (['-'], .minus), (['+'], .plus), ([';'], .semicolon), (['/'], .slash), (['*'], .star), (['!'], .bang),
    (['!', '='], .bangEqual), (['='], .equal), (['=', '='], .equalEqual), (['<'], .less), (['<', '='], .lessEqual),
    (['>'], .greater), (['>', '='], .greaterEqual)]

/-- One of the operators and the punctuation. -/
def IsSymbol (text : List Char) : Prop :=
  text ∈ symbols.map Prod.fst

/-- **The lexical grammar**: the kind and the text of the lexeme that a text starts with. -/
inductive Lexes (source : List Char) : Kind → List Char → Prop
  | keyword {text : List Char} {k : Kind} : IsLongest IsWord source text → (String.ofList text, k) ∈ Kind.keywords →
      Lexes source k text
  | identifier {text : List Char} : IsLongest IsWord source text → String.ofList text ∉ Kind.keywords.map Prod.fst →
      Lexes source .identifier text
  | number {text : List Char} : IsLongest Decimal.IsNumeral source text → Lexes source .number text
  /-- A string ends at the next quote. -/
  | string {body rest : List Char} : source = '"' :: body ++ '"' :: rest → '"' ∉ body →
      Lexes source .string ('"' :: body ++ ['"'])
  /-- Without a next quote everything is taken. -/
  | unterminated {body : List Char} : source = '"' :: body → '"' ∉ body →
      Lexes source (.error .unterminatedString) source
  | symbol {text : List Char} {k : Kind} : IsLongest IsSymbol source text → (text, k) ∈ symbols → Lexes source k text
  /-- What starts none of these is an error of one character. -/
  | unexpected {c : Char} {cs : List Char} : source = c :: cs → Lexeme.isWordStart c = false → c.isDigit = false →
      c ≠ '"' → (∀ text, IsSymbol text → ¬ text <+: source) → Lexes source (.error .unexpectedCharacter) [c]

namespace Lexeme

/-! ## Words and numbers -/

theorem length_le_takeWhile {p : Char → Bool} {ds cs : List Char} (h : ds <+: cs) (all : ∀ d ∈ ds, p d = true) :
    ds.length ≤ (cs.takeWhile p).length := by
  obtain ⟨rest, rfl⟩ := h
  rw [List.takeWhile_append_of_pos all, List.length_append]
  exact Nat.le_add_right ..

/-- Letters and the underscore by their numbers. -/
theorem isWordStart_iff {c : Char} :
    isWordStart c = true ↔ 65 ≤ c.toNat ∧ c.toNat ≤ 90 ∨ 97 ≤ c.toNat ∧ c.toNat ≤ 122 ∨ c.toNat = 95 := by
  have letter : c.isAlpha =
      (decide (c.val ≥ 'A'.val ∧ c.val ≤ 'Z'.val) || (decide (c.val ≥ 'a'.val) && decide (c.val ≤ 'z'.val))) :=
    rfl
  have underscore : c = '_' ↔ c.toNat = 95 := Char.toNat_inj.symm
  simp [isWordStart, letter, underscore, UInt32.le_iff_toNat_le, or_assoc]

theorem isLongest_word {c : Char} (hc : isWordStart c = true) (cs : List Char) :
    IsLongest IsWord (c :: cs) (word c cs).text where
  isPrefix := ⟨_, word_text_append_rest c cs⟩
  mem := ⟨hc, fun _ => List.mem_takeWhile_imp⟩
  longest := by
    rintro (_ | ⟨d, ds⟩) begins isWord
    · exact Nat.zero_le _
    · obtain ⟨rfl, inner⟩ := List.cons_prefix_cons.mp begins
      exact Nat.succ_le_succ (length_le_takeWhile inner isWord.2)

theorem kind_number (c : Char) (cs : List Char) : (number c cs).kind = .number := by
  unfold number
  repeat' split
  all_goals rfl

theorem length_takeWhile_le_number (c : Char) (cs : List Char) :
    (c :: cs.takeWhile Char.isDigit).length ≤ (number c cs).text.length := by
  unfold number
  repeat' split
  all_goals simp

theorem isLongest_number {c : Char} (hc : c.isDigit = true) (cs : List Char) :
    IsLongest Decimal.IsNumeral (c :: cs) (number c cs).text where
  isPrefix := ⟨_, number_text_append_rest c cs⟩
  mem := isNumeral_number hc cs
  longest := by
    intro other begins isNumeral
    cases isNumeral with
    | whole _ digits =>
      have le := length_le_takeWhile begins digits
      rw [List.takeWhile_cons_of_pos hc] at le
      exact Nat.le_trans le (length_takeWhile_le_number c cs)
    | @point ds fs ne digits ne' digits' =>
      obtain ⟨d, ds, rfl⟩ := List.exists_cons_of_ne_nil ne
      obtain ⟨f, fs, rfl⟩ := List.exists_cons_of_ne_nil ne'
      obtain ⟨rfl, rest, rfl⟩ := List.cons_prefix_cons.mp begins
      obtain ⟨-, front⟩ := List.forall_mem_cons.mp digits
      obtain ⟨first, back⟩ := List.forall_mem_cons.mp digits'
      have taken := length_le_takeWhile (List.prefix_append fs rest) back
      have whole : ds ++ '.' :: f :: fs ++ rest = ds ++ '.' :: f :: (fs ++ rest) := by simp
      show _ ≤ (number d (ds ++ '.' :: f :: fs ++ rest)).text.length
      rw [whole, number_point front first]
      simp only [List.length_append, List.length_cons] at taken ⊢
      omega

/-! ## Strings -/

theorem not_mem_takeWhile_bne (q : Char) (cs : List Char) : q ∉ cs.takeWhile (· != q) := by
  intro mem
  have := List.mem_takeWhile_imp mem
  simp at this

theorem bne_of_not_mem {q : Char} {body : List Char} (h : q ∉ body) : ∀ c ∈ body, (c != q) = true := by
  intro c hc
  rw [bne_iff_ne]
  rintro rfl
  exact h hc

theorem lexes_string (cs : List Char) : Lexes ('"' :: cs) (string cs).kind (string cs).text := by
  have split := List.takeWhile_append_dropWhile (p := (· != '"')) (l := cs)
  have head := head?_dropWhile_eq_false (· != '"') cs
  unfold string
  split
  · next tail =>
    rw [tail, List.append_nil] at split
    rw [split]
    exact .unterminated rfl (split ▸ not_mem_takeWhile_bne '"' cs)
  · next quote rest tail =>
    obtain rfl : quote = '"' := by simpa [tail] using head
    rw [tail] at split
    have source : '"' :: cs = '"' :: cs.takeWhile (· != '"') ++ '"' :: rest := by rw [List.cons_append, split]
    exact .string source (not_mem_takeWhile_bne '"' cs)

theorem string_of_not_mem {body : List Char} (h : '"' ∉ body) :
    string body = ⟨.error .unterminatedString, '"' :: body, []⟩ := by
  have all := bne_of_not_mem h
  have none : body.dropWhile (· != '"') = [] := List.dropWhile_eq_nil_iff.mpr all
  simp only [string, none, List.takeWhile_eq_self_iff.mpr all]

/-! ## Symbols -/

/-- The characters that are symbols alone and begin no other. -/
def punctuation : List Char :=
  ['(', ')', '{', '}', ',', '.', '-', '+', ';', '/', '*']

/-- The characters that are symbols alone and with an equals sign behind them. -/
def operatorHeads : List Char :=
  ['!', '=', '<', '>']

/-- The characters that symbols start with. -/
def symbolHeads : List Char :=
  punctuation ++ operatorHeads

theorem symbol_cases {text : List Char} (h : IsSymbol text) :
    ∃ c ∈ symbolHeads, text = [c] ∨ text = [c, '='] ∧ c ∈ operatorHeads := by
  have table : ∀ p ∈ symbols.map Prod.fst,
      symbolHeads.any (fun c => p = [c] ∨ p = [c, '='] ∧ c ∈ operatorHeads) = true := by decide
  simpa only [List.any_eq_true, decide_eq_true_eq] using table text h

theorem isSymbol_singleton {c : Char} (h : c ∈ symbolHeads) : IsSymbol [c] := by
  have table : symbolHeads.all (fun c => [c] ∈ symbols.map Prod.fst) = true := by decide
  have mem : [c] ∈ symbols.map Prod.fst := of_decide_eq_true (List.all_eq_true.mp table c h)
  exact mem

theorem head_mem_of_isSymbol {c : Char} {cs text : List Char} (h : IsSymbol text) (begins : text <+: c :: cs) :
    c ∈ symbolHeads := by
  obtain ⟨d, hd, rfl | ⟨rfl, -⟩⟩ := symbol_cases h
  all_goals
    obtain ⟨rfl, -⟩ := List.cons_prefix_cons.mp begins
    exact hd

/-- The longest symbol that a text starts with, and its kind. -/
def IsLongestSymbol (source text : List Char) (k : Kind) : Prop :=
  IsLongest IsSymbol source text ∧ (text, k) ∈ symbols

theorem isLongestSymbol_single {c : Char} {k : Kind} (mem : ([c], k) ∈ symbols) (cs : List Char)
    (alone : c ∉ operatorHeads ∨ ∀ rest, cs ≠ '=' :: rest) : IsLongestSymbol (c :: cs) [c] k := by
  refine ⟨⟨⟨cs, rfl⟩, List.mem_map.mpr ⟨_, mem, rfl⟩, fun other begins isSymbol => ?_⟩, mem⟩
  obtain ⟨d, -, rfl | ⟨rfl, pair⟩⟩ := symbol_cases isSymbol
  · exact Nat.le_refl _
  · obtain ⟨rfl, rest, rfl⟩ := List.cons_prefix_cons.mp begins
    rcases alone with alone | none
    · exact absurd pair alone
    · exact absurd rfl (none rest)

theorem isLongestSymbol_operator {c : Char} {pair single : Kind} (mem : ([c], single) ∈ symbols)
    (mem' : ([c, '='], pair) ∈ symbols) (cs : List Char) :
    IsLongestSymbol (c :: cs) (operator c pair single cs).text (operator c pair single cs).kind := by
  unfold operator
  split
  · next rest =>
    refine ⟨⟨⟨rest, rfl⟩, List.mem_map.mpr ⟨_, mem', rfl⟩, fun other _ isSymbol => ?_⟩, mem'⟩
    obtain ⟨d, -, rfl | ⟨rfl, -⟩⟩ := symbol_cases isSymbol <;> simp
  · next other => exact isLongestSymbol_single mem cs (.inr other)

/-- Punctuation is taken alone, whatever follows it. -/
theorem scan_punctuation {c : Char} (h : c ∈ punctuation) (cs : List Char) :
    scan c cs = ⟨(scan c []).kind, [c], cs⟩ := by
  simp only [punctuation, List.mem_cons, List.not_mem_nil, or_false] at h
  rcases h with rfl | rfl | rfl | rfl | rfl | rfl | rfl | rfl | rfl | rfl | rfl
  all_goals rfl

theorem isLongestSymbol_scan {c : Char} (h : c ∈ symbolHeads) (cs : List Char) :
    IsLongestSymbol (c :: cs) (scan c cs).text (scan c cs).kind := by
  rcases List.mem_append.mp h with alone | operator
  · have table : punctuation.all (fun c => ([c], (scan c []).kind) ∈ symbols ∧ c ∉ operatorHeads) = true := by decide
    obtain ⟨mem, notOperator⟩ := of_decide_eq_true (List.all_eq_true.mp table c alone)
    rw [scan_punctuation alone]
    exact isLongestSymbol_single mem cs (.inl notOperator)
  · simp only [operatorHeads, List.mem_cons, List.not_mem_nil, or_false] at operator
    rcases operator with rfl | rfl | rfl | rfl
    all_goals exact isLongestSymbol_operator (by decide) (by decide) cs

/-- A character that starts no word, no number, no string and no symbol. -/
theorem scan_of_unexpected {c : Char} (hw : isWordStart c = false) (hd : c.isDigit = false) (hq : c ≠ '"')
    (hs : c ∉ symbolHeads) (cs : List Char) : scan c cs = ⟨.error .unexpectedCharacter, [c], cs⟩ := by
  unfold scan
  rw [if_neg (Bool.eq_false_iff.mp hw), if_neg (Bool.eq_false_iff.mp hd)]
  split
  case h_16 => exact absurd rfl hq
  case h_17 => rfl
  all_goals exact absurd (by decide) hs

/-! ## Any lexeme -/

theorem keyword_kind {p : String × Kind} (h : p ∈ Kind.keywords) : Kind.ofWord p.1 = p.2 := by
  have table : ∀ p ∈ Kind.keywords, Kind.ofWord p.1 = p.2 := by decide
  exact table p h

theorem ofWord_of_not_mem {w : String} (h : w ∉ Kind.keywords.map Prod.fst) : Kind.ofWord w = .identifier := by
  unfold Kind.ofWord
  cases found : Kind.keywords.lookup w with
  | none => rfl
  | some k =>
    obtain ⟨before, after, split, -⟩ := List.lookup_eq_some_iff.mp found
    refine absurd (List.mem_map.mpr ⟨(w, k), ?_, rfl⟩) h
    rw [split]
    exact List.mem_append_right _ (List.mem_cons_self ..)

theorem lexes_word {c : Char} (hc : isWordStart c = true) (cs : List Char) :
    Lexes (c :: cs) (word c cs).kind (word c cs).text := by
  have longest := isLongest_word hc cs
  by_cases reserved : String.ofList (word c cs).text ∈ Kind.keywords.map Prod.fst
  · obtain ⟨p, mem, hp⟩ := List.mem_map.mp reserved
    have kind : (word c cs).kind = p.2 := by
      rw [← keyword_kind mem, hp]
      rfl
    refine .keyword longest ?_
    rw [kind, ← hp]
    exact mem
  · have kind : (word c cs).kind = .identifier := ofWord_of_not_mem reserved
    rw [kind]
    exact .identifier longest reserved

/-- What a first character tells about the lexeme. -/
theorem lexes_scan (c : Char) (cs : List Char) : Lexes (c :: cs) (scan c cs).kind (scan c cs).text := by
  by_cases hw : isWordStart c = true
  · rw [scan_of_isWordStart hw]
    exact lexes_word hw cs
  by_cases hd : c.isDigit = true
  · rw [scan_of_isDigit hw hd, kind_number]
    exact .number (isLongest_number hd cs)
  by_cases hs : c ∈ symbolHeads
  · obtain ⟨longest, mem⟩ := isLongestSymbol_scan hs cs
    exact .symbol longest mem
  by_cases hq : c = '"'
  · rw [hq]
    exact lexes_string cs
  rw [Bool.not_eq_true] at hw hd
  rw [scan_of_unexpected hw hd hq hs]
  exact .unexpected rfl hw hd hq fun text isSymbol begins => hs (head_mem_of_isSymbol isSymbol begins)

/-! ## The grammar gives one lexeme only -/

theorem isWordStart_of_isDigit {c : Char} (h : c.isDigit = true) : isWordStart c = false := by
  have digit : 48 ≤ c.toNat ∧ c.toNat ≤ 57 := by
    simpa [Char.isDigit, UInt32.le_iff_toNat_le] using h
  rw [Bool.eq_false_iff, Ne, isWordStart_iff]
  omega

theorem symbol_kind_unique {text : List Char} {k k' : Kind} (h : (text, k) ∈ symbols) (h' : (text, k') ∈ symbols) :
    k = k' := by
  have table : ∀ p ∈ symbols, ∀ q ∈ symbols, p.1 = q.1 → p.2 = q.2 := by decide
  exact table _ h _ h' rfl

variable {c : Char} {cs : List Char}

theorem word_eq {text : List Char} (h : IsLongest IsWord (c :: cs) text) :
    scan c cs = word c cs ∧ (word c cs).text = text := by
  have hc : isWordStart c = true := by
    obtain ⟨begins, isWord, -⟩ := h
    cases text with
    | nil => exact isWord.elim
    | cons d ds =>
      obtain ⟨rfl, -⟩ := List.cons_prefix_cons.mp begins
      exact isWord.1
  exact ⟨scan_of_isWordStart hc cs, (isLongest_word hc cs).unique h⟩

theorem number_eq {text : List Char} (h : IsLongest Decimal.IsNumeral (c :: cs) text) :
    scan c cs = number c cs ∧ (number c cs).text = text := by
  have hc : c.isDigit = true := by
    obtain ⟨begins, isNumeral, -⟩ := h
    obtain ⟨d, ds, rfl, digit⟩ := isNumeral.exists_cons
    obtain ⟨rfl, -⟩ := List.cons_prefix_cons.mp begins
    exact digit
  exact ⟨scan_of_isDigit (Bool.eq_false_iff.mp (isWordStart_of_isDigit hc)) hc cs, (isLongest_number hc cs).unique h⟩

/-- **The lexeme of a text** is the one that the grammar gives. -/
theorem lexes_iff_scan {k : Kind} {text : List Char} :
    Lexes (c :: cs) k text ↔ (scan c cs).kind = k ∧ (scan c cs).text = text := by
  refine ⟨fun h => ?_, ?_⟩
  · cases h with
    | keyword longest mem =>
      obtain ⟨scanned, rfl⟩ := word_eq longest
      rw [scanned]
      exact ⟨keyword_kind mem, rfl⟩
    | identifier longest free =>
      obtain ⟨scanned, rfl⟩ := word_eq longest
      rw [scanned]
      exact ⟨ofWord_of_not_mem free, rfl⟩
    | number longest =>
      obtain ⟨scanned, rfl⟩ := number_eq longest
      rw [scanned]
      exact ⟨kind_number c cs, rfl⟩
    | @string body rest split none =>
      obtain ⟨rfl, rfl⟩ := List.cons.inj split
      show (string (body ++ '"' :: rest)).kind = _ ∧ (string (body ++ '"' :: rest)).text = _
      rw [string_append (bne_of_not_mem none)]
      exact ⟨rfl, rfl⟩
    | unterminated split none =>
      obtain ⟨rfl, rfl⟩ := List.cons.inj split
      show (string cs).kind = _ ∧ (string cs).text = _
      rw [string_of_not_mem none]
      exact ⟨rfl, rfl⟩
    | symbol longest mem =>
      have hc : c ∈ symbolHeads := head_mem_of_isSymbol longest.mem longest.isPrefix
      obtain ⟨longest', mem'⟩ := isLongestSymbol_scan hc cs
      obtain rfl := longest'.unique longest
      exact ⟨symbol_kind_unique mem' mem, rfl⟩
    | unexpected split hw hd hq none =>
      obtain ⟨rfl, rfl⟩ := List.cons.inj split
      have hs : c ∉ symbolHeads := fun mem => none [c] (isSymbol_singleton mem) ⟨cs, rfl⟩
      rw [scan_of_unexpected hw hd hq hs]
      exact ⟨rfl, rfl⟩
  · rintro ⟨rfl, rfl⟩
    exact lexes_scan c cs

end Lexeme

/-! ## The characters of a lexeme -/

theorem not_mem_of_all {p : Char → Bool} {d : Char} {text : List Char} (hd : p d = false)
    (all : ∀ c ∈ text, p c = true) : d ∉ text := by
  intro mem
  rw [all d mem] at hd
  cases hd

theorem IsWord.not_mem {text : List Char} (h : IsWord text) {d : Char} (hd : Lexeme.isWordChar d = false) : d ∉ text := by
  cases text with
  | nil => exact h.elim
  | cons c cs =>
    refine not_mem_of_all hd fun e he => ?_
    rcases List.mem_cons.mp he with rfl | he
    · simp [Lexeme.isWordChar, h.1]
    · exact h.2 e he

theorem Decimal.IsNumeral.not_mem {text : List Char} (h : IsNumeral text) {d : Char} (digit : d.isDigit = false)
    (point : d ≠ '.') : d ∉ text := by
  cases h with
  | whole _ digits => exact not_mem_of_all digit digits
  | point _ digits _ digits' =>
    have front := not_mem_of_all digit digits
    have back := not_mem_of_all digit digits'
    simp [front, back, point]

namespace Cursor

/-! ## The gap in front of a lexeme -/

section Steps

variable {c : Char} (cs : List Char) (offset : Nat) (line : Line)

theorem afterGap_blank (h : c ∈ [' ', '\t', '\r', '\n']) :
    afterGap false (c :: cs) offset line = afterGap false cs (offset + c.utf8Size) (lineAfter line [c]) := by
  simp only [List.mem_cons, List.not_mem_nil, or_false] at h
  rcases h with rfl | rfl | rfl | rfl <;> rfl

theorem afterGap_inside (h : c ≠ '\n') :
    afterGap true (c :: cs) offset line = afterGap true cs (offset + c.utf8Size) (lineAfter line [c]) := by
  simp [afterGap, lineAfter, h]

/-- A comment is over in front of a line feed. -/
theorem afterGap_ends (h : ∀ c ∈ cs.head?, c = '\n') : afterGap true cs offset line = afterGap false cs offset line := by
  cases cs with
  | nil => rfl
  | cons c cs => simp [afterGap, h c rfl]

theorem afterGap_slashes :
    afterGap false ('/' :: '/' :: cs) offset line = afterGap true cs (offset + 1 + 1) line := by
  rfl

end Steps

theorem afterGap_bare {rest : List Char} (h : IsBare rest) (offset : Nat) (line : Line) :
    afterGap false rest offset line = ⟨rest, offset, line⟩ := by
  cases rest with
  | nil => rfl
  | cons c cs =>
    obtain ⟨blank, slashes⟩ := h
    have blank := blank c rfl
    simp only [List.mem_cons, List.not_mem_nil, or_false, not_or] at blank
    have none : ¬ (c = '/' ∧ cs.head? = some '/') := by
      rintro ⟨rfl, next⟩
      obtain ⟨tail, rfl⟩ := List.head?_eq_some_iff.mp next
      exact slashes ⟨tail, rfl⟩
    simp [afterGap, isBlank, blank, none]

theorem afterGap_comment {body cs : List Char} (h : '\n' ∉ body) (offset : Nat) (line : Line) :
    afterGap true (body ++ cs) offset line =
      afterGap true cs (offset + utf8Length body) (lineAfter line body) := by
  induction body generalizing offset line with
  | nil => rfl
  | cons c body ih =>
    have feed : c ≠ '\n' := fun hc => h (hc ▸ List.mem_cons_self ..)
    have inner : '\n' ∉ body := fun mem => h (List.mem_cons_of_mem _ mem)
    rw [List.cons_append, afterGap_inside _ _ _ feed, ih inner, ← lineAfter_append, utf8Length_cons, Nat.add_assoc]
    rfl

/-- Every gap is passed, up to the text it stands in front of. -/
theorem afterGap_of_isGap {gap rest : List Char} (h : IsGap rest gap) (bare : IsBare rest) (offset : Nat) (line : Line) :
    afterGap false (gap ++ rest) offset line = ⟨rest, offset + utf8Length gap, lineAfter line gap⟩ := by
  induction h generalizing offset line with
  | nil => exact afterGap_bare bare offset line
  | @blank c gap blank _ ih =>
    rw [List.cons_append, afterGap_blank _ _ _ blank, ih, ← lineAfter_append, utf8Length_cons, Nat.add_assoc]
    rfl
  | @comment body gap inner ends _ ih =>
    have text : '/' :: '/' :: body ++ gap ++ rest = '/' :: '/' :: (body ++ (gap ++ rest)) := by simp
    have line' : lineAfter line ('/' :: '/' :: body ++ gap) = lineAfter (lineAfter line body) gap :=
      lineAfter_append line ('/' :: '/' :: body) gap
    rw [text, afterGap_slashes, afterGap_comment inner, afterGap_ends _ _ _ ends, ih, line']
    simp only [utf8Length_append, utf8Length_cons, Nat.add_assoc]
    rfl

/-- Every text starts with a gap in front of a bare text. -/
theorem exists_gap (cs : List Char) : ∃ gap rest, cs = gap ++ rest ∧ IsGap rest gap ∧ IsBare rest := by
  induction hn : cs.length using Nat.strongRecOn generalizing cs with
  | ind n ih =>
    by_cases bare : IsBare cs
    · exact ⟨[], cs, rfl, .nil, bare⟩
    rcases not_and_or.mp bare with head | slashes
    · obtain ⟨c, hc, blank⟩ : ∃ c ∈ cs.head?, c ∈ [' ', '\t', '\r', '\n'] := by
        simpa only [not_forall, not_not, exists_prop] using head
      obtain ⟨tail, rfl⟩ := List.head?_eq_some_iff.mp hc
      obtain ⟨gap, rest, rfl, isGap, bare⟩ := ih _ (hn ▸ Nat.lt_succ_self _) tail rfl
      exact ⟨c :: gap, rest, rfl, .blank blank isGap, bare⟩
    · obtain ⟨tail, rfl⟩ := not_not.mp slashes
      have split := List.takeWhile_append_dropWhile (p := (· != '\n')) (l := tail)
      have ends := head?_dropWhile_eq_false (· != '\n') tail
      have shorter : (tail.dropWhile (· != '\n')).length < n := by
        have := (List.dropWhile_sublist (p := (· != '\n')) (l := tail)).length_le
        simp only [List.length_append, List.length_cons] at hn
        omega
      obtain ⟨gap, rest, after, isGap, bare⟩ := ih _ shorter _ rfl
      have isGap : IsGap rest ('/' :: '/' :: tail.takeWhile (· != '\n') ++ gap) := by
        refine .comment (Lexeme.not_mem_takeWhile_bne '\n' tail) (fun c hc => ?_) isGap
        rw [← after] at hc
        simpa using ends c hc
      refine ⟨_, rest, ?_, isGap, bare⟩
      simp [← after, split]

/-- **The gap in front of a token** is as long as it can be. -/
theorem skipGap_eq {c : Cursor} {gap rest : List Char} (split : c.rest = gap ++ rest) (isGap : IsGap rest gap)
    (bare : IsBare rest) : c.skipGap = c.pass gap rest := by
  rw [skipGap, split, afterGap_of_isGap isGap bare]
  rfl

end Cursor

end Abacus
