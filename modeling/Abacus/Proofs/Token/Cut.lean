import Abacus.Proofs.Token.Stream

/-!
# Cutting a source

A source can be cut after any token and gone on with behind a space: the tokens before the cut stay as they were, with
their texts and places.

* `Lexeme.scan_cut`, `Cursor.scan_cut`: a lexeme and a token do not change when the text behind them is cut;
* `exists_source_of_append`: the tokens before a place, with further words and closing parentheses, are those of a
  source.
-/

namespace Abacus

/-! ## Cuts -/

/-- A text that is empty or starts with a space. -/
def Apart (cs : List Char) : Prop :=
  ∀ c ∈ cs.head?, c = ' '

/-- The second text is the first one, cut somewhere and gone on with behind a space. -/
inductive Cut : List Char → List Char → Prop
  | here {cs cs' : List Char} : Apart cs' → Cut cs cs'
  | cons (c : Char) {cs cs' : List Char} : Cut cs cs' → Cut (c :: cs) (c :: cs')

namespace Cut

variable {cs cs' : List Char}

theorem append (text : List Char) (h : Cut cs cs') : Cut (text ++ cs) (text ++ cs') := by
  induction text with
  | nil => exact h
  | cons c text ih => exact .cons c ih

/-- What is left of a text besides spaces was there before. -/
theorem of_cons {c : Char} (h : Cut cs (c :: cs')) (ne : c ≠ ' ') : ∃ cs₀, cs = c :: cs₀ ∧ Cut cs₀ cs' := by
  cases h with
  | here apart => exact absurd (apart c rfl) ne
  | cons _ h => exact ⟨_, rfl, h⟩

/-- Where no character of a class comes next, none does after a cut. -/
theorem head {p : Char → Bool} (h : Cut cs cs') (space : p ' ' = false) (next : ∀ c ∈ cs.head?, p c = false) :
    ∀ c ∈ cs'.head?, p c = false := by
  intro c hc
  obtain ⟨cs', rfl⟩ := List.head?_eq_some_iff.mp hc
  by_cases hs : c = ' '
  · rw [hs]
    exact space
  · obtain ⟨cs₀, rfl, -⟩ := h.of_cons hs
    exact next c rfl

end Cut

/-! ## Longest pieces -/

theorem forall_mem_head?_cons {α : Type} {q : α → Prop} {a : α} {as : List α} : (∀ b ∈ (a :: as).head?, q b) ↔ q a := by
  simp

section TakeWhile

variable {p : Char → Bool} {ds rest : List Char} (all : ∀ c ∈ ds, p c = true) (next : ∀ c ∈ rest.head?, p c = false)
include all next

theorem takeWhile_append_of_head : (ds ++ rest).takeWhile p = ds := by
  rw [List.takeWhile_append_of_pos all]
  cases rest with
  | nil => simp
  | cons c cs => simp [next c rfl]

theorem dropWhile_append_of_head : (ds ++ rest).dropWhile p = rest := by
  rw [List.dropWhile_append_of_pos all]
  cases rest with
  | nil => rfl
  | cons c cs => simp [next c rfl]

end TakeWhile

theorem head?_dropWhile_eq_false (p : Char → Bool) (cs : List Char) : ∀ c ∈ (cs.dropWhile p).head?, p c = false := by
  intro c hc
  have := List.head?_dropWhile_not p cs
  rw [hc] at this
  simpa using this

namespace Lexeme

/-! ## Lexemes -/

/-- The text does not go on with a fraction. -/
def NoFraction (cs : List Char) : Prop :=
  ∀ d more, cs = '.' :: d :: more → d.isDigit = false

theorem noFraction_cut {cs cs' : List Char} (h : Cut cs cs') (none : NoFraction cs) : NoFraction cs' := by
  rintro d more rfl
  obtain ⟨cs₀, rfl, h₀⟩ := h.of_cons (by decide)
  by_cases hd : d = ' '
  · rw [hd]
    rfl
  · obtain ⟨more₀, rfl, -⟩ := h₀.of_cons hd
    exact none d more₀ rfl

theorem word_append {c : Char} {ds rest : List Char} (all : ∀ d ∈ ds, isWordChar d = true)
    (next : ∀ d ∈ rest.head?, isWordChar d = false) :
    word c (ds ++ rest) = ⟨.ofWord (String.ofList (c :: ds)), c :: ds, rest⟩ := by
  simp only [word, takeWhile_append_of_head all next, dropWhile_append_of_head all next]

theorem number_append {c : Char} {ds rest : List Char} (all : ∀ d ∈ ds, d.isDigit = true)
    (next : ∀ d ∈ rest.head?, d.isDigit = false) (none : NoFraction rest) :
    number c (ds ++ rest) = ⟨.number, c :: ds, rest⟩ := by
  simp only [number, takeWhile_append_of_head all next, dropWhile_append_of_head all next]
  split
  · next d more =>
    have := none d more rfl
    simp [this]
  · rfl

/-- Digits in front of a point with a digit after it. -/
theorem number_point {c d : Char} {ds : List Char} (all : ∀ d ∈ ds, d.isDigit = true) (hd : d.isDigit = true)
    (more : List Char) :
    number c (ds ++ '.' :: d :: more) =
      ⟨.number, c :: ds ++ '.' :: d :: more.takeWhile Char.isDigit, more.dropWhile Char.isDigit⟩ := by
  have point : ∀ e ∈ ('.' :: d :: more).head?, e.isDigit = false := forall_mem_head?_cons.mpr rfl
  simp only [number, takeWhile_append_of_head all point, dropWhile_append_of_head all point, hd, if_true]

theorem number_append_fraction {c d : Char} {ds fs rest : List Char} (all : ∀ d ∈ ds, d.isDigit = true)
    (hd : d.isDigit = true) (all' : ∀ d ∈ fs, d.isDigit = true) (next : ∀ d ∈ rest.head?, d.isDigit = false) :
    number c (ds ++ '.' :: d :: (fs ++ rest)) = ⟨.number, c :: ds ++ '.' :: d :: fs, rest⟩ := by
  rw [number_point all hd, takeWhile_append_of_head all' next, dropWhile_append_of_head all' next]

theorem string_append {body rest : List Char} (all : ∀ c ∈ body, (c != '"') = true) :
    string (body ++ '"' :: rest) = ⟨.string, '"' :: body ++ ['"'], rest⟩ := by
  have quote : ∀ c ∈ ('"' :: rest).head?, (c != '"') = false := forall_mem_head?_cons.mpr rfl
  simp only [string, takeWhile_append_of_head all quote, dropWhile_append_of_head all quote]

theorem operator_of_head {rest : List Char} (c : Char) (pair single : Kind)
    (next : ∀ d ∈ rest.head?, (d == '=') = false) : operator c pair single rest = ⟨single, [c], rest⟩ := by
  unfold operator
  split
  · cases next '=' rfl
  · rfl

theorem scan_of_isWordStart {c : Char} (hw : isWordStart c = true) (cs : List Char) : scan c cs = word c cs := by
  unfold scan
  rw [if_pos hw]

theorem scan_of_isDigit {c : Char} (hw : ¬ isWordStart c = true) (hd : c.isDigit = true) (cs : List Char) :
    scan c cs = number c cs := by
  unfold scan
  rw [if_neg hw, if_pos hd]

/-- The text of a lexeme is scanned as that lexeme in front of `rest` too. -/
def Keeps (c : Char) (l : Lexeme) (rest : List Char) : Prop :=
  ∃ cs, c :: cs = l.text ++ rest ∧ scan c cs = ⟨l.kind, l.text, rest⟩

theorem keeps_word {c : Char} {cs rest : List Char} (hw : isWordStart c = true) (h : Cut (word c cs).rest rest) :
    Keeps c (word c cs) rest := by
  refine ⟨cs.takeWhile isWordChar ++ rest, rfl, ?_⟩
  rw [scan_of_isWordStart hw]
  exact word_append (fun _ => List.mem_takeWhile_imp) (h.head rfl (head?_dropWhile_eq_false _ _))

/-- Digits in front of what is no fraction. -/
theorem keeps_whole {c : Char} {cs rest : List Char} (hw : ¬ isWordStart c = true) (hd : c.isDigit = true)
    (none : NoFraction (cs.dropWhile Char.isDigit)) (h : Cut (cs.dropWhile Char.isDigit) rest) :
    Keeps c ⟨.number, c :: cs.takeWhile Char.isDigit, cs.dropWhile Char.isDigit⟩ rest := by
  refine ⟨cs.takeWhile Char.isDigit ++ rest, rfl, ?_⟩
  rw [scan_of_isDigit hw hd]
  have next := Cut.head h (p := Char.isDigit) rfl (head?_dropWhile_eq_false _ _)
  exact number_append (fun _ => List.mem_takeWhile_imp) next (noFraction_cut h none)

theorem keeps_number {c : Char} {cs rest : List Char} (hw : ¬ isWordStart c = true) (hd : c.isDigit = true)
    (h : Cut (number c cs).rest rest) : Keeps c (number c cs) rest := by
  have whole := @keeps_whole c cs rest hw hd
  unfold number at h ⊢
  split at h
  · next d more tail =>
    rw [tail] at whole
    split at h
    · next hd' =>
      simp only [if_pos hd']
      refine ⟨cs.takeWhile Char.isDigit ++ '.' :: d :: (more.takeWhile Char.isDigit ++ rest), by simp, ?_⟩
      rw [scan_of_isDigit hw hd]
      exact number_append_fraction (fun _ => List.mem_takeWhile_imp) hd' (fun _ => List.mem_takeWhile_imp)
        (h.head rfl (head?_dropWhile_eq_false _ _))
    · next hd' =>
      simp only [if_neg hd']
      refine whole ?_ h
      rintro e more' he
      cases he
      simpa using hd'
  · next other =>
    have none : NoFraction (cs.dropWhile Char.isDigit) := fun d more tail => absurd tail (other d more)
    exact whole none h

theorem keeps_string {cs : List Char} (proper : (string cs).kind.isError = false) (rest : List Char) :
    Keeps '"' (string cs) rest := by
  unfold string at proper ⊢
  split at proper
  · cases proper
  · next quote after tail =>
    have hq : quote = '"' := by
      have := head?_dropWhile_eq_false (· != '"') cs quote (by rw [tail]; rfl)
      simpa using this
    simp only [hq]
    refine ⟨cs.takeWhile (· != '"') ++ '"' :: rest, by simp, ?_⟩
    exact string_append fun _ => List.mem_takeWhile_imp

theorem keeps_operator {c : Char} {pair single : Kind} {cs rest : List Char}
    (scanned : ∀ cs, scan c cs = operator c pair single cs) (h : Cut (operator c pair single cs).rest rest) :
    Keeps c (operator c pair single cs) rest := by
  unfold operator at h ⊢
  split at h
  · exact ⟨'=' :: rest, rfl, scanned _⟩
  · next other =>
    refine ⟨rest, rfl, ?_⟩
    rw [scanned]
    have next : ∀ d ∈ cs.head?, (d == '=') = false := by
      intro d hd
      obtain ⟨tail, rfl⟩ := List.head?_eq_some_iff.mp hd
      rw [beq_eq_false_iff_ne]
      rintro rfl
      exact other tail rfl
    exact operator_of_head c pair single (h.head (p := (· == '=')) rfl next)

/-- **A lexeme does not change** when the text behind it is cut. -/
theorem scan_cut {c : Char} {cs rest : List Char} (proper : (scan c cs).kind.isError = false)
    (h : Cut (scan c cs).rest rest) : Keeps c (scan c cs) rest := by
  by_cases hw : isWordStart c = true
  · rw [scan_of_isWordStart hw] at h ⊢
    exact keeps_word hw h
  by_cases hd : c.isDigit = true
  · rw [scan_of_isDigit hw hd] at h ⊢
    exact keeps_number hw hd h
  unfold scan at proper h ⊢
  rw [if_neg hw, if_neg hd] at proper h ⊢
  split at proper
  case h_12 => exact keeps_operator (fun _ => rfl) h
  case h_13 => exact keeps_operator (fun _ => rfl) h
  case h_14 => exact keeps_operator (fun _ => rfl) h
  case h_15 => exact keeps_operator (fun _ => rfl) h
  case h_16 => exact keeps_string proper rest
  case h_17 => cases proper
  all_goals exact ⟨rest, rfl, rfl⟩

end Lexeme

namespace Cursor

/-! ## Tokens -/

/-- A gap ends at the same place when the text behind its first lexeme is replaced, provided that no comment arises. -/
theorem afterGap_replace {inComment : Bool} {cs : List Char} {offset : Nat} {line : Line} {c : Char} {rest : List Char}
    {o : Nat} {l : Line} (h : afterGap inComment cs offset line = ⟨c :: rest, o, l⟩) {rest' : List Char}
    (slash : c = '/' → rest'.head? = some '/' → rest.head? = some '/') :
    ∃ gap, cs = gap ++ c :: rest ∧ afterGap inComment (gap ++ c :: rest') offset line = ⟨c :: rest', o, l⟩ := by
  induction cs generalizing inComment offset line with
  | nil => cases h
  | cons d cs ih =>
    simp only [afterGap] at h
    by_cases feed : d = '\n'
    · rw [if_pos feed] at h
      obtain ⟨gap, rfl, hgap⟩ := ih h
      exact ⟨d :: gap, rfl, by simp only [List.cons_append, afterGap, if_pos feed, hgap]⟩
    rw [if_neg feed] at h
    by_cases comment : inComment = true
    · rw [if_pos comment] at h
      obtain ⟨gap, rfl, hgap⟩ := ih h
      exact ⟨d :: gap, rfl, by simp only [List.cons_append, afterGap, if_neg feed, if_pos comment, hgap]⟩
    rw [if_neg comment] at h
    by_cases blank : isBlank d = true
    · rw [if_pos blank] at h
      obtain ⟨gap, rfl, hgap⟩ := ih h
      refine ⟨d :: gap, rfl, ?_⟩
      simp only [List.cons_append, afterGap, if_neg feed, if_neg comment, if_pos blank, hgap]
    rw [if_neg blank] at h
    by_cases start : d = '/' ∧ cs.head? = some '/'
    · rw [if_pos start] at h
      obtain ⟨gap, rfl, hgap⟩ := ih h
      have same : (gap ++ c :: rest').head? = (gap ++ c :: rest).head? := by
        cases gap <;> rfl
      refine ⟨d :: gap, rfl, ?_⟩
      rw [← same] at start
      simp only [List.cons_append, afterGap, if_neg feed, if_neg comment, if_neg blank, if_pos start, hgap]
    · rw [if_neg start] at h
      cases h
      have none : ¬ (c = '/' ∧ rest'.head? = some '/') := by
        rintro ⟨hc, hr⟩
        exact start ⟨hc, slash hc hr⟩
      refine ⟨[], rfl, ?_⟩
      simp only [List.nil_append, afterGap, if_neg feed, if_neg comment, if_neg blank, if_neg none]

/-- The token of a lexeme and the place after it. -/
def taken (offset : Nat) (line : Line) (l : Lexeme) : Token × Cursor :=
  let text :=
    match l.kind with
    | .error cause => cause.message
    | _ => String.ofList l.text
  (⟨l.kind, lineAfter line l.text, offset, text⟩, ⟨l.rest, offset + utf8Length l.text, lineAfter line l.text⟩)

theorem scan_of_skipGap {c : Cursor} {ch : Char} {chs : List Char} {offset : Nat} {line : Line}
    (h : c.skipGap = ⟨ch :: chs, offset, line⟩) : c.scan = taken offset line (Lexeme.scan ch chs) := by
  simp only [scan, h]
  rfl

/-- **A token does not change** when the text behind it is cut. -/
theorem scan_cut {c : Cursor} {rest : List Char} (proper : c.scan.1.kind.isError = false)
    (ne : c.scan.1.kind ≠ .eof) (h : Cut c.scan.2.rest rest) :
    ∃ cs, Cut c.rest cs ∧ scan ⟨cs, c.offset, c.line⟩ = (c.scan.1, ⟨rest, c.scan.2.offset, c.scan.2.line⟩) := by
  cases hgap : c.skipGap with
  | mk start offset line =>
    cases start with
    | nil =>
      refine absurd ?_ ne
      simp only [scan, hgap]
    | cons ch chs =>
      rw [scan_of_skipGap hgap] at proper h ⊢
      obtain ⟨chs', htext, hscan⟩ := Lexeme.scan_cut proper h
      have cut : Cut (ch :: chs) (ch :: chs') := by
        rw [htext, ← Lexeme.text_append_rest ch chs]
        exact h.append _
      -- a slash must not become the beginning of a comment
      have slash : ch = '/' → chs'.head? = some '/' → chs.head? = some '/' := by
        intro hch hs
        obtain ⟨tail, rfl⟩ := List.head?_eq_some_iff.mp hs
        obtain ⟨_, same, cut⟩ := cut.of_cons (by rw [hch]; decide)
        cases same
        obtain ⟨_, rfl, -⟩ := cut.of_cons (by decide)
        rfl
      obtain ⟨gap, hrest, hgap'⟩ := afterGap_replace hgap slash
      refine ⟨gap ++ ch :: chs', hrest ▸ cut.append gap, ?_⟩
      have : skipGap ⟨gap ++ ch :: chs', c.offset, c.line⟩ = ⟨ch :: chs', offset, line⟩ := hgap'
      rw [scan_of_skipGap this, hscan]
      rfl

/-- Tokens do not change when the text behind them is cut. -/
theorem ahead_cut {c : Cursor} {us vs : List Token} (h : c.ahead = us ++ vs) (ne : vs ≠ [])
    (proper : ∀ t ∈ us, t.kind.isError = false) :
    ∃ offset line, ∀ cs', Apart cs' →
      ∃ cs, Cut c.rest cs ∧ ahead ⟨cs, c.offset, c.line⟩ = us ++ ahead ⟨cs', offset, line⟩ := by
  induction us generalizing c with
  | nil => exact ⟨c.offset, c.line, fun cs' apart => ⟨cs', .here apart, rfl⟩⟩
  | cons t us ih =>
    have goes : c.scan.1.kind ≠ .eof := by
      intro heof
      rw [ahead_of_eof heof] at h
      obtain ⟨-, none⟩ := List.cons.inj h
      exact ne (List.append_eq_nil_iff.mp none.symm).2
    rw [ahead_of_ne_eof goes] at h
    obtain ⟨rfl, rest⟩ : c.scan.1 = t ∧ c.scan.2.ahead = us ++ vs := List.cons.inj h
    obtain ⟨offset, line, further⟩ := ih rest fun u hu => proper u (List.mem_cons_of_mem _ hu)
    refine ⟨offset, line, fun cs' apart => ?_⟩
    obtain ⟨rest, cut, hrest⟩ := further cs' apart
    obtain ⟨cs, cut, hscan⟩ := scan_cut (proper _ (List.mem_cons_self ..)) goes cut
    refine ⟨cs, cut, ?_⟩
    have goes' : (scan ⟨cs, c.offset, c.line⟩).1.kind ≠ .eof := by
      rw [hscan]
      exact goes
    rw [ahead_of_ne_eof goes', hscan, List.cons_append, ← hrest]

/-- The word `nil` and a closing parenthesis can be written behind a space. -/
theorem exists_scan {k : Kind} (hk : k = .nilWord ∨ k = .rightParen) (offset : Nat) (line : Line) :
    ∃ text, Apart text ∧ (scan ⟨text, offset, line⟩).1.kind = k := by
  rcases hk with rfl | rfl
  · exact ⟨[' ', 'n', 'i', 'l'], fun _ hc => (Option.some.inj hc).symm, rfl⟩
  · exact ⟨[' ', ')'], fun _ hc => (Option.some.inj hc).symm, rfl⟩

/-- Words `nil` and closing parentheses can be written behind any place. -/
theorem exists_ahead {ks : List Kind} (h : ∀ k ∈ ks, k = .nilWord ∨ k = .rightParen) (offset : Nat) (line : Line) :
    ∃ cs, Apart cs ∧
      ∃ w t, ahead ⟨cs, offset, line⟩ = w ++ [t] ∧ w.map Token.kind = ks ∧ t.kind = .eof := by
  induction ks generalizing offset line with
  | nil => exact ⟨[], nofun, [], _, ahead_of_eof rfl, rfl, rfl⟩
  | cons k ks ih =>
    have hk := h k (List.mem_cons_self ..)
    obtain ⟨text, apart, hkind⟩ := exists_scan hk offset line
    obtain ⟨rest, apart', w, t, hahead, kinds, heof⟩ :=
      ih (fun k hk => h k (List.mem_cons_of_mem _ hk)) (scan ⟨text, offset, line⟩).2.offset
        (scan ⟨text, offset, line⟩).2.line
    have proper : (scan ⟨text, offset, line⟩).1.kind.isError = false ∧ (scan ⟨text, offset, line⟩).1.kind ≠ .eof := by
      rw [hkind]
      rcases hk with rfl | rfl <;> exact ⟨rfl, nofun⟩
    obtain ⟨cs, cut, hscan⟩ := scan_cut proper.1 proper.2 (.here apart')
    have goes : (scan ⟨cs, offset, line⟩).1.kind ≠ .eof := by
      rw [hscan]
      exact proper.2
    refine ⟨cs, ?_, (scan ⟨text, offset, line⟩).1 :: w, t, ?_, ?_, heof⟩
    · intro c hc
      have := cut.head (p := (· != ' ')) rfl (fun d hd => by simpa using apart d hd) c hc
      simpa using this
    · rw [ahead_of_ne_eof goes, hscan, hahead, List.cons_append]
    · rw [List.map_cons, hkind, kinds]

end Cursor

/-- **The tokens before a place** of a source, with words `nil` and closing parentheses after them, are those of a
source. -/
theorem exists_source_of_append {source : String} {us vs : List Token} (h : tokens source = us ++ vs) (ne : vs ≠ [])
    (proper : ∀ t ∈ us, t.kind.isError = false) {ks : List Kind} (hks : ∀ k ∈ ks, k = .nilWord ∨ k = .rightParen) :
    ∃ source' w t, tokens source' = us ++ w ++ [t] ∧ w.map Token.kind = ks ∧ t.kind = .eof := by
  obtain ⟨offset, line, further⟩ := Cursor.ahead_cut h ne proper
  obtain ⟨rest, apart, w, t, hrest, kinds, heof⟩ := Cursor.exists_ahead hks offset line
  obtain ⟨cs, -, hcs⟩ := further rest apart
  refine ⟨String.ofList cs, w, t, ?_, kinds, heof⟩
  show (Cursor.ofSource (String.ofList cs)).ahead = _
  rw [Cursor.ofSource, String.toList_ofList, List.append_assoc, ← hrest]
  exact hcs

end Abacus
