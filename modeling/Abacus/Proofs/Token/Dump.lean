import Abacus.Proofs.Text.Columns
import Abacus.Proofs.Token.Reading
import Abacus.Token.Dump
import Mathlib.Data.List.Nodup

/-!
# Dumps read back

A dump writes the texts of tokens as they are, with line breaks, quotes and whole rows that a string may imitate.  It can be
read nevertheless: the kind comes first, and it says where the text ends, as a string has no quote inside and no other text
has an apostrophe.

* `Kind.Carries.append_inj`: the text of a token, with anything behind its closing apostrophe;
* `Token.row_append_inj`: a row, with anything behind it;
* `Token.dump_eq_iff`: dumps are the same only for tokens with the same kinds, lines and texts.
-/

namespace Abacus

/-! ## Kinds -/

namespace Kind

/-- The kinds, one for each name. -/
def named : List Kind :=
  [leftParen, rightParen, leftBrace, rightBrace, comma, dot, minus, plus, semicolon, slash, star, bang, bangEqual, equal,
    equalEqual, greater, greaterEqual, less, lessEqual, identifier, string, number, error .unexpectedCharacter, eof] ++
    keywords.map Prod.snd

theorem mem_named {k : Kind} (h : k.isError = false) : k ∈ named := by
  cases k with
  | error cause => cases h
  | _ => decide

theorem nodup_name : (named.map name).Nodup := by
  decide +kernel

/-- A name stands for one kind, or for errors. -/
theorem eq_of_name_eq {k k' : Kind} (same : k.name = k'.name) : k = k' ∨ ∃ c c', k = error c ∧ k' = error c' := by
  have unique {k k' : Kind} (hk : k ∈ named) (hk' : k' ∈ named) (same : k.name = k'.name) : k = k' :=
    List.inj_on_of_nodup_map nodup_name hk hk' same
  have mem : error .unexpectedCharacter ∈ named := by decide
  cases proper : k.isError with
  | false =>
    cases proper' : k'.isError with
    | false => exact .inl (unique (mem_named proper) (mem_named proper') same)
    | true =>
      cases k' with
      | error c' =>
        rw [unique (mem_named proper) mem same] at proper
        cases proper
      | _ => cases proper'
  | true =>
    cases k with
    | error c =>
      cases proper' : k'.isError with
      | false =>
        rw [← unique mem (mem_named proper') same] at proper'
        cases proper'
      | true =>
        cases k' with
        | error c' => exact .inr ⟨c, c', rfl, rfl⟩
        | _ => cases proper'
    | _ => cases proper

theorem blank_not_mem_name (k : Kind) : ' ' ∉ k.name.toList := by
  cases k with
  | error cause => cases cause <;> decide
  | _ => decide

theorem head?_name (k : Kind) (rest : List Char) : ∀ c ∈ (k.name.toList ++ rest).head?, Column.isMark c = false := by
  have letter : ∃ c cs, k.name.toList = c :: cs ∧ Column.isMark c = false := by
    cases k with
    | error cause => cases cause <;> exact ⟨_, _, rfl, by decide⟩
    | _ => exact ⟨_, _, rfl, by decide⟩
  obtain ⟨c, cs, name, letter⟩ := letter
  rw [name]
  exact forall_mem_head?_cons.mpr letter

/-! ## Texts -/

/-- The texts that a token of a kind can carry: a string ends at its next quote, an error has its message, and nothing else
holds an apostrophe. -/
def Carries : Kind → List Char → Prop
  | string, text => ∃ body, '"' ∉ body ∧ text = '"' :: body ++ ['"']
  | error cause, text => text = cause.message.toList
  | _, text => '\'' ∉ text

theorem carries_of_not_mem {k : Kind} {text : List Char} (ne : k ≠ string) (proper : k.isError = false)
    (none : '\'' ∉ text) : k.Carries text := by
  cases k with
  | string => exact absurd rfl ne
  | error cause => cases proper
  | _ => exact none

theorem Carries.not_mem {k : Kind} {text : List Char} (h : k.Carries text) (ne : k ≠ string) : '\'' ∉ text := by
  cases k with
  | string => exact absurd rfl ne
  | error cause =>
    obtain rfl : text = cause.message.toList := h
    cases cause <;> decide
  | _ => exact h

/-- **The kind of a token says where its text ends**, whatever comes behind the apostrophe that closes it. -/
theorem Carries.append_inj {k : Kind} {text text' rest rest' : List Char} (h : k.Carries text) (h' : k.Carries text')
    (same : text ++ '\'' :: rest = text' ++ '\'' :: rest') : text = text' ∧ rest = rest' := by
  by_cases string : k = .string
  · subst string
    obtain ⟨body, none, rfl⟩ := h
    obtain ⟨body', none', rfl⟩ := h'
    have quoted (body rest : List Char) : '"' :: body ++ ['"'] ++ rest = '"' :: (body ++ '"' :: rest) := by simp
    rw [quoted, quoted] at same
    obtain ⟨rfl, behind⟩ := append_inj_of_not_mem none none' (List.cons.inj same).2
    exact ⟨rfl, (List.cons.inj behind).2⟩
  · exact append_inj_of_not_mem (h.not_mem string) (h'.not_mem string) same

theorem error_eq_of_carries {c c' : LexicalError} {text : List Char} (h : (error c).Carries text)
    (h' : (error c').Carries text) : c = c' := by
  obtain rfl : text = c.message.toList := h
  have same : c.message.toList = c'.message.toList := h'
  cases c <;> cases c' <;> first | rfl | exact absurd same (by decide)

end Kind

theorem IsSymbol.apostrophe_not_mem {text : List Char} (h : IsSymbol text) : '\'' ∉ text := by
  have table : ∀ p ∈ symbols.map Prod.fst, '\'' ∉ p := by decide
  exact table text h

/-- The text of a lexeme is one that its kind can carry. -/
theorem Lexes.carries {source text : List Char} {k : Kind} (h : Lexes source k text) :
    k.Carries (k.carried text).toList := by
  have words : ∀ p ∈ Kind.keywords, p.2 ≠ .string ∧ p.2.isError = false := by decide
  have table : ∀ p ∈ symbols, p.2 ≠ .string ∧ p.2.isError = false := by decide
  have plain (k : Kind) (ne : k ≠ .string) (proper : k.isError = false) (none : '\'' ∉ text) :
      k.Carries (k.carried text).toList := by
    rw [Kind.carried_of_proper proper, String.toList_ofList]
    exact Kind.carries_of_not_mem ne proper none
  cases h with
  | keyword longest mem => exact plain _ (words _ mem).1 (words _ mem).2 (longest.mem.not_mem rfl)
  | identifier longest _ => exact plain _ nofun rfl (longest.mem.not_mem rfl)
  | number longest => exact plain _ nofun rfl (longest.mem.not_mem rfl (by decide))
  | string _ none => exact ⟨_, none, String.toList_ofList⟩
  | unterminated => rfl
  | symbol longest mem => exact plain _ (table _ mem).1 (table _ mem).2 longest.mem.apostrophe_not_mem
  | unexpected => rfl

/-! ## Rows -/

namespace Token

theorem toList_row (above : Option Line) (t : Token) :
    (row above t).toList = Column.lineMark above t.line ++
      ((Column.left 13 t.kind.name).toList ++ ' ' :: '\'' :: (t.text.toList ++ '\'' :: ['\n'])) := by
  unfold row Column.lineMark
  split <;> simp

/-- **A row can be read**, whatever stands behind it: the line, the kind and the text of its token. -/
theorem row_append_inj {above : Option Line} {t t' : Token} {rest rest' : List Char} (h : t.kind.Carries t.text.toList)
    (h' : t'.kind.Carries t'.text.toList) (same : (row above t).toList ++ rest = (row above t').toList ++ rest') :
    (t.kind, t.line, t.text) = (t'.kind, t'.line, t'.text) ∧ rest = rest' := by
  rw [toList_row, toList_row] at same
  simp only [List.append_assoc, List.cons_append, List.nil_append] at same
  have head (t : Token) (rest : List Char) :
      ∀ c ∈ ((Column.left 13 t.kind.name).toList ++ rest).head?, Column.isMark c = false := by
    rw [Column.toList_left, List.append_assoc]
    exact t.kind.head?_name _
  obtain ⟨line, same⟩ := Column.lineMark_append_inj (head t _) (head t' _) same
  obtain ⟨name, same⟩ := Column.left_append_inj t.kind.blank_not_mem_name t'.kind.blank_not_mem_name same
  have quoted := (List.cons.inj same).2
  rcases Kind.eq_of_name_eq name with kind | ⟨c, c', kind, kind'⟩
  · rw [← kind] at h'
    obtain ⟨text, behind⟩ := h.append_inj h' quoted
    exact ⟨by rw [kind, line, String.toList_inj.mp text], (List.cons.inj behind).2⟩
  · -- the causes of two errors are told by their messages
    have ne : Kind.error c ≠ .string ∧ Kind.error c' ≠ .string := ⟨nofun, nofun⟩
    rw [kind] at h
    rw [kind'] at h'
    obtain ⟨text, behind⟩ := append_inj_of_not_mem (h.not_mem ne.1) (h'.not_mem ne.2) quoted
    rw [← text] at h'
    refine ⟨?_, (List.cons.inj behind).2⟩
    rw [kind, kind', Kind.error_eq_of_carries h h', line, String.toList_inj.mp text]

/-! ## Dumps -/

/-- The rows of tokens below a row for line `above`. -/
def rows : Option Line → List Token → List Char
  | _, [] => []
  | above, t :: ts => (row above t).toList ++ rows (some t.line) ts

theorem toList_foldl_addRow (ts : List Token) (above : Option Line) (out : String) :
    (ts.foldl addRow (above, out)).2.toList = out.toList ++ rows above ts := by
  induction ts generalizing above out with
  | nil => simp [rows]
  | cons t ts ih =>
    rw [List.foldl_cons, addRow, ih, rows, String.toList_append, List.append_assoc]

theorem toList_dump (source : String) : (dump source).toList = rows none (tokens source) := by
  rw [dump, toList_foldl_addRow]
  rfl

theorem rows_cons_ne_nil (above : Option Line) (t : Token) (ts : List Token) : rows above (t :: ts) ≠ [] := by
  simp [rows, toList_row]

theorem rows_inj {ts ts' : List Token} {above : Option Line} (h : ∀ t ∈ ts, t.kind.Carries t.text.toList)
    (h' : ∀ t ∈ ts', t.kind.Carries t.text.toList) (same : rows above ts = rows above ts') :
    ts.map (fun t => (t.kind, t.line, t.text)) = ts'.map (fun t => (t.kind, t.line, t.text)) := by
  induction ts generalizing ts' above with
  | nil =>
    cases ts' with
    | nil => rfl
    | cons t' ts' => exact absurd same.symm (rows_cons_ne_nil above t' ts')
  | cons t ts ih =>
    cases ts' with
    | nil => exact absurd same (rows_cons_ne_nil above t ts)
    | cons t' ts' =>
      obtain ⟨first, others⟩ := List.forall_mem_cons.mp h
      obtain ⟨first', others'⟩ := List.forall_mem_cons.mp h'
      obtain ⟨read, behind⟩ := row_append_inj first first' same
      have line : t.line = t'.line := congrArg (·.2.1) read
      rw [← line] at behind
      rw [List.map_cons, List.map_cons, read, ih others others' behind]

/-- A dump shows kinds, lines and texts only. -/
theorem rows_congr {ts ts' : List Token} (above : Option Line)
    (same : ts.map (fun t => (t.kind, t.line, t.text)) = ts'.map (fun t => (t.kind, t.line, t.text))) :
    rows above ts = rows above ts' := by
  induction ts generalizing ts' above with
  | nil =>
    rw [List.map_nil] at same
    rw [List.map_eq_nil_iff.mp same.symm]
  | cons t ts ih =>
    cases ts' with
    | nil => cases same
    | cons t' ts' =>
      obtain ⟨shown, others⟩ := List.cons.inj same
      obtain ⟨kind, shown⟩ := Prod.mk.inj shown
      obtain ⟨line, text⟩ := Prod.mk.inj shown
      rw [rows, rows, row, row, kind, line, text, ih _ others]

theorem carries_of_mem_tokens (source : String) : ∀ t ∈ tokens source, t.kind.Carries t.text.toList :=
  forall_mem_tokens (p := fun k text => k.Carries text.toList) List.not_mem_nil Lexes.carries source

/-- **Dumps are unambiguous.**  Two sources have the same dump if and only if their tokens have, one by one, the same
kinds, lines and texts, whatever their strings hold. -/
theorem dump_eq_iff (source source' : String) :
    dump source = dump source' ↔
      (tokens source).map (fun t => (t.kind, t.line, t.text)) =
        (tokens source').map (fun t => (t.kind, t.line, t.text)) := by
  rw [← String.toList_inj, toList_dump, toList_dump]
  exact ⟨rows_inj (carries_of_mem_tokens source) (carries_of_mem_tokens source'), rows_congr none⟩

/-- A string that imitates the rows of two tokens. -/
example : dump "\"'\n   | DOT           '.\"" ≠ dump "\"\" ." := by
  decide +kernel

end Token

end Abacus
