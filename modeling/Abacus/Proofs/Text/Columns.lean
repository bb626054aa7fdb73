import Abacus.Proofs.Token.Lexical
import Abacus.Text.Column

/-!
# Columns read back

A row is made of columns that are set among blanks.  Each of them ends where the characters of some class end, so the row
determines what stands in the column and what is left behind it.

* `append_inj_of_class`, `append_inj_of_not_mem`: a text is cut where a class of characters ends, or at a character;
* `Column.left_append_inj`: a name that is set to the left;
* `Column.number_append_inj`: a number that is set to the right;
* `Column.lineMark_append_inj`: the line of a row, or a bar for the line of the row above.
-/

namespace Abacus

/-- A text is cut in one way only where a class of characters ends. -/
theorem append_inj_of_class {p : Char → Bool} {ds ds' rest rest' : List Char} (all : ∀ c ∈ ds, p c = true)
    (all' : ∀ c ∈ ds', p c = true) (next : ∀ c ∈ rest.head?, p c = false) (next' : ∀ c ∈ rest'.head?, p c = false)
    (same : ds ++ rest = ds' ++ rest') : ds = ds' ∧ rest = rest' := by
  have front := congrArg (List.takeWhile p) same
  have back := congrArg (List.dropWhile p) same
  rw [takeWhile_append_of_head all next, takeWhile_append_of_head all' next'] at front
  rw [dropWhile_append_of_head all next, dropWhile_append_of_head all' next'] at back
  exact ⟨front, back⟩

theorem append_inj_of_not_mem {q : Char} {text text' rest rest' : List Char} (none : q ∉ text) (none' : q ∉ text')
    (same : text ++ q :: rest = text' ++ q :: rest') : text = text' ∧ rest = rest' := by
  have here (rest : List Char) : ∀ c ∈ (q :: rest).head?, (c != q) = false :=
    forall_mem_head?_cons.mpr (bne_self_eq_false q)
  obtain ⟨front, back⟩ := append_inj_of_class (Lexeme.bne_of_not_mem none) (Lexeme.bne_of_not_mem none') (here rest)
    (here rest') same
  exact ⟨front, (List.cons.inj back).2⟩

namespace Column

/-! ## Names -/

theorem toList_left (width : Nat) (text : String) :
    (left width text).toList = text.toList ++ List.replicate (width - text.toList.length) ' ' := by
  rw [left, String.toList_ofList, List.rightpad]

/-- A text without blanks that is set to the left can be told from what is behind it. -/
theorem left_append_inj {width : Nat} {text text' : String} {rest rest' : List Char} (none : ' ' ∉ text.toList)
    (none' : ' ' ∉ text'.toList)
    (same : (left width text).toList ++ ' ' :: rest = (left width text').toList ++ ' ' :: rest') :
    text = text' ∧ rest = rest' := by
  have blank (n : Nat) (rest : List Char) : ∀ c ∈ (List.replicate n ' ' ++ ' ' :: rest).head?, (c != ' ') = false := by
    cases n <;> exact forall_mem_head?_cons.mpr rfl
  rw [toList_left, toList_left, List.append_assoc, List.append_assoc] at same
  obtain ⟨text_eq, -⟩ := append_inj_of_class (Lexeme.bne_of_not_mem none) (Lexeme.bne_of_not_mem none') (blank _ _)
    (blank _ _) same
  obtain rfl := String.toList_inj.mp text_eq
  refine ⟨rfl, ?_⟩
  have behind := List.append_cancel_left (List.append_cancel_left same)
  exact (List.cons.inj behind).2

/-! ## Numbers -/

theorem toDigits_injective {n m : Nat} (same : Nat.toDigits 10 n = Nat.toDigits 10 m) : n = m := by
  have value := congrArg (Nat.ofDigitChars 10 · 0) same
  simpa [Nat.ofDigitChars_ten_toDigits] using value

theorem toList_right (width n : Nat) :
    (right width n).toList = List.replicate (width - (Nat.toDigits 10 n).length) ' ' ++ Nat.toDigits 10 n := by
  rw [right, String.toList_ofList, List.leftpad]

theorem right_injective {width n m : Nat} (same : (right width n).toList = (right width m).toList) : n = m := by
  have digit (n : Nat) : ∀ c ∈ (Nat.toDigits 10 n).head?, (c == ' ') = false := by
    intro c hc
    have := Nat.isDigit_of_mem_toDigits (by decide) (by decide) (List.mem_of_mem_head? hc)
    rw [beq_eq_false_iff_ne]
    rintro rfl
    cases this
  have blank (n : Nat) : ∀ c ∈ List.replicate n ' ', (c == ' ') = true := by
    intro c hc
    rw [List.eq_of_mem_replicate hc]
    rfl
  rw [toList_right, toList_right] at same
  exact toDigits_injective (append_inj_of_class (blank _) (blank _) (digit n) (digit m) same).2

/-- The characters that numbers and bars are set with. -/
def isMark (c : Char) : Bool :=
  c == ' ' || c == '|' || c.isDigit

theorem isMark_of_mem_right {width n : Nat} {c : Char} (hc : c ∈ (right width n).toList) : isMark c = true ∧ c ≠ '|' := by
  rw [toList_right] at hc
  rcases List.mem_append.mp hc with blank | digit
  · rw [List.eq_of_mem_replicate blank]
    decide
  · have digit := Nat.isDigit_of_mem_toDigits (by decide) (by decide) digit
    refine ⟨by simp [isMark, digit], ?_⟩
    rintro rfl
    cases digit

/-- A number that is set to the right can be told from what is behind it. -/
theorem number_append_inj {width n m : Nat} {rest rest' : List Char} (next : ∀ c ∈ rest.head?, isMark c = false)
    (next' : ∀ c ∈ rest'.head?, isMark c = false)
    (same : (right width n).toList ++ ' ' :: rest = (right width m).toList ++ ' ' :: rest') : n = m ∧ rest = rest' := by
  have marks (n : Nat) : ∀ c ∈ (right width n).toList ++ [' '], isMark c = true := by
    intro c hc
    rcases List.mem_append.mp hc with number | blank
    · exact (isMark_of_mem_right number).1
    · rw [List.mem_singleton.mp blank]
      rfl
  rw [List.append_cons, List.append_cons _ _ rest'] at same
  obtain ⟨number, behind⟩ := append_inj_of_class (marks n) (marks m) next next' same
  exact ⟨right_injective (List.append_cancel_right number), behind⟩

/-! ## Lines -/

/-- The line of a row below a row for another line: a bar if it is the same. -/
def lineMark (above : Option UInt32) (line : UInt32) : List Char :=
  if above = some line then [' ', ' ', ' ', '|', ' '] else (right 4 line.toNat).toList ++ [' ']

theorem isMark_of_mem_lineMark {above : Option UInt32} {line : UInt32} : ∀ c ∈ lineMark above line, isMark c = true := by
  have bar : [' ', ' ', ' ', '|', ' '].all isMark = true := by decide
  intro c hc
  unfold lineMark at hc
  split at hc
  · exact List.all_eq_true.mp bar c hc
  · rcases List.mem_append.mp hc with number | blank
    · exact (isMark_of_mem_right number).1
    · rw [List.mem_singleton.mp blank]
      rfl

theorem bar_mem_lineMark_iff {above : Option UInt32} {line : UInt32} : '|' ∈ lineMark above line ↔ above = some line := by
  unfold lineMark
  split
  · next same => exact ⟨fun _ => same, fun _ => by decide⟩
  · next other =>
    refine ⟨fun mem => ?_, fun same => absurd same other⟩
    rcases List.mem_append.mp mem with number | blank
    · exact absurd rfl (isMark_of_mem_right number).2
    · cases List.mem_singleton.mp blank

/-- **The line of a row can be read**, whether it is written or a bar, if that of the row above is known. -/
theorem lineMark_append_inj {above : Option UInt32} {line line' : UInt32} {rest rest' : List Char}
    (next : ∀ c ∈ rest.head?, isMark c = false) (next' : ∀ c ∈ rest'.head?, isMark c = false)
    (same : lineMark above line ++ rest = lineMark above line' ++ rest') : line = line' ∧ rest = rest' := by
  obtain ⟨mark, behind⟩ := append_inj_of_class isMark_of_mem_lineMark isMark_of_mem_lineMark next next' same
  refine ⟨?_, behind⟩
  by_cases bar : above = some line
  · have bar' : above = some line' := by rwa [← bar_mem_lineMark_iff, ← mark, bar_mem_lineMark_iff]
    exact Option.some.inj (bar.symm.trans bar')
  · have none : above ≠ some line' := by rwa [Ne, ← bar_mem_lineMark_iff, ← mark, bar_mem_lineMark_iff]
    rw [lineMark, lineMark, if_neg bar, if_neg none] at mark
    exact UInt32.toNat_inj.mp (right_injective (List.append_cancel_right mark))

end Column

end Abacus
