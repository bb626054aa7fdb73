import Abacus.Chunk.Listing
import Abacus.Proofs.Chunk.Offsets

/-!
# Rows of a listing

A listing is its heading and one row for each instruction, in the order of their offsets (`Chunk.listing_eq`).  A row
holds no line break (`Chunk.newline_not_mem_row`), so the rows are the lines of the listing after its heading.
-/

namespace Abacus

/-! ## Texts on one line -/

theorem newline_not_mem_toDigits (n : Nat) : '\n' ∉ Nat.toDigits 10 n := by
  intro mem
  have := Nat.isDigit_of_mem_toDigits (by decide) (by decide) mem
  exact absurd this (by decide)

theorem Layout.newline_not_mem_zeros (n : Nat) : '\n' ∉ zeros n := by
  simp [zeros]

theorem Layout.newline_not_mem_positional (d : Decimal) : '\n' ∉ positional d := by
  have digits : '\n' ∉ d.digits := newline_not_mem_toDigits d.coefficient
  have front : ∀ n, '\n' ∉ d.digits.take n := fun n mem => digits (List.mem_of_mem_take mem)
  have back : ∀ n, '\n' ∉ d.digits.drop n := fun n mem => digits (List.mem_of_mem_drop mem)
  unfold positional
  split
  · dsimp only
    split
    · simp [front, back]
    · simp [newline_not_mem_zeros, digits]
  · simp [newline_not_mem_zeros, digits]

theorem Layout.newline_not_mem_display (x : Float) : '\n' ∉ display x := by
  have magnitude : ∀ b, '\n' ∉ displayMagnitude b := by
    intro b
    unfold displayMagnitude
    split
    · decide
    · exact newline_not_mem_positional _
  have body : ∀ b, '\n' ∉ (if b = Binary64.infinity then "inf".toList else displayMagnitude b) := by
    intro b
    split
    · decide
    · exact magnitude b
  unfold display
  dsimp only
  split
  · decide
  · split
    · simp only [List.mem_cons, not_or]
      exact ⟨by decide, body _⟩
    · exact body _

theorem Value.newline_not_mem_display (v : Value) : '\n' ∉ v.display.toList := by
  cases v with
  | nil => decide
  | bool b => cases b <;> decide
  | number x =>
    rw [Value.display, String.toList_ofList]
    exact Layout.newline_not_mem_display x

theorem Operation.newline_not_mem_name (o : Operation) : '\n' ∉ o.name.toList := by
  cases o <;> decide

namespace Column

theorem newline_not_mem_right (width n : Nat) : '\n' ∉ (right width n).toList := by
  simp [right, List.leftpad, newline_not_mem_toDigits]

theorem newline_not_mem_zeroed (width n : Nat) : '\n' ∉ (zeroed width n).toList := by
  simp [zeroed, List.leftpad, newline_not_mem_toDigits]

theorem newline_not_mem_left (width : Nat) (text : String) (h : '\n' ∉ text.toList) :
    '\n' ∉ (left width text).toList := by
  simp [left, List.rightpad, h]

end Column

namespace Chunk

/-! ## Rows -/

/-- The rows of all instructions. -/
def rows (c : Chunk) : List String :=
  c.offsets.map c.row

theorem addRows_eq (c : Chunk) {offset : Nat} (h : offset ≤ c.code.size) (listed : String) :
    c.addRows offset listed = listed ++ String.join ((c.offsetsFrom offset).map fun o => c.row o ++ "\n") := by
  induction offset, h using offset_induction generalizing listed with
  | ending =>
    rw [addRows, if_neg (Nat.lt_irrefl _), offsetsFrom_of_le (Nat.le_refl _)]
    simp
  | next offset lt ih =>
    rw [addRows, if_pos lt, ih, offsetsFrom_of_lt lt, List.map_cons, String.join_cons, String.append_assoc,
      String.append_assoc, String.append_assoc]

/-- **A listing is its heading and its rows**, each with a line feed. -/
theorem listing_eq (c : Chunk) (name : String) :
    c.listing name = "== " ++ name ++ " ==\n" ++ String.join (c.rows.map (· ++ "\n")) := by
  rw [listing, addRows_eq c (Nat.zero_le _), rows, List.map_map]
  rfl

theorem newline_not_mem_lineColumn (c : Chunk) (offset : Nat) : '\n' ∉ (c.lineColumn offset).toList := by
  unfold lineColumn
  dsimp only
  split
  · decide
  · simp [Column.newline_not_mem_right]

theorem newline_not_mem_constantText (c : Chunk) (index : UInt8) : '\n' ∉ (c.constantText index).toList := by
  have name := Column.newline_not_mem_left 16 Opcode.constant.name (by decide)
  have invalid : '\n' ∉ "<invalid>".toList := by decide
  unfold constantText
  dsimp only
  split
  · simp [name, Column.newline_not_mem_right, Value.newline_not_mem_display]
  · simp [name, Column.newline_not_mem_right, invalid]

theorem newline_not_mem_instructionText (c : Chunk) (i : Option Instruction) :
    '\n' ∉ (c.instructionText i).toList := by
  cases i with
  | none =>
    show '\n' ∉ "<end of chunk>".toList
    decide
  | some i =>
    cases i with
    | constant index => exact newline_not_mem_constantText c index
    | truncated =>
      have name := Column.newline_not_mem_left 16 Opcode.constant.name (by decide)
      show '\n' ∉ (Column.left 16 Opcode.constant.name ++ " <truncated>").toList
      simp [name]
    | plain o => exact o.newline_not_mem_name
    | unknown byte =>
      show '\n' ∉ ("Unknown opcode " ++ Nat.repr byte.toNat).toList
      simp [newline_not_mem_toDigits]

theorem newline_not_mem_row (c : Chunk) (offset : Nat) : '\n' ∉ (c.row offset).toList := by
  simp [row, Column.newline_not_mem_zeroed, newline_not_mem_lineColumn, newline_not_mem_instructionText]

/-! ## The end of the code -/

theorem head?_constantText (c : Chunk) (index : UInt8) : (c.constantText index).toList.head? = some 'O' := by
  simp [constantText, Column.left, List.rightpad, Opcode.name]

/-- Only past the end of the code does a row say so. -/
theorem instructionText_eq_end_iff (c : Chunk) (offset : Nat) :
    c.instructionText (c.instruction? offset) = "<end of chunk>" ↔ c.code.size ≤ offset := by
  rw [← instruction?_eq_none_iff]
  cases c.instruction? offset with
  | none => exact ⟨fun _ => rfl, fun _ => rfl⟩
  | some i =>
    -- every other text begins with a letter
    have start : (c.instructionText (some i)).toList.head? ≠ some '<' := by
      cases i with
      | constant index =>
        show (c.constantText index).toList.head? ≠ some '<'
        rw [head?_constantText]
        decide
      | truncated =>
        show (Column.left 16 Opcode.constant.name ++ " <truncated>").toList.head? ≠ some '<'
        decide
      | plain o =>
        show o.name.toList.head? ≠ some '<'
        cases o <;> decide
      | unknown byte =>
        show ("Unknown opcode " ++ Nat.repr byte.toNat).toList.head? ≠ some '<'
        simp
    refine ⟨fun same => ?_, nofun⟩
    rw [same] at start
    exact absurd (by decide) start

end Chunk

end Abacus
