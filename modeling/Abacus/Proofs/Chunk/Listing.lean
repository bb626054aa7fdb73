import Abacus.Proofs.Chunk.Rows
import Abacus.Proofs.Chunk.WellFormed
import Abacus.Proofs.Number.Display
import Mathlib.Data.List.Nodup

/-!
# Listings read back

A listing leaves out the line of an instruction where it repeats that of the byte before, shows the operand of an
instruction without a line of its own, and of the constants only those that an instruction refers to.  Of a chunk of
whole instructions that refer to all constants it shows everything nevertheless.

* `Chunk.rows_eq_of_listing_eq`: the rows of a listing are its lines after the heading, whatever the chunk is;
* `Chunk.Consists.rows_eq`: the rows of whole instructions, in terms of the instructions and their lines;
* `Chunk.Shows.eq_of_listing_eq`: chunks that are shown by their listings.
-/

namespace Abacus

open Instruction (assemble)

/-! ## Lines of a text -/

theorem toList_join_lines (row : String) (rows : List String) :
    (String.join ((row :: rows).map (· ++ "\n"))).toList =
      row.toList ++ '\n' :: (String.join (rows.map (· ++ "\n"))).toList := by
  simp [String.join_cons]

/-- Texts without line breaks can be told when each is written on a line. -/
theorem join_lines_injective {rows rows' : List String} (none : ∀ row ∈ rows, '\n' ∉ row.toList)
    (none' : ∀ row ∈ rows', '\n' ∉ row.toList)
    (same : String.join (rows.map (· ++ "\n")) = String.join (rows'.map (· ++ "\n"))) : rows = rows' := by
  induction rows generalizing rows' with
  | nil =>
    cases rows' with
    | nil => rfl
    | cons row' rows' =>
      have texts := congrArg String.toList same
      rw [toList_join_lines] at texts
      simp at texts
  | cons row rows ih =>
    cases rows' with
    | nil =>
      have texts := congrArg String.toList same
      rw [toList_join_lines] at texts
      simp at texts
    | cons row' rows' =>
      obtain ⟨first, others⟩ := List.forall_mem_cons.mp none
      obtain ⟨first', others'⟩ := List.forall_mem_cons.mp none'
      have texts := congrArg String.toList same
      rw [toList_join_lines, toList_join_lines] at texts
      obtain ⟨row_eq, rest⟩ := append_inj_of_not_mem first first' texts
      rw [String.toList_inj.mp row_eq, ih others others' (String.toList_inj.mp rest)]

/-! ## Names -/

namespace Operation

def all : List Operation :=
  [nil, true, false, equal, greater, less, add, subtract, multiply, divide, not, negate, «return»]

theorem mem_all (o : Operation) : o ∈ all := by
  cases o <;> decide

theorem name_injective {o o' : Operation} (same : o.name = o'.name) : o = o' := by
  have nodup : (all.map name).Nodup := by decide
  exact List.inj_on_of_nodup_map nodup o.mem_all o'.mem_all same

theorem blank_not_mem_name (o : Operation) : ' ' ∉ o.name.toList := by
  cases o <;> decide

theorem head?_name (o : Operation) : o.name.toList.head? = some 'O' := by
  cases o <;> decide

end Operation

/-- The index of a constant that an instruction refers to. -/
def Instruction.operand? : Instruction → Option UInt8
  | constant index => some index
  | _ => none

namespace Chunk

variable {c c' : Chunk} {i i' : Instruction} {offset : Nat} {is is' : List (Instruction × Line)}

/-! ## Single instructions -/

theorem exists_constant?_of_isWhole {index : UInt8} (whole : (Instruction.constant index).IsWhole c.constants.size) :
    ∃ v, c.constant? index = some v ∧ v ∈ c.constants := by
  have found : c.constant? index = some c.constants[index.toNat] := Array.getElem?_eq_getElem whole
  exact ⟨_, found, Array.mem_of_getElem? found⟩

theorem toList_constantText {index : UInt8} {v : Value} (found : c.constant? index = some v) :
    (c.constantText index).toList = (Column.left 16 Opcode.constant.name).toList ++
      ' ' :: ((Column.right 4 index.toNat).toList ++ ' ' :: '\'' :: (v.display.toList ++ ['\''])) := by
  simp [constantText, found]

theorem blank_mem_constantText (c : Chunk) (index : UInt8) : ' ' ∈ (c.constantText index).toList := by
  simp [constantText]

/-- The texts of constant instructions show the index and the constant. -/
theorem constantText_inj {index index' : UInt8} {v v' : Value} (found : c.constant? index = some v)
    (found' : c'.constant? index' = some v') (hv : ¬ v.IsNaN) (hv' : ¬ v'.IsNaN)
    (same : c.constantText index = c'.constantText index') : index = index' ∧ v = v' := by
  have quote (rest : List Char) : ∀ x ∈ ('\'' :: rest).head?, Column.isMark x = false :=
    forall_mem_head?_cons.mpr rfl
  have texts := congrArg String.toList same
  rw [toList_constantText found, toList_constantText found'] at texts
  have columns := (List.cons.inj (List.append_cancel_left texts)).2
  obtain ⟨indices, quoted⟩ := Column.number_append_inj (quote _) (quote _) columns
  have displays := List.append_cancel_right (List.cons.inj quoted).2
  exact ⟨UInt8.toNat_inj.mp indices, Value.display_injective hv hv' (String.toList_inj.mp displays)⟩

/-- The text of a whole instruction begins with a letter, so the marks in front of it can be told from it. -/
theorem head?_instructionText {k : Nat} (whole : i.IsWhole k) (c : Chunk) :
    ∀ x ∈ (c.instructionText (some i)).toList.head?, Column.isMark x = false := by
  have letter : (c.instructionText (some i)).toList.head? = some 'O' := by
    rcases whole.cases with ⟨index, rfl⟩ | ⟨o, rfl⟩
    · exact head?_constantText c index
    · exact o.head?_name
  intro x hx
  rw [letter] at hx
  obtain rfl := Option.some.inj hx
  rfl

/-- **The text of a whole instruction** shows it and the constant that it refers to. -/
theorem instructionText_inj (whole : i.IsWhole c.constants.size) (whole' : i'.IsWhole c'.constants.size)
    (numbers : ∀ v ∈ c.constants, ¬ v.IsNaN) (numbers' : ∀ v ∈ c'.constants, ¬ v.IsNaN)
    (same : c.instructionText (some i) = c'.instructionText (some i')) :
    i = i' ∧ i.operand?.bind c.constant? = i.operand?.bind c'.constant? := by
  -- a name without operand has no blanks
  have ne (c : Chunk) (index : UInt8) (o : Operation) : c.constantText index ≠ o.name := by
    intro same
    apply o.blank_not_mem_name
    rw [← same]
    exact c.blank_mem_constantText index
  rcases whole.cases with ⟨index, rfl⟩ | ⟨o, rfl⟩
  · rcases whole'.cases with ⟨index', rfl⟩ | ⟨o', rfl⟩
    · obtain ⟨v, found, mem⟩ := exists_constant?_of_isWhole whole
      obtain ⟨v', found', mem'⟩ := exists_constant?_of_isWhole whole'
      obtain ⟨rfl, rfl⟩ := constantText_inj found found' (numbers v mem) (numbers' v' mem') same
      exact ⟨rfl, found.trans found'.symm⟩
    · exact absurd same (ne c index o')
  · rcases whole'.cases with ⟨index', rfl⟩ | ⟨o', rfl⟩
    · exact absurd same.symm (ne c' index' o)
    · obtain rfl := Operation.name_injective same
      exact ⟨rfl, rfl⟩

/-! ## Rows -/

/-- The line of the byte before an offset. -/
def lineAbove (c : Chunk) (offset : Nat) : Option Line :=
  if 0 < offset then c.lineAt? (offset - 1) else none

theorem toList_lineColumn (c : Chunk) (offset : Nat) :
    (c.lineColumn offset).toList = Column.lineMark (c.lineAbove offset) (c.lineAt offset) := by
  unfold lineColumn lineAbove Column.lineMark
  by_cases first : 0 < offset
  · by_cases repeated : c.lineAt? (offset - 1) = some (c.lineAt offset)
    · simp [first, repeated]
    · simp [first, repeated]
  · simp [first]

/-- The rows of instructions from an offset on, below a byte of the line `above`. -/
def rowsOf (c : Chunk) : Nat → Option Line → List (Instruction × Line) → List (List Char)
  | _, _, [] => []
  | offset, above, (i, line) :: is =>
    ((Column.zeroed 4 offset).toList ++ ' ' :: (Column.lineMark above line ++ (c.instructionText (some i)).toList)) ::
      c.rowsOf (offset + i.width) (some line) is

/-- From an offset on, the code is the bytes of whole instructions, and the line table has their lines. -/
structure ConsistsFrom (c : Chunk) (offset : Nat) (is : List (Instruction × Line)) : Prop where
  code : c.code.toList.drop offset = (assemble is).map Prod.fst
  lines : c.lines.toList.drop offset = (assemble is).map Prod.snd
  whole : ∀ p ∈ is, p.1.IsWhole c.constants.size

theorem Consists.from_zero (h : c.Consists is) : c.ConsistsFrom 0 is :=
  ⟨h.code, h.lines, h.whole⟩

/-- All bytes of an instruction are on its line. -/
theorem lineAt?_of_replicate {n k : Nat} {line : Line} {rest : List Line}
    (lines : c.lines.toList.drop offset = List.replicate n line ++ rest) (hk : k < n) :
    c.lineAt? (offset + k) = some line := by
  rw [lineAt?, ← Array.getElem?_toList, ← List.getElem?_drop, lines,
    List.getElem?_append_left (by rwa [List.length_replicate]), List.getElem?_replicate, if_pos hk]

namespace ConsistsFrom

variable {line : Line}

/-- The first instruction, its line, and what follows. -/
theorem uncons (h : c.ConsistsFrom offset ((i, line) :: is)) :
    c.instruction? offset = some i ∧ c.lineAt offset = line ∧ c.lineAbove (offset + i.width) = some line ∧
      c.ConsistsFrom (offset + i.width) is := by
  obtain ⟨code, lines, whole⟩ := h
  obtain ⟨first, rest⟩ := List.forall_mem_cons.mp whole
  rw [Instruction.map_fst_assemble_cons] at code
  rw [Instruction.map_snd_assemble_cons] at lines
  have pos := i.width_pos
  obtain ⟨here, behind⟩ := instruction?_of_bytes first code
  have firstLine : c.lineAt? offset = some line := lineAt?_of_replicate lines pos
  have lastLine : c.lineAt? (offset + (i.width - 1)) = some line :=
    lineAt?_of_replicate lines (Nat.sub_lt pos Nat.one_pos)
  refine ⟨here, by rw [lineAt, firstLine, Option.getD_some], ?_, ⟨behind, ?_, rest⟩⟩
  · rw [lineAbove, if_pos (by omega), Nat.add_sub_assoc pos, lastLine]
  · rw [← List.drop_drop, lines]
    exact List.drop_left' List.length_replicate

/-- The rows from an offset on are those of the instructions that stand there. -/
theorem map_row_eq (h : c.ConsistsFrom offset is) :
    (c.offsetsFrom offset).map (fun o => (c.row o).toList) = c.rowsOf offset (c.lineAbove offset) is := by
  induction is generalizing offset with
  | nil =>
    have past : c.code.size ≤ offset := by simpa [assemble, List.drop_eq_nil_iff] using h.code
    rw [offsetsFrom_of_le past, List.map_nil, rowsOf]
  | cons p is ih =>
    obtain ⟨i, line⟩ := p
    obtain ⟨here, lineAt, above, behind⟩ := h.uncons
    rw [offsetsFrom_of_lt (lt_size_of_instruction? here), List.map_cons, nextOffset_of_instruction? here, ih behind,
      above, rowsOf, row, here]
    simp [toList_lineColumn, lineAt]

end ConsistsFrom

/-- **The rows of whole instructions** are those of the instructions one by one, with no line above the first. -/
theorem Consists.rows_eq (h : c.Consists is) : c.rows.map String.toList = c.rowsOf 0 none is := by
  rw [rows, offsets, List.map_map]
  exact h.from_zero.map_row_eq

/-! ## Listings -/

/-- The rows of a listing are its lines after the heading. -/
theorem rows_eq_of_listing_eq {name : String} (same : c.listing name = c'.listing name) : c.rows = c'.rows := by
  have none (c : Chunk) : ∀ row ∈ c.rows, '\n' ∉ row.toList := by
    intro row hrow
    obtain ⟨o, -, rfl⟩ := List.mem_map.mp hrow
    exact newline_not_mem_row c o
  rw [listing_eq, listing_eq, String.append_right_inj] at same
  exact join_lines_injective (none c) (none c') same

/-- Rows of whole instructions below bytes of one line show the instructions, their lines and their constants. -/
theorem rowsOf_inj {above : Option Line} (whole : ∀ p ∈ is, p.1.IsWhole c.constants.size)
    (whole' : ∀ p ∈ is', p.1.IsWhole c'.constants.size) (numbers : ∀ v ∈ c.constants, ¬ v.IsNaN)
    (numbers' : ∀ v ∈ c'.constants, ¬ v.IsNaN) (same : c.rowsOf offset above is = c'.rowsOf offset above is') :
    is = is' ∧ ∀ p ∈ is, p.1.operand?.bind c.constant? = p.1.operand?.bind c'.constant? := by
  -- a bar refers to the row above, so the lines are read from the first row down
  induction is generalizing is' offset above with
  | nil =>
    cases is' with
    | nil => exact ⟨rfl, nofun⟩
    | cons p' is' => cases same
  | cons p is ih =>
    cases is' with
    | nil => cases same
    | cons p' is' =>
      obtain ⟨i, line⟩ := p
      obtain ⟨i', line'⟩ := p'
      obtain ⟨first, others⟩ := List.forall_mem_cons.mp whole
      obtain ⟨first', others'⟩ := List.forall_mem_cons.mp whole'
      obtain ⟨row, rows⟩ := List.cons.inj same
      have columns := (List.cons.inj (List.append_cancel_left row)).2
      obtain ⟨rfl, texts⟩ := Column.lineMark_append_inj (head?_instructionText first c) (head?_instructionText first' c')
        columns
      obtain ⟨rfl, operand⟩ := instructionText_inj first first' numbers numbers' (String.toList_inj.mp texts)
      obtain ⟨rfl, operands⟩ := ih others others' rows
      exact ⟨rfl, List.forall_mem_cons.mpr ⟨operand, operands⟩⟩

/-- A chunk of whole instructions that refer to all its constants, none of which is `NaN`. -/
structure Shows (c : Chunk) (is : List (Instruction × Line)) : Prop where
  consists : c.Consists is
  refers : ∀ n < c.constants.size, ∃ p ∈ is, ∃ index, p.1.operand? = some index ∧ index.toNat = n
  numbers : ∀ v ∈ c.constants, ¬ v.IsNaN

theorem lt_of_operand? {index : UInt8} {k : Nat} (whole : i.IsWhole k) (operand : i.operand? = some index) :
    index.toNat < k := by
  cases i with
  | constant index' =>
    obtain rfl := Option.some.inj operand
    exact whole
  | _ => cases operand

/-- Every index of a constant is an operand, so the other chunk has a constant for it. -/
theorem Shows.size_constants_le (h : c.Shows is) (h' : c'.Consists is) : c.constants.size ≤ c'.constants.size := by
  by_contra lt
  obtain ⟨p, mem, index, operand, eq⟩ := h.refers c'.constants.size (Nat.not_le.mp lt)
  have fits := lt_of_operand? (h'.whole p mem) operand
  omega

/-- **A listing loses nothing** of chunks of whole instructions that refer to all their constants, none of which is
`NaN`: if two have the same listing, they have the same code, the same lines and the same constants. -/
theorem Shows.eq_of_listing_eq {name : String} (h : c.Shows is) (h' : c'.Shows is')
    (same : c.listing name = c'.listing name) : c = c' := by
  have rows := congrArg (List.map String.toList) (rows_eq_of_listing_eq same)
  rw [h.consists.rows_eq, h'.consists.rows_eq] at rows
  obtain ⟨rfl, operands⟩ := rowsOf_inj h.consists.whole h'.consists.whole h.numbers h'.numbers rows
  have size := Nat.le_antisymm (h.size_constants_le h'.consists) (h'.size_constants_le h.consists)
  have constants : c.constants = c'.constants := by
    apply Array.ext_getElem?
    intro n
    rcases Nat.lt_or_ge n c.constants.size with lt | ge
    · obtain ⟨p, mem, index, operand, rfl⟩ := h.refers n lt
      have shown := operands p mem
      rw [operand] at shown
      exact shown
    · rw [Array.getElem?_eq_none ge, Array.getElem?_eq_none (size ▸ ge)]
  have code : c.code = c'.code := Array.toList_inj.mp (h.consists.code.trans h'.consists.code.symm)
  have lines : c.lines = c'.lines := Array.toList_inj.mp (h.consists.lines.trans h'.consists.lines.symm)
  obtain ⟨_, _, _⟩ := c
  obtain ⟨_, _, _⟩ := c'
  cases code
  cases lines
  cases constants
  rfl

/-- A listing shows neither a constant that no instruction refers to nor the line of an operand. -/
example : Chunk.listing ⟨#[0x00, 0], #[1, 1], #[.nil]⟩ "code" =
    Chunk.listing ⟨#[0x00, 0], #[1, 2], #[.nil, .nil]⟩ "code" := by
  decide +kernel

end Chunk

end Abacus
