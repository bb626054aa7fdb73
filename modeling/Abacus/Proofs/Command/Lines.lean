import Abacus.Command.Repl
import Abacus.Proofs.Token.Bytes

/-!
# Lines of text

The input of the line by line mode is cut into lines byte by byte, before it is decoded.  For a text this gives the lines
of the text (`Repl.linesOf_toUTF8`), as no other character has a line feed among its bytes; and the line editor hands
them over as they are, if nothing was typed to take back (`Repl.handed_eq_self`).
-/

namespace Abacus

namespace Pieces

variable {α β : Type} [DecidableEq α] [DecidableEq β] {sep : α}

theorem split_cons (x : α) (xs : List α) : split sep (x :: xs) = addFront sep x (split sep xs) :=
  rfl

/-- What holds no separator belongs to the first piece. -/
theorem split_append {as bs p : List α} {ps : List (List α)} (none : sep ∉ as) (h : split sep bs = p :: ps) :
    split sep (as ++ bs) = (as ++ p) :: ps := by
  induction as with
  | nil => exact h
  | cons a as ih =>
    rw [List.mem_cons, not_or] at none
    rw [List.cons_append, split_cons, ih none.2, addFront, if_neg (Ne.symm none.1)]
    rfl

/-- Cutting at a separator after every element is written out in full gives the pieces written out. -/
theorem split_flatMap {sep' : β} {f : α → List β} (same : f sep = [sep']) (others : ∀ x, x ≠ sep → sep' ∉ f x)
    (xs : List α) : split sep' (xs.flatMap f) = (split sep xs).map fun p => p.flatMap f := by
  induction xs with
  | nil => rfl
  | cons x xs ih =>
    obtain ⟨p, ps, pieces⟩ := List.exists_cons_of_ne_nil (split_ne_nil sep xs)
    rw [pieces, List.map_cons] at ih
    rw [List.flatMap_cons, split_cons, pieces, addFront]
    split
    · next here =>
      rw [here, same, List.singleton_append, split_cons, ih, addFront, if_pos rfl]
      rfl
    · next other => exact split_append (others x other) ih

/-- The pieces hold nothing new. -/
theorem mem_of_mem_split {xs p : List α} (hp : p ∈ split sep xs) {x : α} (hx : x ∈ p) : x ∈ xs := by
  induction xs generalizing p with
  | nil =>
    rw [List.mem_singleton.mp hp] at hx
    exact hx
  | cons y ys ih =>
    obtain ⟨q, qs, pieces⟩ := List.exists_cons_of_ne_nil (split_ne_nil sep ys)
    rw [split_cons, pieces, addFront] at hp
    rw [pieces] at ih
    split at hp
    · rcases List.mem_cons.mp hp with rfl | later
      · cases hx
      · exact List.mem_cons_of_mem y (ih later hx)
    · rcases List.mem_cons.mp hp with rfl | later
      · rcases List.mem_cons.mp hx with rfl | hx
        · exact List.mem_cons_self
        · exact List.mem_cons_of_mem y (ih List.mem_cons_self hx)
      · exact List.mem_cons_of_mem y (ih (List.mem_cons_of_mem q later) hx)

end Pieces

namespace Repl

/-- The lines of a text. What follows the last line feed is a line unless it is empty. -/
def textLines (text : String) : List String :=
  let pieces := Pieces.split '\n' text.toList
  (if pieces.getLast? = some [] then pieces.dropLast else pieces).map String.ofList

/-- The lines of a text as the line editor hands them over. -/
def handed (text : String) : List String :=
  (textLines text).map fun line => String.ofList (Backspace.erase line.toList)

/-- Only a line feed has one among its bytes. -/
theorem lineFeed_notMem_encode {c : Char} (h : c ≠ '\n') : 0x0A ∉ String.utf8EncodeChar c := by
  intro mem
  have found : '\n' ∈ bytesOf [c] := List.mem_map.mpr ⟨0x0A, by simpa using mem, rfl⟩
  have here := (uniform_beq (d := '\n') (by decide)).bytes '\n' found
  exact h (eq_of_beq here.symm)

/-- The bytes of a piece. -/
theorem toUTF8_ofList (cs : List Char) : (String.ofList cs).toUTF8 = ⟨(cs.flatMap String.utf8EncodeChar).toArray⟩ := by
  apply ByteArray.ext
  apply Array.ext'
  show (String.ofList cs).toByteArray.data.toList = _
  rw [String.toByteArray_ofList, List.utf8Encode, List.toList_data_toByteArray]

theorem flatMap_encode_eq_nil {cs : List Char} : cs.flatMap String.utf8EncodeChar = [] ↔ cs = [] := by
  have empty := isEmpty_bytesOf cs
  rw [bytesOf, List.isEmpty_map] at empty
  rw [← List.isEmpty_iff, empty, List.isEmpty_iff]

/-- **A text is cut into its lines.** -/
theorem linesOf_toUTF8 (text : String) : linesOf text.toUTF8 = (textLines text).map String.toUTF8 := by
  have bytes : text.toUTF8.data.toList = text.toList.flatMap String.utf8EncodeChar := by
    rw [← List.toList_data_toByteArray (l := text.toList.flatMap String.utf8EncodeChar)]
    exact congrArg (fun b => b.data.toList) String.utf8Encode_toList.symm
  have cut := Pieces.split_flatMap (f := String.utf8EncodeChar) (by decide)
    (fun _ other => lineFeed_notMem_encode other) text.toList
  simp only [linesOf, textLines, bytes, cut]
  generalize Pieces.split '\n' text.toList = pieces
  have ends : (pieces.map fun p => p.flatMap String.utf8EncodeChar).getLast? = some [] ↔ pieces.getLast? = some [] := by
    rw [List.getLast?_map, Option.map_eq_some_iff]
    constructor
    · rintro ⟨p, last, empty⟩
      rw [last, flatMap_encode_eq_nil.mp empty]
    · exact fun last => ⟨[], last, rfl⟩
  have decoded (ps : List (List Char)) : (ps.map fun p => p.flatMap String.utf8EncodeChar).map (fun line => ⟨line.toArray⟩) =
      (ps.map String.ofList).map String.toUTF8 := by
    rw [List.map_map, List.map_map]
    exact List.map_congr_left fun p _ => (toUTF8_ofList p).symm
  simp only [ends]
  split
  · rw [← List.map_dropLast]
    exact decoded _
  · exact decoded _

theorem mem_split_of_mem_textLines {text line : String} (h : line ∈ textLines text) :
    line.toList ∈ Pieces.split '\n' text.toList := by
  obtain ⟨p, mem, rfl⟩ := List.mem_map.mp h
  rw [String.toList_ofList]
  split at mem
  · exact List.dropLast_subset _ mem
  · exact mem

theorem handed_eq_self {text : String} (h : '\x08' ∉ text.toList) : handed text = textLines text := by
  have same : ∀ line ∈ textLines text, String.ofList (Backspace.erase line.toList) = line := by
    intro line mem
    have none : '\x08' ∉ line.toList := fun typed => h (Pieces.mem_of_mem_split (mem_split_of_mem_textLines mem) typed)
    rw [Backspace.erase_eq_self none, String.ofList_toList]
  rw [handed, List.map_congr_left same, List.map_id']

end Repl

end Abacus
