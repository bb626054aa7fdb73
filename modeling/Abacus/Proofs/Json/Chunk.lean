import Abacus.Proofs.Json.Numbers
import Abacus.Proofs.Json.Reading

/-!
# Values and chunks read back

What is written for a value or for a chunk is read as that again, except for its numbers: these are what the reader makes
of their digits, and where it makes nothing of them, it refuses the whole text.

* `Value.reread`, `Value.readsBack`: values;
* `Chunk.ofJson?_toJson`: chunks.
-/

namespace Abacus

open Json

/-- The names of the exchange format need no escapes. -/
theorem isPlain_of_mem_name :
    ∀ name ∈ ["Nil", "Bool", "Number", "code", "lines", "constants"], ∀ c ∈ name.toList, IsPlain c := by
  simp [IsPlain]

/-! ## Values -/

namespace Value

/-- What the reader makes of the text that is written for a value. -/
def reread : Value → Option Value
  | number x => (Numeral.reread x).map number
  | v => some v

theorem read_object {kind : String} (plain : ∀ c ∈ kind.toList, IsPlain c) {cs : List Char} {rest : List Char}
    {found : Option Value} (content : readContent kind cs = found.map fun v => (v, '\x7d' :: rest)) :
    read ('\x7b' :: '"' :: (kind.toList ++ '"' :: ':' :: cs)) = found.map fun v => (v, rest) := by
  have name := string_append plain (':' :: cs)
  have colon := punctuation_cons (c := ':') rfl cs
  have closing := punctuation_cons (c := '\x7d') rfl rest
  rw [read, skipSpace_cons rfl]
  simp only [name, colon, content, bind, Option.bind_some]
  rcases found with _ | v
  · rfl
  · simp only [Option.map_some, Option.bind_some, closing]
    rfl

theorem readContent_bool (b : Bool) (rest : List Char) :
    readContent "Bool" ((if b then "true" else "false").toList ++ '\x7d' :: rest) =
      (bool b).reread.map fun v => (v, '\x7d' :: rest) := by
  cases b <;> rfl

theorem readContent_number (x : Float) (rest : List Char) :
    readContent "Number" (Layout.exchange x ++ '\x7d' :: rest) = (number x).reread.map fun v => (v, '\x7d' :: rest) := by
  obtain ⟨c, cs, head, visible⟩ := Numeral.exists_exchange_eq_cons x
  have ends : Numeral.Parts.Ends ('\x7d' :: rest) := fun d hd => by rw [← Option.mem_some.mp hd]; decide
  have number := Numeral.read_exchange_append (x := x) ends
  have space : skipSpace (Layout.exchange x ++ '\x7d' :: rest) = Layout.exchange x ++ '\x7d' :: rest := by
    rw [head, List.cons_append, skipSpace_cons visible]
  have content : readContent "Number" (Layout.exchange x ++ '\x7d' :: rest) =
      (Numeral.read (Layout.exchange x ++ '\x7d' :: rest)).bind fun found =>
        found.1.toFloat?.map fun y => (Value.number y, found.2) := by
    rw [readContent, space]
    simp only [Option.map_eq_bind]
    rfl
  have mapped := congrArg (Option.map fun found => (Value.number found.1, found.2)) number
  simp only [Option.map_bind, Option.map_map, Function.comp_def] at mapped
  simp only [content, reread, mapped, Option.map_map, Function.comp_def]

theorem toList_toJson_number (x : Float) :
    (number x).toJson.toList = '\x7b' :: '"' :: ("Number".toList ++ '"' :: ':' :: (Layout.exchange x ++ ['\x7d'])) := by
  simp only [toJson, String.toList_append, String.toList_ofList]
  rfl

theorem toList_toJson_bool (b : Bool) : (bool b).toJson.toList =
    '\x7b' :: '"' :: ("Bool".toList ++ '"' :: ':' :: ((if b then "true" else "false").toList ++ ['\x7d'])) := by
  cases b <;> decide

/-- **A value is read back** as what the reader makes of its number, if it is one. -/
theorem readsBack (v : Value) : ReadsBack read toJson reread v where
  head := by
    cases v with
    | nil => exact ⟨_, _, rfl, rfl, by decide⟩
    | bool b => exact ⟨_, _, toList_toJson_bool b, rfl, by decide⟩
    | number x => exact ⟨_, _, toList_toJson_number x, rfl, by decide⟩
  read rest follows := by
    cases v with
    | nil =>
      have plain := isPlain_of_mem_name "Nil" (by simp)
      have name := stringBody_append plain [] rest
      have text : nil.toJson.toList ++ rest = '"' :: ("Nil".toList ++ '"' :: rest) := rfl
      rw [text, read, skipSpace_cons rfl]
      simp only [name, bind, Option.bind_some]
      rfl
    | bool b =>
      have plain := isPlain_of_mem_name "Bool" (by simp)
      have found := read_object plain (readContent_bool b rest)
      rw [toList_toJson_bool]
      simpa using found
    | number x =>
      have plain := isPlain_of_mem_name "Number" (by simp)
      have found := read_object plain (readContent_number x rest)
      rw [toList_toJson_number]
      simpa using found

end Value

/-! ## Chunks -/

namespace Chunk

theorem readConstants_listText (constants : Array Value) (rest : List Char) :
    readConstants ((listText (constants.toList.map Value.toJson)).toList ++ rest) =
      (constants.toList.mapM Value.reread).map fun vs => (vs.toArray, rest) :=
  elements_listText Value.readsBack constants.toList rest

namespace Members

section Steps

variable {name : String} (plain : ∀ c ∈ name.toList, IsPlain c) {bound : Nat} {m m' : Members} {cs rest : List Char}
include plain

theorem readFrom_of_none (h : m.readValue bound name cs = none) :
    readFrom (bound + 1) m ('"' :: (name.toList ++ '"' :: ':' :: cs)) = none := by
  have colon : punctuation ':' (':' :: cs) = some cs := punctuation_cons rfl cs
  simp only [readFrom, string_append plain, colon, h, bind, Option.bind_some, Option.bind_none]

theorem readFrom_of_comma (h : m.readValue bound name cs = some (m', ',' :: rest)) :
    readFrom (bound + 1) m ('"' :: (name.toList ++ '"' :: ':' :: cs)) = readFrom bound m' rest := by
  have colon : punctuation ':' (':' :: cs) = some cs := punctuation_cons rfl cs
  simp only [readFrom, string_append plain, colon, h, bind, Option.bind_some]
  rfl

theorem readFrom_of_close (h : m.readValue bound name cs = some (m', '\x7d' :: rest)) :
    readFrom (bound + 1) m ('"' :: (name.toList ++ '"' :: ':' :: cs)) = some (m', rest) := by
  have colon : punctuation ':' (':' :: cs) = some cs := punctuation_cons rfl cs
  simp only [readFrom, string_append plain, colon, h, bind, Option.bind_some]
  rfl

end Steps

end Members

/-- What stands between the brackets of a written chunk. -/
def membersText (c : Chunk) : List Char :=
  '"' :: ("code".toList ++ '"' :: ':' :: ((listText (c.code.toList.map fun b => Nat.repr b.toNat)).toList ++ ',' ::
    '"' :: ("lines".toList ++ '"' :: ':' :: ((listText (c.lines.toList.map fun l => Nat.repr l.toNat)).toList ++ ',' ::
      '"' :: ("constants".toList ++ '"' :: ':' ::
        ((listText (c.constants.toList.map Value.toJson)).toList ++ ['\x7d']))))))

theorem toList_toJson (c : Chunk) : c.toJson.toList = '\x7b' :: c.membersText := by
  simp only [toJson, membersText, String.toList_append, List.append_assoc]
  rfl

theorem readFrom_membersText (c : Chunk) (bound : Nat) :
    Members.readFrom (bound + 3) {} c.membersText =
      (c.constants.toList.mapM Value.reread).map fun vs => (⟨some c.code, some c.lines, some vs.toArray⟩, []) := by
  have code (rest : List Char) : Members.readValue (bound + 2) {} "code"
      ((listText (c.code.toList.map fun b => Nat.repr b.toNat)).toList ++ rest) =
        some (⟨some c.code, none, none⟩, rest) := by
    simp [Members.readValue, readCode_listText]
  have lines (rest : List Char) : Members.readValue (bound + 1) ⟨some c.code, none, none⟩ "lines"
      ((listText (c.lines.toList.map fun l => Nat.repr l.toNat)).toList ++ rest) =
        some (⟨some c.code, some c.lines, none⟩, rest) := by
    simp [Members.readValue, readLines_listText]
  have constants : Members.readValue bound ⟨some c.code, some c.lines, none⟩ "constants"
      ((listText (c.constants.toList.map Value.toJson)).toList ++ ['\x7d']) =
        (c.constants.toList.mapM Value.reread).map fun vs =>
          (⟨some c.code, some c.lines, some vs.toArray⟩, ['\x7d']) := by
    simp [Members.readValue, readConstants_listText, Function.comp_def]
  rw [membersText, Members.readFrom_of_comma (isPlain_of_mem_name _ (by simp)) (code _),
    Members.readFrom_of_comma (isPlain_of_mem_name _ (by simp)) (lines _)]
  rcases refused : c.constants.toList.mapM Value.reread with _ | vs <;> rw [refused] at constants
  · exact Members.readFrom_of_none (isPlain_of_mem_name _ (by simp)) constants
  · exact Members.readFrom_of_close (isPlain_of_mem_name _ (by simp)) constants

theorem readObject_membersText (c : Chunk) :
    readObject c.membersText =
      (c.constants.toList.mapM Value.reread).map fun vs => (⟨c.code, c.lines, vs.toArray⟩, []) := by
  obtain ⟨bound, length⟩ : ∃ bound, c.membersText.length = bound + 3 := ⟨c.membersText.length - 3, by
    simp only [membersText, List.length_cons, List.length_append]
    omega⟩
  have opening : readObject c.membersText =
      (Members.readFrom c.membersText.length {} c.membersText).bind fun found =>
        found.1.toChunk?.bind fun c' => some (c', found.2) := rfl
  rw [opening, length, readFrom_membersText]
  rcases c.constants.toList.mapM Value.reread with _ | vs <;> rfl

/-- **A written chunk is read** as the same code and lines, and what its constants are read as. -/
theorem ofJson?_toJson (c : Chunk) :
    ofJson? c.toJson =
      (c.constants.toList.mapM Value.reread).map fun vs => ⟨c.code, c.lines, vs.toArray⟩ := by
  rw [ofJson?, toList_toJson, skipSpace_cons rfl]
  simp only [readObject_membersText]
  rcases c.constants.toList.mapM Value.reread with _ | vs <;> rfl

end Chunk

end Abacus
