import Abacus.Json.Chunk
import Abacus.Proofs.Json.Written

/-!
# Pieces of JSON text read back

What is written is read back piece by piece: a piece in front of any text that may follow it is taken off, and the rest
is left as it is.

* `Json.string_append`: names without escapes;
* `Json.ReadsBack`, `Json.elements_listText`: lists, given that their elements are read back;
* `Chunk.readBelow_repr`: natural numbers.
-/

namespace Abacus.Json

/-! ## Punctuation and strings -/

theorem skipSpace_cons {c : Char} (h : isSpace c = false) (cs : List Char) : skipSpace (c :: cs) = c :: cs :=
  List.dropWhile_cons_of_neg (by simp [h])

theorem punctuation_cons {c : Char} (h : isSpace c = false) (rest : List Char) : punctuation c (c :: rest) = some rest := by
  rw [punctuation, skipSpace_cons h]
  exact if_pos rfl

/-- A character that stands for itself in a string. -/
def IsPlain (c : Char) : Prop :=
  c ≠ '"' ∧ c ≠ '\\' ∧ 0x20 ≤ c.toNat

theorem stringBody_append {name : List Char} (plain : ∀ c ∈ name, IsPlain c) (taken rest : List Char) :
    stringBody taken (name ++ '"' :: rest) = some (String.ofList (taken.reverse ++ name), rest) := by
  induction name generalizing taken with
  | nil => rw [List.nil_append, stringBody, List.append_nil]
  | cons c cs ih =>
    obtain ⟨quote, backslash, visible⟩ := plain c List.mem_cons_self
    rw [List.cons_append, stringBody, if_neg (Nat.not_lt.mpr visible), ih fun d hd => plain d (List.mem_cons_of_mem c hd)]
    · rw [List.reverse_cons, List.append_assoc]
      rfl
    · exact quote
    · exact backslash

theorem string_append {name : String} (plain : ∀ c ∈ name.toList, IsPlain c) (rest : List Char) :
    string ('"' :: (name.toList ++ '"' :: rest)) = some (name, rest) := by
  show stringBody [] (name.toList ++ '"' :: rest) = _
  rw [stringBody_append plain, List.reverse_nil, List.nil_append, String.ofList_toList]

/-! ## Lists -/

/-- What follows an element of a list. -/
def FollowsElement (rest : List Char) : Prop :=
  ∃ c tail, rest = c :: tail ∧ (c = ',' ∨ c = ']')

/-- The reader takes the text of an element off whatever follows it, and makes of it what `f` says, if anything. -/
structure ReadsBack {α β : Type} (element : List Char → Option (β × List Char)) (write : α → String)
    (f : α → Option β) (a : α) : Prop where
  head : ∃ c cs, (write a).toList = c :: cs ∧ isSpace c = false ∧ c ≠ ']'
  read : ∀ rest, FollowsElement rest → element ((write a).toList ++ rest) = (f a).map fun b => (b, rest)

section Lists

variable {α β : Type} {element : List Char → Option (β × List Char)} {write : α → String} {f : α → Option β}

theorem toList_listText_cons (s : String) (ss : List String) :
    (listText (s :: ss)).toList = '[' :: (s.toList ++ (ss.flatMap (fun t => ',' :: t.toList) ++ [']'])) := by
  have joined (l : List Char) (ls : List (List Char)) :
      [','].intercalate (l :: ls) = l ++ ls.flatMap (fun t => ',' :: t) := by
    induction ls generalizing l with
    | nil => simp [List.intercalate]
    | cons m ms ih =>
      rw [List.intercalate, List.intersperse_cons_cons, List.flatten_cons, List.flatten_cons, ← List.intercalate, ih,
        List.flatMap_cons]
      rfl
  have comma : ",".toList = [','] := rfl
  simp only [listText, String.toList_append, String.toList_intercalate, comma, List.map_cons, joined, List.flatMap_map,
    List.append_assoc]
  rfl

section Steps

variable (taken : Array β) (bound : Nat) {cs rest : List Char} {b : β}

theorem elementsFrom_of_none (h : element cs = none) : elementsFrom element (bound + 1) taken cs = none := by
  rw [elementsFrom, h]

theorem elementsFrom_of_comma (h : element cs = some (b, ',' :: rest)) :
    elementsFrom element (bound + 1) taken cs = elementsFrom element bound (taken.push b) rest := by
  rw [elementsFrom, h]
  rfl

theorem elementsFrom_of_close (h : element cs = some (b, ']' :: rest)) :
    elementsFrom element (bound + 1) taken cs = some (taken.push b, rest) := by
  rw [elementsFrom, h]
  rfl

theorem elements_of_head {c : Char} (visible : isSpace c = false) (opens : c ≠ ']') :
    elements element ('[' :: c :: cs) = elementsFrom element (c :: cs).length #[] (c :: cs) := by
  have opening : punctuation '[' ('[' :: c :: cs) = some (c :: cs) := punctuation_cons rfl _
  simp only [elements, opening, skipSpace_cons visible, bind, Option.bind_some]
  split
  · next same => exact absurd (List.cons.inj same).1 opens
  · rfl

end Steps

theorem elementsFrom_write (reads : ∀ a, ReadsBack element write f a) (a : α) (as : List α) (taken : Array β)
    {bound : Nat} (enough : as.length < bound) (rest : List Char) :
    elementsFrom element bound taken
        ((write a).toList ++ (as.flatMap (fun b => ',' :: (write b).toList) ++ ']' :: rest)) =
      ((a :: as).mapM f).map fun bs => (taken ++ bs.toArray, rest) := by
  -- every turn takes an element and one from the bound, which therefore stays ahead
  induction as generalizing a taken bound with
  | nil =>
    obtain ⟨bound, rfl⟩ := Nat.exists_eq_add_one.mpr (Nat.zero_lt_of_lt enough)
    have found := (reads a).read (']' :: rest) ⟨_, _, rfl, .inr rfl⟩
    rw [List.flatMap_nil, List.nil_append, List.mapM_cons, List.mapM_nil]
    rcases refused : f a with _ | b <;> rw [refused] at found
    · rw [elementsFrom_of_none taken bound found]
      rfl
    · rw [elementsFrom_of_close taken bound found]
      simp
  | cons b bs ih =>
    obtain ⟨bound, rfl⟩ := Nat.exists_eq_add_one.mpr (Nat.zero_lt_of_lt enough)
    have found := (reads a).read
      (',' :: ((write b).toList ++ (bs.flatMap (fun b => ',' :: (write b).toList) ++ ']' :: rest))) ⟨_, _, rfl, .inl rfl⟩
    rw [List.flatMap_cons, List.cons_append, List.cons_append, List.append_assoc, List.mapM_cons]
    rcases refused : f a with _ | c <;> rw [refused] at found
    · rw [elementsFrom_of_none taken bound found]
      rfl
    · rw [elementsFrom_of_comma taken bound found, ih b (taken.push c) (Nat.lt_of_succ_lt_succ enough)]
      rcases (b :: bs).mapM f with _ | cs
      · rfl
      · simp

theorem length_le_length_flatMap (write : α → String) (as : List α) :
    as.length ≤ (as.flatMap fun b => ',' :: (write b).toList).length := by
  induction as with
  | nil => exact Nat.le_refl 0
  | cons b bs ih =>
    rw [List.flatMap_cons, List.length_append, List.length_cons, List.length_cons]
    omega

/-- **A list is read back** element by element; one element that is not makes the reader refuse it all. -/
theorem elements_listText (reads : ∀ a, ReadsBack element write f a) (as : List α) (rest : List Char) :
    elements element ((listText (as.map write)).toList ++ rest) = (as.mapM f).map fun bs => (bs.toArray, rest) := by
  cases as with
  | nil =>
    have empty : (listText ([].map write)).toList = ['[', ']'] := by simp [listText]
    rw [empty, List.mapM_nil]
    rfl
  | cons a as =>
    obtain ⟨c, cs, head, visible, opens⟩ := (reads a).head
    have text : (listText ((a :: as).map write)).toList ++ rest =
        '[' :: ((write a).toList ++ (as.flatMap (fun b => ',' :: (write b).toList) ++ ']' :: rest)) := by
      rw [List.map_cons, toList_listText_cons, List.flatMap_map, List.cons_append, List.append_assoc, List.append_assoc]
      rfl
    have places := length_le_length_flatMap write as
    have enough : as.length <
        ((write a).toList ++ (as.flatMap (fun b => ',' :: (write b).toList) ++ ']' :: rest)).length := by
      simp only [List.length_append, List.length_cons]
      omega
    have found := elementsFrom_write reads a as #[] enough rest
    rw [text]
    rw [head, List.cons_append] at found ⊢
    rw [elements_of_head visible opens, found]
    simp only [Array.empty_append]

end Lists

theorem FollowsElement.ends {rest : List Char} (h : FollowsElement rest) : Numeral.Parts.Ends rest := by
  obtain ⟨c, tail, rfl, rfl | rfl⟩ := h <;> exact fun d hd => by rw [← Option.mem_some.mp hd]; decide

end Abacus.Json

namespace Abacus.Chunk

open Json Numeral

/-! ## Natural numbers -/

theorem exists_toDigits_eq_cons (n : Nat) :
    ∃ c cs, Nat.toDigits 10 n = c :: cs ∧ isSpace c = false ∧ c ≠ ']' := by
  obtain ⟨c, cs, head⟩ : ∃ c cs, Nat.toDigits 10 n = c :: cs := List.exists_cons_of_ne_nil Nat.toDigits_ne_nil
  have mem : c ∈ Nat.toDigits 10 n := head ▸ List.mem_cons_self
  have digit : c.isDigit := Nat.isDigit_of_mem_toDigits (by decide) (by decide) mem
  refine ⟨c, cs, head, isSpace_of_isDigit digit, ?_⟩
  rintro rfl
  exact absurd digit (by decide)

/-- **A natural number below a limit is read** as itself. -/
theorem readBelow_repr {n limit : Nat} (lt : n < limit) (small : limit ≤ UInt32.size) {rest : List Char}
    (ends : Parts.Ends rest) : readBelow limit ((Nat.repr n).toList ++ rest) = some (n, rest) := by
  have bound : 10 * n + 9 < UInt64.size := Nat.lt_of_le_of_lt (by omega : _ ≤ 10 * UInt32.size + 9) (by decide)
  have head : skipSpace (Nat.toDigits 10 n ++ rest) = Nat.toDigits 10 n ++ rest := by
    obtain ⟨c, cs, head, visible, -⟩ := exists_toDigits_eq_cons n
    rw [head, List.cons_append, skipSpace_cons visible]
  simp only [readBelow, Nat.toList_repr, head, Parts.read_toDigits bound ends, bind, Option.bind_some, toNat?]
  simp [lt]

/-- Numbers of a type without many of them. -/
theorem readsBack_below {ι : Type} {toNat : ι → Nat} (ofNat : Nat → ι) {limit : Nat} {a : ι} (lt : toNat a < limit)
    (small : limit ≤ UInt32.size) (same : ofNat (toNat a) = a) :
    ReadsBack (fun cs => (readBelow limit cs).map fun (n, rest) => (ofNat n, rest)) (fun a => Nat.repr (toNat a)) some
      a where
  head := by
    rw [Nat.toList_repr]
    exact exists_toDigits_eq_cons (toNat a)
  read rest follows := by
    simp only [readBelow_repr lt small follows.ends, Option.map_some, same]

theorem mapM_some {α : Type} (as : List α) : as.mapM some = some as :=
  (List.mapM_pure (m := Option) (f := id)).trans (congrArg some (List.map_id as))

theorem readCode_listText (code : Array UInt8) (rest : List Char) :
    readCode ((listText (code.toList.map fun b => Nat.repr b.toNat)).toList ++ rest) = some (code, rest) := by
  have reads (b : UInt8) := readsBack_below UInt8.ofNat b.toNat_lt (by decide) UInt8.ofNat_toNat
  rw [readCode, elements_listText reads, mapM_some, Option.map_some, Array.toArray_toList]

theorem readLines_listText (lines : Array Line) (rest : List Char) :
    readLines ((listText (lines.toList.map fun l => Nat.repr l.toNat)).toList ++ rest) = some (lines, rest) := by
  have reads (l : Line) := readsBack_below UInt32.ofNat l.toNat_lt (by decide) UInt32.ofNat_toNat
  rw [readLines, elements_listText reads, mapM_some, Option.map_some, Array.toArray_toList]

end Abacus.Chunk
