import Abacus.Proofs.Files.Places
import Mathlib.Data.List.Dedup
import Mathlib.Data.List.Nodup

/-!
# The search for an unused name

Second files are numbered from 0 on.  The search for one that is not there finds the first, and it ends unless all
`2 ^ 32` names are in use, which takes a directory with as many entries.

* `FileTree.search_eq_some_iff`, `FileTree.search_eq_none_iff`: what the search finds, and that a search which has met
  every name once would never end;
* `FileTree.exists_search`: it ends in every directory with fewer than `2 ^ 32` entries.
-/

namespace Abacus

/-! ## Names of second files -/

/-- The name of a second file. -/
def temporaryName (base : String) (number : Nat) : String :=
  base ++ ".tmp" ++ Nat.repr number

theorem length_temporaryName (base : String) (number : Nat) : base.length + 4 ≤ (temporaryName base number).length := by
  rw [temporaryName, String.length_append, String.length_append]
  exact Nat.le_add_right _ _

/-- A second file is not the file itself. -/
theorem temporaryName_ne (base : String) (number : Nat) : temporaryName base number ≠ base := by
  intro same
  have := length_temporaryName base number
  rw [same] at this
  omega

theorem isProperName_temporaryName (base : String) (number : Nat) : IsProperName (temporaryName base number) := by
  have length := length_temporaryName base number
  constructor <;> intro same <;> rw [same] at length
  · exact absurd length (Nat.not_le_of_lt (Nat.lt_of_lt_of_le (by decide) (Nat.le_add_left 4 _)))
  · exact absurd length (Nat.not_le_of_lt (Nat.lt_of_lt_of_le (by decide) (Nat.le_add_left 4 _)))

theorem temporaryName_injective (base : String) : Function.Injective (temporaryName base) := by
  intro m n same
  have digits : (Nat.toDigits 10 m) = Nat.toDigits 10 n := by
    simpa [temporaryName, String.ext_iff, Nat.repr] using same
  rw [← Nat.ofDigitChars_toDigits (b := 10) (n := m) (by decide) (by decide), digits,
    Nat.ofDigitChars_toDigits (by decide) (by decide)]

namespace FileTree

variable {t : FileTree} {p : Path} {base : String} {dir : Place}

/-! ## Directories -/

/-- The names of the entries of a directory. -/
def listed (t : FileTree) (dir : Place) : List String :=
  (t.entries.filterMap fun e => if e.1.dropLast = dir then e.1.getLast? else none).dedup

theorem isSome_lookup_iff {entries : List (Place × Entry)} {place : Place} :
    (entries.lookup place).isSome ↔ place ∈ entries.map Prod.fst := by
  induction entries with
  | nil => simp
  | cons e entries ih =>
    rw [List.lookup_cons, List.map_cons, List.mem_cons]
    split
    · next same => simp [eq_of_beq same]
    · next other => simp [ih, ne_of_beq_false other]

theorem mem_listed_iff {name : String} : name ∈ t.listed dir ↔ (t.get? (dir ++ [name])).isSome := by
  have below : dir ++ [name] ≠ [] := by simp
  rw [get?, if_neg below, isSome_lookup_iff, listed, List.mem_dedup, List.mem_filterMap, List.mem_map]
  refine exists_congr fun e => and_congr_right fun _ => ?_
  constructor
  · intro h
    split at h
    · next inside =>
      obtain ⟨front, whole⟩ := List.getLast?_eq_some_iff.mp h
      rw [whole, List.dropLast_concat] at inside
      rw [whole, inside]
    · cases h
  · intro whole
    rw [whole, List.dropLast_concat, if_pos rfl, List.getLast?_concat]

/-! ## What the search finds -/

/-- The number that the search finds with the given number of tries, from 0 on. -/
def search (t : FileTree) (p : Path) (base : String) (tries : Nat) : Option UInt32 :=
  ((firstUnused operations p base tries 0).run t).1

/-- The first number whose second file is not there. -/
def IsFirstUnused (t : FileTree) (p : Path) (base : String) (number : Nat) : Prop :=
  t.isPresent (p.temporary base number) = false ∧ ∀ k < number, t.isPresent (p.temporary base k) = true

theorem run_firstUnused_from (tries : Nat) (number : UInt32) : (firstUnused operations p base tries number).run t =
    (((List.range tries).find? fun k => !t.isPresent (p.temporary base (number + UInt32.ofNat k).toNat)).map
      fun k => number + UInt32.ofNat k, t) := by
  induction tries generalizing number with
  | zero => rfl
  | succ tries ih =>
    have next (k : Nat) : number + UInt32.ofNat (k + 1) = number + 1 + UInt32.ofNat k := by
      rw [UInt32.ofNat_add, UInt32.add_assoc, UInt32.add_comm (UInt32.ofNat k)]
      rfl
    have here : number + UInt32.ofNat 0 = number := UInt32.add_zero number
    rw [List.range_succ_eq_map, List.find?_cons, here]
    cases present : t.isPresent (p.temporary base number.toNat) with
    | true =>
      have goes : (firstUnused operations p base (tries + 1) number).run t =
          (firstUnused operations p base tries (number + 1)).run t := by
        show (if t.isPresent (p.temporary base number.toNat) then _ else _ : StateM FileTree (Option UInt32)).run t = _
        rw [present]
        rfl
      rw [goes, ih]
      simp only [Bool.not_true, List.find?_map, Option.map_map, Function.comp_def, Nat.succ_eq_add_one, next]
    | false =>
      show (if t.isPresent (p.temporary base number.toNat) then _ else _ : StateM FileTree (Option UInt32)).run t = _
      rw [present]
      simp
      rfl

/-- The search leaves the tree as it is. -/
theorem run_firstUnused (tries : Nat) :
    (firstUnused operations p base tries 0).run t = (t.search p base tries, t) := by
  rw [search, run_firstUnused_from]

theorem search_eq (tries : Nat) : t.search p base tries =
    ((List.range tries).find? fun k => !t.isPresent (p.temporary base (UInt32.ofNat k).toNat)).map UInt32.ofNat := by
  rw [search, run_firstUnused_from]
  simp only [UInt32.zero_add]

/-- **The search finds the first name that is not in use.** -/
theorem search_eq_some_iff {number : UInt32} :
    t.search p base UInt32.size = some number ↔ t.IsFirstUnused p base number.toNat := by
  have small {k : Nat} (lt : k < UInt32.size) : (UInt32.ofNat k).toNat = k := UInt32.toNat_ofNat_of_lt' lt
  rw [search_eq, Option.map_eq_some_iff]
  simp only [List.find?_range_eq_some, List.mem_range, Bool.not_eq_true', Bool.not_not]
  constructor
  · rintro ⟨k, ⟨absent, lt, before⟩, rfl⟩
    rw [small lt] at absent ⊢
    exact ⟨absent, fun j hj => small (Nat.lt_trans hj lt) ▸ before j hj⟩
  · rintro ⟨absent, before⟩
    have lt : number.toNat < UInt32.size := number.toNat_lt
    refine ⟨number.toNat, ⟨?_, lt, fun j hj => ?_⟩, UInt32.ofNat_toNat⟩
    · rw [small lt]
      exact absent
    · rw [small (Nat.lt_trans hj lt)]
      exact before j hj

/-- **A search that has met every name would never end**: no number of further tries finds another one. -/
theorem search_eq_none_iff : t.search p base UInt32.size = none ↔ ∀ tries, t.search p base tries = none := by
  refine ⟨fun full tries => ?_, fun never => never _⟩
  rw [search_eq, Option.map_eq_none_iff, List.find?_range_eq_none] at full ⊢
  intro k _
  have lt := (UInt32.ofNat k).toNat_lt
  have met := full (UInt32.ofNat k).toNat lt
  rwa [UInt32.ofNat_toNat] at met

/-! ## Where it ends -/

/-- What is present in a directory is one of its entries. -/
theorem mem_listed_of_isPresent {number : Nat} (located : t.locate p.directory = .ok dir)
    (present : t.isPresent (p.temporary base number) = true) : temporaryName base number ∈ t.listed dir := by
  obtain ⟨place, leads, stands⟩ := exists_get?_of_isPresent present
  obtain ⟨dir', located', -, rfl⟩ := (locate_sibling (isProperName_temporaryName base number)).mp leads
  rw [located] at located'
  obtain rfl := Except.ok.inj located'
  exact mem_listed_iff.mpr stands

/-- **The search ends** unless there are as many entries in the directory as there are numbers. -/
theorem exists_search (base : String)
    (few : ∀ dir, t.locate p.directory = .ok dir → (t.listed dir).length < UInt32.size) :
    ∃ number, t.search p base UInt32.size = some number := by
  rw [← Option.ne_none_iff_exists', ne_eq, search_eq, Option.map_eq_none_iff, List.find?_range_eq_none]
  intro full
  have present : ∀ k < UInt32.size, t.isPresent (p.temporary base k) = true := fun k lt => by
    simpa [UInt32.toNat_ofNat_of_lt' lt] using full k lt
  obtain ⟨place, leads, -⟩ := exists_get?_of_isPresent (present 0 (by decide))
  obtain ⟨dir, located, -⟩ := (locate_sibling (isProperName_temporaryName base 0)).mp leads
  -- different numbers have different names, all of which would have to be entries
  have distinct : ((List.range UInt32.size).map (temporaryName base)).Nodup :=
    List.nodup_range.map (temporaryName_injective base)
  have inside : (List.range UInt32.size).map (temporaryName base) ⊆ t.listed dir := by
    intro name mem
    obtain ⟨k, hk, rfl⟩ := List.mem_map.mp mem
    exact mem_listed_of_isPresent located (present k (List.mem_range.mp hk))
  have many := distinct.length_le_of_subset inside
  rw [List.length_map, List.length_range] at many
  exact absurd (few dir located) (Nat.not_lt_of_le many)

end FileTree

end Abacus
