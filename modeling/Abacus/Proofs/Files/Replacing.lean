import Abacus.Proofs.Files.Search

/-!
# Replacing a file

Contents reach a path by way of a second file.  What becomes of both is decided by the tree at the start: whether the
second file can be made, and whether the path can hold a file at all.

* `FileTree.replace_of_not_prepared`: without a second file nothing happens;
* `FileTree.Prepared.replace_of_holds`, `FileTree.Prepared.get?_withMoved`: the second file takes the place of the path,
  and its own name is free again;
* `FileTree.Prepared.replaced`, `FileTree.Prepared.byWayOfSecond`: the tree afterwards, and the name that was used;
* `FileTree.Prepared.replace_of_not_holds`: neither moving nor copying it succeeds, and it is left behind.
-/

namespace Abacus.FileTree

variable {t : FileTree} {p : Path} {base : String} {number : UInt32} {dir : Place} {contents : ByteArray}

/-! ## What decides -/

/-- The second file of a path can be made: a number for it is found, and the directory is there. -/
structure Prepared (t : FileTree) (p : Path) (base : String) (number : UInt32) (dir : Place) : Prop where
  named : p.fileName? = some base
  found : t.search p base UInt32.size = some number
  located : t.locate p.directory = .ok dir
  directory : t.get? dir = some .directory

/-- A file can stand at the end of a path: it ends in a name, without a slash, and leads to no directory. -/
structure Holds (t : FileTree) (p : Path) : Prop where
  name : p.endsInName = true
  plain : p.endsInSlash = false
  free : t.entry p ≠ .ok .directory

/-- The place of the second file. -/
def secondPlace (base : String) (number : UInt32) (dir : Place) : Place :=
  dir ++ [temporaryName base number.toNat]

/-- The tree with the second file. -/
def withSecond (t : FileTree) (base : String) (number : UInt32) (dir : Place) (contents : ByteArray) : FileTree :=
  t.put (secondPlace base number dir) (.file contents)

/-- The tree in which the second file has taken the place of the path. -/
def withMoved (t : FileTree) (base : String) (number : UInt32) (dir : Place) (contents : ByteArray) : FileTree :=
  ((t.withSecond base number dir contents).erase (secondPlace base number dir)).put (dir ++ [base]) (.file contents)

/-- The second file is not in the place of the path. -/
theorem secondPlace_ne : secondPlace base number dir ≠ dir ++ [base] := by
  intro same
  exact temporaryName_ne base number.toNat (List.singleton_inj.mp (List.append_cancel_left same))

theorem entry_eq_directory_iff {place : Place} (located : t.locate p = .ok place) :
    t.entry p = .ok .directory ↔ t.get? place = some .directory := by
  unfold entry
  rw [located]
  simp only [bind, Except.bind]
  cases t.get? place with
  | none => simp
  | some e => cases e <;> cases p.endsInSlash <;> simp

/-- A path that has a file name but does not end in it ends in a dot, and leads to a directory if anywhere. -/
theorem get?_of_not_endsInName {place : Place} (named : p.fileName? = some base) (other : p.endsInName = false)
    (located : t.locate p = .ok place) : t.get? place = some .directory := by
  have last := Path.getLast?_steps_of_fileName? named
  cases hn : p.names.getLast? with
  | none =>
    rw [List.getLast?_eq_none_iff] at hn
    simp [Path.steps, hn] at last
  | some name =>
    obtain ⟨way, names⟩ := List.getLast?_eq_some_iff.mp hn
    by_cases dot : name = "."
    · subst dot
      rw [locate_eq_ok_iff, names, Leads, List.foldlM_append] at located
      cases hw : way.foldlM t.follow (t.start p) with
      | error e =>
        rw [hw] at located
        cases located
      | ok middle =>
        rw [hw] at located
        obtain ⟨next, stays, rest⟩ := leads_cons.mp (located : t.Leads middle ["."] place)
        obtain rfl := leads_nil.mp rest
        obtain ⟨directory, rfl⟩ := follow_eq_ok_iff.mp stays
        exact directory
    · -- the name is the last step, so it is the file name
      have steps : p.steps = way.filter (· != ".") ++ [name] := by
        rw [Path.steps, names, List.filter_append, List.filter_cons_of_pos (by simpa using dot), List.filter_nil]
      rw [steps, List.getLast?_concat] at last
      obtain rfl := Option.some.inj last
      simp [Path.endsInName, hn, (Path.isProperName_of_fileName? named).2] at other

namespace Prepared

variable (h : t.Prepared p base number dir)
include h

theorem locate_second : t.locate (p.temporary base number.toNat) = .ok (secondPlace base number dir) :=
  (locate_sibling (isProperName_temporaryName base _)).mpr ⟨dir, h.located, h.directory, rfl⟩

/-- Nothing stands at the place of the second file. -/
theorem get?_second : t.get? (secondPlace base number dir) = none :=
  get?_eq_none_of_not_isPresent (search_eq_some_iff.mp h.found).1 h.locate_second rfl

theorem free : t.get? (secondPlace base number dir) ≠ some .directory := by
  rw [h.get?_second]
  exact nofun

theorem create_second (contents : ByteArray) : t.create (p.temporary base number.toNat) contents =
    .ok (t.withSecond base number dir contents) :=
  create_eq_ok_iff.mpr ⟨_, h.locate_second, rfl, h.free, rfl⟩

theorem locate_eq (holds : t.Holds p) : t.locate p = .ok (dir ++ [base]) :=
  (locate_named h.named holds.name).mpr ⟨dir, h.located, h.directory, rfl⟩

theorem get?_target (holds : t.Holds p) : t.get? (dir ++ [base]) ≠ some .directory :=
  fun directory => holds.free ((entry_eq_directory_iff (h.locate_eq holds)).mpr directory)

end Prepared

/-- The second file can be made only if all is prepared. -/
theorem prepared_of_create {u : FileTree} (named : p.fileName? = some base)
    (found : t.search p base UInt32.size = some number)
    (made : t.create (p.temporary base number.toNat) contents = .ok u) : ∃ dir, t.Prepared p base number dir := by
  obtain ⟨place, located, -, -, -⟩ := create_eq_ok_iff.mp made
  obtain ⟨dir, reached, directory, -⟩ := (locate_sibling (isProperName_temporaryName base _)).mp located
  exact ⟨dir, named, found, reached, directory⟩

/-! ## From the second file to the path -/

theorem run_attempt (change : FileTree → Except FileError FileTree) : (attempt change).run t =
    match change t with
    | .ok changed => (.ok (), changed)
    | .error e => (.error e, t) :=
  rfl

/-- What becomes of a second file: it is moved, or else copied and removed. -/
theorem run_settle (second : Path) : (settle operations second p).run t =
    match t.rename second p with
    | .ok moved => (.ok (), moved)
    | .error _ =>
      match t.copy second p with
      | .ok copied => (attempt fun u => u.remove second).run copied
      | .error e => (.error e, t) := by
  rw [settle, StateT.run_bind]
  simp only [operations, run_attempt]
  cases t.rename second p with
  | ok moved => rfl
  | error e =>
    show (operations.copy second p >>= _ : StateM FileTree _).run t = _
    rw [StateT.run_bind]
    simp only [operations, run_attempt]
    cases t.copy second p <;> rfl

section Settle

variable (h : t.Prepared p base number dir) (contents : ByteArray)
include h

theorem Prepared.get?_withSecond (q : Place) : (t.withSecond base number dir contents).get? q =
    if q = secondPlace base number dir then some (.file contents) else t.get? q :=
  get?_put_of_not_directory h.free _ q

/-- With the second file in the tree, the path leads where it led, and to a directory if it did. -/
theorem Prepared.sameDirectories_second : t.SameDirectories (t.withSecond base number dir contents) :=
  sameDirectories_put h.free contents

theorem Prepared.located_second : (t.withSecond base number dir contents).locate (p.temporary base number.toNat) =
    .ok (secondPlace base number dir) :=
  (locate_congr (h.sameDirectories_second contents)).mpr h.locate_second

theorem Prepared.entry_second : (t.withSecond base number dir contents).entry (p.temporary base number.toNat) =
    .ok (.file contents) := by
  refine entry_of_get? (h.located_second contents) ?_ rfl
  rw [h.get?_withSecond, if_pos rfl]

theorem Prepared.rename_second (holds : t.Holds p) :
    (t.withSecond base number dir contents).rename (p.temporary base number.toNat) p =
      .ok (t.withMoved base number dir contents) := by
  have same := h.sameDirectories_second contents
  exact (rename_eq_ok_iff (h.located_second contents) (h.entry_second contents)).mpr
    ⟨dir ++ [base], (locate_congr same).mpr (h.locate_eq holds), holds.name, holds.plain,
      fun directory => h.get?_target holds ((same.2 _).mp directory), rfl⟩

/-- Only the target is changed by moving the second file there. -/
theorem Prepared.get?_withMoved (holds : t.Holds p) (q : Place) : (t.withMoved base number dir contents).get? q =
    if q = dir ++ [base] then some (.file contents) else t.get? q := by
  have apart : dir ++ [base] ≠ secondPlace base number dir := secondPlace_ne.symm
  have second : (t.withSecond base number dir contents).get? (secondPlace base number dir) ≠ some .directory := by
    rw [h.get?_withSecond, if_pos rfl]
    exact nofun
  have target : ((t.withSecond base number dir contents).erase (secondPlace base number dir)).get? (dir ++ [base]) ≠
      some .directory := by
    rw [get?_erase_of_not_directory second, if_neg apart, h.get?_withSecond, if_neg apart]
    exact h.get?_target holds
  rw [withMoved, get?_put_of_not_directory target, get?_erase_of_not_directory second, h.get?_withSecond]
  by_cases back : q = secondPlace base number dir
  · rw [if_pos back, back, h.get?_second]
  · rw [if_neg back, if_neg back]

/-- Wherever moving or copying would write, the path can hold a file. -/
theorem Prepared.holds_of_free {place : Place} (leads : (t.withSecond base number dir contents).locate p = .ok place)
    (plain : p.endsInSlash = false) (free : (t.withSecond base number dir contents).get? place ≠ some .directory) :
    t.Holds p := by
  have same := h.sameDirectories_second contents
  have located := (locate_congr same).mp leads
  have other : t.get? place ≠ some .directory := fun directory => free ((same.2 _).mpr directory)
  refine ⟨?_, plain, fun e => other ((entry_eq_directory_iff located).mp e)⟩
  cases name : p.endsInName with
  | true => rfl
  | false => exact absurd (get?_of_not_endsInName h.named name located) other

/-- If the path cannot hold the second file, neither moving nor copying it succeeds. -/
theorem Prepared.settle_of_not_holds (blocked : ¬t.Holds p) :
    ∃ e, (settle operations (p.temporary base number.toNat) p).run (t.withSecond base number dir contents) =
      (.error e, t.withSecond base number dir contents) := by
  rw [run_settle]
  cases moved : (t.withSecond base number dir contents).rename (p.temporary base number.toNat) p with
  | ok u =>
    obtain ⟨place, leads, -, plain, free, -⟩ :=
      (rename_eq_ok_iff (h.located_second contents) (h.entry_second contents)).mp moved
    exact absurd (h.holds_of_free contents leads plain free) blocked
  | error _ =>
    cases copied : (t.withSecond base number dir contents).copy (p.temporary base number.toNat) p with
    | ok u =>
      rw [copy_of_entry (h.entry_second contents)] at copied
      obtain ⟨place, leads, plain, free, -⟩ := create_eq_ok_iff.mp copied
      exact absurd (h.holds_of_free contents leads plain free) blocked
    | error e => exact ⟨e, rfl⟩

end Settle

/-! ## Replacing -/

/-- Replacing a file, step by step. -/
theorem replace_eq : t.replace p contents =
    match p.fileName? with
    | none => (.error .unnamed, t)
    | some base =>
      match t.search p base UInt32.size with
      | none => (.error .unending, t)
      | some number =>
        match t.create (p.temporary base number.toNat) contents with
        | .error e => (.error (.failed e), t)
        | .ok made =>
          (((settle operations (p.temporary base number.toNat) p).run made).1.mapError .failed,
            ((settle operations (p.temporary base number.toNat) p).run made).2) := by
  rw [replace, replaceFile]
  cases p.fileName? with
  | none => rfl
  | some base =>
    simp only [StateT.run_bind, run_firstUnused]
    cases t.search p base UInt32.size with
    | none => rfl
    | some number =>
      show (operations.create (p.temporary base number.toNat) contents >>= _ : StateM FileTree _).run t = _
      rw [StateT.run_bind]
      simp only [operations, run_attempt]
      cases t.create (p.temporary base number.toNat) contents <;> rfl

section Outcome

variable (contents : ByteArray)

/-- **Without a second file nothing happens.** -/
theorem replace_of_not_prepared (unprepared : ∀ base number dir, ¬t.Prepared p base number dir) :
    ∃ e, t.replace p contents = (.error e, t) := by
  rw [replace_eq]
  split
  · exact ⟨_, rfl⟩
  · next base named =>
    split
    · exact ⟨_, rfl⟩
    · next number found =>
      split
      · exact ⟨_, rfl⟩
      · next made =>
        obtain ⟨dir, prepared⟩ := prepared_of_create named found made
        exact absurd prepared (unprepared base number dir)

theorem Prepared.replace_eq_settle (h : t.Prepared p base number dir) :
    t.replace p contents =
      let settled :=
        (settle operations (p.temporary base number.toNat) p).run (t.withSecond base number dir contents)
      (settled.1.mapError .failed, settled.2) := by
  simp only [replace_eq, h.named, h.found, h.create_second]

/-- **The second file takes the place of the path.** -/
theorem Prepared.replace_of_holds (h : t.Prepared p base number dir) (holds : t.Holds p) :
    t.replace p contents = (.ok (), t.withMoved base number dir contents) := by
  rw [h.replace_eq_settle, run_settle, h.rename_second contents holds]
  rfl

/-- **The second file is left behind** if it can neither be moved nor copied. -/
theorem Prepared.replace_of_not_holds (h : t.Prepared p base number dir) (blocked : ¬t.Holds p) :
    ∃ e, t.replace p contents = (.error e, t.withSecond base number dir contents) := by
  obtain ⟨e, left⟩ := h.settle_of_not_holds contents blocked
  rw [h.replace_eq_settle, left]
  exact ⟨_, rfl⟩

/-- A file is replaced if the second file can be made and the path can hold it. -/
theorem replace_succeeds_iff : (t.replace p contents).1 = .ok () ↔
    (∃ base number dir, t.Prepared p base number dir) ∧ t.Holds p := by
  by_cases ready : ∃ base number dir, t.Prepared p base number dir
  · obtain ⟨base, number, dir, h⟩ := ready
    by_cases holds : t.Holds p
    · rw [h.replace_of_holds contents holds]
      exact ⟨fun _ => ⟨⟨base, number, dir, h⟩, holds⟩, fun _ => rfl⟩
    · obtain ⟨e, left⟩ := h.replace_of_not_holds contents holds
      rw [left]
      exact ⟨nofun, fun both => absurd both.2 holds⟩
  · simp only [not_exists] at ready
    obtain ⟨e, unchanged⟩ := replace_of_not_prepared contents ready
    rw [unchanged]
    exact ⟨nofun, fun ⟨⟨base, number, dir, h⟩, _⟩ => absurd h (ready base number dir)⟩

end Outcome

/-! ## The tree afterwards -/

/-- A tree in which a path holds new contents, and all else is as it was. -/
structure Replaced (t after : FileTree) (p : Path) (contents : ByteArray) : Prop where
  entry : after.entry p = .ok (.file contents)
  workingDirectory : after.workingDirectory = t.workingDirectory
  frame : ∃ place, t.locate p = .ok place ∧ after.get? place = some (.file contents) ∧
    ∀ q, q ≠ place → after.get? q = t.get? q

/-- Contents came to a path by way of a second file: the number that the search chose is the first that is not in use,
and the second file with that number was made and then moved. -/
def ByWayOfSecond (t after : FileTree) (p : Path) (contents : ByteArray) : Prop :=
  ∃ base number made, p.fileName? = some base ∧
    (firstUnused operations p base UInt32.size 0).run t = (some number, t) ∧ t.IsFirstUnused p base number.toNat ∧
    t.create (p.temporary base number.toNat) contents = .ok made ∧
    made.rename (p.temporary base number.toNat) p = .ok after

section Moved

variable (h : t.Prepared p base number dir) (holds : t.Holds p) (contents : ByteArray)
include h holds

theorem Prepared.sameDirectories_moved : t.SameDirectories (t.withMoved base number dir contents) := by
  refine ⟨rfl, fun q => ?_⟩
  rw [h.get?_withMoved contents holds]
  split
  · next target => simp [target, h.get?_target holds]
  · exact Iff.rfl

theorem Prepared.replaced : t.Replaced (t.withMoved base number dir contents) p contents := by
  have same := h.sameDirectories_moved holds contents
  have there : (t.withMoved base number dir contents).get? (dir ++ [base]) = some (.file contents) := by
    rw [h.get?_withMoved contents holds, if_pos rfl]
  refine ⟨entry_of_get? ((locate_congr same).mpr (h.locate_eq holds)) there holds.plain, rfl,
    dir ++ [base], h.locate_eq holds, there, fun q other => ?_⟩
  rw [h.get?_withMoved contents holds, if_neg other]

theorem Prepared.byWayOfSecond : t.ByWayOfSecond (t.withMoved base number dir contents) p contents :=
  ⟨base, number, _, h.named, by rw [run_firstUnused, h.found], search_eq_some_iff.mp h.found,
    h.create_second contents, h.rename_second contents holds⟩

end Moved

end Abacus.FileTree
