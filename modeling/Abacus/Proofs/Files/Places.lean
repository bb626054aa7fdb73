import Abacus.Files.Replace

/-!
# Where paths lead

Which place a path leads to depends on the directories of a tree alone: files neither open a way nor bar one.  A path
that names something leads to that name in its directory, and so do the paths of its siblings.

* `FileTree.locate_sibling`, `FileTree.locate_named`: the places that they lead to;
* `FileTree.get?_put_of_not_directory`, `FileTree.locate_congr`: what putting a file into a tree leaves as it was;
* `FileTree.create_eq_ok_iff`, `FileTree.rename_eq_ok_iff`: when an operation succeeds, and what it does.
-/

namespace Abacus

/-! ## Names -/

/-- A name leads into a directory: it neither stays nor goes up. -/
def IsProperName (name : String) : Prop :=
  name ≠ "." ∧ name ≠ ".."

namespace Path

variable {p : Path} {base : String}

/-- The path of the directory that a path leads into. -/
def directory (p : Path) : Path :=
  ⟨p.isAbsolute, p.steps.dropLast, false⟩

theorem ne_dot_of_mem_steps {name : String} (h : name ∈ p.steps) : name ≠ "." := by
  simpa using (List.mem_filter.mp h).2

theorem getLast?_steps_of_fileName? (h : p.fileName? = some base) : p.steps.getLast? = some base := by
  unfold fileName? at h
  split at h
  · cases h
  · exact h

theorem isProperName_of_fileName? (h : p.fileName? = some base) : IsProperName base := by
  refine ⟨ne_dot_of_mem_steps (List.mem_of_getLast? (getLast?_steps_of_fileName? h)), ?_⟩
  rintro rfl
  unfold fileName? at h
  split at h
  · cases h
  · next other => exact other h

/-- A path that ends in its file name is that name behind a way to its directory. -/
theorem exists_names_eq (h : p.fileName? = some base) (ends : p.endsInName = true) :
    ∃ way, p.names = way ++ [base] ∧ way.filter (· != ".") = p.directory.names := by
  have last := getLast?_steps_of_fileName? h
  cases hn : p.names.getLast? with
  | none => simp [endsInName, hn] at ends
  | some name =>
    obtain ⟨way, names⟩ := List.getLast?_eq_some_iff.mp hn
    have proper : name ≠ "." := by
      rintro rfl
      simp [endsInName, hn] at ends
    have steps : p.steps = way.filter (· != ".") ++ [name] := by
      rw [Path.steps, names, List.filter_append, List.filter_cons_of_pos (by simpa using proper), List.filter_nil]
    rw [steps, List.getLast?_concat] at last
    obtain rfl := Option.some.inj last
    exact ⟨way, names, by rw [directory, steps, List.dropLast_concat]⟩

end Path

namespace FileTree

variable {t u : FileTree}

/-! ## Changing one place -/

section Change

variable {place : Place} (free : t.get? place ≠ some .directory)
include free

theorem ne_nil_of_not_directory : place ≠ [] := by
  rintro rfl
  exact free rfl

theorem get?_put_of_not_directory (e : Entry) (q : Place) :
    (t.put place e).get? q = if q = place then some e else t.get? q := by
  by_cases root : q = []
  · have other : q ≠ place := root ▸ (ne_nil_of_not_directory free).symm
    rw [if_neg other, root]
    rfl
  · exact t.get?_put place q e root

theorem get?_erase_of_not_directory (q : Place) :
    (t.erase place).get? q = if q = place then none else t.get? q := by
  by_cases root : q = []
  · have other : q ≠ place := root ▸ (ne_nil_of_not_directory free).symm
    rw [if_neg other, root]
    rfl
  · exact t.get?_erase place q root

end Change

/-- Two trees have the same directories. -/
def SameDirectories (t u : FileTree) : Prop :=
  u.workingDirectory = t.workingDirectory ∧ ∀ q, u.get? q = some .directory ↔ t.get? q = some .directory

/-- Putting a file where no directory is leaves the directories as they are. -/
theorem sameDirectories_put {place : Place} (free : t.get? place ≠ some .directory) (contents : ByteArray) :
    t.SameDirectories (t.put place (.file contents)) := by
  refine ⟨rfl, fun q => ?_⟩
  rw [get?_put_of_not_directory free]
  split
  · next same => simp [same, free]
  · exact Iff.rfl

/-! ## Following names -/

/-- Names lead from one place to another. -/
def Leads (t : FileTree) (here : Place) (names : List String) (there : Place) : Prop :=
  names.foldlM t.follow here = .ok there

variable {here there : Place} {name : String} {names : List String}

theorem follow_eq_ok_iff : t.follow here name = .ok there ↔ t.get? here = some .directory ∧
    (if name = "." then here else if name = ".." then here.dropLast else here ++ [name]) = there := by
  unfold follow
  cases t.get? here with
  | none => simp
  | some e => cases e <;> simp

theorem follow_proper (proper : IsProperName name) :
    t.follow here name = .ok there ↔ t.get? here = some .directory ∧ here ++ [name] = there := by
  rw [follow_eq_ok_iff, if_neg proper.1, if_neg proper.2]

theorem leads_nil : t.Leads here [] there ↔ here = there :=
  Except.ok.injEq here there ▸ Iff.rfl

theorem leads_cons : t.Leads here (name :: names) there ↔
    ∃ next, t.follow here name = .ok next ∧ t.Leads next names there := by
  rw [Leads, List.foldlM_cons]
  cases t.follow here name with
  | ok next => exact ⟨fun h => ⟨next, rfl, h⟩, fun ⟨_, same, h⟩ => Except.ok.inj same ▸ h⟩
  | error e => exact ⟨nofun, nofun⟩

theorem leads_concat (proper : IsProperName name) : t.Leads here (names ++ [name]) there ↔
    ∃ dir, t.Leads here names dir ∧ t.get? dir = some .directory ∧ dir ++ [name] = there := by
  induction names generalizing here with
  | nil =>
    simp only [List.nil_append, leads_cons, leads_nil, follow_proper proper]
    constructor
    · rintro ⟨next, ⟨directory, rfl⟩, rfl⟩
      exact ⟨here, rfl, directory, rfl⟩
    · rintro ⟨dir, rfl, directory, rfl⟩
      exact ⟨_, ⟨directory, rfl⟩, rfl⟩
  | cons first names ih =>
    simp only [List.cons_append, leads_cons, ih]
    constructor
    · rintro ⟨next, hnext, dir, rest, ends⟩
      exact ⟨dir, ⟨next, hnext, rest⟩, ends⟩
    · rintro ⟨dir, ⟨next, hnext, rest⟩, ends⟩
      exact ⟨next, hnext, dir, rest, ends⟩

/-- Single dots may be left out on the way to a directory. -/
theorem leads_filter (directory : t.get? there = some .directory) :
    t.Leads here (names.filter (· != ".")) there ↔ t.Leads here names there := by
  induction names generalizing here with
  | nil => exact Iff.rfl
  | cons first names ih =>
    by_cases dot : first = "."
    · subst dot
      rw [List.filter_cons_of_neg (by simp), ih, leads_cons]
      constructor
      · intro h
        -- a dot needs a directory to stay in, which the rest of the way shows to be there
        have stays : t.get? here = some .directory := by
          cases names with
          | nil => exact leads_nil.mp h ▸ directory
          | cons second names =>
            obtain ⟨next, hnext, -⟩ := leads_cons.mp h
            exact (follow_eq_ok_iff.mp hnext).1
        exact ⟨here, follow_eq_ok_iff.mpr ⟨stays, rfl⟩, h⟩
      · rintro ⟨next, hnext, h⟩
        obtain ⟨-, rfl⟩ := follow_eq_ok_iff.mp hnext
        exact h
    · rw [List.filter_cons_of_pos (by simpa using dot), leads_cons, leads_cons]
      simp only [ih]

theorem leads_congr (same : t.SameDirectories u) : u.Leads here names there ↔ t.Leads here names there := by
  induction names generalizing here with
  | nil => exact Iff.rfl
  | cons first names ih => simp only [leads_cons, follow_eq_ok_iff, same.2, ih]

/-! ## Paths -/

variable {p : Path} {base : String} {place : Place}

/-- The place where a path begins. -/
def start (t : FileTree) (p : Path) : Place :=
  if p.isAbsolute then [] else t.workingDirectory

theorem locate_eq_ok_iff : t.locate p = .ok place ↔ t.Leads (t.start p) p.names place :=
  Iff.rfl

/-- Paths lead to the same places in trees with the same directories. -/
theorem locate_congr (same : t.SameDirectories u) : u.locate p = .ok place ↔ t.locate p = .ok place := by
  rw [locate_eq_ok_iff, locate_eq_ok_iff, start, start, same.1, leads_congr same]

/-- The path of a sibling leads to its name in the directory. -/
theorem locate_sibling (proper : IsProperName name) : t.locate (p.sibling name) = .ok place ↔
    ∃ dir, t.locate p.directory = .ok dir ∧ t.get? dir = some .directory ∧ dir ++ [name] = place :=
  leads_concat proper

/-- A path that ends in its file name leads to that name in the directory. -/
theorem locate_named (named : p.fileName? = some base) (ends : p.endsInName = true) : t.locate p = .ok place ↔
    ∃ dir, t.locate p.directory = .ok dir ∧ t.get? dir = some .directory ∧ dir ++ [base] = place := by
  obtain ⟨way, names, steps⟩ := p.exists_names_eq named ends
  rw [locate_eq_ok_iff, names, leads_concat (Path.isProperName_of_fileName? named)]
  refine exists_congr fun dir => ?_
  rw [locate_eq_ok_iff, ← steps]
  constructor
  · rintro ⟨h, directory, same⟩
    exact ⟨(leads_filter directory).mpr h, directory, same⟩
  · rintro ⟨h, directory, same⟩
    exact ⟨(leads_filter directory).mp h, directory, same⟩

/-! ## What stands at the end of a path -/

variable {contents : ByteArray}

theorem entry_of_get? (located : t.locate p = .ok place) (found : t.get? place = some (.file contents))
    (plain : p.endsInSlash = false) : t.entry p = .ok (.file contents) := by
  simp [entry, located, found, plain, bind, Except.bind]

/-- A path leads to nothing if its place is free. -/
theorem get?_eq_none_of_not_isPresent (absent : t.isPresent p = false) (located : t.locate p = .ok place)
    (plain : p.endsInSlash = false) : t.get? place = none := by
  cases found : t.get? place with
  | none => rfl
  | some e => cases e <;> simp [isPresent, entry, located, found, plain, bind, Except.bind] at absent

/-- A path that leads to something leads to a place where something stands. -/
theorem exists_get?_of_isPresent (present : t.isPresent p = true) :
    ∃ place, t.locate p = .ok place ∧ (t.get? place).isSome := by
  cases located : t.locate p with
  | error e => simp [isPresent, entry, located, bind, Except.bind] at present
  | ok place =>
    refine ⟨place, rfl, ?_⟩
    cases found : t.get? place with
    | none => simp [isPresent, entry, located, found, bind, Except.bind] at present
    | some e => rfl

/-! ## Operations -/

theorem create_eq_ok_iff : t.create p contents = .ok u ↔
    ∃ place, t.locate p = .ok place ∧ p.endsInSlash = false ∧ t.get? place ≠ some .directory ∧
      t.put place (.file contents) = u := by
  unfold create
  cases located : t.locate p with
  | error e => simp [bind, Except.bind]
  | ok place =>
    simp only [bind, Except.bind]
    cases slash : p.endsInSlash with
    | true => simp
    | false =>
      cases found : t.get? place with
      | none => simp [found]
      | some e => cases e <;> simp [found]

theorem rename_eq_ok_iff {source target : Path} {origin : Place} (located : t.locate source = .ok origin)
    (found : t.entry source = .ok (.file contents)) : t.rename source target = .ok u ↔
      ∃ place, t.locate target = .ok place ∧ target.endsInName = true ∧ target.endsInSlash = false ∧
        t.get? place ≠ some .directory ∧ (t.erase origin).put place (.file contents) = u := by
  unfold rename
  rw [located, found]
  simp only [bind, Except.bind, pure, Except.pure]
  cases t.locate target with
  | error e => simp
  | ok place =>
    cases target.endsInName with
    | false => simp
    | true =>
      cases target.endsInSlash with
      | true => simp
      | false =>
        cases found : t.get? place with
        | none => simp [found]
        | some e => cases e <;> simp [found]

theorem copy_of_entry {source target : Path} (found : t.entry source = .ok (.file contents)) :
    t.copy source target = t.create target contents := by
  unfold copy
  rw [found]
  rfl

end FileTree

end Abacus
