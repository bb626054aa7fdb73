import Abacus.Files.Error
import Abacus.Files.Path

/-!
# File trees

A tree of directories and files as a list of its places, each a list of names from the root, and the operations
of a file system on it.  A path is followed from the working directory name by name; every name but the last
must lead to a directory.

`get?_put` and `get?_erase` say that changing one place leaves all others as they are.
-/

namespace Abacus

/-- What stands at a place of a file tree. -/
inductive Entry where
  | directory
  | file (contents : ByteArray)

/-- A place in a file tree: the names that lead there from the root. -/
abbrev Place := List String

/-- A file tree with a working directory. -/
structure FileTree where
  entries : List (Place × Entry)
  workingDirectory : Place

namespace FileTree

/-! ## Places -/

/-- What stands at a place. The root is a directory in any case. -/
def get? (t : FileTree) (p : Place) : Option Entry :=
  if p = [] then some .directory else t.entries.lookup p

/-- Takes away what stands at a place. -/
def erase (t : FileTree) (p : Place) : FileTree :=
  { t with entries := t.entries.filter fun e => e.1 != p }

/-- Puts something at a place, in place of what stood there. -/
def put (t : FileTree) (p : Place) (e : Entry) : FileTree :=
  { t with entries := (p, e) :: (t.erase p).entries }

theorem lookup_filter_ne (entries : List (Place × Entry)) (p q : Place) :
    (entries.filter fun e => e.1 != p).lookup q = if q = p then none else entries.lookup q := by
  induction entries with
  | nil => simp
  | cons e entries ih =>
    obtain ⟨r, entry⟩ := e
    rw [List.filter_cons]
    split
    · next kept =>
      have away : r ≠ p := by simpa using kept
      rw [List.lookup_cons, List.lookup_cons, ih]
      split
      · next same =>
        obtain rfl := eq_of_beq same
        simp [away]
      · rfl
    · next dropped =>
      have here : r = p := by simpa using dropped
      rw [ih, List.lookup_cons]
      split
      · rfl
      · next other => simp [here, beq_false_of_ne other]

theorem get?_erase (t : FileTree) (p q : Place) (h : q ≠ []) :
    (t.erase p).get? q = if q = p then none else t.get? q := by
  simp [get?, erase, h, lookup_filter_ne]

theorem get?_put (t : FileTree) (p q : Place) (e : Entry) (h : q ≠ []) :
    (t.put p e).get? q = if q = p then some e else t.get? q := by
  simp only [get?, put, erase, h, if_false, List.lookup_cons, lookup_filter_ne]
  by_cases same : q = p
  · simp [same]
  · simp [same, beq_false_of_ne same]

/-! ## Following a path -/

/-- The place that a name leads to from a directory. -/
def follow (t : FileTree) (here : Place) (name : String) : Except FileError Place :=
  match t.get? here with
  | none => .error .noSuchFile
  | some (.file _) => .error .notDirectory
  | some .directory =>
    .ok (if name = "." then here else if name = ".." then here.dropLast else here ++ [name])

/-- The place that a path leads to, whether or not something stands there. -/
def locate (t : FileTree) (p : Path) : Except FileError Place :=
  p.names.foldlM t.follow (if p.isAbsolute then [] else t.workingDirectory)

/-- What stands at the end of a path; a slash at the end asks for a directory. -/
def entry (t : FileTree) (p : Path) : Except FileError Entry := do
  let place ← t.locate p
  match t.get? place with
  | none => .error .noSuchFile
  | some .directory => .ok .directory
  | some (.file contents) => if p.endsInSlash then .error .notDirectory else .ok (.file contents)

/-! ## Operations -/

/-- Does a path lead to something? -/
def isPresent (t : FileTree) (p : Path) : Bool :=
  match t.entry p with
  | .ok _ => true
  | .error _ => false

/-- Writes a file, in place of the file that stood there. -/
def create (t : FileTree) (p : Path) (contents : ByteArray) : Except FileError FileTree := do
  let place ← t.locate p
  if p.endsInSlash then .error .isDirectory
  else
    match t.get? place with
    | some .directory => .error .isDirectory
    | _ => .ok (t.put place (.file contents))

/-- Moves a file, in place of the file that stood at the target. -/
def rename (t : FileTree) (source target : Path) : Except FileError FileTree := do
  let origin ← t.locate source
  let contents ←
    match ← t.entry source with
    | .file contents => pure contents
    | .directory => .error .isDirectory
  let place ← t.locate target
  if !target.endsInName then .error .busy
  else if target.endsInSlash then .error .notDirectory
  else
    match t.get? place with
    | some .directory => .error .isDirectory
    | _ => .ok ((t.erase origin).put place (.file contents))

/-- Copies the contents of a file into another one. -/
def copy (t : FileTree) (source target : Path) : Except FileError FileTree := do
  match ← t.entry source with
  | .directory => .error .isDirectory
  | .file contents => t.create target contents

/-- Removes a file. -/
def remove (t : FileTree) (p : Path) : Except FileError FileTree := do
  match ← t.entry p with
  | .directory => .error .isDirectory
  | .file _ => return t.erase (← t.locate p)

end FileTree

end Abacus
