import Abacus.Files.Tree

/-!
# Replacing a file

Writes a text to a path by way of a second file in the same directory, so that a reader of the path finds the
old contents or the new ones: the text goes to an unused name, which is then moved to the path.  Where the move
is refused the contents are copied, and the second file is removed after the copy.

The steps are written against the file operations of any monad; `FileTree.operations` are those of a file tree.
-/

namespace Abacus

/-- The file operations that replacing a file needs. -/
structure FileOperations (m : Type → Type) where
  /-- Does a path lead to something? -/
  isPresent : Path → m Bool
  /-- Writes a new file. -/
  create : Path → ByteArray → m (Except FileError Unit)
  rename : Path → Path → m (Except FileError Unit)
  copy : Path → Path → m (Except FileError Unit)
  remove : Path → m (Except FileError Unit)

/-- Why a file was not replaced. -/
inductive ReplaceError where
  /-- The path names no file. -/
  | unnamed
  /-- All names for the second file are in use, so that the search for an unused one would go round for ever. -/
  | unending
  | failed (e : FileError)
  deriving Repr, DecidableEq

section

variable {m : Type → Type} [Monad m] (ops : FileOperations m)

/-- The path of the second file with the given number. -/
def Path.temporary (p : Path) (base : String) (number : Nat) : Path :=
  p.sibling (base ++ ".tmp" ++ Nat.repr number)

/-- The first number from `number` on whose second file is not there, if it is found with the given number of tries.
Behind the last number comes 0 again. -/
def firstUnused (p : Path) (base : String) : Nat → UInt32 → m (Option UInt32)
  | 0, _ => pure none
  | tries + 1, number => do
    if ← ops.isPresent (p.temporary base number.toNat) then firstUnused p base tries (number + 1)
    else pure (some number)

/-- Moves the second file to its path, or copies and removes it. -/
def settle (second p : Path) : m (Except FileError Unit) := do
  match ← ops.rename second p with
  | .ok () => return .ok ()
  | .error _ =>
    match ← ops.copy second p with
    | .ok () => ops.remove second
    | .error e => return .error e

/-- Writes contents to a path. Every number for the second file is tried once: a search that went on would only meet the
same names again. -/
def replaceFile (p : Path) (contents : ByteArray) : m (Except ReplaceError Unit) := do
  match p.fileName? with
  | none => return .error .unnamed
  | some base =>
    match ← firstUnused ops p base UInt32.size 0 with
    | none => return .error .unending
    | some number =>
      let second := p.temporary base number.toNat
      match ← ops.create second contents with
      | .error e => return .error (.failed e)
      | .ok () => return (← settle ops second p).mapError .failed

end

namespace FileTree

/-- Makes a change, unless it fails. -/
def attempt (change : FileTree → Except FileError FileTree) : StateM FileTree (Except FileError Unit) :=
  fun t =>
    match change t with
    | .ok changed => (.ok (), changed)
    | .error e => (.error e, t)

/-- The file operations of a file tree. -/
def operations : FileOperations (StateM FileTree) where
  isPresent p := fun t => (t.isPresent p, t)
  create p contents := attempt fun t => t.create p contents
  rename source target := attempt fun t => t.rename source target
  copy source target := attempt fun t => t.copy source target
  remove p := attempt fun t => t.remove p

/-- Writes contents to a path of a file tree; the tree afterwards is given also after a failure. -/
def replace (t : FileTree) (p : Path) (contents : ByteArray) : Except ReplaceError Unit × FileTree :=
  (replaceFile operations p contents).run t

end FileTree

end Abacus
