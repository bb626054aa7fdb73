import Abacus.Text.Cluster
import Abacus.Text.Utf8

/-!
# Backspaces

A line as it was typed, backspaces included, and the line that is meant: a backspace takes back the last
cluster that still stands.  How far to go back is remembered in one byte for each cluster, so of a cluster of more
than 255 bytes only a part is taken back.  A line without backspaces means itself (`erase_eq_self`).
-/

namespace Abacus.Backspace

/-- Text typed up to here, everything last first. -/
structure Typed where
  text : List Char
  /-- The lengths of the clusters that a backspace can take back. -/
  sizes : List UInt8

/-- Drops characters until as many bytes are gone. -/
def dropBytes : Nat → List Char → List Char
  | 0, cs => cs
  | _ + 1, [] => []
  | n + 1, c :: cs => dropBytes (n + 1 - c.utf8Size) cs

namespace Typed

/-- Nothing is typed yet. -/
def start : Typed :=
  ⟨[], []⟩

/-- Adds a cluster. -/
def add (typed : Typed) (cluster : List Char) : Typed :=
  ⟨cluster.reverse ++ typed.text, (utf8Length cluster).toUInt8 :: typed.sizes⟩

/-- Takes back the last cluster, if there is one. -/
def takeBack (typed : Typed) : Typed :=
  match typed.sizes with
  | [] => typed
  | size :: sizes => ⟨dropBytes size.toNat typed.text, sizes⟩

/-- Goes on by one cluster; a backspace is one of its own. -/
def push (typed : Typed) (cluster : List Char) : Typed :=
  if cluster = ['\x08'] then typed.takeBack else typed.add cluster

theorem text_foldl_push (typed : Typed) (clusters : List (List Char)) (h : ['\x08'] ∉ clusters) :
    (clusters.foldl push typed).text = clusters.flatten.reverse ++ typed.text := by
  induction clusters generalizing typed with
  | nil => rfl
  | cons cluster clusters ih =>
    simp only [List.mem_cons, not_or] at h
    rw [List.foldl_cons, ih _ h.2, push, if_neg (Ne.symm h.1)]
    simp [add]

end Typed

/-- The line that is meant by one with backspaces. -/
def erase (line : List Char) : List Char :=
  ((Cluster.clusters line).foldl Typed.push .start).text.reverse

/-- A line without backspaces means itself. -/
theorem erase_eq_self {line : List Char} (h : '\x08' ∉ line) : erase line = line := by
  have alone : ['\x08'] ∉ Cluster.clusters line := fun found =>
    h (Cluster.flatten_clusters line ▸ List.mem_flatten_of_mem found (List.mem_singleton_self _))
  rw [erase, Typed.text_foldl_push _ _ alone, Cluster.flatten_clusters]
  simp [Typed.start]

end Abacus.Backspace
