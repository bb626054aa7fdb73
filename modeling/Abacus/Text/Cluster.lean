import Abacus.Text.Cluster.Role

/-!
# Clusters

Cuts text into extended grapheme clusters, what a reader takes for one character.  `joins` holds the rules: each
of them looks at the next character and at the cluster that is open before it.  No character is lost
(`flatten_clusters`).
-/

namespace Abacus.Cluster

/-! ## The rules -/

namespace Role

/-- Does a character stand alone between two boundaries? -/
def isAlone : Role → Bool
  | carriageReturn | lineFeed | control => true
  | _ => false

/-- Does a character continue whatever stands before it? -/
def extendsAny : Role → Bool
  | mark | nonJoiner | linker | joiner | spacingMark => true
  | _ => false

/-- Is a character a mark that may stand between a pictograph and a joiner? -/
def isMark : Role → Bool
  | mark | nonJoiner | linker => true
  | _ => false

/-- Is a character one that may stand between two consonants of a conjunct? -/
def isTie : Role → Bool
  | mark | linker | joiner => true
  | _ => false

/-- Do two characters belong to one Hangul syllable? -/
def sameSyllable : Role → Role → Bool
  | leading, leading | leading, vowel | leading, openSyllable | leading, closedSyllable => true
  | openSyllable, vowel | openSyllable, trailing | vowel, vowel | vowel, trailing => true
  | closedSyllable, trailing | trailing, trailing => true
  | _, _ => false

end Role

/-- Do the characters, last first, end in a pictograph, marks and a joiner? -/
def endsJoined : List Role → Bool
  | .joiner :: before => (before.dropWhile Role.isMark).head? = some .pictograph
  | _ => false

/-- Do the characters, last first, end in a consonant and ties with a linker among them? -/
def endsLinked (before : List Role) : Bool :=
  (before.takeWhile Role.isTie).contains .linker && (before.dropWhile Role.isTie).head? = some .consonant

/-- Do the characters, last first, end in a regional indicator that has no partner? -/
def endsHalfFlag (before : List Role) : Bool :=
  (before.takeWhile (· = .regional)).length % 2 = 1

/-- Does a character belong to the open cluster, whose roles are given last first? -/
def joins (cluster : List Role) (next : Role) : Bool :=
  match cluster with
  | [] => true
  | last :: _ =>
    if last.isAlone || next.isAlone then last = .carriageReturn && next = .lineFeed
    else next.extendsAny || last = .prepended || last.sameSyllable next
      || next = .pictograph && endsJoined cluster
      || next = .consonant && endsLinked cluster
      || next = .regional && endsHalfFlag cluster

/-! ## Cutting -/

/-- Text that is cut up to here, everything last first. -/
structure Cut where
  /-- The clusters that have ended. -/
  ended : List (List Char)
  /-- The open cluster. -/
  cluster : List Char
  /-- The roles of the characters of the open cluster. -/
  roles : List Role

namespace Cut

/-- Nothing is cut yet. -/
def start : Cut :=
  ⟨[], [], []⟩

/-- Goes on by one character. -/
def push (cut : Cut) (c : Char) : Cut :=
  let role := Role.ofChar c
  if joins cut.roles role then ⟨cut.ended, c :: cut.cluster, role :: cut.roles⟩
  else ⟨cut.cluster.reverse :: cut.ended, [c], [role]⟩

/-- The clusters in order. -/
def clusters (cut : Cut) : List (List Char) :=
  (cut.cluster.reverse :: cut.ended).reverse

theorem flatten_clusters_push (cut : Cut) (c : Char) :
    (cut.push c).clusters.flatten = cut.clusters.flatten ++ [c] := by
  unfold push
  dsimp only
  split <;> simp [clusters]

theorem flatten_clusters_foldl (cut : Cut) (cs : List Char) :
    (cs.foldl push cut).clusters.flatten = cut.clusters.flatten ++ cs := by
  induction cs generalizing cut with
  | nil => simp
  | cons c cs ih => simp [ih, flatten_clusters_push]

end Cut

/-- The clusters of a text. -/
def clusters : List Char → List (List Char)
  | [] => []
  | c :: cs => ((c :: cs).foldl Cut.push .start).clusters

/-- The clusters make up the text. -/
theorem flatten_clusters (cs : List Char) : (clusters cs).flatten = cs := by
  cases cs with
  | nil => rfl
  | cons c cs => exact Cut.flatten_clusters_foldl .start (c :: cs)

end Abacus.Cluster
