/-!
# Runs of code points

Sets of characters, written down as runs of code points.
-/

namespace Abacus

/-- Runs of code points, each as its first and its last. -/
abbrev Runs := List (Nat × Nat)

/-- Is a character in one of the runs? -/
def Runs.includes (runs : Runs) (c : Char) : Bool :=
  runs.any fun (first, last) => first ≤ c.toNat && c.toNat ≤ last

end Abacus
