/-!
# Sample sources

Sources of chosen size and shape, to measure the language with: a sum that uses up the constants, a nest of
groups and negations that uses up the levels of nesting, and a text of all kinds of tokens.
-/

namespace Abacus.Sample

/-- Small sources, each with a name. -/
def micro : List (String × String) :=
  [("literal", "42"),
    ("arith", "(1 + 2) * 3 - 4 / 5"),
    ("unary", "-(-(-(-1)))"),
    ("compare", "1 < 2 == !(3 >= 4)"),
    ("equality", "nil == false != (true == !nil)"),
    ("comments", "// en-tête\n1 + // milieu\n2 // fin\n")]

/-- A sum of the given number of terms, `0.5 + 1.5 + …`. -/
def sumChain (terms : Nat) : String :=
  " + ".intercalate ((List.range terms).map fun i => Nat.repr i ++ ".5")

/-- A text, several times over. -/
def times (n : Nat) (text : String) : String :=
  String.join (List.replicate n text)

/-- `nil` inside the given number of negated groups. -/
def nestedNot (depth : Nat) : String :=
  times depth "!(" ++ "nil" ++ times depth ")"

/-- A line with all kinds of tokens and a comment. -/
def scannerLine : String :=
  "var x = (12.5 + 3) * -4 >= 7 and !nil or \"str\"; // commentaire\n"

/-- The least number of such lines that takes more than the given number of bytes. -/
def scannerText (bytes : Nat) : String :=
  times (bytes / scannerLine.utf8ByteSize + 1) scannerLine

end Abacus.Sample
