import Abacus.Number.Layout

/-!
# Values

The values of the language: `nil`, the two truth values and binary64 numbers.  Two values are equal when they
are of one kind and have equal content, numbers by the rules of binary64 (`NaN` differs from itself, the two
zeros are equal).
-/

namespace Abacus

/-- A value of the language. -/
inductive Value where
  | nil
  | bool (b : Bool)
  | number (x : Float)
  deriving Inhabited

namespace Value

/-- Only `nil` and `false` count as false; zero does not. -/
def isFalsey : Value → Bool
  | nil => true
  | bool b => !b
  | number _ => false

/-- The number in a numeric value. -/
def number? : Value → Option Float
  | number x => some x
  | _ => none

/-- The equality of the language. -/
protected def beq : Value → Value → Bool
  | nil, nil => true
  | bool a, bool b => a == b
  | number a, number b => a == b
  | _, _ => false

instance : BEq Value := ⟨Value.beq⟩

/-- The name of a value's kind. -/
def kindName : Value → String
  | nil => "nil"
  | bool _ => "bool"
  | number _ => "number"

/-- The text of a value, as results and listings show it. -/
def display : Value → String
  | nil => "nil"
  | bool true => "true"
  | bool false => "false"
  | number x => String.ofList (Layout.display x)

end Value

end Abacus
