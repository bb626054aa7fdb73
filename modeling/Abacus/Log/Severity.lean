/-!
# Severities

How important a log record is, and the thresholds that a filter can set.
-/

namespace Abacus

/-- How important a log record is. -/
inductive Severity where
  | error | warn | info | debug | trace
  deriving Repr, DecidableEq

namespace Severity

/-- The name of a severity. -/
def name : Severity → String
  | error => "ERROR"
  | warn => "WARN"
  | info => "INFO"
  | debug => "DEBUG"
  | trace => "TRACE"

/-- How much is let through by a threshold at this severity. -/
def rank : Severity → Nat
  | error => 1
  | warn => 2
  | info => 3
  | debug => 4
  | trace => 5

end Severity

end Abacus
