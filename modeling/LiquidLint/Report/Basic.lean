import LiquidLint.Report.Offense

/-!
# Reports

A report lists the offenses found in a theme and says how many templates were looked at.
-/

namespace LiquidLint

/-- The result of analysing a theme. -/
structure Report where
  offenses : List Offense
  /-- The number of templates looked at. -/
  templatesChecked : Nat
deriving DecidableEq, Repr

namespace Report

/-- The number of offenses of a severity. -/
def count (r : Report) (s : Severity) : Nat := r.offenses.countP (·.severity == s)

/-- Whether there is an error. -/
def hasErrors (r : Report) : Bool := r.offenses.any (·.severity == .error)

/-- Whether an offense is at least as bad as the threshold. -/
def hasOffensesAt (r : Report) (threshold : Severity) : Bool :=
  r.offenses.any (·.severity.reaches threshold)

end Report

end LiquidLint
