/-!
What departures from the grammar cost. The parser pursues the readings of a text that cost least.
-/

namespace SusSyntax.Cost

/-- Going on after an error. -/
def recovery : Nat := 500

/-- Supposing a token that is not there. -/
def missingTree : Nat := 110

/-- Leaving a tree out. -/
def skippedTree : Nat := 100

/-- Leaving a line break out. -/
def skippedLine : Nat := 30

/-- Leaving a byte out. -/
def skippedByte : Nat := 1

/-- The difference from which on a reading that has made no progress is given up. -/
def giveUp : Nat := 16 * skippedTree

end SusSyntax.Cost
