import Tablature.Number.Nearest

/-!
Numbers as they are handed in: exact, infinite or no number at all. -/
namespace Tablature.Number

/-- An exact number, an infinity of either sign, or no number at all. -/
inductive Extended where
  | exact (q : Rat)
  | infinite (negative : Bool)
  | undefined
  deriving DecidableEq, Repr

/-- The binary64 number nearest to an exact one, an infinity beyond the largest. -/
def Extended.nearest (q : Rat) : Extended :=
  match nearest? q with
  | some r => .exact r
  | none => .infinite (decide (q < 0))

end Tablature.Number
