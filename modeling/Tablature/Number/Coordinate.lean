import Tablature.Number.Extended
import Tablature.Text.Numeral

/-!
Coordinates and their text. A whole coordinate is written as the numeral of that whole number. Any
other is taken to the nearest binary64 number and written with two places, a half going to the even
neighbour, less the zeros at its end; the point stays. Only finite numbers have a text, and whole
ones only within the bound of numerals. -/
namespace Tablature.Number
open Tablature.Text

abbrev Coordinate := Extended

namespace Coordinate

/-- The coordinate that lies so many half pixels from the origin. -/
def ofHalves (n : Int) : Coordinate := .exact (mkRat n 2)

inductive Fault where
  | undefined
  | outOfRange
  | tooLong
  deriving DecidableEq, Repr

def Fault.message : Fault → String
  | .undefined => "The coordinate is not a number."
  | .outOfRange => "The coordinate is too large."
  | .tooLong => "The coordinate has too many digits."

/-- Two digits, of which zeros at the end are left out. -/
def placesText (hundredths : Nat) : String :=
  if hundredths = 0 then ""
  else if hundredths % 10 = 0 then toString (hundredths / 10)
  else toString (hundredths / 10) ++ toString (hundredths % 10)

def hundredthsText (n : Nat) : String := toString (n / 100) ++ "." ++ placesText (n % 100)

def text : Coordinate → Except Fault String
  | .undefined => .error .undefined
  | .infinite _ => .error .outOfRange
  | .exact q =>
    if q.den = 1 then match numeral? q.num with
      | none => .error .tooLong
      | some digits => .ok digits
    else match nearestUnits? q.num.natAbs q.den with
      | none => .error .outOfRange
      | some units =>
        .ok ((if q.num < 0 then "-" else "") ++
          hundredthsText (roundEven (units * 100) unitsPerOne))

end Coordinate
end Tablature.Number
