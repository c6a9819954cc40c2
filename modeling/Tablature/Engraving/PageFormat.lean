import Tablature.Music.Symbol

/-!
How a score is divided: so many eighth beats make a measure, so many measures fill a page. Both
numbers are positive. -/
namespace Tablature.Engraving
open Tablature.Music

structure PageFormat where
  beatsPerMeasure : Nat := 8
  measuresPerPage : Nat := 7
  beats_pos : 0 < beatsPerMeasure := by decide
  measures_pos : 0 < measuresPerPage := by decide
  deriving DecidableEq, Repr

inductive FormatFault where
  | beats (given : Int)
  | measures (given : Int)
  deriving DecidableEq, Repr

def FormatFault.message : FormatFault → String
  | .beats given => "beats_per_measure must be positive, got " ++ toString given ++ "."
  | .measures given => "measures_per_page must be positive, got " ++ toString given ++ "."

namespace PageFormat

def ofInts (beats measures : Int) : Except FormatFault PageFormat :=
  if hb : 0 < beats then
    if hm : 0 < measures then .ok ⟨beats.toNat, measures.toNat, by omega, by omega⟩
    else .error (.measures measures)
  else .error (.beats beats)

def measureHalves (f : PageFormat) : Nat := 2 * f.beatsPerMeasure

theorem measureHalves_pos (f : PageFormat) : 0 < f.measureHalves := by
  have := f.beats_pos
  simp only [measureHalves]
  omega

/-- The measures that the symbols fill, the last one perhaps in part. -/
def measureCount (f : PageFormat) (symbols : List Symbol) : Nat :=
  (totalHalves symbols + (f.measureHalves - 1)) / f.measureHalves

theorem measureCount_nil (f : PageFormat) : f.measureCount [] = 0 := by
  have := f.measureHalves_pos
  simp only [measureCount, totalHalves_nil]
  exact Nat.div_eq_of_lt (by omega)

end PageFormat
end Tablature.Engraving
