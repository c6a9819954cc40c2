import Tablature.Engraving.PageFormat
import Tablature.Engraving.Placement
import Tablature.Number.Nearest

/-!
The sheet: pages side by side, each filled from bottom to top. `Sheet.add` places one symbol, and
before it begins the measure and the page that the symbol needs; `addAll` stops at the first symbol
that fails. -/
namespace Tablature.Engraving
open Tablature.Music Tablature.Number

/-- A page format with the number of measures that the sheet is to hold. -/
structure Sheet where
  format : PageFormat
  total : Int
  deriving DecidableEq, Repr

namespace Sheet

/-- The height of so many measures, each with room for its bar, and of the end lines if they
follow. -/
def heightOf (sheet : Sheet) (measures : Int) (withEnd : Bool) : Int :=
  (sheet.format.beatsPerMeasure + 1) * measures * beatHeight + if withEnd then beatHeight else 0

def fullHeight (sheet : Sheet) : Int := sheet.heightOf sheet.format.measuresPerPage true

/-- The pages of the canvas: the quotient of measures is rounded to binary64 and then up to a whole
number. Nothing if the quotient is too large. -/
def pageCount? (sheet : Sheet) : Option Int :=
  (nearest? (mkRat sheet.total sheet.format.measuresPerPage)).map Rat.ceil

def width (pages : Int) : Int := pages * pageWidth + (pages + 1) * marginX

def height (sheet : Sheet) : Int := sheet.fullHeight + marginY * 2 + laneStep * sideLanes + fontSize

def opening (sheet : Sheet) (pages : Int) : List Mark :=
  [.start (px (width pages)) (px sheet.height),
    .rect 0 0 (px (width pages)) (px sheet.height) "fill:white"]

def remaining (sheet : Sheet) (pages : Nat) : Int :=
  sheet.total - sheet.format.measuresPerPage * pages

def measuresAfter (sheet : Sheet) (pages : Nat) : Nat :=
  if sheet.remaining pages ≤ sheet.format.measuresPerPage then (sheet.remaining pages).toNat
  else sheet.format.measuresPerPage

/-- The height of the page behind so many others; the last page has room for the end lines. -/
def heightAfter (sheet : Sheet) (pages : Nat) : Int :=
  sheet.heightOf (sheet.measuresAfter pages)
    (decide (sheet.remaining pages ≤ sheet.format.measuresPerPage))

/-- Where the page behind so many others lies. Pages share their lower edge. -/
def origin (sheet : Sheet) (pages : Nat) : Mark :=
  .openGroup (px ((pages + 1) * marginX + pages * pageWidth))
    (px (marginY + sheet.fullHeight - sheet.heightAfter pages))

/-- Ends the open page and begins the next one, unless all measures are used up. -/
def turnPage (sheet : Sheet) (s : State) : Outcome :=
  let ended : List Mark := if s.pageOpen then [.closeGroup] else []
  if sheet.remaining s.page ≤ 0 then ⟨ended, s, some (.beyondTotal sheet.total)⟩
  else
    ⟨ended ++ sheet.origin s.page :: pageGlyph (sheet.heightAfter s.page),
      { s with
        page := s.page + 1
        pageOpen := true
        measuresLeft := sheet.measuresAfter s.page
        y := px (sheet.heightAfter s.page) },
      none⟩

/-- Before the first symbol and behind a full measure a new one begins, on a new page if this one is
full. -/
def boundary (sheet : Sheet) (s : State) : Outcome :=
  if s.measure = 0 ∨ s.filled = sheet.format.measureHalves then
    (s.settle.andThen fun s => if s.measuresLeft = 0 then sheet.turnPage s
      else ⟨[], s, none⟩).andThen
      State.beginMeasure
  else ⟨[], s, none⟩

/-- Places a symbol in the measure under way if it has room. -/
def fit (sheet : Sheet) (symbol : Symbol) (s : State) : Outcome :=
  if sheet.format.measureHalves < s.filled + symbol.halves then
    ⟨[], s, some (.overfull sheet.format.beatsPerMeasure s.measure (s.filled + symbol.halves))⟩
  else (s.place symbol).andThen (State.advance symbol)

def add (sheet : Sheet) (symbol : Symbol) (s : State) : Outcome :=
  (sheet.boundary s).andThen (sheet.fit symbol)

/-- Adds symbols up to the first that fails. -/
def addAll (sheet : Sheet) : List Symbol → State → Outcome
  | [], s => ⟨[], s, none⟩
  | symbol :: rest, s => (sheet.add symbol s).andThen (sheet.addAll rest)

theorem addAll_append (sheet : Sheet) (a b : List Symbol) (s : State) :
    sheet.addAll (a ++ b) s = (sheet.addAll a s).andThen (sheet.addAll b) := by
  induction a generalizing s with
  | nil => rfl
  | cons x a ih =>
    have : sheet.addAll (a ++ b) = fun t => (sheet.addAll a t).andThen (sheet.addAll b) := funext ih
    simp only [List.cons_append, addAll, this, Outcome.andThen_assoc]

end Sheet
end Tablature.Engraving
