import Tablature.Engraving.Sheet

/-!
Whole scores. The measures are counted first, so that the canvas and the last page have their exact
size. The canvas is closed also behind a symbol that failed. -/
namespace Tablature.Engraving
open Tablature.Music

/-- A score as a drawing, with what is left of the state and the fault that ended it early. -/
structure Score where
  sheet : Sheet
  pages : Int
  drawing : List Mark
  state : State
  fault : Option Fault
  deriving DecidableEq, Repr

def Sheet.forSymbols (format : PageFormat) (symbols : List Symbol) : Sheet :=
  ⟨format, format.measureCount symbols⟩

/-- Draws symbols on a sheet of so many pages. -/
def Sheet.engrave (sheet : Sheet) (pages : Int) (symbols : List Symbol) : Score :=
  let body := sheet.addAll symbols {}
  ⟨sheet, pages, sheet.opening pages ++ body.drawn ++ body.state.close.drawn,
    body.state.close.state, body.fault⟩

/-- Draws a score; nothing if its number of pages is too large. -/
def engrave? (format : PageFormat) (symbols : List Symbol) : Option Score :=
  (Sheet.forSymbols format symbols).pageCount?.map fun pages =>
    (Sheet.forSymbols format symbols).engrave pages symbols

end Tablature.Engraving
