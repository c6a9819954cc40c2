import Tablature.Rendition

/-!
The journal of a run. Every stage leaves an entry; a verbose run prints them all, a quiet one only
warnings and what is worse. -/
namespace Tablature.CommandLine
open Tablature.Music Tablature.Notation Tablature.Engraving Tablature.Drawing

inductive Level where
  | debug
  | info
  | warning
  deriving DecidableEq, Repr

namespace Level

def name : Level → String
  | debug => "DEBUG"
  | info => "INFO"
  | warning => "WARNING"

def rank : Level → Nat
  | debug => 10
  | info => 20
  | warning => 30

end Level

/-- What a journal lets through and how its entries look. -/
structure Verbosity where
  level : Level
  pattern : String
  deriving DecidableEq, Repr

namespace Verbosity

def journal : String := "kablature"

def ofFlag (verbose : Bool) : Verbosity :=
  if verbose then ⟨.debug, "%(levelname)-7s %(name)s: %(message)s (%(filename)s:%(lineno)d)"⟩
  else ⟨.warning, "%(levelname)s: %(message)s"⟩

def admits (v : Verbosity) (level : Level) : Bool := decide (v.level.rank ≤ level.rank)

end Verbosity

structure Entry where
  level : Level
  stage : String
  message : String
  deriving DecidableEq, Repr

namespace Entry

/-- The name of the level is filled up to seven characters. -/
def line (e : Entry) : String :=
  String.ofList (e.level.name.toList.rightpad 7 ' ') ++ " " ++ Verbosity.journal ++ "." ++
    e.stage ++ ": " ++
    e.message ++ "\n"

def parsed (symbols : Nat) : Entry :=
  ⟨.debug, "parser", "Parsed " ++ toString symbols ++ " symbol(s)."⟩

def opened (sheet : Sheet) (pages : Int) : Entry :=
  ⟨.debug, "layout", "Laying out " ++ toString sheet.total ++ " measure(s) on " ++ toString pages ++
    " page(s), canvas " ++ toString (Sheet.width pages) ++ "x" ++ toString sheet.height ++ "."⟩

def page (number measures : Nat) : Entry :=
  ⟨.debug, "layout", "Starting page " ++ toString number ++ " with " ++ toString measures ++
    " measure(s)."⟩

def rendered (measures : Nat) (pages : Int) : Entry :=
  ⟨.info, "score_exporter", "Rendered " ++ toString measures ++ " measure(s) on " ++
    toString pages ++ " page(s)."⟩

end Entry

/-- The entries of the pages begun before drawing stopped. -/
def pageEntries (sheet : Sheet) (drawn : List Mark) : List Entry :=
  (List.range (drawn.countP Command.isOpenGroup)).map fun i =>
    .page (i + 1) (sheet.measuresAfter i)

/-- The marks in front of the first that cannot be written. -/
def writtenMarks (drawing : List Mark) : List Mark :=
  drawing.takeWhile fun m => (Svg.write (Rendition.instruction m)).2.isNone

def documentEntries (r : Rendition) (text : String) : List Entry :=
  match Notation.symbols text with
  | .error _ => []
  | .ok symbols => .parsed symbols.length :: match engrave? r.format symbols with
    | none => []
    | some e =>
      .opened e.sheet e.pages :: pageEntries e.sheet (writtenMarks e.drawing) ++
        match Rendition.svgOf e with
        | .ok _ => [.rendered e.state.measure e.pages]
        | .error _ => []

def printed (v : Verbosity) (entries : List Entry) : String :=
  String.join ((entries.filter fun e => v.admits e.level).map Entry.line)

end Tablature.CommandLine
