import Tablature.Drawing.Html
import Tablature.Drawing.Svg
import Tablature.Engraving.Score
import Tablature.Notation.Reader

/-!
Renditions: a score as a document. A text is read, engraved and written as a drawing, which an HTML
rendition wraps in a page. What went on is answered beside the document or the reason that there is
none. -/
namespace Tablature
open Tablature.Text Tablature.Number Tablature.Music Tablature.Notation Tablature.Engraving
  Tablature.Drawing

inductive DocumentKind where
  | svg
  | html
  deriving DecidableEq, Repr

namespace DocumentKind

def name : DocumentKind → String
  | svg => "svg"
  | html => "html"

def extension (k : DocumentKind) : String := "." ++ k.name

/-- The kind of a name, in capitals or not and with blanks around it. -/
def ofName? (s : String) : Option DocumentKind :=
  let plain := String.ofList ((trim s.toList).map Char.toLower)
  if plain = "svg" then some svg else if plain = "html" then some html else none

end DocumentKind

structure KindFault where
  name : String
  deriving DecidableEq, Repr

def KindFault.message (f : KindFault) : String :=
  "Unsupported output format '" ++ f.name ++ "'. Use one of: html, svg."

structure Rendition where
  title : String := ""
  kind : DocumentKind := .svg
  format : PageFormat := {}
  deriving DecidableEq, Repr

inductive DocumentFault where
  | reading (error : ReadError)
  | engraving (fault : Fault)
  | coordinate (fault : Coordinate.Fault)
  | declaration
  deriving DecidableEq, Repr

def DocumentFault.message : DocumentFault → String
  | reading e => e.message
  | engraving f => f.message
  | coordinate f => f.message
  | declaration => "The declaration of the drawing has no end."

namespace Rendition

def ofName (title kindName : String) (format : PageFormat) : Except KindFault Rendition :=
  match DocumentKind.ofName? kindName with
  | some kind => .ok ⟨title, kind, format⟩
  | none => .error ⟨kindName⟩

def instruction (m : Mark) : Svg.Instruction := m.map Coordinate.ofHalves

/-- The document of an engraved score. A coordinate without a text is met before the end of the
score, so it is the fault that counts. -/
def svgOf (e : Score) : Except DocumentFault String :=
  match Svg.firstFault? (e.drawing.map instruction), e.fault with
  | some f, _ => .error (.coordinate f)
  | none, some f => .error (.engraving f)
  | none, none => .ok (Svg.document (Svg.writeAll (e.drawing.map instruction)).1)

def svg (r : Rendition) (symbols : List Symbol) : Except DocumentFault String :=
  match engrave? r.format symbols with
  | none => .error (.coordinate .outOfRange)
  | some e => svgOf e

def wrap (r : Rendition) (svg : String) : Except DocumentFault String :=
  match r.kind with
  | .svg => .ok svg
  | .html => match Html.page? r.title [svg] with
    | some page => .ok page
    | none => .error .declaration

def document (r : Rendition) (text : String) : Except DocumentFault String :=
  match Notation.symbols text with
  | .error e => .error (.reading e)
  | .ok symbols => match r.svg symbols with
    | .error f => .error f
    | .ok drawing => r.wrap drawing

end Rendition
end Tablature
