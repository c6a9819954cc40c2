import Tablature.Drawing.Command
import Tablature.Number.Coordinate
import Tablature.Text.Escape

/-!
Drawings as SVG. Every command is written as one element on a line of its own, and the declaration
stands before the canvas. Contents and styles are escaped. A command with a coordinate that has no
text is left out, but the declaration before it stays. -/
namespace Tablature.Drawing.Svg
open Tablature.Number Tablature.Text

abbrev Instruction := Command Coordinate

def field (name value : String) : String := " " ++ name ++ "=\"" ++ value ++ "\""

/-- An empty style is left out. -/
def styleField (style : String) : String :=
  if style.isEmpty then "" else field "style" (escaped style)

/-- Coordinates as attributes; the first one without a text decides. -/
def fields : List (String × Coordinate) → Except Coordinate.Fault String
  | [] => .ok ""
  | (name, value) :: rest => match value.text with
    | .error f => .error f
    | .ok text => (fields rest).map (field name text ++ ·)

def declaration : String := "<?xml version=\"1.0\"?>"

def namespaces : String :=
  field "xmlns" "http://www.w3.org/2000/svg" ++ field "xmlns:xlink" "http://www.w3.org/1999/xlink"

def element : Instruction → Except Coordinate.Fault String
  | .start width height =>
    (fields [("width", width), ("height", height)]).map fun a => "<svg" ++ a ++ namespaces ++ ">"
  | .finish => .ok "</svg>"
  | .rect x y width height style =>
    (fields [("x", x), ("y", y), ("width", width), ("height", height)]).map fun a =>
      "<rect" ++ a ++ styleField style ++ " />"
  | .line x₁ y₁ x₂ y₂ style =>
    (fields [("x1", x₁), ("y1", y₁), ("x2", x₂), ("y2", y₂)]).map fun a =>
      "<line" ++ a ++ styleField style ++ " />"
  | .circle x y radius style =>
    (fields [("cx", x), ("cy", y), ("r", radius)]).map fun a =>
      "<circle" ++ a ++ styleField style ++ " />"
  | .text x y content style =>
    (fields [("x", x), ("y", y)]).map fun a =>
      "<text" ++ a ++ styleField style ++ ">" ++ escaped content ++ "</text>"
  | .openGroup dx dy => match dx.text with
    | .error f => .error f
    | .ok x =>
      dy.text.map fun y => "<g" ++ field "transform" ("translate(" ++ x ++ "," ++ y ++ ")") ++ ">"
  | .closeGroup => .ok "</g>"

/-- What stands before the element of a command, also of one that cannot be written. -/
def preamble : Instruction → List String
  | .start _ _ => [declaration]
  | _ => []

/-- The lines of a command, and why its element is missing if it is. -/
def write (c : Instruction) : List String × Option Coordinate.Fault :=
  match element c with
  | .ok e => (preamble c ++ [e], none)
  | .error f => (preamble c, some f)

def writeAll (cs : List Instruction) : List String × List (Option Coordinate.Fault) :=
  (cs.flatMap fun c => (write c).1, cs.map fun c => (write c).2)

@[simp] theorem writeAll_nil : writeAll [] = ([], []) := rfl

@[simp] theorem writeAll_append (a b : List Instruction) :
    writeAll (a ++ b) = ((writeAll a).1 ++ (writeAll b).1, (writeAll a).2 ++ (writeAll b).2) := by
  simp [writeAll]

def firstFault? (cs : List Instruction) : Option Coordinate.Fault := (writeAll cs).2.findSome? id

def document (written : List String) : String := String.intercalate "\n" written ++ "\n"

end Tablature.Drawing.Svg
