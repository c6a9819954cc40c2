import Tablature.Drawing.Command
import Tablature.Engraving.Lane
import Tablature.Music.Duration

/-!
Glyphs: what is drawn for a lane, a bar, a head, a stem, a taper, a beam and a rest. Symbols stand
on half pixels, so commands are placed in whole numbers of half pixels; sizes are given in pixels
and doubled by `px`. -/
namespace Tablature.Engraving
open Tablature.Music Tablature.Drawing

abbrev HalfPixel := Int

/-- Pixels as half pixels. -/
def px (n : Int) : HalfPixel := 2 * n

abbrev Mark := Command HalfPixel

def laneStep : Int := 5

def marginX : Int := 50

def marginY : Int := 10

def fontSize : Int := 10

def headRadius : Int := 4

def beatHeight : Int := 15

/-- The middle of the page, where the centre line runs and rests stand. -/
def centreX : Int := 121

/-- Stems begin to the left of the lanes. -/
def stemX : Int := -20

def taperWidth : Int := 5

def thinStyle : String := "stroke-width:1;stroke:black"

def barStyle : String := "stroke-width:3;stroke:black"

def labelStyle : String := "font-size:10;fill:black"

def restStyle : String := "stroke-width:2;stroke:black;fill:none"

def inkStyle : String := "fill:black"

def laneGlyph (height : Int) (lane : Nat) : List Mark :=
  let x := laneWidth * lane
  let length := height + laneStep * laneSteps lane
  let fill := if isMarked lane then "salmon" else "white"
  [.rect (px x) 0 (px laneWidth) (px length) (thinStyle ++ ";fill:" ++ fill),
   .text (px (x + 7)) (px (length + fontSize)) (String.singleton (laneNames.getD lane ' '))
     (labelStyle ++ ";text-anchor:middle")]

def pageGlyph (height : Int) : List Mark :=
  (List.range laneCount).flatMap (laneGlyph height) ++
    [.line (px centreX) 0 (px centreX) (px (height + laneStep * sideLanes)) barStyle]

/-- The bar that begins a measure, with the measure's number to its right. -/
def barGlyph (y : HalfPixel) (measure : Nat) : List Mark :=
  [.line 0 y (px pageWidth) y barStyle,
   .text (px (pageWidth + 2)) y (toString measure) (labelStyle ++ ";dominant-baseline:central")]

def endGlyph : List Mark :=
  [.line 0 (px 1) (px pageWidth) (px 1) barStyle, .line 0 (px 8) (px pageWidth) (px 8) thinStyle]

/-- The flag of an eighth note that no beam joins to another. -/
def taperGlyph (y : HalfPixel) : Mark :=
  .line (px stemX) (y - px headRadius) (px (stemX + taperWidth)) (y - px headRadius - px taperWidth)
    thinStyle

/-- Joins the stems of two eighth notes, the later one first. -/
def beamGlyph (y earlier : HalfPixel) : Mark :=
  .line (px stemX) (y - px headRadius) (px stemX) (earlier - px headRadius) thinStyle

/-- A whole note has no stem. -/
def stemGlyph (x : Int) (y : HalfPixel) (length : Length) : List Mark :=
  if length = .whole then []
  else [.line (px stemX) (y - px headRadius) (px x) (y - px headRadius) thinStyle]

def isHollow (length : Length) : Bool := length == .half || length == .whole

/-- A head, and the dot beside it if the duration has one. -/
def headGlyph (x : Int) (y : HalfPixel) (d : Duration) : List Mark :=
  .circle (px x) y (px headRadius) (thinStyle ++ ";fill:" ++ if isHollow d.length then "white"
    else "black") ::
    if d.dotted then [.circle (px (x + 6)) (y - px 7) (px 2) inkStyle] else []

def zigzag : List (HalfPixel × HalfPixel) → List Mark
  | (x₁, y₁) :: (x₂, y₂) :: rest => .line x₁ y₁ x₂ y₂ restStyle :: zigzag ((x₂, y₂) :: rest)
  | _ => []

def restGlyph (y : HalfPixel) : Length → List Mark
  | .whole => [.rect (px centreX) (y - px 2) (px 2) (px 4) inkStyle]
  | .half => [.rect (px (centreX - 2)) (y - px 2) (px 2) (px 4) inkStyle]
  | .quarter =>
    zigzag [(px centreX, y), (px (centreX + 7), y - px 7), (px (centreX + 15), y),
      (px (centreX + 20), y - px 7), (px (centreX + 25), y), (px (centreX + 30), y - px 3)]
  | .eighth =>
    [.line (px (centreX + 22)) (y - px headRadius) (px (centreX + 37)) (y + px headRadius)
      restStyle,
     .circle (px (centreX + 26)) (y + px 2) (px 3) inkStyle]

end Tablature.Engraving
