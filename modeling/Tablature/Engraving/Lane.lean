import Tablature.Music.Pitch

/-!
Lanes. A page is a row of seventeen upright lanes, one for each pitch of a little over two octaves,
with middle C at the centre and the scale rising to both sides in turn. Measures of the page are in
pixels. -/
namespace Tablature.Engraving
open Tablature.Music

def laneNames : List Char := "DBGECAFDCEGBDFACE".toList

def lanePitches : List Pitch := [15, 13, 11, 9, 7, 5, 3, 1, 0, 2, 4, 6, 8, 10, 12, 14, 16]

def laneCount : Nat := 17

def sideLanes : Nat := 8

def laneWidth : Int := 15

def pageWidth : Int := laneWidth * laneCount

theorem lanePitches_length : lanePitches.length = laneCount := rfl

theorem laneNames_length : laneNames.length = laneCount := by decide

def laneOf? (p : Pitch) : Option Nat := lanePitches.findIdx? (· == p)

/-- The middle of a lane, rounded up to a pixel. -/
def laneCentre (lane : Nat) : Int := laneWidth * lane + 8

def headX? (p : Pitch) : Option Int := (laneOf? p).map laneCentre

/-- How many steps a lane is longer than the outermost ones. -/
def laneSteps (lane : Nat) : Nat := if lane < sideLanes then lane else laneCount - lane - 1

/-- Every third lane is coloured. -/
def isMarked (lane : Nat) : Bool := (lane + 1) % 3 == 0

end Tablature.Engraving
