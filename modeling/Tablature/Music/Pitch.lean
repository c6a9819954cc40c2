/-!
Pitches. A pitch counts diatonic steps above middle C, seven to the octave. Every letter of the
notation names a step, in either case, and every pitch sounds as one white key. -/
namespace Tablature.Music

abbrev Pitch := Int

def stepNames : List Char := ['c', 'd', 'e', 'f', 'g', 'a', 'b']

def stepsPerOctave : Nat := 7

def step? (letter : Char) : Option Nat := stepNames.findIdx? (· == letter.toLower)

theorem step?_lt {letter : Char} {n : Nat} (h : step? letter = some n) : n < stepsPerOctave := by
  obtain ⟨hn, -⟩ := List.findIdx?_eq_some_iff_getElem.1 h
  exact hn

def stepOf? (text : String) : Option Nat :=
  match text.toList with
  | [letter] => step? letter
  | _ => none

def isStepName (text : String) : Bool := (stepOf? text).isSome

def middleC : Int := 60

def semitonesPerOctave : Int := 12

def semitones : List Int := [0, 2, 4, 5, 7, 9, 11]

/-- The key on which a pitch sounds, as a number of semitones with middle C at 60. -/
def Pitch.key (p : Pitch) : Int :=
  middleC + p / stepsPerOctave * semitonesPerOctave + semitones.getD (p % stepsPerOctave).toNat 0

end Tablature.Music
