import Tablature.Music.Duration
import Tablature.Music.Pitch

/-!
Symbols: a duration with the sound that fills it. A sound is one pitch, several pitches at once, or
silence; the fourth kind stands for a mark with a duration that the tablature does not know. -/
namespace Tablature.Music

inductive Sound where
  | note (pitch : Pitch)
  | chord (pitches : List Pitch)
  | rest
  | other
  deriving DecidableEq, Repr

structure Symbol where
  duration : Duration
  sound : Sound
  deriving DecidableEq, Repr

namespace Symbol

def halves (s : Symbol) : Nat := s.duration.halves

def beats (s : Symbol) : Rat := s.duration.beats

def pitches (s : Symbol) : List Pitch :=
  match s.sound with
  | .note p => [p]
  | .chord ps => ps
  | .rest => []
  | .other => []

/-- A symbol that the notation can hold: a note, a chord of at least one pitch, or a rest. -/
def Playable (s : Symbol) : Prop :=
  match s.sound with
  | .note _ => True
  | .chord ps => ps ≠ []
  | .rest => True
  | .other => False

def truthText (b : Bool) : String := if b then "True" else "False"

def listText (ps : List Pitch) : String := "[" ++ String.intercalate ", " (ps.map toString) ++ "]"

def durationText (d : Duration) : String := toString d.length.eighths ++ " " ++ truthText d.dotted

def text (s : Symbol) : String :=
  match s.sound with
  | .note p => "<NOTE " ++ durationText s.duration ++ " " ++ toString p ++ ">"
  | .chord ps => "<CHORD " ++ durationText s.duration ++ " " ++ listText ps ++ ">"
  | .rest => "<REST " ++ durationText s.duration ++ ">"
  | .other => "<OTHER>"

end Symbol

def totalHalves : List Symbol → Nat
  | [] => 0
  | s :: rest => s.halves + totalHalves rest

@[simp] theorem totalHalves_nil : totalHalves [] = 0 := rfl

@[simp] theorem totalHalves_cons (s : Symbol) (symbols : List Symbol) :
    totalHalves (s :: symbols) = s.halves + totalHalves symbols := rfl

@[simp] theorem totalHalves_append (a b : List Symbol) :
    totalHalves (a ++ b) = totalHalves a + totalHalves b := by
  induction a with
  | nil => simp
  | cons s a ih => simp [ih, Nat.add_assoc]

end Tablature.Music
