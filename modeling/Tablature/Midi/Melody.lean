import Tablature.Music.Symbol
import Tablature.Number.Extended

/-!
Melodies as timed events. A pitch sounds from the start of its symbol to the end; a rest takes its
time and sounds nothing. Time is counted in ticks from the start of the score. -/
namespace Tablature.Midi
open Tablature.Music Tablature.Number

/-- The ticks of half an eighth beat; a quarter note of the format has four of them. -/
def ticksPerHalf : Nat := 240

structure Event where
  tick : Nat
  sounding : Bool
  key : Int
  deriving DecidableEq, Repr

namespace Event

/-- Earlier ticks go first, and at one tick what ends goes before what begins. -/
def notAfter (a b : Event) : Bool :=
  decide (a.tick < b.tick) || (decide (a.tick = b.tick) && (!a.sounding || b.sounding))

def ofPitch (start length : Nat) (p : Pitch) : List Event :=
  [⟨ticksPerHalf * start, true, p.key⟩, ⟨ticksPerHalf * (start + length), false, p.key⟩]

def ofSymbol (start : Nat) (s : Symbol) : List Event := s.pitches.flatMap (ofPitch start s.halves)

def ofSymbols : Nat → List Symbol → List Event
  | _, [] => []
  | start, s :: rest => ofSymbol start s ++ ofSymbols (start + s.halves) rest

end Event

inductive Fault where
  | zeroTempo
  | undefinedTempo
  | tempoTooLow
  | unknownSymbol
  | byteRange
  deriving DecidableEq, Repr

def Fault.message : Fault → String
  | .zeroTempo => "The tempo is zero."
  | .undefinedTempo => "The tempo is not a number."
  | .tempoTooLow => "The tempo is too close to zero."
  | .unknownSymbol => "Unrecognized symbol <OTHER>."
  | .byteRange => "A value does not fit its bytes."

/-- The microseconds of a beat at a tempo in beats per minute: the quotient is rounded to binary64,
then its fraction is dropped. -/
def beatLength : Extended → Except Fault Int
  | .undefined => .error .undefinedTempo
  | .infinite _ => .ok 0
  | .exact tempo =>
    if tempo = 0 then .error .zeroTempo
    else match nearest? (60000000 / tempo) with
      | none => .error .tempoTooLow
      | some q => .ok (q.num.tdiv q.den)

/-- A score ready to be written: the length of a beat in microseconds, the force of every note, and
the events in the order of time. -/
structure Melody where
  beatLength : Int
  velocity : Int
  events : List Event
  deriving DecidableEq, Repr

/-- The tempo is judged before the symbols. -/
def Melody.ofSymbols (tempo : Extended) (velocity : Int) (symbols : List Symbol) :
    Except Fault Melody :=
  match Midi.beatLength tempo with
  | .error f => .error f
  | .ok length =>
    if symbols.any (·.sound == .other) then .error .unknownSymbol
    else .ok ⟨length, velocity, (Event.ofSymbols 0 symbols).mergeSort Event.notAfter⟩

end Tablature.Midi
