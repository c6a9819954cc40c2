import Tablature.Midi.Melody
import Tablature.Midi.Quantity

/-!
Standard MIDI files with three tracks: the first holds the tempo, the second nothing, the third the
melody. A track declares the number of its bytes, for which it has one word, and every event is led
by the ticks since the event before it. -/
namespace Tablature.Midi

/-- Format one, three tracks, 960 ticks to the quarter note. -/
def header : List UInt8 := [0x4D, 0x54, 0x68, 0x64, 0, 0, 0, 6, 0, 1, 0, 3, 0x03, 0xC0]

def trackMark : List UInt8 := [0x4D, 0x54, 0x72, 0x6B]

def trackEnd : List UInt8 := [0, 0xFF, 0x2F, 0]

def nameEvent : List UInt8 := [0, 0xFF, 0x03, 6, 0x4D, 0x65, 0x6C, 0x6F, 0x64, 0x79]

/-- The numbers that fit a word. -/
def wordLimit : Nat := 4294967296

def track? (events : List UInt8) : Option (List UInt8) :=
  if (events ++ trackEnd).length < wordLimit then
    some (trackMark ++ word (events ++ trackEnd).length ++ events ++ trackEnd)
  else none

def byte? (n : Int) : Option UInt8 := if 0 ≤ n ∧ n < 256 then some (byte n.toNat) else none

/-- The low three bytes of a beat's length, which has to fit four. -/
def tempoEvent? (beatLength : Int) : Option (List UInt8) :=
  if 0 ≤ beatLength ∧ beatLength < wordLimit then
    some ([0, 0xFF, 0x51, 3] ++ (word beatLength.toNat).drop 1) else none

def Event.bytes? (velocity : Int) (since : Nat) (e : Event) : Option (List UInt8) :=
  match byte? e.key, byte? velocity with
  | some key, some force =>
    some (quantity (e.tick - since) ++ [if e.sounding then 0x90 else 0x80, key, force])
  | _, _ => none

def eventBytes? (velocity : Int) : Nat → List Event → Option (List UInt8)
  | _, [] => some []
  | since, e :: rest => match e.bytes? velocity since, eventBytes? velocity e.tick rest with
    | some first, some others => some (first ++ others)
    | _, _ => none

def Melody.tracks? (m : Melody) : Option (List UInt8) :=
  match tempoEvent? m.beatLength, eventBytes? m.velocity 0 m.events with
  | some tempo, some notes => ([tempo, [], nameEvent ++ notes].mapM track?).map List.flatten
  | _, _ => none

def Melody.bytes (m : Melody) : Except Fault (List UInt8) :=
  match m.tracks? with
  | some tracks => .ok (header ++ tracks)
  | none => .error .byteRange

end Tablature.Midi
