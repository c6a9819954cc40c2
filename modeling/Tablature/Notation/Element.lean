import Tablature.Music.Symbol
import Tablature.Notation.Reading
import Tablature.Text.Numeral

/-!
Elements of the notation that span several tokens: a note letter with its raise mark, a chord up to
its closing mark, a length with its dot. Each takes what it needs off the front of the readings and
answers the rest. A refused character in the place of a raise mark or a dot is used up, and the
element under way is lost with it. -/
namespace Tablature.Notation
open Tablature.Text Tablature.Music

inductive Cause where
  | unknownNote (text : String)
  | unclosedChord
  | emptyChord
  | insideChord (text : String)
  | badLength (text : String)
  | lowestOctave (text : String)
  | misplaced (text : String)
  deriving DecidableEq, Repr

def Cause.message : Cause → String
  | .unknownNote text => "Note '" ++ text ++ "' doesn't exist."
  | .unclosedChord => "Chord opened but never closed."
  | .emptyChord => "Empty chord."
  | .insideChord text => "Unexpected '" ++ text ++ "' inside chord."
  | .badLength text => "Invalid note length " ++ text ++ "."
  | .lowestOctave text => "Unexpected '" ++ text ++ "'; can't downshift from octave 0."
  | .misplaced text => "Unexpected '" ++ text ++ "'."

inductive ReadError where
  | scan (error : ScanError)
  | refused (cause : Cause) (place : Place)
  /-- The text of a length is made of digits and is no numeral. -/
  | notNumeral (text : String)
  deriving DecidableEq, Repr

namespace ReadError

def message : ReadError → String
  | scan e => e.message
  | refused cause place => place.locate cause.message
  | notNumeral text => "Not a numeral: " ++ text

end ReadError

/-- Takes the next token if it is of the kind. -/
def takeKind (kind : Kind) : List Reading → Except ScanError Bool × List Reading
  | [] => (.ok false, [])
  | .error e :: rest => (.error e, rest)
  | .ok t :: rest => if t.kind = kind then (.ok true, rest) else (.ok false, .ok t :: rest)

theorem takeKind_length (kind : Kind) (feed : List Reading) :
    (takeKind kind feed).2.length ≤ feed.length := by
  unfold takeKind
  split
  · simp
  · simp
  · split <;> simp

/-- The pitch of a note letter with the raise mark that may follow it. -/
def readPitch (octave : Nat) (letter : Token) (feed : List Reading) :
    Except ReadError Pitch × List Reading :=
  match stepOf? letter.text with
  | none => (.error (.refused (.unknownNote letter.text) letter.place), feed)
  | some step => match takeKind .raiseMark feed with
    | (.error e, rest) => (.error (.scan e), rest)
    | (.ok raised, rest) =>
      (.ok ((step + octave * stepsPerOctave + if raised then stepsPerOctave else 0 : Nat) : Int),
        rest)

theorem readPitch_length (octave : Nat) (letter : Token) (feed : List Reading) :
    (readPitch octave letter feed).2.length ≤ feed.length := by
  have h := takeKind_length .raiseMark feed
  unfold readPitch
  split
  · simp
  · split <;> simp_all

/-- The pitches up to the closing mark, behind those found already. -/
def readChord (octave : Nat) (opening : Token) (found : List Pitch) (feed : List Reading) :
    Except ReadError (List Pitch) × List Reading :=
  match feed with
  | [] => (.error (.refused .unclosedChord opening.place), [])
  | .error e :: rest => (.error (.scan e), rest)
  | .ok t :: rest =>
    if t.kind = .chordClose then
      if found.isEmpty then (.error (.refused .emptyChord opening.place), rest)
        else (.ok found, rest)
    else if t.kind = .noteLetter then
      match _h : readPitch octave t rest with
      | (.error e, rest') => (.error e, rest')
      | (.ok pitch, rest') => readChord octave opening (found ++ [pitch]) rest'
    else (.error (.refused (.insideChord t.text) t.place), rest)
  termination_by feed.length
  decreasing_by
    have := readPitch_length octave t rest
    simp only [_h] at this
    simp only [List.length_cons]
    omega

theorem readChord_length (octave : Nat) (opening : Token) (found : List Pitch)
    (feed : List Reading) :
    (readChord octave opening found feed).2.length ≤ feed.length := by
  fun_induction readChord octave opening found feed with
  | case1 | case2 | case3 | case4 | case7 => simp
  | case5 found t rest _ _ e rest' h =>
    have hl := readPitch_length octave t rest
    rw [h] at hl
    exact Nat.le_succ_of_le hl
  | case6 found t rest _ _ pitch rest' h ih =>
    have hl := readPitch_length octave t rest
    rw [h] at hl
    exact Nat.le_succ_of_le (Nat.le_trans ih hl)

/-- The duration that a digit sets, with the dot that may follow it. -/
def readLength (digit : Token) (feed : List Reading) : Except ReadError Duration × List Reading :=
  if isDigits digit.text.toList then
    match decimal? digit.text.toList with
    | none => (.error (.notNumeral digit.text), feed)
    | some n => match Length.ofNat? n with
      | none => (.error (.refused (.badLength digit.text) digit.place), feed)
      | some length => match takeKind .dot feed with
        | (.error e, rest) => (.error (.scan e), rest)
        | (.ok dotted, rest) => (.ok ⟨length, dotted⟩, rest)
  else (.error (.refused (.badLength digit.text) digit.place), feed)

theorem readLength_length (digit : Token) (feed : List Reading) :
    (readLength digit feed).2.length ≤ feed.length := by
  have h := takeKind_length .dot feed
  unfold readLength
  split
  · split
    · simp
    · split
      · simp
      · split <;> simp_all
  · simp

end Tablature.Notation
