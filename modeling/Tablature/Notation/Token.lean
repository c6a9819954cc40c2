import Tablature.Text.Blank
import Tablature.Music.Pitch

/-!
Tokens of the melody notation. Each is one character of the text: a note letter, a digit, a rest
mark or one of six punctuation marks. A token remembers its place for error messages; two tokens are
alike if kind and text agree. -/
namespace Tablature.Notation
open Tablature.Text Tablature.Music

/-- A line and a column, counted from one; either may be unknown. -/
structure Place where
  line : Option Int := none
  column : Option Int := none
  deriving DecidableEq, Repr

namespace Place

def known (line column : Nat) : Place := ⟨some line, some column⟩

/-- Puts the place before a message if both parts of it are known. -/
def locate (p : Place) (message : String) : String :=
  match p.line, p.column with
  | some line, some column =>
    "line " ++ toString line ++ ", column " ++ toString column ++ ": " ++ message
  | _, _ => message

end Place

inductive Kind where
  | noteLetter
  | digit
  | chordOpen
  | chordClose
  | octaveUp
  | octaveDown
  | raiseMark
  | dot
  | restMark
  deriving DecidableEq, Repr

namespace Kind

def all : List Kind :=
  [noteLetter, digit, chordOpen, chordClose, octaveUp, octaveDown, raiseMark, dot, restMark]

theorem mem_all (k : Kind) : k ∈ all := by cases k <;> decide

def name : Kind → String
  | noteLetter => "NOTE_LETTER"
  | digit => "DURATION_DIGIT"
  | chordOpen => "PAREN_OPEN"
  | chordClose => "PAREN_CLOSE"
  | octaveUp => "OCTAVE_UP"
  | octaveDown => "OCTAVE_DOWN"
  | raiseMark => "OCTAVE_RAISE_MARK"
  | dot => "DOT"
  | restMark => "REST_MARK"

def ofName? (s : String) : Option Kind := all.find? fun k => k.name == s

def ofChar? : Char → Option Kind
  | '(' => some chordOpen
  | ')' => some chordClose
  | '>' => some octaveUp
  | '<' => some octaveDown
  | '\'' => some raiseMark
  | '.' => some dot
  | 'r' => some restMark
  | c =>
    if (step? c).isSome then some noteLetter
    else if c.isDigit then some digit
    else none

end Kind

structure Token where
  kind : Kind
  text : String
  place : Place := {}
  deriving DecidableEq, Repr

namespace Token

def display (t : Token) : String := "<" ++ t.kind.name ++ " \"" ++ t.text ++ "\">"

/-- What a token is, its place left out. -/
def content (t : Token) : Kind × String := (t.kind, t.text)

def join (tokens : List Token) : String := String.intercalate " " (tokens.map Token.text)

end Token
end Tablature.Notation
