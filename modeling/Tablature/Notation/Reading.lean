import Tablature.Notation.Token

/-!
Scanning. A cursor walks over a text one character at a time. Blanks and comments, which run from a
number sign to the end of the line, yield nothing; any other character yields one reading, a token
or an error that names the character, and the walk goes on behind it. -/
namespace Tablature.Notation
open Tablature.Text

/-- A character that no token begins with. -/
structure ScanError where
  char : Char
  place : Place
  deriving DecidableEq, Repr

namespace ScanError

def cause (e : ScanError) : String := "Unexpected character '" ++ String.singleton e.char ++ "'."

def message (e : ScanError) : String := e.place.locate e.cause

end ScanError

abbrev Reading := Except ScanError Token

/-- What one character yields at its place. -/
def reading (c : Char) (place : Place) : Reading :=
  match Kind.ofChar? c with
  | some kind => .ok ⟨kind, String.singleton c, place⟩
  | none => .error ⟨c, place⟩

/-- The place of the character read last, column zero at the start of a line, and the text ahead. -/
structure Cursor where
  line : Nat := 1
  column : Nat := 0
  ahead : List Char
  deriving DecidableEq, Repr

namespace Cursor

def ofText (text : String) : Cursor := { ahead := text.toList }

def advance (inComment : Bool) (line column : Nat) : List Char → Option (Char × Cursor)
  | [] => none
  | c :: rest =>
    if c = '\n' then advance false (line + 1) 0 rest
    else if inComment then advance true line (column + 1) rest
    else if isBlank c then advance false line (column + 1) rest
    else if c = '#' then advance true line (column + 1) rest
    else some (c, ⟨line, column + 1, rest⟩)

def next? (cursor : Cursor) : Option (Reading × Cursor) :=
  (advance false cursor.line cursor.column cursor.ahead).map fun found =>
    (reading found.1 (.known found.2.line found.2.column), found.2)

def scan (inComment : Bool) (line column : Nat) : List Char → List Reading
  | [] => []
  | c :: rest =>
    if c = '\n' then scan false (line + 1) 0 rest
    else if inComment then scan true line (column + 1) rest
    else if isBlank c then scan false line (column + 1) rest
    else if c = '#' then scan true line (column + 1) rest
    else reading c (.known line (column + 1)) :: scan false line (column + 1) rest

def readings (cursor : Cursor) : List Reading := scan false cursor.line cursor.column cursor.ahead

theorem scan_eq (inComment : Bool) (line column : Nat) (s : List Char) :
    scan inComment line column s = match advance inComment line column s with
      | none => []
      | some (c, cursor) => reading c (.known cursor.line cursor.column) :: cursor.readings := by
  fun_induction advance inComment line column s <;> simp_all [scan, readings]

theorem readings_eq (cursor : Cursor) :
    cursor.readings = match cursor.next? with
      | none => []
      | some (r, rest) => r :: rest.readings := by
  rw [readings, scan_eq, next?]
  cases advance false cursor.line cursor.column cursor.ahead <;> rfl

/-- The answers of so many calls for the next reading, nothing once the text is used up. -/
def calls : Nat → Cursor → List (Option Reading)
  | 0, _ => []
  | n + 1, cursor => match cursor.next? with
    | none => none :: calls n cursor
    | some (r, rest) => some r :: calls n rest

end Cursor

/-- The readings of a whole text. -/
def readings (text : String) : List Reading := (Cursor.ofText text).readings

/-- The tokens in front of the first refused character, with that character's error if there is
one. -/
def untilError : List Reading → List Token × Option ScanError
  | [] => ([], none)
  | .ok t :: rest => let (found, error) := untilError rest; (t :: found, error)
  | .error e :: _ => ([], some e)

def tokens (text : String) : Except ScanError (List Token) :=
  match untilError (readings text) with
  | (found, none) => .ok found
  | (_, some e) => .error e

/-- Writing the tokens out and scanning them again gives like tokens. -/
def survivesJoin (found : List Token) : Bool :=
  match tokens (Token.join found) with
  | .ok again => decide (again.map Token.content = found.map Token.content)
  | .error _ => false

end Tablature.Notation
