import Tablature.Text.Blank

/-!
Numerals in any script. A decimal digit has a value from zero to nine; a digit-like character (a
superscript, a circled digit) looks like one and has no place in a numeral. `isDigits` admits both,
`decimal?` reads the first kind alone, so a text can be made of digits and still be no numeral.
Numerals are bounded: one of more digits than `digitLimit` is neither read nor written. -/
namespace Tablature.Text

/-- The code points of the zeros; each is followed by the digits one to nine of its script. -/
def zeros : List Nat :=
  [0x30, 0x660, 0x6F0, 0x7C0, 0x966, 0x9E6, 0xA66, 0xAE6, 0xB66, 0xBE6, 0xC66, 0xCE6, 0xD66,
    0xDE6, 0xE50, 0xED0,
   0xF20, 0x1040, 0x1090, 0x17E0, 0x1810, 0x1946, 0x19D0, 0x1A80, 0x1A90, 0x1B50, 0x1BB0, 0x1C40,
   0x1C50, 0xA620, 0xA8D0, 0xA900, 0xA9D0, 0xA9F0, 0xAA50, 0xABF0, 0xFF10, 0x104A0, 0x10D30,
   0x11066, 0x110F0, 0x11136, 0x111D0, 0x112F0, 0x11450, 0x114D0, 0x11650, 0x116C0, 0x11730,
   0x118E0, 0x11950, 0x11C50, 0x11D50, 0x11DA0, 0x16A60, 0x16AC0, 0x16B50, 0x1D7CE, 0x1D7D8,
   0x1D7E2, 0x1D7EC, 0x1D7F6, 0x1E140, 0x1E2F0, 0x1E950, 0x1FBF0]

def digitLikeRanges : List (Nat × Nat) :=
  [(0xB2, 0xB3), (0xB9, 0xB9), (0x1369, 0x1371), (0x19DA, 0x19DA), (0x2070, 0x2070),
    (0x2074, 0x2079),
   (0x2080, 0x2089), (0x2460, 0x2468), (0x2474, 0x247C), (0x2488, 0x2490), (0x24EA, 0x24EA),
   (0x24F5, 0x24FD), (0x24FF, 0x24FF), (0x2776, 0x277E), (0x2780, 0x2788), (0x278A, 0x2792),
   (0x10A40, 0x10A43), (0x10E60, 0x10E68), (0x11052, 0x1105A), (0x1F100, 0x1F10A)]

def digit? (c : Char) : Option Nat :=
  (zeros.find? fun z => decide (z ≤ c.toNat) && decide (c.toNat < z + 10)).map (c.toNat - ·)

theorem digit?_lt {c : Char} {n : Nat} (h : digit? c = some n) : n < 10 := by
  obtain ⟨z, hz, rfl⟩ := Option.map_eq_some_iff.1 h
  have := List.find?_some hz
  simp only [Bool.and_eq_true, decide_eq_true_eq] at this
  omega

def isDigitLike (c : Char) : Bool := within digitLikeRanges c

/-- At least one character, and none but decimal digits and digit-like ones. -/
def isDigits (s : List Char) : Bool :=
  !s.isEmpty && s.all fun c => (digit? c).isSome || isDigitLike c

/-- The most digits of a numeral; zeros in front count. -/
def digitLimit : Nat := 4300

/-- The number written by decimal digits, most significant first; nothing if another character
occurs or the digits are too many. -/
def decimal? (s : List Char) : Option Nat :=
  if s.isEmpty || decide (digitLimit < s.length) then none
  else s.foldlM (fun n c => (digit? c).map (10 * n + ·)) 0

def numeral? (n : Int) : Option String :=
  let digits := toString n.natAbs
  if digits.length ≤ digitLimit then some (if n < 0 then "-" ++ digits else digits) else none

/-- Digits may be parted by single low lines, which stand between two digits. -/
def joinGroups : List Char → Option (List Char)
  | [] => none
  | '_' :: _ => none
  | [c] => some [c]
  | c :: '_' :: rest => (joinGroups rest).map (c :: ·)
  | c :: rest => (joinGroups rest).map (c :: ·)

/-- Padding around a whole number: the blanks, less the four separators of the control range. -/
def isPadding (c : Char) : Bool := isBlank c && !within [(0x1C, 0x1F)] c

/-- A whole number as an option value: padding, a sign, then digits in groups. -/
def integer? (s : List Char) : Option Int :=
  let body := ((s.dropWhile isPadding).reverse.dropWhile isPadding).reverse
  match body with
  | '-' :: digits => ((joinGroups digits).bind decimal?).map fun n => -(n : Int)
  | '+' :: digits => ((joinGroups digits).bind decimal?).map fun n => (n : Int)
  | digits => ((joinGroups digits).bind decimal?).map fun n => (n : Int)

end Tablature.Text
