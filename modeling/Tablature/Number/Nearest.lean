/-!
Rounding. `roundEven` takes a quotient to the nearest whole number and a half to the even neighbour.
The finite binary64 numbers are whole multiples of the least positive one, 2^-1074; counted in that
unit, the multiples next to a number are a power of two apart that keeps 53 binary digits of it.
`nearest?` rounds an exact number to the nearest binary64 one and answers nothing beyond the
largest. -/
namespace Tablature.Number

/-- The whole number nearest to `num / den`, a half going to the even one. -/
def roundEven (num den : Nat) : Nat :=
  if 2 * (num % den) < den then num / den
  else if den < 2 * (num % den) then num / den + 1
  else num / den + num / den % 2

theorem roundEven_one (n : Nat) : roundEven n 1 = n := by
  simp [roundEven, Nat.mod_one]

theorem roundEven_mul (n : Nat) {den : Nat} (h : 0 < den) : roundEven (n * den) den = n := by
  simp [roundEven, h]

theorem roundEven_le (num den : Nat) : roundEven num den ≤ num / den + 1 := by
  unfold roundEven
  split
  · omega
  · split <;> omega

theorem le_roundEven (num den : Nat) : num / den ≤ roundEven num den := by
  unfold roundEven
  split
  · omega
  · split <;> omega

/-- How many places the last kept binary digit of `num / den` lies above the unit. -/
def lastPlace (num den : Nat) : Nat := Nat.log2 (num / den) - 52

/-- The multiple of the spacing around `num / den` that is nearest to it. -/
def keepDigits (num den : Nat) : Nat :=
  roundEven num (den <<< lastPlace num den) <<< lastPlace num den

def unitsPerOne : Nat := 1 <<< 1074

def unitLimit : Nat := unitsPerOne <<< 1024

/-- The units of the binary64 number nearest to `num / den`; nothing if it would pass the
largest. -/
def nearestUnits? (num den : Nat) : Option Nat :=
  let units := keepDigits (num * unitsPerOne) den
  if units < unitLimit then some units else none

def nearest? (q : Rat) : Option Rat :=
  (nearestUnits? q.num.natAbs q.den).map fun units => mkRat (q.num.sign * units) unitsPerOne

theorem nearest?_zero : nearest? 0 = some 0 := by decide +kernel

end Tablature.Number
