/-!
Numbers as bytes, the most significant part first. A word has four bytes. A quantity has as many
bytes as it needs, seven binary digits in each; all but the last byte have their high bit set. -/
namespace Tablature.Midi

def byte (n : Nat) : UInt8 := UInt8.ofNat n

def word (n : Nat) : List UInt8 :=
  [byte (n / 16777216 % 256), byte (n / 65536 % 256), byte (n / 256 % 256), byte (n % 256)]

theorem word_length (n : Nat) : (word n).length = 4 := rfl

/-- The bytes of a quantity in front of the last one. -/
def leadingBytes (n : Nat) : List UInt8 :=
  if n = 0 then [] else leadingBytes (n / 128) ++ [byte (128 + n % 128)]
  termination_by n
  decreasing_by omega

/-- A number of any size, seven binary digits to the byte. -/
def quantity (n : Nat) : List UInt8 := leadingBytes (n / 128) ++ [byte (n % 128)]

theorem quantity_small {n : Nat} (h : n < 128) : quantity n = [byte n] := by
  have : n / 128 = 0 := by omega
  rw [quantity, this, leadingBytes]
  simp [Nat.mod_eq_of_lt h]

end Tablature.Midi
