import Mathlib.Data.Rat.Floor
import Mathlib.Tactic.FieldSimp
import Mathlib.Tactic.Linarith
import Tablature.Proofs.Timeline

/-!
Exact beats. The beats of a symbol are a fraction; their sums decide by floor and remainder in which
measure a symbol stands and where. The lemmas say that counting in halves of a beat gives the same
measures and remainders. -/
namespace Tablature.Engraving
open Tablature.Music

/-- The eighth beats that some symbols take. -/
def totalBeats (symbols : List Symbol) : ℚ := (symbols.map Symbol.beats).sum

/-- The eighth beats before the symbol of a number. -/
def startBeat (symbols : List Symbol) (i : Nat) : ℚ := totalBeats (symbols.take i)

theorem beats_eq (s : Symbol) : s.beats = (s.halves : ℚ) / 2 := by
  change mkRat (s.halves : ℤ) 2 = _
  rw [Rat.mkRat_eq_div]
  norm_num

theorem totalBeats_eq (symbols : List Symbol) :
    totalBeats symbols = (totalHalves symbols : ℚ) / 2 := by
  induction symbols with
  | nil => simp [totalBeats]
  | cons s rest ih =>
    have hc : totalBeats (s :: rest) = s.beats + totalBeats rest := by simp [totalBeats]
    rw [hc, beats_eq, ih, totalHalves_cons]
    push_cast
    ring

theorem startBeat_eq (symbols : List Symbol) (i : Nat) :
    startBeat symbols i = (totalHalves (symbols.take i) : ℚ) / 2 :=
  totalBeats_eq _

theorem ceil_natCast_div (n : Nat) {d : Nat} (hd : 0 < d) :
    ⌈(n : ℚ) / d⌉ = ((n + (d - 1)) / d : Nat) := by
  have hq := Nat.div_add_mod (n + (d - 1)) d
  have hr := Nat.mod_lt (n + (d - 1)) hd
  have hd' : (0 : ℚ) < d := by exact_mod_cast hd
  generalize (n + (d - 1)) / d = q at *
  rw [Int.ceil_eq_iff, lt_div_iff₀ hd', div_le_iff₀ hd']
  have hlow : d * q < n + d := by omega
  have hup : n ≤ d * q := by omega
  have hlow : (d : ℚ) * q < n + d := by exact_mod_cast hlow
  have hup : (n : ℚ) ≤ d * q := by exact_mod_cast hup
  push_cast
  constructor <;> linarith

namespace PageFormat
variable (f : PageFormat)

theorem cast_measureHalves {R : Type} [Semiring R] :
    (f.measureHalves : R) = 2 * f.beatsPerMeasure := by
  simp [measureHalves]

theorem halves_div (n : Nat) :
    (n : ℚ) / 2 / f.beatsPerMeasure = (n : ℚ) / (f.measureHalves : ℕ) := by
  rw [div_div, cast_measureHalves]

theorem measureCount_eq_ceil (symbols : List Symbol) :
    (f.measureCount symbols : ℤ) = ⌈totalBeats symbols / f.beatsPerMeasure⌉ := by
  rw [totalBeats_eq, halves_div, ceil_natCast_div _ f.measureHalves_pos]
  rfl

/-- The measure of a time given in beats. -/
def measureOfBeat (beat : ℚ) : ℤ := ⌊beat / f.beatsPerMeasure⌋

def beatInMeasure (beat : ℚ) : ℚ := beat - f.beatsPerMeasure * f.measureOfBeat beat

theorem measureOfBeat_eq (t : Nat) : f.measureOfBeat ((t : ℚ) / 2) = f.measureOf t := by
  rw [measureOfBeat, halves_div, Rat.floor_natCast_div_natCast]
  rfl

theorem beatInMeasure_eq (t : Nat) : f.beatInMeasure ((t : ℚ) / 2) = (f.sinceBar t : ℚ) / 2 := by
  have ht : (f.measureHalves : ℚ) * f.measureOf t + f.sinceBar t = t := by
    exact_mod_cast f.measureOf_sinceBar t
  rw [beatInMeasure, measureOfBeat_eq]
  rw [cast_measureHalves] at ht
  push_cast
  linarith

end PageFormat

/-- A fraction in lowest terms, without a denominator if it is whole. -/
def fractionText (q : ℚ) : String :=
  if q.den = 1 then toString q.num else toString q.num ++ "/" ++ toString q.den

theorem beatsText_eq (n : Nat) : beatsText n = fractionText ((n : ℚ) / 2) := by
  by_cases h : n % 2 = 0
  · obtain ⟨m, rfl⟩ : ∃ m, n = 2 * m := ⟨n / 2, by omega⟩
    have hq : ((2 * m : Nat) : ℚ) / 2 = (m : ℚ) := by
      push_cast
      ring
    have hm : 2 * m / 2 = m := by omega
    rw [hq]
    simp only [beatsText, h, if_true, hm, fractionText, Rat.den_natCast, Rat.num_natCast]
    rfl
  · have hc : Nat.Coprime (n : ℤ).natAbs (2 : ℤ).natAbs := by
      have hr : n % 2 = 1 := by omega
      change Nat.gcd n 2 = 1
      rw [Nat.gcd_comm, Nat.gcd_rec, hr, Nat.gcd_one_left]
    have hn := Rat.num_div_eq_of_coprime (by decide) hc
    have hd := Rat.den_div_eq_of_coprime (by decide) hc
    simp only [Int.cast_natCast, Int.cast_ofNat] at hn hd
    have hden : ((n : ℚ) / 2).den = 2 := Int.ofNat_inj.mp hd
    have htwo : ¬(2 : Nat) = 1 := by decide
    simp only [beatsText, h, if_false, fractionText, hn, hden, htwo]
    rw [String.append_assoc]
    rfl

end Tablature.Engraving
