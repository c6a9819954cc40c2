import Mathlib.Data.Rat.Lemmas
import Mathlib.Tactic.Linarith
import Mathlib.Tactic.Positivity
import Mathlib.Tactic.Ring
import Tablature.Engraving.Score

/-!
The canvas of a score can be opened: the quotient of measures and measures of a page stays far below
the largest binary64 number as long as at most 2^53 measures are counted. -/
namespace Tablature.Number

theorem two_pow_lastPlace_le (num den : Nat) : 2 ^ lastPlace num den ≤ num / den + 1 := by
  by_cases h : num / den = 0
  · simp [lastPlace, h]
  · calc
      2 ^ lastPlace num den ≤ 2 ^ Nat.log2 (num / den) :=
        Nat.pow_le_pow_right (by decide) (Nat.sub_le _ _)
      _ ≤ num / den := Nat.log2_self_le h
      _ ≤ num / den + 1 := Nat.le_succ _

theorem keepDigits_le (num den : Nat) : keepDigits num den ≤ 2 * (num / den) + 1 := by
  have hr := roundEven_le num (den <<< lastPlace num den)
  have hp := two_pow_lastPlace_le num den
  simp only [keepDigits, Nat.shiftLeft_eq] at hr ⊢
  calc
    roundEven num (den * 2 ^ lastPlace num den) * 2 ^ lastPlace num den
      ≤ (num / (den * 2 ^ lastPlace num den) + 1) * 2 ^ lastPlace num den :=
        Nat.mul_le_mul_right _ hr
    _ = num / den / 2 ^ lastPlace num den * 2 ^ lastPlace num den + 2 ^ lastPlace num den := by
      rw [Nat.add_mul, Nat.one_mul, Nat.div_div_eq_div_mul]
    _ ≤ num / den + (num / den + 1) := Nat.add_le_add (Nat.div_mul_le_self _ _) hp
    _ = 2 * (num / den) + 1 := by omega

theorem one_shiftLeft_pos (n : Nat) : 0 < 1 <<< n := by
  rw [Nat.shiftLeft_eq, Nat.one_mul]
  exact Nat.two_pow_pos n

theorem unitsPerOne_pos : 0 < unitsPerOne := one_shiftLeft_pos 1074

theorem shiftLeft_le_shiftLeft (u : Nat) {m n : Nat} (h : m ≤ n) : u <<< m ≤ u <<< n := by
  rw [Nat.shiftLeft_eq, Nat.shiftLeft_eq]
  exact Nat.mul_le_mul_left u (Nat.pow_le_pow_right (by decide) h)

theorem nearestUnits?_isSome {num den : Nat} (h : num ≤ 2 ^ 53 * den) :
    (nearestUnits? num den).isSome := by
  have hone := unitsPerOne_pos
  have hk := keepDigits_le (num * unitsPerOne) den
  have hq : num * unitsPerOne / den ≤ 2 ^ 53 * unitsPerOne := by
    apply Nat.div_le_of_le_mul
    calc
      num * unitsPerOne ≤ 2 ^ 53 * den * unitsPerOne := Nat.mul_le_mul_right _ h
      _ = den * (2 ^ 53 * unitsPerOne) := by rw [Nat.mul_assoc, Nat.mul_left_comm]
  have hlimit : unitsPerOne <<< 55 ≤ unitLimit := shiftLeft_le_shiftLeft unitsPerOne (by decide)
  have hlt : keepDigits (num * unitsPerOne) den < unitLimit := by
    generalize unitLimit = limit at *
    generalize unitsPerOne = units at *
    rw [Nat.shiftLeft_eq] at hlimit
    omega
  simp [nearestUnits?, hlt]

theorem nearest?_isSome {q : ℚ} (h₀ : 0 ≤ q) (h : q ≤ 2 ^ 53) : (nearest? q).isSome := by
  have hn : 0 ≤ q.num := Rat.num_nonneg.mpr h₀
  have hd : (0 : ℚ) < q.den := by exact_mod_cast q.den_pos
  have hq : (q.num : ℚ) ≤ 2 ^ 53 * q.den := by
    rw [← Rat.num_div_den q, div_le_iff₀ hd] at h
    exact h
  have hb : q.num.natAbs ≤ 2 ^ 53 * q.den := by
    have hz : q.num ≤ 2 ^ 53 * q.den := by exact_mod_cast hq
    omega
  obtain ⟨units, hu⟩ := Option.isSome_iff_exists.mp (nearestUnits?_isSome hb)
  simp [nearest?, hu]

end Tablature.Number

namespace Tablature.Engraving
open Tablature.Music Tablature.Number

/-- With at most 2^53 measures the number of pages is found, so that a drawing is made. -/
theorem engrave?_eq_some {f : PageFormat} {symbols : List Symbol}
    (h : f.measureCount symbols ≤ 2 ^ 53) :
    ∃ pages, engrave? f symbols = some ((Sheet.forSymbols f symbols).engrave pages symbols) := by
  have hk : (1 : ℚ) ≤ f.measuresPerPage := by exact_mod_cast f.measures_pos
  have hN : (f.measureCount symbols : ℚ) ≤ 2 ^ 53 := by exact_mod_cast h
  have hq : mkRat (Sheet.forSymbols f symbols).total f.measuresPerPage =
      (f.measureCount symbols : ℚ) / f.measuresPerPage := by
    rw [Rat.mkRat_eq_div]
    rfl
  have hs : (nearest? (mkRat (Sheet.forSymbols f symbols).total f.measuresPerPage)).isSome := by
    rw [hq]
    apply nearest?_isSome
    · positivity
    · rw [div_le_iff₀ (by linarith)]
      nlinarith
  obtain ⟨r, hr⟩ := Option.isSome_iff_exists.mp hs
  refine ⟨r.ceil, ?_⟩
  have hp : (Sheet.forSymbols f symbols).pageCount? = some r.ceil := by
    rw [Sheet.pageCount?]
    exact congrArg (Option.map Rat.ceil) hr
  rw [engrave?, hp]
  rfl

theorem engrave_of_engrave? {f : PageFormat} {symbols : List Symbol} {score : Score}
    (h : engrave? f symbols = some score) :
    ∃ pages, score = (Sheet.forSymbols f symbols).engrave pages symbols := by
  obtain ⟨pages, -, rfl⟩ := Option.map_eq_some_iff.mp h
  exact ⟨pages, rfl⟩

end Tablature.Engraving
