import Tablature.Proofs.PageCount

/-!
The pages of a sheet have room for all its measures. The quotient of measures and measures of a page
is rounded before it is rounded up, and a quotient of numbers up to 2^53 is never rounded down to or
below a whole number that it exceeds: it exceeds it by at least one part of its divisor, and
rounding moves it by less. A quotient of any numbers that is rounded to less than 2^52 loses less
than one, so that at most one page is missing. -/
namespace Tablature.Number

theorem two_mul_le_roundEven (num : Nat) {den : Nat} (h : 0 < den) :
    2 * num ≤ den * (2 * roundEven num den + 1) := by
  have hnum := Nat.div_add_mod num den
  have hmod := Nat.mod_lt num h
  have hle := le_roundEven num den
  by_cases hhalf : 2 * (num % den) ≤ den
  · have hmul : den * (num / den) ≤ den * roundEven num den := Nat.mul_le_mul_left den hle
    rw [Nat.mul_add, Nat.mul_left_comm]
    omega
  · have hup : roundEven num den = num / den + 1 := by
      rw [roundEven, if_neg (by omega), if_pos (by omega)]
    rw [hup, show 2 * (num / den + 1) + 1 = 2 * (num / den) + 3 by omega, Nat.mul_add,
      Nat.mul_left_comm]
    omega

/-- At least 53 digits are kept, unless there are fewer. -/
theorem lastPlace_eq_zero_or (num den : Nat) :
    lastPlace num den = 0 ∨ 2 ^ lastPlace num den * 2 ^ 52 ≤ num / den := by
  by_cases hlog : Nat.log2 (num / den) ≤ 52
  · exact Or.inl (by rw [lastPlace]; omega)
  · have hne : num / den ≠ 0 := by
      intro h
      rw [h] at hlog
      exact hlog (by decide)
    refine Or.inr ?_
    rw [← Nat.pow_add, lastPlace, show Nat.log2 (num / den) - 52 + 52 = Nat.log2 (num / den) by
      omega]
    exact Nat.log2_self_le hne

theorem lt_unitsPerOne : 2 ^ 53 < unitsPerOne := by
  have hle : 1 <<< 54 ≤ unitsPerOne := shiftLeft_le_shiftLeft 1 (by decide)
  exact Nat.lt_of_lt_of_le (by decide) hle

/-- The spacing of the binary64 numbers around a quotient is at most two parts of its divisor; it is
two parts only if the number divided is the greatest one. -/
theorem spacing_le {num den : Nat} (hnum : num ≤ 2 ^ 53) (hden : den ≤ 2 ^ 53) (hpos : 0 < den) :
    den * 2 ^ lastPlace (num * unitsPerOne) den < 2 * unitsPerOne ∨
      den * 2 ^ lastPlace (num * unitsPerOne) den = 2 * unitsPerOne ∧ num = 2 ^ 53 := by
  have hunits := lt_unitsPerOne
  rcases lastPlace_eq_zero_or (num * unitsPerOne) den with hzero | hkept
  · left
    rw [hzero]
    omega
  · have hmul := (Nat.le_div_iff_mul_le hpos).mp hkept
    generalize 2 ^ lastPlace (num * unitsPerOne) den = spacing at hmul ⊢
    generalize unitsPerOne = units at *
    have hle : num * units ≤ 2 ^ 53 * units := Nat.mul_le_mul_right units hnum
    have hcomm : spacing * 2 ^ 52 * den = den * spacing * 2 ^ 52 := by ring
    rw [hcomm] at hmul
    by_cases hlt : den * spacing < 2 * units
    · exact Or.inl hlt
    · refine Or.inr ⟨by omega, ?_⟩
      have hge : 2 ^ 53 * units ≤ num * units := by omega
      exact Nat.le_antisymm hnum (Nat.le_of_mul_le_mul_right hge (by omega))

theorem lt_keepDigits {num den m : Nat} (hnum : num ≤ 2 ^ 53) (hden : den ≤ 2 ^ 53) (hpos : 0 < den)
    (h : m * den < num) : m * unitsPerOne < keepDigits (num * unitsPerOne) den := by
  have hspacing := spacing_le hnum hden hpos
  have hunits := unitsPerOne_pos
  rw [keepDigits, Nat.shiftLeft_eq, Nat.shiftLeft_eq]
  have hs : 0 < den * 2 ^ lastPlace (num * unitsPerOne) den := Nat.mul_pos hpos (Nat.two_pow_pos _)
  generalize 2 ^ lastPlace (num * unitsPerOne) den = spacing at hspacing hs ⊢
  generalize unitsPerOne = units at hspacing hunits ⊢
  rcases hspacing with hlt | ⟨heq, rfl⟩
  · -- The rounded quotient is off by less than one part of the divisor.
    have hround := two_mul_le_roundEven (num * units) hs
    by_contra hle
    have hbelow : den * (roundEven (num * units) (den * spacing) * spacing) ≤ den * (m * units) :=
      Nat.mul_le_mul_left den (Nat.not_lt.mp hle)
    have hparts : (m * den + 1) * units ≤ num * units := Nat.mul_le_mul_right units h
    nlinarith
  · have hexact : 2 ^ 53 * units = 2 ^ 52 * (den * spacing) := by
      rw [heq]
      ring
    rw [hexact, roundEven_mul _ hs]
    have hmul : den * (m * units) < den * (2 ^ 52 * spacing) := calc
      den * (m * units) = m * den * units := by ring
      _ < 2 ^ 53 * units := Nat.mul_lt_mul_of_pos_right h hunits
      _ = den * (2 ^ 52 * spacing) := by rw [hexact]; ring
    exact Nat.lt_of_mul_lt_mul_left hmul

theorem eq_keepDigits {num den units : Nat} (h : nearestUnits? num den = some units) :
    units = keepDigits (num * unitsPerOne) den := by
  rw [nearestUnits?] at h
  split at h
  · exact (Option.some.inj h).symm
  · cases h

theorem exists_nearestUnits? {q r : ℚ} (h : nearest? q = some r) :
    ∃ units, nearestUnits? q.num.natAbs q.den = some units ∧
      r = mkRat (q.num.sign * units) unitsPerOne := by
  cases hu : nearestUnits? q.num.natAbs q.den with
  | none => simp [nearest?, hu] at h
  | some units => exact ⟨units, rfl, by simpa [nearest?, hu] using h.symm⟩

theorem lt_of_nearest? {q r : ℚ} {m : Nat} (hnum : q.num ≤ 2 ^ 53) (hden : q.den ≤ 2 ^ 53)
    (h : nearest? q = some r) (hm : (m : ℚ) < q) : (m : ℚ) < r := by
  have hdpos : (0 : ℚ) < q.den := by exact_mod_cast q.den_pos
  have hupos : (0 : ℚ) < unitsPerOne := by exact_mod_cast unitsPerOne_pos
  have hq : (m : ℚ) * q.den < q.num := by
    rw [← Rat.num_div_den q, lt_div_iff₀ hdpos] at hm
    exact hm
  have hz : (m : ℤ) * q.den < q.num := by exact_mod_cast hq
  have hnum₀ : 0 < q.num := lt_of_le_of_lt (by positivity) hz
  obtain ⟨n, hn⟩ := Int.eq_ofNat_of_zero_le hnum₀.le
  rw [hn] at hnum hz
  have hkeep : m * unitsPerOne < keepDigits (n * unitsPerOne) q.den :=
    lt_keepDigits (by exact_mod_cast hnum) hden q.den_pos (by exact_mod_cast hz)
  obtain ⟨units, hunits, rfl⟩ := exists_nearestUnits? h
  rw [hn, Int.natAbs_natCast] at hunits
  rw [Int.sign_eq_one_of_pos hnum₀, one_mul, Rat.mkRat_eq_div, lt_div_iff₀ hupos,
    eq_keepDigits hunits]
  exact_mod_cast hkeep

theorem two_mul_le_keepDigits (num : Nat) {den : Nat} (h : 0 < den) :
    2 * num ≤ den * (2 * keepDigits num den + 2 ^ lastPlace num den) := by
  have hround := two_mul_le_roundEven num (Nat.mul_pos h (Nat.two_pow_pos (lastPlace num den)))
  rw [keepDigits, Nat.shiftLeft_eq, Nat.shiftLeft_eq]
  generalize 2 ^ lastPlace num den = spacing at hround ⊢
  calc
    2 * num ≤ den * spacing * (2 * roundEven num (den * spacing) + 1) := hround
    _ = den * (2 * (roundEven num (den * spacing) * spacing) + spacing) := by ring

theorem le_of_keepDigits_le {num den m : Nat} (hpos : 0 < den) (hm : m < 2 ^ 52)
    (h : keepDigits (num * unitsPerOne) den ≤ m * unitsPerOne) : num ≤ den * (m + 1) := by
  have hround := two_mul_le_keepDigits (num * unitsPerOne) hpos
  have hplace := lastPlace_eq_zero_or (num * unitsPerOne) den
  have hunits := unitsPerOne_pos
  rw [Nat.le_div_iff_mul_le hpos] at hplace
  generalize lastPlace (num * unitsPerOne) den = place at hround hplace
  generalize unitsPerOne = units at *
  have hkept : den * keepDigits (num * units) den ≤ den * (m * units) := Nat.mul_le_mul_left den h
  generalize keepDigits (num * units) den = kept at *
  by_contra hlt
  have hmore : (den * (m + 1) + 1) * units ≤ num * units :=
    Nat.mul_le_mul_right units (Nat.not_le.mp hlt)
  rcases hplace with rfl | hplace
  · nlinarith
  · -- The spacing is at most one part in 2^52 of the quotient.
    generalize 2 ^ place = spacing at hround hplace
    have hlarge : m * (den * units) ≤ 2 ^ 52 * (den * units) := Nat.mul_le_mul_right _ hm.le
    have hspacing : 2 ^ 52 * (den * spacing) ≤ num * units := by linarith
    have hsum : 2 * (num * units) ≤ 2 * (m * (den * units)) + den * spacing := by linarith
    have hquot : m * (den * units) + den * units < num * units := by linarith
    omega

theorem nearest?_nonneg {q r : ℚ} (h₀ : 0 ≤ q) (h : nearest? q = some r) : 0 ≤ r := by
  obtain ⟨units, -, rfl⟩ := exists_nearestUnits? h
  have hsign : 0 ≤ q.num.sign := Int.sign_nonneg_iff.mpr (Rat.num_nonneg.mpr h₀)
  rw [Rat.mkRat_eq_div]
  exact div_nonneg (by exact_mod_cast mul_nonneg hsign (Int.natCast_nonneg units))
    (Nat.cast_nonneg _)

/-- A number that is rounded to at most a whole number below 2^52 exceeds it by at most one. -/
theorem le_of_nearest? {q r : ℚ} {m : Nat} (h₀ : 0 ≤ q) (hm : m < 2 ^ 52) (h : nearest? q = some r)
    (hr : r ≤ m) :
    q ≤ m + 1 := by
  rcases h₀.eq_or_lt with rfl | hq
  · positivity
  · have hunits : (0 : ℚ) < unitsPerOne := by exact_mod_cast unitsPerOne_pos
    obtain ⟨n, hn⟩ := Int.eq_ofNat_of_zero_le (Rat.num_nonneg.mpr h₀)
    obtain ⟨units, hu, rfl⟩ := exists_nearestUnits? h
    rw [hn, Int.natAbs_natCast] at hu
    rw [Int.sign_eq_one_of_pos (Rat.num_pos.mpr hq), one_mul, Rat.mkRat_eq_div, div_le_iff₀ hunits,
      eq_keepDigits hu] at hr
    have hle : n ≤ q.den * (m + 1) := le_of_keepDigits_le q.den_pos hm (by exact_mod_cast hr)
    rw [← Rat.num_div_den q, div_le_iff₀ (by exact_mod_cast q.den_pos), hn, mul_comm]
    exact_mod_cast hle

end Tablature.Number

namespace Tablature.Engraving.Sheet
open Tablature.Number

theorem total_le_pages {sheet : Sheet} {pages : Int} (h : sheet.pageCount? = some pages)
    (h₀ : 0 ≤ sheet.total) (htotal : sheet.total ≤ 2 ^ 53)
    (hpage : sheet.format.measuresPerPage ≤ 2 ^ 53) :
    sheet.total ≤ sheet.format.measuresPerPage * pages := by
  have hd := sheet.format.measures_pos
  have hd' : (0 : ℚ) < sheet.format.measuresPerPage := by exact_mod_cast hd
  have hdz : (sheet.format.measuresPerPage : ℤ) ≠ 0 := by exact_mod_cast hd.ne'
  rcases h₀.eq_or_lt with h₀ | h₀
  · rw [pageCount?, ← h₀, Rat.zero_mkRat, nearest?_zero] at h
    obtain rfl := Option.some.inj h
    exact h₀.symm.le
  · obtain ⟨r, hr, rfl⟩ := Option.map_eq_some_iff.mp h
    have hnum : (mkRat sheet.total sheet.format.measuresPerPage).num ≤ 2 ^ 53 :=
      (Int.le_of_dvd h₀ (Rat.num_dvd sheet.total hdz)).trans htotal
    have hden : (mkRat sheet.total sheet.format.measuresPerPage).den ≤ 2 ^ 53 :=
      (Nat.le_of_dvd hd (Int.natCast_dvd_natCast.mp (Rat.den_dvd _ _))).trans hpage
    have hq := Rat.mkRat_eq_div sheet.total sheet.format.measuresPerPage
    have hbelow : ∀ m : ℕ, (m : ℤ) * sheet.format.measuresPerPage < sheet.total → (m : ℚ) < r := by
      intro m hm
      refine lt_of_nearest? hnum hden hr ?_
      rw [hq, lt_div_iff₀ hd']
      exact_mod_cast hm
    have hpos : 0 < r.ceil := by
      have hr₀ := hbelow 0 (by simpa using h₀)
      have hle := @Rat.le_ceil r
      exact_mod_cast hr₀.trans_le hle
    obtain ⟨m, hm⟩ := Int.eq_ofNat_of_zero_le hpos.le
    by_contra hlt
    have hmr := hbelow m (by rw [← hm, mul_comm]; exact Int.not_le.mp hlt)
    have hle := @Rat.le_ceil r
    rw [hm] at hle
    exact absurd hle (not_le.mpr (by exact_mod_cast hmr))

section Any
variable {sheet : Sheet} {pages : Int} (h : sheet.pageCount? = some pages) (h₀ : 0 ≤ sheet.total)
include h h₀

theorem pages_nonneg : 0 ≤ pages := by
  obtain ⟨r, hr, rfl⟩ := Option.map_eq_some_iff.mp h
  have hle := (nearest?_nonneg (Rat.mkRat_nonneg h₀ _) hr).trans Rat.le_ceil
  exact_mod_cast hle

/-- The measures fill at most one page more than the canvas has, whatever their number. -/
theorem total_le_pages_succ (hpages : pages < 2 ^ 52) :
    sheet.total ≤ sheet.format.measuresPerPage * (pages + 1) := by
  have hd : (0 : ℚ) < sheet.format.measuresPerPage := by exact_mod_cast sheet.format.measures_pos
  obtain ⟨m, rfl⟩ := Int.eq_ofNat_of_zero_le (pages_nonneg h h₀)
  obtain ⟨r, hr, hm⟩ := Option.map_eq_some_iff.mp h
  have hceil : r ≤ m := by
    have hle := @Rat.le_ceil r
    rw [hm] at hle
    exact_mod_cast hle
  have hle := le_of_nearest? (Rat.mkRat_nonneg h₀ _) (by exact_mod_cast hpages) hr hceil
  rw [Rat.mkRat_eq_div, div_le_iff₀ hd, mul_comm] at hle
  exact_mod_cast hle

end Any

end Tablature.Engraving.Sheet
