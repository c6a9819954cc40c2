import Mathlib.Algebra.Order.Field.Power
import Mathlib.Algebra.Order.Group.Unbundled.Abs
import Mathlib.Tactic.Linarith
import Tablature.Proofs.Atomicity

/-!
What the text of a number says. A number is written as the multiple of one hundredth that is nearest
to its binary64 number, the even one of two (`value?_of_text`); numbers of binary64 are their own,
and whole numbers are written as they are. Rounding in this way keeps the order of numbers, so the
texts of coordinates stand in the order of the coordinates (`printed_in_order`). -/
namespace Tablature.Number
open Tablature.Text

/-- A whole number nearest to another number, and the even one if there are two. -/
structure NearestEven (x : ℚ) (n : ℤ) : Prop where
  near : |n - x| ≤ 1 / 2
  even : |n - x| = 1 / 2 → n % 2 = 0

namespace NearestEven
variable {x y : ℚ} {m n : ℤ}

theorem intCast (n : ℤ) : NearestEven n n := ⟨by norm_num, by norm_num⟩

theorem neg (h : NearestEven x n) : NearestEven (-x) (-n) := by
  have habs : |((-n : ℤ) : ℚ) - -x| = |n - x| := by
    rw [Int.cast_neg, ← abs_neg]
    congr 1
    ring
  refine ⟨habs ▸ h.near, fun htie => ?_⟩
  have := h.even (habs ▸ htie)
  omega

/-- Two numbers that are taken to different whole numbers lie on different sides of a middle, or
both on it; and a middle is taken to one number only. -/
theorem mono (hx : NearestEven x m) (hy : NearestEven y n) (h : x ≤ y) : m ≤ n := by
  by_contra hlt
  have hstep : (n : ℚ) + 1 ≤ m := by exact_mod_cast Int.not_le.mp hlt
  obtain ⟨hm, -⟩ := abs_le.mp hx.near
  obtain ⟨-, hm'⟩ := abs_le.mp hx.near
  obtain ⟨hn, -⟩ := abs_le.mp hy.near
  have hmiddle : x = m - 1 / 2 ∧ y = n + 1 / 2 ∧ (m : ℚ) = n + 1 := by
    refine ⟨?_, ?_, ?_⟩ <;> linarith
  obtain ⟨rfl, rfl, hnext⟩ := hmiddle
  have hm₂ : m % 2 = 0 := hx.even (by norm_num)
  have hn₂ : n % 2 = 0 := hy.even (by norm_num)
  have hnext : m = n + 1 := by exact_mod_cast hnext
  omega

theorem lt_or_eq (h : NearestEven x n) (hne : m ≠ n) :
    |n - x| < |m - x| ∨ |n - x| = |m - x| ∧ n % 2 = 0 := by
  have hapart : (1 : ℚ) ≤ |(m : ℚ) - n| := by
    have hpos : 1 ≤ |m - n| := Int.one_le_abs (sub_ne_zero.mpr hne)
    exact_mod_cast hpos
  have htriangle := abs_sub_le (m : ℚ) x n
  rw [abs_sub_comm x n] at htriangle
  rcases lt_or_eq_of_le h.near with hlt | heq
  · left
    linarith
  · rcases (show |(n : ℚ) - x| ≤ |m - x| by linarith).lt_or_eq with hlt | htie
    · exact .inl hlt
    · exact .inr ⟨htie, h.even heq⟩

end NearestEven

theorem nearestEven_div {num den n : Nat} (h : 0 < den) (hlow : 2 * (n * den) ≤ 2 * num + den)
    (hhigh : 2 * num ≤ 2 * (n * den) + den)
    (heven : 2 * (n * den) = 2 * num + den ∨ 2 * num = 2 * (n * den) + den → n % 2 = 0) :
    NearestEven ((num : ℚ) / den) (n : ℕ) := by
  have hden : (0 : ℚ) < den := by exact_mod_cast h
  have hlow : 2 * ((n : ℚ) * den) ≤ 2 * num + den := by exact_mod_cast hlow
  have hhigh : 2 * (num : ℚ) ≤ 2 * (n * den) + den := by exact_mod_cast hhigh
  have hquot : (num : ℚ) / den * den = num := div_mul_cancel₀ _ hden.ne'
  generalize (num : ℚ) / den = x at hquot
  constructor
  · rw [abs_le, Int.cast_natCast]
    constructor <;> nlinarith
  · intro htie
    rw [Int.cast_natCast] at htie
    rcases eq_or_eq_neg_of_abs_eq htie with hup | hdown
    · have hx : x = n - 1 / 2 := by linarith
      have heq : 2 * ((n : ℚ) * den) = 2 * num + den := by
        rw [← hquot, hx]
        ring
      exact_mod_cast heven (.inl (by exact_mod_cast heq))
    · have hx : x = n + 1 / 2 := by linarith
      have heq : 2 * (num : ℚ) = 2 * (n * den) + den := by
        rw [← hquot, hx]
        ring
      exact_mod_cast heven (.inr (by exact_mod_cast heq))

theorem nearestEven_roundEven (num : Nat) {den : Nat} (h : 0 < den) :
    NearestEven ((num : ℚ) / den) (roundEven num den : ℕ) := by
  have hnum := Nat.div_add_mod' num den
  have hrest := Nat.mod_lt num h
  rw [roundEven]
  generalize num / den = q at *
  generalize num % den = r at *
  split
  · exact nearestEven_div h (by omega) (by omega) (by omega)
  · split
    · refine nearestEven_div h ?_ ?_ ?_ <;> rw [Nat.add_mul] <;> omega
    · rcases Nat.mod_two_eq_zero_or_one q with hq | hq <;> rw [hq] <;>
        refine nearestEven_div h ?_ ?_ ?_ <;> rw [Nat.add_mul] <;> omega

/-- The finite numbers of binary64: 53 binary digits, scaled from the least of them to the
largest. -/
def IsBinary64 (q : ℚ) : Prop := ∃ m e : ℤ, |m| < 2 ^ 53 ∧ -1074 ≤ e ∧ e ≤ 971 ∧ q = m * 2 ^ e

theorem mul_zpow_mul_pow (m : ℤ) {e : ℤ} {u : ℕ} (h : -u ≤ e) :
    (m : ℚ) * 2 ^ e * 2 ^ u = m * 2 ^ (e + u).toNat := by
  rw [mul_assoc, ← zpow_natCast (2 : ℚ) u, ← zpow_add₀ two_ne_zero, ← zpow_natCast,
    Int.toNat_of_nonneg (by omega)]

theorem IsBinary64.units {q : ℚ} (h : IsBinary64 q) :
    ∃ n k, n < 2 ^ 53 ∧ k ≤ 2045 ∧ q.num.natAbs * unitsPerOne = n * 2 ^ k * q.den := by
  obtain ⟨m, e, hm, hlow, hhigh, hq⟩ := h
  obtain ⟨u, hu⟩ : ∃ u, u = 1074 := ⟨_, rfl⟩
  have hunits : unitsPerOne = 2 ^ u := hu ▸ unitsPerOne_eq
  have hscaled : q * 2 ^ u = m * 2 ^ (e + u).toNat := by rw [hq, mul_zpow_mul_pow m (by omega)]
  have hden : (q.den : ℚ) ≠ 0 := by exact_mod_cast q.den_nz
  have hnum : q.num * 2 ^ u = m * 2 ^ (e + u).toNat * q.den := by
    rw [← Rat.num_div_den q, div_mul_eq_mul_div, div_eq_iff hden] at hscaled
    exact_mod_cast hscaled
  have hsize : m.natAbs < 2 ^ 53 := by
    rw [Int.abs_eq_natAbs] at hm
    exact_mod_cast hm
  refine ⟨m.natAbs, (e + u).toNat, hsize, by omega, ?_⟩
  simpa [Int.natAbs_mul, Int.natAbs_pow, hunits] using congrArg Int.natAbs hnum

theorem mkRat_units {q : ℚ} {units : Nat} (h : q.num.natAbs * unitsPerOne = units * q.den) :
    mkRat (q.num.sign * units) unitsPerOne = q := by
  have hsigned : q.num.sign * units * q.den = q.num * unitsPerOne := by
    have hcast : (q.num.natAbs : ℤ) * unitsPerOne = units * q.den := by exact_mod_cast h
    rw [mul_assoc, ← hcast, ← mul_assoc, Int.sign_mul_natAbs]
  calc
    mkRat (q.num.sign * units) unitsPerOne = mkRat q.num q.den :=
      (Rat.mkRat_eq_iff unitsPerOne_pos.ne' q.den_nz).mpr hsigned
    _ = q := q.mkRat_self

theorem nearest?_of_nearestUnits? {q : ℚ} {units : Nat}
    (h : nearestUnits? q.num.natAbs q.den = some units) :
    nearest? q = some (mkRat (q.num.sign * units) unitsPerOne) := by
  simp [nearest?, h]

theorem nearest?_of_isBinary64 {q : ℚ} (h : IsBinary64 q) : nearest? q = some q := by
  obtain ⟨n, k, hn, hk, hunits⟩ := h.units
  have hfinite : n * 2 ^ k < unitLimit := by
    obtain ⟨limit, hlimit, hle⟩ : ∃ limit, unitLimit = 2 ^ limit ∧ 53 + 2045 ≤ limit :=
      ⟨_, unitLimit_eq, by decide⟩
    calc
      n * 2 ^ k < 2 ^ 53 * 2 ^ k := Nat.mul_lt_mul_of_pos_right hn (Nat.two_pow_pos k)
      _ = 2 ^ (53 + k) := (Nat.pow_add ..).symm
      _ ≤ 2 ^ limit := Nat.pow_le_pow_right (by decide) (by omega)
      _ = unitLimit := hlimit.symm
  have hkept : nearestUnits? q.num.natAbs q.den = some (n * 2 ^ k) := by
    rw [nearestUnits?, hunits, keepDigits_mul_two_pow q.den_pos hn, if_pos hfinite]
  rw [nearest?_of_nearestUnits? hkept, mkRat_units hunits]

namespace Coordinate

theorem text_of_fraction {q : ℚ} {t : String} (hq : q.den ≠ 1) (h : text (.exact q) = .ok t) :
    ∃ (d : ℚ) (n : ℕ), nearest? q = some d ∧ NearestEven (100 * d) (if q.num < 0 then -n else n) ∧
      t = (if q.num < 0 then "-" else "") ++ hundredthsText n := by
  obtain ⟨units, hunits, htext⟩ := units_of_text hq h
  refine ⟨_, _, nearest?_of_nearestUnits? hunits, ?_, htext⟩
  have hround := nearestEven_roundEven (units * 100) unitsPerOne_pos
  have hsize : ((units * 100 : ℕ) : ℚ) / unitsPerOne = 100 * (units / unitsPerOne) := by
    rw [Nat.cast_mul, Nat.cast_ofNat]
    ring
  rw [hsize] at hround
  rw [Rat.mkRat_eq_div]
  by_cases hneg : q.num < 0
  · rw [if_pos hneg, Int.sign_eq_neg_one_of_neg hneg]
    have hmirror : 100 * (((-1 * (units : ℤ) : ℤ) : ℚ) / unitsPerOne) =
        -(100 * (units / unitsPerOne)) := by
      push_cast
      ring
    rw [hmirror]
    exact hround.neg
  · have hne : q.num ≠ 0 := fun hzero => hq (by rw [Rat.num_eq_zero.mp hzero]; rfl)
    rw [if_neg hneg, Int.sign_eq_one_of_pos (by omega), one_mul, Int.cast_natCast]
    exact hround

/-- The text of a number, read as a decimal. -/
def PrintsAs (q r : ℚ) : Prop := ∃ t, text (.exact q) = .ok t ∧ value? t.toList = some r

theorem value?_hundredths (z : ℤ) (n : ℕ) :
    value? ((if z < 0 then "-" else "") ++ hundredthsText n).toList =
      some (((if z < 0 then -n else n : ℤ) : ℚ) / 100) := by
  rw [value?_signed z (toList_hundredthsText n) (magnitude?_hundredthsText n)]
  split
  · rw [Int.cast_neg, Int.cast_natCast, neg_div]
  · rw [Int.cast_natCast]

theorem value?_of_text {q : ℚ} {t : String} (h : text (.exact q) = .ok t) :
    (q.den = 1 → value? t.toList = some q) ∧
      (q.den ≠ 1 → ∃ (d : ℚ) (n : ℤ), nearest? q = some d ∧ NearestEven (100 * d) n ∧
        value? t.toList = some ((n : ℚ) / 100)) := by
  refine ⟨fun hq => ?_, fun hq => ?_⟩
  · rw [text_of_whole hq h, value?_signed q.num (List.append_nil _).symm (magnitude?_toString _),
      signed_natAbs, Rat.coe_int_num_of_den_eq_one hq]
  · obtain ⟨d, n, hd, hn, rfl⟩ := text_of_fraction hq h
    exact ⟨d, _, hd, hn, value?_hundredths q.num n⟩

def WholeOrBinary64 (q : ℚ) : Prop := q.den = 1 ∨ IsBinary64 q

/-- The hundredths that a coordinate is printed as. -/
theorem hundredths_of_printsAs {q r : ℚ} (hq : WholeOrBinary64 q) (h : PrintsAs q r) :
    ∃ n : ℤ, NearestEven (100 * q) n ∧ r = n / 100 := by
  obtain ⟨t, htext, hvalue⟩ := h
  obtain ⟨hwhole, hfraction⟩ := value?_of_text htext
  by_cases hden : q.den = 1
  · have hr : r = q := Option.some.inj (hvalue.symm.trans (hwhole hden))
    have hnum : 100 * q = (100 * q.num : ℤ) := by
      rw [Int.cast_mul, Rat.coe_int_num_of_den_eq_one hden]
      norm_num
    refine ⟨100 * q.num, hnum ▸ NearestEven.intCast _, ?_⟩
    rw [hr, ← hnum]
    ring
  · obtain ⟨d, n, hd, hn, hvalue'⟩ := hfraction hden
    have hdq : q = d :=
      Option.some.inj ((nearest?_of_isBinary64 (hq.resolve_left hden)).symm.trans hd)
    exact ⟨n, hdq ▸ hn, Option.some.inj (hvalue.symm.trans hvalue')⟩

/-- A multiple of one hundredth that no other one is nearer than, with an even last digit if another
one is as near. -/
def NearestHundredth (q r : ℚ) : Prop :=
  ∃ n : ℤ, r = n / 100 ∧ ∀ m : ℤ, m ≠ n →
    |r - q| < |m / 100 - q| ∨ |r - q| = |m / 100 - q| ∧ n % 2 = 0

theorem abs_hundredth_sub (n : ℤ) (q : ℚ) : |n / 100 - q| = |n - 100 * q| / 100 := by
  rw [show (n : ℚ) / 100 - q = (n - 100 * q) / 100 by ring, abs_div,
    abs_of_pos (by norm_num : (0 : ℚ) < 100)]

theorem nearestHundredth_of_nearestEven {q : ℚ} {n : ℤ} (h : NearestEven (100 * q) n) :
    NearestHundredth q (n / 100) := by
  refine ⟨n, rfl, fun m hm => ?_⟩
  rw [abs_hundredth_sub, abs_hundredth_sub]
  rcases h.lt_or_eq hm with hlt | ⟨heq, heven⟩
  · exact .inl (by linarith)
  · exact .inr ⟨by rw [heq], heven⟩

/-- What a coordinate is printed as: off by at most half a hundredth, exact for whole numbers, and
always the nearest hundredth. -/
structure Faithful (q r : ℚ) : Prop where
  close : |r - q| ≤ 1 / 200
  whole : q.den = 1 → r = q
  nearest : NearestHundredth q r

theorem faithful_of_printsAs {q r : ℚ} (hq : WholeOrBinary64 q) (h : PrintsAs q r) :
    Faithful q r := by
  obtain ⟨n, hn, rfl⟩ := hundredths_of_printsAs hq h
  refine ⟨?_, fun hden => ?_, nearestHundredth_of_nearestEven hn⟩
  · have hnear := hn.near
    rw [abs_hundredth_sub]
    linarith
  · obtain ⟨t, htext, hvalue⟩ := h
    exact Option.some.inj (hvalue.symm.trans ((value?_of_text htext).1 hden))

theorem printsAs_mono {u v r r' : ℚ} (hu : WholeOrBinary64 u) (hv : WholeOrBinary64 v)
    (hr : PrintsAs u r)
    (hr' : PrintsAs v r') (h : u ≤ v) : r ≤ r' := by
  obtain ⟨m, hm, rfl⟩ := hundredths_of_printsAs hu hr
  obtain ⟨n, hn, rfl⟩ := hundredths_of_printsAs hv hr'
  have hle : (m : ℚ) ≤ n := by exact_mod_cast hm.mono hn (by linarith)
  linarith

theorem exists_printsAs_iff_writable (q : ℚ) : (∃ r, PrintsAs q r) ↔ Writable (.exact q) := by
  rw [← exists_text_iff_writable]
  constructor
  · rintro ⟨r, t, htext, -⟩
    exact ⟨t, htext⟩
  · rintro ⟨t, htext⟩
    obtain ⟨hwhole, hfraction⟩ := value?_of_text htext
    by_cases hden : q.den = 1
    · exact ⟨q, t, htext, hwhole hden⟩
    · obtain ⟨d, n, -, -, hvalue⟩ := hfraction hden
      exact ⟨_, t, htext, hvalue⟩

theorem abs_lt_of_isBinary64 {q : ℚ} (h : IsBinary64 q) : |q| < 10 ^ digitLimit := by
  obtain ⟨m, e, hm, -, hhigh, rfl⟩ := h
  obtain ⟨top, htop, hlimit⟩ : ∃ top : ℕ, e ≤ top ∧ 53 + top ≤ digitLimit := ⟨971, hhigh, by decide⟩
  generalize digitLimit = limit at hlimit
  have hm : |(m : ℚ)| < 2 ^ 53 := by exact_mod_cast hm
  have hpos : (0 : ℚ) < 2 ^ e := by positivity
  rw [abs_mul, abs_of_pos hpos]
  calc
    |(m : ℚ)| * 2 ^ e < 2 ^ 53 * 2 ^ e := by gcongr
    _ ≤ 2 ^ 53 * 2 ^ (top : ℤ) := by gcongr; norm_num
    _ = 2 ^ (53 + top) := by rw [zpow_natCast, pow_add]
    _ ≤ 2 ^ limit := by gcongr; norm_num
    _ ≤ 10 ^ limit := by gcongr; norm_num

theorem exists_printsAs_iff {q : ℚ} (hq : WholeOrBinary64 q) :
    (∃ r, PrintsAs q r) ↔ |q| < 10 ^ digitLimit := by
  rw [exists_printsAs_iff_writable]
  by_cases hden : q.den = 1
  · rw [Writable, if_pos hden]
    nth_rewrite 2 [← Rat.coe_int_num_of_den_eq_one hden]
    rw [← Int.cast_abs, Int.abs_eq_natAbs]
    norm_cast
  · have hbinary := hq.resolve_left hden
    refine iff_of_true ?_ (abs_lt_of_isBinary64 hbinary)
    rw [Writable, if_neg hden]
    by_contra hlarge
    have hnone := (nearestUnits?_eq_none_iff q.num.natAbs q.den_pos).mpr (not_lt.mp hlarge)
    have hself := nearest?_of_isBinary64 hbinary
    simp [nearest?, hnone] at hself

/-- Whole numbers and finite numbers of binary64 are printed, unless a whole number has more digits
than a numeral may have. What they are printed as stands in their order, off by at most half a
hundredth; it is exact for whole numbers and the nearest hundredth for any others, of two the even
one. -/
theorem printed_in_order {u v : ℚ} (hu : WholeOrBinary64 u) (hv : WholeOrBinary64 v) (h : u ≤ v) :
    ((∃ r, PrintsAs u r) ↔ |u| < 10 ^ digitLimit) ∧ ((∃ r, PrintsAs v r) ↔ |v| < 10 ^ digitLimit) ∧
      ∀ r r', PrintsAs u r → PrintsAs v r' → r ≤ r' ∧ Faithful u r ∧ Faithful v r' := by
  refine ⟨exists_printsAs_iff hu, exists_printsAs_iff hv, fun r r' hr hr' => ?_⟩
  exact ⟨printsAs_mono hu hv hr hr' h, faithful_of_printsAs hu hr, faithful_of_printsAs hv hr'⟩

/-- Two numbers half-way between hundredths, taken to the even ones. -/
theorem printed_of_eighths :
    WholeOrBinary64 (1 / 8) ∧ WholeOrBinary64 (3 / 8) ∧
      PrintsAs (1 / 8) (3 / 25) ∧ PrintsAs (3 / 8) (19 / 50) ∧
      Faithful (1 / 8) (3 / 25) ∧ Faithful (3 / 8) (19 / 50) := by
  have hu : WholeOrBinary64 (1 / 8) := .inr ⟨1, -3, by norm_num⟩
  have hv : WholeOrBinary64 (3 / 8) := .inr ⟨3, -3, by norm_num⟩
  have hr : PrintsAs (1 / 8) (3 / 25) := ⟨"0.12", by decide +kernel⟩
  have hr' : PrintsAs (3 / 8) (19 / 50) := ⟨"0.38", by decide +kernel⟩
  obtain ⟨-, -, hprinted⟩ := printed_in_order hu hv (by norm_num)
  exact ⟨hu, hv, hr, hr', (hprinted _ _ hr hr').2⟩

/-- The height of the canvas for one measure of `10 ^ 4300 - 1` beats has more digits than a numeral
may have. -/
theorem not_printed_of_tallCanvas :
    WholeOrBinary64 (15 * 10 ^ digitLimit + 85) ∧ ¬∃ r, PrintsAs (15 * 10 ^ digitLimit + 85) r := by
  have hwhole : (15 * 10 ^ digitLimit + 85 : ℚ) = (15 * 10 ^ digitLimit + 85 : ℕ) := by
    push_cast
    rfl
  rw [hwhole, exists_printsAs_iff_writable]
  refine ⟨.inl (Rat.den_natCast _), fun hwritable => ?_⟩
  rw [Writable, if_pos (Rat.den_natCast _), Rat.num_natCast, Int.natAbs_natCast] at hwritable
  omega

end Coordinate
end Tablature.Number
