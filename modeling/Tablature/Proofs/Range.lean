import Tablature.Proofs.Decimals

/-!
Which coordinates have a text. A whole one has one below 10^4300. Any other is taken to binary64,
and rounding passes the largest finite number exactly from the middle between it and the next power
of two on, since a middle goes to the even neighbour (`nearestUnits?_eq_none_iff`). -/
namespace Tablature.Number
open Tablature.Text

theorem two_mul_le_roundEven_iff (num m : Nat) {den : Nat} (h : 0 < den) :
    2 * m ≤ roundEven num den ↔ 4 * m * den ≤ 2 * num + den := by
  have hnum : 2 * num + den = (2 * (num / den) + 1) * den + 2 * (num % den) := by
    have hdiv := Nat.div_add_mod' num den
    rw [Nat.add_mul, Nat.mul_assoc]
    omega
  have hmod := Nat.mod_lt num h
  rw [roundEven, hnum]
  generalize num / den = q
  generalize num % den = r at hmod
  split
  · constructor
    · intro hle
      have hmul : 4 * m * den ≤ (2 * q + 1) * den := Nat.mul_le_mul_right den (by omega)
      omega
    · intro hle
      have hlt : 4 * m * den < (2 * q + 2) * den := by
        rw [Nat.add_mul] at hle ⊢
        omega
      have := Nat.lt_of_mul_lt_mul_right hlt
      omega
  · split
    · constructor
      · intro hle
        have hmul : 4 * m * den ≤ (2 * q + 2) * den := Nat.mul_le_mul_right den (by omega)
        rw [Nat.add_mul] at hmul ⊢
        omega
      · intro hle
        have hlt : 4 * m * den < (2 * q + 3) * den := by
          rw [Nat.add_mul] at hle ⊢
          omega
        have := Nat.lt_of_mul_lt_mul_right hlt
        omega
    · -- The middle: the next number counts if it is the even one.
      have hhalf : (2 * q + 1) * den + 2 * r = (2 * q + 2) * den := by
        rw [Nat.add_mul, Nat.add_mul]
        omega
      rw [hhalf, Nat.mul_le_mul_right_iff h]
      omega

theorem two_pow_log2_le_keepDigits {num den : Nat} (h : num / den ≠ 0) :
    2 ^ Nat.log2 (num / den) ≤ keepDigits num den := by
  have hle : lastPlace num den ≤ Nat.log2 (num / den) := Nat.sub_le _ _
  have hround := le_roundEven num (den * 2 ^ lastPlace num den)
  rw [← Nat.div_div_eq_div_mul] at hround
  rw [keepDigits, Nat.shiftLeft_eq, Nat.shiftLeft_eq]
  calc
    2 ^ Nat.log2 (num / den) =
        2 ^ (Nat.log2 (num / den) - lastPlace num den) * 2 ^ lastPlace num den := by
      rw [← Nat.pow_add, Nat.sub_add_cancel hle]
    _ ≤ num / den / 2 ^ lastPlace num den * 2 ^ lastPlace num den := by
      refine Nat.mul_le_mul_right _ ((Nat.le_div_iff_mul_le (Nat.two_pow_pos _)).mpr ?_)
      rw [← Nat.pow_add, Nat.sub_add_cancel hle]
      exact Nat.log2_self_le h
    _ ≤ roundEven num (den * 2 ^ lastPlace num den) * 2 ^ lastPlace num den :=
      Nat.mul_le_mul_right _ hround

theorem keepDigits_le_two_pow {num den k : Nat} (hk : 53 ≤ k) (h : num / den < 2 ^ k) :
    keepDigits num den ≤ 2 ^ k := by
  have hle : lastPlace num den ≤ k := by
    by_cases hzero : num / den = 0
    · simp [lastPlace, hzero]
    · have := (Nat.log2_lt hzero).mpr h
      rw [lastPlace]
      omega
  have hround := roundEven_le num (den * 2 ^ lastPlace num den)
  rw [← Nat.div_div_eq_div_mul] at hround
  have hquot : num / den / 2 ^ lastPlace num den < 2 ^ (k - lastPlace num den) := by
    rw [Nat.div_lt_iff_lt_mul (Nat.two_pow_pos _), ← Nat.pow_add, Nat.sub_add_cancel hle]
    exact h
  rw [keepDigits, Nat.shiftLeft_eq, Nat.shiftLeft_eq]
  calc
    roundEven num (den * 2 ^ lastPlace num den) * 2 ^ lastPlace num den
      ≤ 2 ^ (k - lastPlace num den) * 2 ^ lastPlace num den := Nat.mul_le_mul_right _ (by omega)
    _ = 2 ^ k := by rw [← Nat.pow_add, Nat.sub_add_cancel hle]

/-- Between two powers of two the spacing is known, and the upper one is reached from half a spacing
below it on. -/
theorem two_pow_le_keepDigits_iff (num e : Nat) {den : Nat} (h : 0 < den) :
    2 ^ (54 + e) ≤ keepDigits num den ↔ (2 ^ 54 - 1) * 2 ^ e * den ≤ num := by
  have hpow : 2 ^ (54 + e) = 2 ^ 54 * 2 ^ e := Nat.pow_add ..
  have hhalf : 2 ^ (53 + e) = 2 ^ 53 * 2 ^ e := Nat.pow_add ..
  have hpos := Nat.two_pow_pos e
  by_cases hlow : num / den < 2 ^ (53 + e)
  · have hkeep := keepDigits_le_two_pow (by omega) hlow
    rw [Nat.div_lt_iff_lt_mul h] at hlow
    have hmul : 2 ^ (53 + e) * den ≤ (2 ^ 54 - 1) * 2 ^ e * den :=
      Nat.mul_le_mul_right den (by omega)
    constructor <;> intro <;> omega
  · by_cases hhigh : num / den < 2 ^ (54 + e)
    · have hlog : Nat.log2 (num / den) = 53 + e := by
        apply (Nat.log2_eq_iff (by omega)).mpr
        exact ⟨by omega, by rwa [show 53 + e + 1 = 54 + e by omega]⟩
      have hplace : lastPlace num den = e + 1 := by
        rw [lastPlace, hlog]
        omega
      have hstep : 2 ^ (e + 1) = 2 * 2 ^ e := Nat.pow_succ'
      rw [keepDigits, Nat.shiftLeft_eq, Nat.shiftLeft_eq, hplace,
        show 2 ^ (54 + e) = 2 * 2 ^ 52 * 2 ^ (e + 1) by rw [hpow, hstep]; ring,
        Nat.mul_le_mul_right_iff (Nat.two_pow_pos _),
        two_mul_le_roundEven_iff num (2 ^ 52) (Nat.mul_pos h (Nat.two_pow_pos _))]
      have hleft : 4 * 2 ^ 52 * (den * 2 ^ (e + 1)) = 2 ^ 54 * (2 * (2 ^ e * den)) := by
        rw [hstep]
        ring
      have hright : den * 2 ^ (e + 1) = 2 * (2 ^ e * den) := by
        rw [hstep]
        ring
      rw [hleft, hright, Nat.mul_assoc]
      generalize 2 ^ e * den = spacing
      omega
    · have hne : num / den ≠ 0 := by omega
      have hlog : 2 ^ (54 + e) ≤ 2 ^ Nat.log2 (num / den) :=
        Nat.pow_le_pow_right (by decide) ((Nat.le_log2 hne).mpr (Nat.not_lt.mp hhigh))
      have hkeep := hlog.trans (two_pow_log2_le_keepDigits hne)
      have hmul := (Nat.le_div_iff_mul_le h).mp (Nat.not_lt.mp hhigh)
      have hle : (2 ^ 54 - 1) * 2 ^ e * den ≤ 2 ^ (54 + e) * den :=
        Nat.mul_le_mul_right den (by omega)
      exact iff_of_true hkeep (hle.trans hmul)

theorem one_shiftLeft (n : Nat) : 1 <<< n = 2 ^ n := by rw [Nat.shiftLeft_eq, Nat.one_mul]

theorem one_shiftLeft_shiftLeft (m n : Nat) : 1 <<< m <<< n = 2 ^ (m + n) := by
  rw [Nat.shiftLeft_eq, one_shiftLeft, Nat.pow_add]

theorem two_pow_le_keepDigits_mul_iff (num e u : Nat) {den : Nat} (h : 0 < den) :
    2 ^ (54 + (e + u)) ≤ keepDigits (num * 2 ^ u) den ↔ (2 ^ 54 - 1) * 2 ^ e * den ≤ num := by
  have hscale : (2 ^ 54 - 1) * 2 ^ (e + u) * den = (2 ^ 54 - 1) * 2 ^ e * den * 2 ^ u := by
    rw [Nat.pow_add, ← Nat.mul_assoc, Nat.mul_right_comm]
  rw [two_pow_le_keepDigits_iff _ _ h, hscale, Nat.mul_le_mul_right_iff (Nat.two_pow_pos u)]

/-- The middle between the largest finite number and the next power of two. -/
def rangeLimit : Nat := (2 ^ 54 - 1) * 2 ^ 970

theorem unitsPerOne_eq : unitsPerOne = 2 ^ 1074 := one_shiftLeft 1074

theorem unitLimit_eq : unitLimit = 2 ^ (54 + (970 + 1074)) := by
  have hexponent : 1074 + 1024 = 54 + (970 + 1074) := by decide
  exact (one_shiftLeft_shiftLeft 1074 1024).trans (congrArg (2 ^ ·) hexponent)

/-- Numbers from the limit on are out of range, and no others are. -/
theorem nearestUnits?_eq_none_iff (num : Nat) {den : Nat} (h : 0 < den) :
    nearestUnits? num den = none ↔ rangeLimit * den ≤ num := by
  have hnone : nearestUnits? num den = none ↔ unitLimit ≤ keepDigits (num * unitsPerOne) den := by
    simp [nearestUnits?]
  rw [hnone, unitLimit_eq, unitsPerOne_eq]
  exact two_pow_le_keepDigits_mul_iff num 970 1074 h

theorem shiftLeft_eq_mul (m n : Nat) : m <<< n = 2 ^ n * m := by rw [Nat.shiftLeft_eq, Nat.mul_comm]

theorem unitLimit_eq_mul : unitLimit = 2 ^ 1024 * unitsPerOne := shiftLeft_eq_mul unitsPerOne 1024

theorem lt_of_nearestUnits? {num den units : Nat} (h : nearestUnits? num den = some units) :
    units < 2 ^ 1024 * unitsPerOne := by
  rw [nearestUnits?] at h
  split at h
  · next hlt =>
    rw [unitLimit_eq_mul] at hlt
    exact Option.some.inj h ▸ hlt
  · cases h

theorem numeral?_eq_none_iff (k : ℤ) : numeral? k = none ↔ 10 ^ digitLimit ≤ k.natAbs := by
  have hlength : (toString k.natAbs).length ≤ digitLimit ↔ k.natAbs < 10 ^ digitLimit := by
    rw [Nat.toString_eq_repr, ← String.length_toList, Nat.toList_repr]
    exact Nat.length_toDigits_le_iff (by decide) (by decide)
  rw [numeral?]
  by_cases h : (toString k.natAbs).length ≤ digitLimit
  · simp only [h, if_true, reduceCtorEq, false_iff, not_le]
    exact hlength.mp h
  · simp only [h, if_false, true_iff]
    exact Nat.not_lt.mp (mt hlength.mpr h)

namespace Coordinate

/-- So many half pixels can be written: whole pixels as a numeral, any others within the range of
binary64. -/
def Printable (n : ℤ) : Prop :=
  if n % 2 = 0 then n.natAbs < 2 * 10 ^ digitLimit else n.natAbs < 2 * rangeLimit

theorem printable_of_even {n : ℤ} (h : n % 2 = 0) :
    Printable n ↔ n.natAbs < 2 * 10 ^ digitLimit := by
  rw [Printable, if_pos h]

theorem printable_of_odd {n : ℤ} (h : n % 2 = 1) : Printable n ↔ n.natAbs < 2 * rangeLimit := by
  rw [Printable, if_neg (by omega)]

theorem exists_text_iff (n : ℤ) : (∃ t, (ofHalves n).text = .ok t) ↔ Printable n := by
  rcases Int.even_or_odd' n with ⟨k, rfl | hodd⟩
  · rw [printable_of_even (by omega), ofHalves_two_mul]
    have hnone := numeral?_eq_none_iff k
    have habs : (2 * k).natAbs = 2 * k.natAbs := by omega
    simp only [text, Rat.den_intCast, Rat.num_intCast, if_true]
    cases hnumeral : numeral? k with
    | none =>
      have hlarge := hnone.mp hnumeral
      simp only [reduceCtorEq, exists_false, false_iff]
      omega
    | some digits =>
      have hsmall : ¬10 ^ digitLimit ≤ k.natAbs := fun h => by simp [hnumeral] at hnone; omega
      simp only [Except.ok.injEq, exists_eq', true_iff]
      omega
  · obtain ⟨hnum, hden⟩ := mkRat_odd (show n % 2 = 1 by omega)
    rw [printable_of_odd (by omega)]
    have hnone := nearestUnits?_eq_none_iff n.natAbs (by decide : 0 < 2)
    simp only [text, ofHalves, hnum, hden, OfNat.ofNat_ne_one, if_false]
    cases hunits : nearestUnits? n.natAbs 2 with
    | none =>
      have hlarge := hnone.mp hunits
      simp only [reduceCtorEq, exists_false, false_iff]
      omega
    | some units =>
      have hsmall : ¬rangeLimit * 2 ≤ n.natAbs := fun h => by simp [hunits] at hnone; omega
      simp only [Except.ok.injEq, exists_eq', true_iff]
      omega

end Coordinate
end Tablature.Number
