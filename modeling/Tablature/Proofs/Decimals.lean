import Mathlib.Data.Nat.Digits.Defs
import Mathlib.Data.Nat.Prime.Basic
import Mathlib.Data.Rat.Lemmas
import Mathlib.Tactic.FieldSimp
import Mathlib.Tactic.NormNum
import Mathlib.Tactic.Ring
import Tablature.Number.Coordinate
import Tablature.Proofs.PageQuotient

/-!
Coordinates read back. `value?` reads a sign, digits and places behind a point. A whole number and a
whole number of hundredths read back as themselves, and so does every coordinate that lies less than
2^53 half pixels from the origin: binary64 holds it exactly, and one place is enough for a half. -/
namespace Tablature.Number
open Tablature.Text

namespace Coordinate

/-- The number that decimal digits write; nothing if another character occurs. -/
def digits? (s : List Char) : Option Nat :=
  if s.all Char.isDigit then some (Nat.ofDigitChars 10 s 0) else none

/-- A decimal without a sign: at least one digit, and places if there is a point; a point may also
end it. -/
def magnitude? (s : List Char) : Option ℚ :=
  match s.splitOn '.' with
  | [whole] => if whole = [] then none else (digits? whole).map (Nat.cast : ℕ → ℚ)
  | [whole, places] =>
    if whole = [] then none
    else (digits? whole).bind fun n => (digits? places).map fun (p : ℕ) =>
      (n : ℚ) + p / 10 ^ places.length
  | _ => none

def value? : List Char → Option ℚ
  | '-' :: s => (magnitude? s).map fun q => -q
  | s => magnitude? s

def isDecimalChar (c : Char) : Bool := c.isDigit || c == '.' || c == '-'

theorem isDigit_of_mem_toString {n : Nat} {c : Char} (h : c ∈ (toString n).toList) :
    c.isDigit = true := by
  rw [Nat.toString_eq_repr, Nat.toList_repr] at h
  exact Nat.isDigit_of_mem_toDigits (by decide) (by decide) h

theorem notMem_toString {c : Char} (h : c.isDigit = false) (n : Nat) : c ∉ (toString n).toList :=
  fun hc => by
  rw [isDigit_of_mem_toString hc] at h
  cases h

theorem toString_ne_nil (n : Nat) : (toString n).toList ≠ [] := by
  rw [Nat.toString_eq_repr, Nat.toList_repr]
  exact Nat.toDigits_ne_nil

theorem digits?_toString (n : Nat) : digits? (toString n).toList = some n := by
  have hall : (toString n).toList.all Char.isDigit = true :=
    List.all_eq_true.mpr fun c => isDigit_of_mem_toString
  rw [digits?, if_pos hall, Nat.toString_eq_repr, Nat.toList_repr,
    Nat.ofDigitChars_toDigits (by decide) (by decide)]

theorem magnitude?_toString (n : Nat) : magnitude? (toString n).toList = some (n : ℚ) := by
  rw [magnitude?, List.splitOn_eq_singleton (notMem_toString (by decide) n)]
  simp only [if_neg (toString_ne_nil n), digits?_toString, Option.map_some]

/-- The places of a number of hundredths are digits, and they write that number. -/
theorem placesText_spec {n : Nat} (h : n < 100) :
    (placesText n).toList.all Char.isDigit = true ∧
      100 * Nat.ofDigitChars 10 (placesText n).toList 0 =
        n * 10 ^ (placesText n).toList.length :=
  (by decide +kernel : ∀ n < 100, (placesText n).toList.all Char.isDigit = true ∧
    100 * Nat.ofDigitChars 10 (placesText n).toList 0 =
      n * 10 ^ (placesText n).toList.length) n h

theorem toList_hundredthsText (n : Nat) :
    (hundredthsText n).toList =
      (toString (n / 100)).toList ++ '.' :: (placesText (n % 100)).toList := by
  simp [hundredthsText]

theorem magnitude?_hundredthsText (n : Nat) :
    magnitude? (hundredthsText n).toList = some (n / 100 : ℚ) := by
  obtain ⟨hall, hplaces⟩ := placesText_spec (Nat.mod_lt n (by decide : 0 < 100))
  have hpoint : '.' ∉ (placesText (n % 100)).toList := fun hc =>
    absurd (List.all_eq_true.mp hall _ hc) (by decide)
  rw [magnitude?, toList_hundredthsText, List.splitOn_append_cons_self_of_not_mem (notMem_toString
    (by decide) _), List.splitOn_eq_singleton hpoint]
  generalize (placesText (n % 100)).toList = places at hall hplaces
  have hread : digits? places = some (Nat.ofDigitChars 10 places 0) := if_pos hall
  simp only [if_neg (toString_ne_nil _), digits?_toString, Option.bind_some, hread, Option.map_some,
    Option.some.injEq]
  have hpow : (10 : ℚ) ^ places.length ≠ 0 := by positivity
  have hvalue : (100 : ℚ) * Nat.ofDigitChars 10 places 0 = (n % 100 : ℕ) * 10 ^ places.length := by
    exact_mod_cast hplaces
  have hn : (n : ℚ) = 100 * (n / 100 : ℕ) + (n % 100 : ℕ) := by
    exact_mod_cast (Nat.div_add_mod n 100).symm
  rw [hn]
  field_simp
  linarith

theorem value?_toString_append (n : Nat) (s : List Char) :
    value? ((toString n).toList ++ s) = magnitude? ((toString n).toList ++ s) := by
  obtain ⟨c, rest, hc⟩ := List.exists_cons_of_ne_nil (toString_ne_nil n)
  have hdigit : c.isDigit = true := isDigit_of_mem_toString (hc ▸ List.mem_cons_self)
  rw [hc, List.cons_append, value?]
  rintro rest' ⟨⟩
  cases hdigit

theorem value?_neg (s : List Char) : value? ('-' :: s) = (magnitude? s).map fun q => -q := rfl

theorem value?_signed (z : ℤ) {n : Nat} {s : String} {rest : List Char} {q : ℚ}
    (hs : s.toList = (toString n).toList ++ rest) (h : magnitude? s.toList = some q) :
    value? ((if z < 0 then "-" else "") ++ s).toList = some (if z < 0 then -q else q) := by
  by_cases hz : z < 0
  · rw [if_pos hz, if_pos hz, String.toList_append]
    exact (value?_neg s.toList).trans (by rw [h, Option.map_some])
  · rw [if_neg hz, if_neg hz, String.empty_append, hs, value?_toString_append, ← hs, h]

theorem signed_natAbs (z : ℤ) : (if z < 0 then -(z.natAbs : ℚ) else z.natAbs) = z := by
  have habs : (z.natAbs : ℚ) = ((|z| : ℤ) : ℚ) := by
    rw [Int.abs_eq_natAbs]
    rfl
  by_cases hz : z < 0
  · rw [if_pos hz, habs, abs_of_neg hz, Int.cast_neg, neg_neg]
  · rw [if_neg hz, habs, abs_of_nonneg (not_lt.mp hz)]

end Coordinate

theorem keepDigits_of_dvd {num den : Nat} (hden : 0 < den) (h : den * 2 ^ lastPlace num den ∣ num) :
    keepDigits num den = num / den := by
  obtain ⟨k, hk⟩ := h
  have hpos : 0 < den * 2 ^ lastPlace num den := Nat.mul_pos hden (Nat.two_pow_pos _)
  rw [keepDigits, Nat.shiftLeft_eq, Nat.shiftLeft_eq]
  generalize 2 ^ lastPlace num den = spacing at hk hpos ⊢
  subst hk
  rw [Nat.mul_comm _ k, roundEven_mul k hpos, Nat.mul_left_comm, Nat.mul_div_cancel_left _ hden]

/-- Multiples of a power of two of less than 53 binary digits are kept. -/
theorem keepDigits_mul_two_pow {n k den : Nat} (hden : 0 < den) (hn : n < 2 ^ 53) :
    keepDigits (n * 2 ^ k * den) den = n * 2 ^ k := by
  have hquot : n * 2 ^ k * den / den = n * 2 ^ k := Nat.mul_div_cancel _ hden
  have hplace : lastPlace (n * 2 ^ k * den) den ≤ k := by
    rw [lastPlace, hquot]
    by_cases hzero : n * 2 ^ k = 0
    · simp [hzero]
    · have hlt : n * 2 ^ k < 2 ^ (53 + k) := by
        rw [Nat.pow_add]
        exact Nat.mul_lt_mul_of_pos_right hn (Nat.two_pow_pos k)
      have hlog := (Nat.log2_lt hzero).mpr hlt
      omega
  have hdvd : den * 2 ^ lastPlace (n * 2 ^ k * den) den ∣ den * (n * 2 ^ k) :=
    Nat.mul_dvd_mul_left den ((Nat.pow_dvd_pow 2 hplace).mul_left n)
  rw [keepDigits_of_dvd hden (hdvd.trans (dvd_of_eq (Nat.mul_comm den _))), hquot]

theorem unitsPerOne_even : ∃ e, unitsPerOne = 2 * 2 ^ e := by
  have hshift : ∀ e, 1 <<< (e + 1) = 2 * 2 ^ e := fun e => by
    rw [Nat.shiftLeft_eq, Nat.one_mul, Nat.pow_succ']
  exact ⟨1073, hshift 1073⟩

theorem exists_nearestUnits?_half {n : Nat} (h : n < 2 ^ 53) :
    ∃ units, nearestUnits? n 2 = some units ∧ 2 * units = n * unitsPerOne := by
  obtain ⟨e, he⟩ := unitsPerOne_even
  have hscaled : n * unitsPerOne = n * 2 ^ e * 2 := by rw [he, Nat.mul_comm 2, Nat.mul_assoc]
  have hkept : 2 * keepDigits (n * unitsPerOne) 2 = n * unitsPerOne := by
    rw [hscaled, keepDigits_mul_two_pow two_pos h, Nat.mul_comm]
  obtain ⟨units, hunits⟩ :=
    Option.isSome_iff_exists.mp (nearestUnits?_isSome (show n ≤ 2 ^ 53 * 2 by omega))
  exact ⟨units, hunits, by rw [eq_keepDigits hunits, hkept]⟩

namespace Coordinate

theorem ofHalves_two_mul (k : ℤ) : ofHalves (2 * k) = .exact k := by
  rw [ofHalves, Rat.mkRat_eq_div]
  push_cast
  rw [mul_div_cancel_left₀ _ (by norm_num : (2 : ℚ) ≠ 0)]

theorem numeral?_eq {k : ℤ} (h : k.natAbs < 2 ^ 53) :
    numeral? k = some ((if k < 0 then "-" else "") ++ toString k.natAbs) := by
  have hlength : (toString k.natAbs).length ≤ digitLimit := by
    rw [Nat.toString_eq_repr, ← String.length_toList, Nat.toList_repr]
    exact (Nat.toDigits_length 10 _ 17 (by decide) (h.trans (by decide))).trans (by decide)
  rw [numeral?, if_pos hlength]
  split
  · rfl
  · rw [String.empty_append]

theorem text_exact_intCast {k : ℤ} (h : k.natAbs < 2 ^ 53) :
    text (.exact k) = .ok ((if k < 0 then "-" else "") ++ toString k.natAbs) := by
  simp only [text, Rat.den_intCast, Rat.num_intCast, if_true, numeral?_eq h]

theorem mkRat_odd {n : ℤ} (hodd : n % 2 = 1) : (mkRat n 2).num = n ∧ (mkRat n 2).den = 2 := by
  have hcoprime : n.natAbs.Coprime (2 : ℤ).natAbs := by
    exact Nat.coprime_two_right.mpr (Nat.odd_iff.mpr (by omega))
  rw [Rat.mkRat_eq_div]
  refine ⟨Rat.num_div_eq_of_coprime (by decide) hcoprime, ?_⟩
  have hcast := Rat.den_div_eq_of_coprime (by decide) hcoprime
  exact_mod_cast hcast

theorem text_ofHalves_odd {n : ℤ} (hodd : n % 2 = 1) (h : n.natAbs < 2 ^ 53) :
    (ofHalves n).text = .ok ((if n < 0 then "-" else "") ++ hundredthsText (50 * n.natAbs)) := by
  obtain ⟨hnum, hden⟩ := mkRat_odd hodd
  obtain ⟨units, hunits, hhalf⟩ := exists_nearestUnits?_half h
  have hpos := unitsPerOne_pos
  have hround : roundEven (units * 100) unitsPerOne = 50 * n.natAbs := by
    rw [show units * 100 = 50 * n.natAbs * unitsPerOne by linarith, roundEven_mul _ hpos]
  simp only [text, ofHalves, hnum, hden, hunits, hround]
  rfl

theorem isDecimalChar_of_isDigit {c : Char} (h : c.isDigit = true) : isDecimalChar c = true := by
  simp [isDecimalChar, h]

theorem all_isDecimalChar_toString (n : Nat) : (toString n).toList.all isDecimalChar = true :=
  List.all_eq_true.mpr fun _ hc => isDecimalChar_of_isDigit (isDigit_of_mem_toString hc)

theorem all_isDecimalChar_hundredthsText (n : Nat) :
    (hundredthsText n).toList.all isDecimalChar = true := by
  have hplaces := (placesText_spec (Nat.mod_lt n (by decide : 0 < 100))).1
  have hall : (placesText (n % 100)).toList.all isDecimalChar = true :=
    List.all_eq_true.mpr fun c hc => isDecimalChar_of_isDigit (List.all_eq_true.mp hplaces c hc)
  rw [toList_hundredthsText, List.all_append, List.all_cons, all_isDecimalChar_toString, hall]
  rfl

theorem all_isDecimalChar_signed (z : ℤ) {s : String} (h : s.toList.all isDecimalChar = true) :
    ((if z < 0 then "-" else "") ++ s).toList.all isDecimalChar = true := by
  rw [String.toList_append, List.all_append, h, Bool.and_true]
  split <;> rfl

theorem numeral?_eq_some {k : ℤ} {t : String} (h : numeral? k = some t) :
    t = (if k < 0 then "-" else "") ++ toString k.natAbs := by
  rw [numeral?] at h
  split at h
  · obtain rfl := Option.some.inj h
    split
    · rfl
    · rw [String.empty_append]
  · cases h

theorem text_of_whole {q : ℚ} {t : String} (hq : q.den = 1) (h : text (.exact q) = .ok t) :
    t = (if q.num < 0 then "-" else "") ++ toString q.num.natAbs := by
  rw [text, if_pos hq] at h
  cases hnumeral : numeral? q.num with
  | none => simp [hnumeral] at h
  | some digits =>
    simp only [hnumeral, Except.ok.injEq] at h
    exact h ▸ numeral?_eq_some hnumeral

theorem units_of_text {q : ℚ} {t : String} (hq : q.den ≠ 1) (h : text (.exact q) = .ok t) :
    ∃ units, nearestUnits? q.num.natAbs q.den = some units ∧
      t = (if q.num < 0 then "-" else "") ++
        hundredthsText (roundEven (units * 100) unitsPerOne) := by
  rw [text, if_neg hq] at h
  cases hunits : nearestUnits? q.num.natAbs q.den with
  | none => simp [hunits] at h
  | some units =>
    simp only [hunits, Except.ok.injEq] at h
    exact ⟨units, rfl, h.symm⟩

theorem all_isDecimalChar_of_text {a : Coordinate} {t : String} (h : a.text = .ok t) :
    t.toList.all isDecimalChar = true := by
  cases a with
  | undefined | infinite => cases h
  | exact q =>
    by_cases hq : q.den = 1
    · rw [text_of_whole hq h]
      exact all_isDecimalChar_signed _ (all_isDecimalChar_toString _)
    · obtain ⟨_, -, rfl⟩ := units_of_text hq h
      exact all_isDecimalChar_signed _ (all_isDecimalChar_hundredthsText _)

/-- A coordinate of less than 2^53 half pixels has a text, and it reads back as the coordinate. -/
theorem exists_text_ofHalves {n : ℤ} (h : n.natAbs < 2 ^ 53) :
    ∃ t, (ofHalves n).text = .ok t ∧ value? t.toList = some ((n : ℚ) / 2) ∧
      t.toList.all isDecimalChar = true := by
  rcases Int.even_or_odd' n with ⟨k, rfl | hodd⟩
  · have hk : k.natAbs < 2 ^ 53 := by omega
    refine ⟨_, (congrArg _ (ofHalves_two_mul k)).trans (text_exact_intCast hk), ?_,
      all_isDecimalChar_signed k (all_isDecimalChar_toString k.natAbs)⟩
    rw [value?_signed k (List.append_nil _).symm (magnitude?_toString k.natAbs), signed_natAbs]
    push_cast
    rw [mul_div_cancel_left₀ _ (by norm_num : (2 : ℚ) ≠ 0)]
  · refine ⟨_, text_ofHalves_odd (by omega) h, ?_,
      all_isDecimalChar_signed n (all_isDecimalChar_hundredthsText (50 * n.natAbs))⟩
    rw [value?_signed n (toList_hundredthsText _) (magnitude?_hundredthsText _)]
    have hhalf : ((50 * n.natAbs : ℕ) : ℚ) / 100 = (n.natAbs : ℚ) / 2 := by
      rw [Nat.cast_mul]
      ring
    have hsign : (if n < 0 then -((n.natAbs : ℚ) / 2) else (n.natAbs : ℚ) / 2) = (n : ℚ) / 2 := by
      rw [← neg_div, ← apply_ite (· / (2 : ℚ)), signed_natAbs]
    rw [hhalf, hsign]

end Coordinate
end Tablature.Number
