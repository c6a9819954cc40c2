import Tablature.Proofs.Hundredths

/-!
The form of a number's text. A whole number is written in the shortest form there is. Any other is
written in it unless its binary64 number is rounded to a whole one: the zeros are stripped from the
places then, but the point stays, and so does the sign before a zero (`inShortForm_iff`). -/
namespace Tablature.Number.Coordinate
open Tablature.Text

/-- One or more digits and, optionally, a point with one or two places behind it, the last of which
is not zero. -/
inductive ShortDecimal : List Char → Prop
  | whole {digits : List Char} (some_digit : digits ≠ [])
    (all_digits : digits.all Char.isDigit = true) :
      ShortDecimal digits
  | places {digits places : List Char} (some_digit : digits ≠ [])
    (all_digits : digits.all Char.isDigit = true)
      (some_place : places ≠ []) (two_places : places.length ≤ 2)
        (all_places : places.all Char.isDigit = true)
      (last_place : places.getLast? ≠ some '0') : ShortDecimal (digits ++ '.' :: places)

/-- A decimal behind a sign, if there is one; zero is written as "0" alone. -/
structure InShortForm (t : String) : Prop where
  shape : ∃ s, ShortDecimal s ∧ (t.toList = s ∨ t.toList = '-' :: s)
  zero : value? t.toList = some 0 → t = "0"

theorem all_isDigit_toString (n : Nat) : (toString n).toList.all Char.isDigit = true :=
  List.all_eq_true.mpr fun _ => isDigit_of_mem_toString

theorem shortDecimal_toString (n : Nat) : ShortDecimal (toString n).toList :=
  .whole (toString_ne_nil n) (all_isDigit_toString n)

theorem ShortDecimal.isDigit_getLast {s : List Char} (h : ShortDecimal s) :
    ∃ c, s.getLast? = some c ∧ c.isDigit := by
  have hlast : ∀ {digits : List Char}, digits ≠ [] → digits.all Char.isDigit = true →
      ∃ c, digits.getLast? = some c ∧ c.isDigit := fun hne hall =>
    ⟨_, List.getLast?_eq_some_getLast hne, List.all_eq_true.mp hall _ (List.getLast_mem hne)⟩
  cases h with
  | whole hne hall => exact hlast hne hall
  | places _ _ hne _ hall _ =>
    obtain ⟨c, hc, hdigit⟩ := hlast hne hall
    exact ⟨c, by simp [List.getLast?_append, List.getLast?_cons, hc], hdigit⟩

theorem not_inShortForm_of_point {t : String} (h : t.toList.getLast? = some '.') :
    ¬InShortForm t := by
  rintro ⟨⟨s, hs, hsign⟩, -⟩
  obtain ⟨c, hlast, hdigit⟩ := hs.isDigit_getLast
  have hpoint : t.toList.getLast? = some c := by
    rcases hsign with htext | htext <;> simp [htext, List.getLast?_cons, hlast]
  obtain rfl : '.' = c := Option.some.inj (h.symm.trans hpoint)
  exact absurd hdigit (by decide)

/-- Hundredths that are no whole number are written with one or two places, and the last is not
zero. -/
theorem placesText_short {n : Nat} (hpos : 0 < n) (h : n < 100) :
    (placesText n).toList ≠ [] ∧ (placesText n).toList.length ≤ 2 ∧
    (placesText n).toList.getLast? ≠ some '0' :=
  (by decide +kernel : ∀ n < 100, 0 < n → (placesText n).toList ≠ [] ∧
    (placesText n).toList.length ≤ 2 ∧
    (placesText n).toList.getLast? ≠ some '0') n h hpos

theorem shortDecimal_hundredthsText {n : Nat} (h : ¬100 ∣ n) :
    ShortDecimal (hundredthsText n).toList := by
  have hlt : n % 100 < 100 := Nat.mod_lt n (by decide)
  obtain ⟨hne, htwo, hlast⟩ :=
    placesText_short (Nat.pos_of_ne_zero (mt Nat.dvd_of_mod_eq_zero h)) hlt
  rw [toList_hundredthsText]
  exact .places (toString_ne_nil _) (all_isDigit_toString _) hne htwo (placesText_spec hlt).1 hlast

theorem hundredthsText_of_dvd {n : Nat} (h : 100 ∣ n) :
    hundredthsText n = toString (n / 100) ++ "." := by
  rw [hundredthsText, Nat.mod_eq_zero_of_dvd h]
  exact String.append_empty

theorem toList_signed (negative : Prop) [Decidable negative] (s : String) :
    ((if negative then "-" else "") ++ s).toList = s.toList ∨
      ((if negative then "-" else "") ++ s).toList = '-' :: s.toList := by
  split
  · exact .inr (by simp)
  · exact .inl (by simp)

theorem inShortForm_of_whole {q : ℚ} {t : String} (hq : q.den = 1) (h : text (.exact q) = .ok t) :
    InShortForm t := by
  have hvalue := (value?_of_text h).1 hq
  obtain rfl := text_of_whole hq h
  refine ⟨⟨_, shortDecimal_toString q.num.natAbs, toList_signed _ _⟩, fun hzero => ?_⟩
  obtain rfl : q = 0 := Option.some.inj (hvalue.symm.trans hzero)
  rfl

/-- The text of a number is in short form unless it is no whole number and its binary64 number is
rounded to one. Such a text ends in the point. -/
theorem inShortForm_iff {q : ℚ} {t : String} (h : text (.exact q) = .ok t) :
    (q.den = 1 → InShortForm t) ∧
      (q.den ≠ 1 → ∃ (d : ℚ) (n : ℕ), nearest? q = some d ∧
        NearestEven (100 * d) (if q.num < 0 then -n else n) ∧
        (InShortForm t ↔ ¬100 ∣ n) ∧
        (100 ∣ n → t = (if q.num < 0 then "-" else "") ++ toString (n / 100) ++ ".")) := by
  refine ⟨fun hq => inShortForm_of_whole hq h, fun hq => ?_⟩
  obtain ⟨d, n, hd, hn, rfl⟩ := text_of_fraction hq h
  refine ⟨d, n, hd, hn, ⟨fun hform hdvd => ?_, fun hdvd => ?_⟩, fun hdvd => ?_⟩
  · refine not_inShortForm_of_point ?_ hform
    rw [hundredthsText_of_dvd hdvd]
    simp
  · refine ⟨⟨_, shortDecimal_hundredthsText hdvd, toList_signed _ _⟩, fun hzero => ?_⟩
    have hvalue := Option.some.inj ((value?_hundredths q.num n).symm.trans hzero)
    have hnone : n = 0 := by
      rw [div_eq_zero_iff] at hvalue
      have hsigned := hvalue.resolve_right (by norm_num)
      rw [Int.cast_eq_zero] at hsigned
      split at hsigned <;> omega
    exact absurd (hnone ▸ dvd_zero 100) hdvd
  · rw [hundredthsText_of_dvd hdvd, String.append_assoc]

theorem inShortForm_of_negEighth :
    text (.exact (-1 / 8)) = .ok "-0.12" ∧ (-1 / 8 : ℚ).den ≠ 1 ∧ InShortForm "-0.12" := by
  have htext : text (.exact (-1 / 8)) = .ok "-0.12" := by decide +kernel
  have hden : (-1 / 8 : ℚ).den ≠ 1 := by decide +kernel
  obtain ⟨d, n, -, -, hform, hpoint⟩ := (inShortForm_iff htext).2 hden
  refine ⟨htext, hden, hform.mpr fun hdvd => ?_⟩
  have hlast := congrArg (·.toList.getLast?) (hpoint hdvd)
  simp at hlast

/-- A thousandth below zero and one above one: both texts end in the point, and the first is a zero
with a sign. -/
theorem not_inShortForm_of_thousandths :
    (text (.exact (-1 / 1000)) = .ok "-0." ∧ ¬InShortForm "-0.") ∧
      text (.exact (1001 / 1000)) = .ok "1." ∧ ¬InShortForm "1." := by
  refine ⟨⟨?_, not_inShortForm_of_point (by decide)⟩, ?_, not_inShortForm_of_point (by decide)⟩ <;>
    decide +kernel

end Tablature.Number.Coordinate
