import Tablature.Proofs.Nesting
import Tablature.Proofs.PageQuotient
import Tablature.Proofs.Range

/-!
The canvas has as many pages as are begun. Up to 2^53 measures the rounded quotient of measures and
measures of a page does not pass a whole number that the exact one does not exceed: that number is a
multiple of the spacing around the quotient. So rounding it up gives the exact number of pages
(`pageCount?_eq_ceil`). Pages are begun by counting the measures that remain, and they run out
behind the same number (`pages_run_out_exactly`). -/
namespace Tablature.Number

theorem roundEven_le_of_le {num den k : Nat} (hpos : 0 < den) (h : num ≤ k * den) :
    roundEven num den ≤ k := by
  have hdiv := Nat.div_le_of_le_mul (Nat.mul_comm k den ▸ h)
  by_cases hmod : num % den = 0
  · rw [roundEven, if_pos (by omega)]
    exact hdiv
  · have hlt : num < k * den := by
      refine lt_of_le_of_ne h ?_
      rintro rfl
      exact hmod (Nat.mul_mod_left k den)
    have hquot := (Nat.div_lt_iff_lt_mul hpos).mpr hlt
    exact (roundEven_le num den).trans hquot

/-- A whole number of at most 53 digits is a multiple of the spacing around every quotient that it
bounds. -/
theorem two_pow_dvd_mul_two_pow {m place u : Nat} (hm : m ≤ 2 ^ 53)
    (h : 2 ^ place * 2 ^ 52 ≤ m * 2 ^ u) :
    2 ^ place ∣ m * 2 ^ u := by
  by_cases hplace : place ≤ u
  · exact Dvd.dvd.mul_left (pow_dvd_pow 2 hplace) m
  · -- Only the greatest number reaches so far, and it is a power of two.
    have hle : 2 ^ (u + 1) ≤ 2 ^ place := Nat.pow_le_pow_right (by decide) (by omega)
    have hpos := Nat.two_pow_pos u
    rw [Nat.pow_succ] at hle
    generalize 2 ^ place = spacing at *
    generalize 2 ^ u = units at *
    have hmul : m * units ≤ 2 ^ 53 * units := Nat.mul_le_mul_right units hm
    obtain rfl : spacing = units * 2 := by omega
    have hmax : m * units = 2 ^ 53 * units := by omega
    exact ⟨2 ^ 52, by rw [hmax]; ring⟩

theorem keepDigits_le_of_le {num den m : Nat} (hpos : 0 < den) (hm : m ≤ 2 ^ 53)
    (h : num ≤ m * den) :
    keepDigits (num * unitsPerOne) den ≤ m * unitsPerOne := by
  have hplace := lastPlace_eq_zero_or (num * unitsPerOne) den
  have hscaled : num * unitsPerOne ≤ m * unitsPerOne * den := by
    rw [Nat.mul_right_comm]
    exact Nat.mul_le_mul_right _ h
  have hquot : num * unitsPerOne / den ≤ m * unitsPerOne :=
    Nat.div_le_of_le_mul (Nat.mul_comm _ den ▸ hscaled)
  have hdvd : 2 ^ lastPlace (num * unitsPerOne) den ∣ m * unitsPerOne := by
    rcases hplace with hzero | hkept
    · rw [hzero]
      exact Nat.one_dvd _
    · rw [unitsPerOne_eq] at *
      exact two_pow_dvd_mul_two_pow hm (hkept.trans hquot)
  obtain ⟨k, hk⟩ := hdvd
  rw [keepDigits, Nat.shiftLeft_eq, Nat.shiftLeft_eq, hk, Nat.mul_comm]
  refine Nat.mul_le_mul_left _ (roundEven_le_of_le (Nat.mul_pos hpos (Nat.two_pow_pos _)) ?_)
  calc
    num * unitsPerOne ≤ m * unitsPerOne * den := hscaled
    _ = k * (den * 2 ^ lastPlace (num * unitsPerOne) den) := by
      rw [hk]
      ring

theorem nearest?_le_natCast {q r : ℚ} {m : Nat} (h₀ : 0 ≤ q) (hm : m ≤ 2 ^ 53)
    (h : nearest? q = some r) (hq : q ≤ m) :
    r ≤ m := by
  rcases h₀.eq_or_lt with rfl | hpos
  · rw [nearest?_zero] at h
    obtain rfl := Option.some.inj h
    exact Nat.cast_nonneg m
  · have hunits : (0 : ℚ) < unitsPerOne := by exact_mod_cast unitsPerOne_pos
    obtain ⟨n, hn⟩ := Int.eq_ofNat_of_zero_le (Rat.num_nonneg.mpr h₀)
    obtain ⟨units, hu, rfl⟩ := exists_nearestUnits? h
    rw [hn, Int.natAbs_natCast] at hu
    rw [← Rat.num_div_den q, div_le_iff₀ (by exact_mod_cast q.den_pos), hn] at hq
    rw [Int.sign_eq_one_of_pos (Rat.num_pos.mpr hpos), one_mul, Rat.mkRat_eq_div,
      div_le_iff₀ hunits, eq_keepDigits hu]
    exact_mod_cast keepDigits_le_of_le q.den_pos hm (by exact_mod_cast hq)

end Tablature.Number

namespace Tablature.Engraving
open Tablature.Music Tablature.Number Tablature.Drawing

def begun (ms : List Mark) : Nat := ms.countP Command.isOpenGroup

theorem begun_append (a b : List Mark) : begun (a ++ b) = begun a + begun b := List.countP_append

theorem begun_of_onPage {ms : List Mark} (h : OnPage ms) : begun ms = 0 := by
  refine List.countP_eq_zero.mpr fun c hc => ?_
  have hrole := (h c hc).2
  cases c with
  | openGroup dx dy => exact absurd rfl hrole
  | start | finish | rect | line | circle | text | closeGroup => exact Bool.false_ne_true

theorem begun_closing (s : State) : begun s.closing = 0 := by
  rw [State.closing]
  split <;> rfl

namespace Sheet
variable {sheet : Sheet}

/-- The pages that the measures of a sheet fill, the last one perhaps in part. -/
def filledPages (sheet : Sheet) : ℤ := ⌈(sheet.total : ℚ) / sheet.format.measuresPerPage⌉

/-- Up to 2^53 measures the pages of the canvas are exactly those that the measures fill. -/
theorem pageCount?_eq_ceil (h₀ : 0 ≤ sheet.total) (htotal : sheet.total ≤ 2 ^ 53)
    (hpage : sheet.format.measuresPerPage ≤ 2 ^ 53) :
    sheet.pageCount? = some sheet.filledPages := by
  have hk : (1 : ℚ) ≤ sheet.format.measuresPerPage := by exact_mod_cast sheet.format.measures_pos
  have hk₀ : (0 : ℚ) < sheet.format.measuresPerPage := by linarith
  have hq₀ : (0 : ℚ) ≤ sheet.total / sheet.format.measuresPerPage := by positivity
  have hq : (sheet.total : ℚ) / sheet.format.measuresPerPage ≤ 2 ^ 53 := by
    rw [div_le_iff₀ hk₀]
    have : (sheet.total : ℚ) ≤ 2 ^ 53 := by exact_mod_cast htotal
    nlinarith
  obtain ⟨r, hr⟩ := Option.isSome_iff_exists.mp (nearest?_isSome hq₀ hq)
  have hcount : sheet.pageCount? = some r.ceil := by
    rw [pageCount?, Rat.mkRat_eq_div]
    exact congrArg (Option.map Rat.ceil) hr
  rw [hcount]
  refine congrArg some (le_antisymm ?_ ?_)
  · rw [filledPages]
    obtain ⟨m, hm⟩ := Int.eq_ofNat_of_zero_le (Int.ceil_nonneg hq₀)
    have hbound : (m : ℤ) ≤ 2 ^ 53 := hm ▸ Int.ceil_le.mpr (by exact_mod_cast hq)
    have hle := Int.le_ceil ((sheet.total : ℚ) / sheet.format.measuresPerPage)
    rw [hm] at hle ⊢
    rw [Rat.ceil_le_iff]
    exact_mod_cast nearest?_le_natCast hq₀ (by exact_mod_cast hbound) hr (by exact_mod_cast hle)
  · rw [filledPages, Int.ceil_le, div_le_iff₀ hk₀, mul_comm]
    exact_mod_cast total_le_pages hcount h₀ htotal hpage

variable (sheet)

theorem begun_opened (s : State) :
    begun (s.closing ++ sheet.origin s.page :: pageGlyph (sheet.heightAfter s.page)) = 1 := by
  have horigin : begun [sheet.origin s.page] = 1 := rfl
  rw [← List.singleton_append, begun_append, begun_append, begun_closing, horigin,
    begun_of_onPage (onPage_pageGlyph _)]

theorem filledPages_le_iff (pages : Nat) :
    sheet.filledPages ≤ pages ↔ sheet.remaining pages ≤ 0 := by
  have hk : (0 : ℚ) < sheet.format.measuresPerPage := by exact_mod_cast sheet.format.measures_pos
  rw [filledPages, Int.ceil_le, div_le_iff₀ hk, remaining, sub_nonpos, mul_comm]
  exact_mod_cast Iff.rfl

theorem turnPage_cases (s : State) :
    (s.page < sheet.filledPages ∧ sheet.turnPage s =
      ⟨s.closing ++ sheet.origin s.page :: pageGlyph (sheet.heightAfter s.page), sheet.pageBegun s,
        none⟩) ∨
    (sheet.filledPages ≤ s.page ∧
      sheet.turnPage s = ⟨s.closing, s, some (.beyondTotal sheet.total)⟩) := by
  have hfilled := sheet.filledPages_le_iff s.page
  by_cases h : sheet.remaining s.page ≤ 0
  · exact Or.inr ⟨hfilled.mpr h, if_pos h⟩
  · exact Or.inl ⟨Int.not_le.mp (mt hfilled.mp h), if_neg h⟩

theorem begun_boundary (s : State) :
    begun (sheet.boundary s).drawn + s.page = (sheet.boundary s).state.page := by
  have htapers := begun_of_onPage (onPage_tapers s.waiting)
  have hbar := fun y => begun_of_onPage (onPage_barGlyph y (s.measure + 1))
  have hc := sheet.crossing s
  generalize sheet.boundary s = o at hc ⊢
  cases hc with
  | none => exact Nat.zero_add _
  | measure =>
    rw [begun_append, htapers, hbar, Nat.zero_add]
    rfl
  | page =>
    rw [begun_append, begun_append, htapers, begun_opened, hbar, Nat.zero_add, Nat.add_comm]
    rfl
  | beyond => rw [begun_append, htapers, begun_closing, Nat.zero_add]

theorem begun_fit (symbol : Symbol) (s : State) :
    begun (sheet.fit symbol s).drawn + s.page = (sheet.fit symbol s).state.page := by
  rw [begun_of_onPage (sheet.fit_onPage symbol s).1, Nat.zero_add]
  have hc := sheet.fitting symbol s
  generalize sheet.fit symbol s = o at hc ⊢
  cases hc <;> rfl

theorem begun_perform (s : State) (call : Call) :
    begun (sheet.perform s call).drawn + s.page = (sheet.perform s call).state.page := by
  cases call with
  | add symbol =>
    have hboundary := sheet.begun_boundary s
    rw [perform, add]
    cases hf : (sheet.boundary s).fault with
    | some fault => rw [Outcome.andThen_of_fault hf, hboundary]
    | none =>
      have hfit := sheet.begun_fit symbol (sheet.boundary s).state
      rw [Outcome.andThen_of_ok hf, begun_append, ← hfit, ← hboundary]
      omega
  | close =>
    have hending : begun ending = 0 := by decide
    rw [perform]
    cases ho : s.pageOpen with
    | true =>
      rw [State.close_of_pageOpen ho, begun_append, begun_of_onPage (onPage_tapers _), hending]
      exact Nat.zero_add _
    | false =>
      rw [State.close_of_not_pageOpen ho]
      exact Nat.zero_add _

/-- By induction on the calls. -/
theorem begun_drawnBy (calls : List Call) (s : State) :
    begun (sheet.drawnBy s calls) + s.page = (sheet.stateBehindCalls s calls).page := by
  induction calls generalizing s with
  | nil => exact Nat.zero_add _
  | cons call rest ih =>
    have hcall := sheet.begun_perform s call
    rw [drawnBy_cons, begun_append, stateBehindCalls, ← ih, ← hcall]
    omega

def turnPages : Nat → State → Outcome
  | 0, s => ⟨[], s, none⟩
  | n + 1, s => (sheet.turnPage s).andThen (turnPages n)

/-- By induction on the pages: each is begun as long as some remain, and none behind the first that
is refused. -/
theorem turnPages_spec (n : Nat) {s : State} (hs : s.page ≤ sheet.filledPages) :
    ((sheet.turnPages n s).fault = none ↔ s.page + n ≤ sheet.filledPages) ∧
      begun (sheet.turnPages n s).drawn = min (n : ℤ) (sheet.filledPages - s.page) := by
  induction n generalizing s with
  | zero =>
    refine ⟨by simpa [turnPages] using hs, ?_⟩
    simp only [turnPages, begun, List.countP_nil, Nat.cast_zero]
    omega
  | succ n ih =>
    rw [turnPages]
    rcases sheet.turnPage_cases s with ⟨hlt, hturn⟩ | ⟨hle, hturn⟩
    · have hpage : (sheet.pageBegun s).page = s.page + 1 := rfl
      obtain ⟨hok, hmore⟩ := ih (s := sheet.pageBegun s) (by rw [hpage]; exact_mod_cast hlt)
      rw [hturn, Outcome.andThen_of_ok rfl, hok, begun_append, begun_opened, hpage]
      push_cast
      rw [hmore, hpage]
      push_cast
      omega
    · rw [hturn, Outcome.andThen_of_fault rfl, begun_closing]
      simp only [reduceCtorEq, false_iff]
      omega

theorem page_of_isBeyond {symbol : Symbol} {s : State} {last : Option HalfPixel}
    (h : sheet.Sound s last)
    (hbeyond : (sheet.add symbol s).IsBeyond) : s.page = sheet.filledPages := by
  have hk : (0 : ℚ) < sheet.format.measuresPerPage := by exact_mod_cast sheet.format.measures_pos
  have hmeasure : (s.measure : ℚ) ≤ sheet.total := by exact_mod_cast h.measure_le.1
  have hfault := (sheet.isBeyond_add_iff symbol s).mp hbeyond
  have hc := sheet.crossing s
  generalize sheet.boundary s = o at hc hfault
  cases hc with
  | none | measure | page => exact absurd rfl hfault
  | beyond hbar hleft hremains =>
    apply le_antisymm
    · rw [h.page_eq_ceil, filledPages]
      exact Int.ceil_le_ceil (by gcongr)
    · exact (sheet.filledPages_le_iff s.page).mpr hremains

end Sheet

/-- Up to 2^53 measures, with up to 2^53 of them to a page: the pages of the canvas, from one
quotient that is rounded to binary64 and then up, are exactly those that the measures fill. So many
pages can be begun one behind the other, and no further one; and whatever calls are made, the pages
that they have begun by the time a symbol finds no measure are as many. -/
theorem pages_run_out_exactly {sheet : Sheet} (h₀ : 0 ≤ sheet.total) (htotal : sheet.total ≤ 2 ^ 53)
    (hpage : sheet.format.measuresPerPage ≤ 2 ^ 53) :
    sheet.pageCount? = some ⌈(sheet.total : ℚ) / sheet.format.measuresPerPage⌉ ∧
    (∀ n : ℕ,
      ((sheet.turnPages n {}).fault = none ↔
        (n : ℤ) ≤ ⌈(sheet.total : ℚ) / sheet.format.measuresPerPage⌉) ∧
      (begun (sheet.turnPages n {}).drawn : ℤ) =
        min (n : ℤ) ⌈(sheet.total : ℚ) / sheet.format.measuresPerPage⌉) ∧
    ∀ calls symbol, (sheet.add symbol (sheet.stateBehindCalls {} calls)).IsBeyond →
      (begun (sheet.drawnBy {} calls) : ℤ) =
        ⌈(sheet.total : ℚ) / sheet.format.measuresPerPage⌉ := by
  have hfilled : (0 : ℤ) ≤ sheet.filledPages := Int.ceil_nonneg (by positivity)
  refine ⟨Sheet.pageCount?_eq_ceil h₀ htotal hpage, fun n => ?_, fun calls symbol hbeyond => ?_⟩
  · have hturns := sheet.turnPages_spec n (s := {}) (by simpa using hfilled)
    simp only [Nat.cast_zero, zero_add, sub_zero] at hturns
    exact hturns
  · have hpages := sheet.page_of_isBeyond ((Sheet.Sound.start h₀).behindCalls calls) hbeyond
    rw [← sheet.begun_drawnBy] at hpages
    exact hpages

/-- The largest odd number of measures below 2^53, two to a page: the quotient has all its 53
digits. -/
theorem pages_of_oddMeasures :
    let sheet : Sheet := ⟨{ measuresPerPage := 2 }, 2 ^ 53 - 1⟩
    0 ≤ sheet.total ∧ sheet.total ≤ 2 ^ 53 ∧ sheet.format.measuresPerPage ≤ 2 ^ 53 ∧
      sheet.pageCount? = some (2 ^ 52) ∧
      (sheet.turnPages (2 ^ 52) {}).fault = none ∧
      (sheet.turnPages (2 ^ 52 + 1) {}).fault ≠ none := by
  intro sheet
  have h₀ : 0 ≤ sheet.total := by decide
  have htotal : sheet.total ≤ 2 ^ 53 := by decide
  have hpage : sheet.format.measuresPerPage ≤ 2 ^ 53 := by decide
  have hceil : ⌈(sheet.total : ℚ) / sheet.format.measuresPerPage⌉ = 2 ^ 52 := by
    rw [Int.ceil_eq_iff]
    norm_num [sheet]
  obtain ⟨hcount, hturns, -⟩ := pages_run_out_exactly h₀ htotal hpage
  rw [hceil] at hcount hturns
  refine ⟨h₀, htotal, hpage, hcount, (hturns _).1.mpr (by norm_num), fun h => ?_⟩
  have hle := (hturns _).1.mp h
  norm_num at hle

end Tablature.Engraving
