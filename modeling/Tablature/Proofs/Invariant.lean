import Mathlib.Algebra.Order.Floor.Ring
import Mathlib.Data.Rat.Floor
import Mathlib.Tactic.FieldSimp
import Mathlib.Tactic.Linarith
import Mathlib.Tactic.Ring
import Tablature.Proofs.Calls

/-!
What every state of a sheet obeys, however its calls are mixed and whichever of them fail.
`Sheet.Sound` is kept by each step of a call, also by one that stops short; `state_obeys` says the
same of all runs, in beats and pixels. -/
namespace Tablature.Engraving
open Tablature.Music

/-- Between two calls: `last` is the height of the symbol that was placed last. -/
structure Sheet.Sound (sheet : Sheet) (s : State) (last : Option HalfPixel) : Prop where
  filled_le : s.filled ≤ sheet.format.measureHalves
  counted : (s.measure + s.measuresLeft : Int) =
    min sheet.total (sheet.format.measuresPerPage * s.page)
  last_page : (sheet.format.measuresPerPage * s.page : Int) <
    s.measure + sheet.format.measuresPerPage
  fresh : s.measure = 0 → s.filled = 0 ∧ s.y = 0
  height : ∀ q, s.page = q + 1 →
    s.y = px (sheet.heightAfter q -
        beatHeight * ((sheet.format.beatsPerMeasure + 1) *
          (s.measure - 1 - sheet.format.measuresPerPage * q) + 1)) -
      beatHeight * s.filled
  waits : ∀ p ∈ s.waiting,
    s.measure ≠ 0 ∧ (p = s.y + beatHeight * 2 ∨ p = s.y + beatHeight * 3) ∧ last = some p

namespace Sheet.Sound
variable {sheet : Sheet} {s : State} {last : Option HalfPixel}

theorem start (h : 0 ≤ sheet.total) : sheet.Sound {} none where
  filled_le := Nat.zero_le _
  counted := by simp [h]
  last_page := by simpa using sheet.format.measures_pos
  fresh _ := ⟨rfl, rfl⟩
  height q hq := by cases hq
  waits p hp := by cases hp

theorem page_eq_zero (h : sheet.Sound s last) (hm : s.measure = 0) : s.page = 0 := by
  have hl := h.last_page
  rw [hm, Nat.cast_zero, zero_add] at hl
  cases hp : s.page with
  | zero => rfl
  | succ q =>
    rw [hp] at hl
    have := Int.mul_nonneg (Int.natCast_nonneg sheet.format.measuresPerPage) (Int.natCast_nonneg q)
    push_cast at hl
    linarith

theorem measure_le (h : sheet.Sound s last) :
    (s.measure : Int) ≤ sheet.total ∧
    (s.measure : Int) ≤ sheet.format.measuresPerPage * s.page := by
  have := h.counted
  omega

theorem page_pos (h : sheet.Sound s last) (hm : s.measure ≠ 0) : s.page ≠ 0 := by
  intro hp
  have hle := h.measure_le.2
  rw [hp] at hle
  omega

theorem settled (h : sheet.Sound s last) : sheet.Sound { s with waiting := none } last :=
  { h with waits := fun p hp => by cases hp }

theorem measureBegun (h : sheet.Sound s last) (hb : sheet.AtBar s) (hl : s.measuresLeft ≠ 0) :
    sheet.Sound s.measureBegun last where
  filled_le := Nat.zero_le _
  counted := by
    have := h.counted
    simp only [State.measureBegun]
    omega
  last_page := by
    have := h.last_page
    simp only [State.measureBegun]
    omega
  fresh hm := by simp [State.measureBegun] at hm
  height q hq := by
    have hpage : s.page = q + 1 := hq
    have hfull : s.filled = sheet.format.measureHalves := by
      cases hb with
      | inl hm =>
        rw [h.page_eq_zero hm] at hpage
        cases hpage
      | inr hf => exact hf
    have hy := h.height q hpage
    rw [hfull] at hy
    simp only [State.measureBegun, hy, px, beatHeight, PageFormat.measureHalves]
    push_cast
    ring
  waits p hp := by cases hp

theorem measure_eq (h : sheet.Sound s last) (hl : s.measuresLeft = 0)
    (hr : 0 < sheet.remaining s.page) :
    (s.measure : Int) = sheet.format.measuresPerPage * s.page := by
  have := h.counted
  simp only [remaining] at hr
  omega

theorem pageBegun (h : sheet.Sound s last) (hl : s.measuresLeft = 0)
    (hr : 0 < sheet.remaining s.page) :
    sheet.Sound (sheet.pageBegun s).measureBegun last where
  filled_le := Nat.zero_le _
  counted := by
    have hm := h.measure_eq hl hr
    have hn := sheet.measuresAfter_eq_min hr.le
    have hk := sheet.format.measures_pos
    simp only [remaining] at hn hr
    simp only [State.measureBegun, Sheet.pageBegun]
    push_cast
    rw [mul_add, mul_one]
    omega
  last_page := by
    have hm := h.measure_eq hl hr
    simp only [State.measureBegun, Sheet.pageBegun]
    push_cast
    linarith
  fresh hm := by simp [State.measureBegun] at hm
  height q hq := by
    have hpage : s.page = q := Nat.succ.inj hq
    have hm := h.measure_eq hl hr
    simp only [State.measureBegun, Sheet.pageBegun]
    push_cast
    rw [hm, hpage]
    simp only [px, beatHeight]
    ring
  waits p hp := by cases hp

/-- Whatever happens before a symbol is placed, and a measure is under way if it may be placed. -/
theorem boundary (h : sheet.Sound s last) :
    sheet.Sound (sheet.boundary s).state last ∧
      ((sheet.boundary s).fault = none → (sheet.boundary s).state.measure ≠ 0) := by
  have hc := sheet.crossing s
  generalize sheet.boundary s = o at hc ⊢
  cases hc with
  | none hb => exact ⟨h, fun _ hm => hb (Or.inl hm)⟩
  | measure hb hl => exact ⟨h.measureBegun hb hl, fun _ => Nat.succ_ne_zero _⟩
  | page hb hl hr => exact ⟨h.pageBegun hl hr, fun _ => Nat.succ_ne_zero _⟩
  | beyond hb hl hr => exact ⟨h.settled, fun hf => by cases hf⟩

/-- Whatever comes of a symbol at the cursor. -/
theorem fit (h : sheet.Sound s last) (hm : s.measure ≠ 0) (symbol : Symbol) :
    sheet.Sound (sheet.fit symbol s).state (if (sheet.fit symbol s).fault = none then some s.y
      else last) := by
  have hc := sheet.fitting symbol s
  generalize sheet.fit symbol s = o at hc ⊢
  cases hc with
  | overfull hover => exact h
  | refused drawn w fault hw hon hf =>
    cases hw with
    | inl hw =>
      subst hw
      exact h.settled
    | inr hw =>
      subst hw
      exact h
  | placed drawn w hroom hon hw =>
    refine ⟨hroom, h.counted, h.last_page, fun h0 => absurd h0 hm, ?_, ?_⟩
    · intro q hq
      have hy := h.height q hq
      simp only [hy]
      push_cast
      ring
    · intro p hp
      cases hw with
      | inl hw =>
        subst hw
        cases hp
      | inr hw =>
        obtain ⟨he, rfl⟩ := hw
        obtain rfl : s.y = p := Option.some.inj hp
        refine ⟨hm, ?_, rfl⟩
        cases halves_of_isSingleEighth he with
        | inl hd =>
          left
          simp [hd]
        | inr hd =>
          right
          simp [hd]

theorem add (h : sheet.Sound s last) (symbol : Symbol) :
    sheet.Sound (sheet.perform s (.add symbol)).state
      ((sheet.placedBy s (.add symbol)).or last) := by
  have hadd : sheet.perform s (.add symbol) = (sheet.boundary s).andThen (sheet.fit symbol) := rfl
  obtain ⟨hs, hm⟩ := h.boundary
  cases hf : (sheet.boundary s).fault with
  | some fault =>
    have hp : sheet.placedBy s (.add symbol) = none := by
      simp [placedBy, Sheet.add, Outcome.andThen_of_fault hf, hf]
    rw [hadd, Outcome.andThen_of_fault hf, hp]
    exact hs
  | none =>
    have hfit := hs.fit (hm hf) symbol
    have hp : (sheet.placedBy s (.add symbol)).or last =
        if (sheet.fit symbol (sheet.boundary s).state).fault = none then
          some (sheet.boundary s).state.y else last := by
      simp only [placedBy, Sheet.add, Outcome.andThen_of_ok hf]
      split <;> rfl
    rw [hadd, Outcome.andThen_of_ok hf, hp]
    exact hfit

theorem close (h : sheet.Sound s last) : sheet.Sound s.close.state last := by
  cases ho : s.pageOpen with
  | true =>
    rw [State.close_of_pageOpen ho]
    exact { h.settled with }
  | false =>
    rw [State.close_of_not_pageOpen ho]
    exact h

theorem perform (h : sheet.Sound s last) (call : Call) :
    sheet.Sound (sheet.perform s call).state ((sheet.placedBy s call).or last) := by
  cases call with
  | add symbol => exact h.add symbol
  | close => exact h.close

/-- By induction on the calls. -/
theorem behindCalls (h : sheet.Sound s last) (calls : List Call) :
    sheet.Sound (sheet.stateBehindCalls s calls) (sheet.lastPlaced s last calls) := by
  induction calls generalizing s last with
  | nil => exact h
  | cons call rest ih => exact ih (h.perform call)

theorem page_eq_ceil (h : sheet.Sound s last) :
    (s.page : ℤ) = ⌈(s.measure : ℚ) / sheet.format.measuresPerPage⌉ := by
  have hk : (0 : ℚ) < sheet.format.measuresPerPage := by exact_mod_cast sheet.format.measures_pos
  have hlow : (sheet.format.measuresPerPage * s.page : ℚ) <
      s.measure + sheet.format.measuresPerPage := by
    exact_mod_cast h.last_page
  have hup : (s.measure : ℚ) ≤ sheet.format.measuresPerPage * s.page := by
    exact_mod_cast h.measure_le.2
  symm
  rw [Int.ceil_eq_iff, lt_div_iff₀ hk, div_le_iff₀ hk]
  push_cast
  constructor <;> linarith

theorem heightAfter_eq {q : Nat} (h : sheet.Sound s last) (hq : s.page = q + 1) :
    sheet.heightAfter q =
      sheet.heightOf (min sheet.format.measuresPerPage (sheet.total - sheet.format.measuresPerPage *
        (s.page - 1)))
        (decide (sheet.total ≤ sheet.format.measuresPerPage * s.page)) := by
  have hlow := h.last_page
  have hup := h.measure_le.1
  rw [hq] at hlow ⊢
  push_cast at hlow ⊢
  rw [mul_add, mul_one] at hlow ⊢
  rw [add_sub_cancel_right]
  have hlast : sheet.remaining q ≤ sheet.format.measuresPerPage ↔
      sheet.total ≤ sheet.format.measuresPerPage * (q : ℤ) + sheet.format.measuresPerPage := by
    rw [remaining]
    omega
  have hn := sheet.measuresAfter_eq_min (show 0 ≤ sheet.remaining q by rw [remaining]; omega)
  rw [heightAfter, hn, decide_eq_decide.mpr hlast]
  rfl

theorem begun_le_measuresAfter {q : Nat} (h : sheet.Sound s last) (hq : s.page = q + 1) :
    (s.measure : ℤ) - sheet.format.measuresPerPage * q ≤ sheet.measuresAfter q := by
  have hlow := h.last_page
  obtain ⟨htotal, hup⟩ := h.measure_le
  rw [hq] at hlow hup
  push_cast at hlow hup
  rw [mul_add, mul_one] at hlow hup
  rw [sheet.measuresAfter_eq_min (by rw [remaining]; omega), remaining]
  omega

theorem y_nonneg (h : sheet.Sound s last) : 0 ≤ s.y := by
  by_cases hm : s.measure = 0
  · rw [(h.fresh hm).2]
  · obtain ⟨q, hq⟩ := Nat.exists_eq_succ_of_ne_zero (h.page_pos hm)
    have hy := h.height q hq
    have hfilled : (s.filled : ℤ) ≤ 2 * sheet.format.beatsPerMeasure := by
      exact_mod_cast h.filled_le
    have hfloor : beatHeight * ((sheet.format.beatsPerMeasure + 1) * sheet.measuresAfter q) ≤
        sheet.heightAfter q := by
      have hend : (0 : ℤ) ≤
          if sheet.remaining q ≤ sheet.format.measuresPerPage then beatHeight else 0 := by
        split <;> simp [beatHeight]
      simp only [heightAfter, heightOf, decide_eq_true_eq]
      linarith
    have hroom := Int.mul_le_mul_of_nonneg_left (h.begun_le_measuresAfter hq)
      (show (0 : ℤ) ≤ sheet.format.beatsPerMeasure + 1 by omega)
    simp only [px, beatHeight] at hy hfloor
    rw [hy]
    linarith

end Sheet.Sound

namespace State

def beats (s : State) : ℚ := (s.filled : ℚ) / 2

def height (s : State) : ℚ := (s.y : ℚ) / 2

end State

/-- In every state: the measure is filled at most to its end, and only if one is under way; measures
begun and measures left make up the pages begun, as far as they are counted; the cursor stands where
bars and beats put it, on the canvas; and a note that waits was placed last. -/
theorem state_obeys (f : PageFormat) (total : Nat) (calls : List Call) :
    let sheet : Sheet := ⟨f, total⟩
    let s := sheet.stateBehindCalls {} calls
    (0 ≤ s.beats ∧ s.beats ≤ f.beatsPerMeasure) ∧
      s.measure + s.measuresLeft = min total (f.measuresPerPage * s.page) ∧
      (s.measuresLeft ≤ f.measuresPerPage ∧ (1 ≤ s.page → s.measuresLeft < f.measuresPerPage)) ∧
      (s.page : ℤ) = ⌈(s.measure : ℚ) / f.measuresPerPage⌉ ∧
      (s.measure = 0 → s.beats = 0) ∧
      (1 ≤ s.measure →
        s.height =
          sheet.heightOf (min f.measuresPerPage (total - f.measuresPerPage * (s.page - 1)))
              (decide ((total : ℤ) ≤ f.measuresPerPage * s.page)) -
            15 *
              ((s.measure - f.measuresPerPage * (s.page - 1) - 1) * (f.beatsPerMeasure + 1) + 1) -
            15 * s.beats) ∧
      0 ≤ s.height ∧
      ∀ p, s.waiting = some p →
        1 ≤ s.measure ∧ ((p : ℚ) / 2 - s.height = 15 ∨ (p : ℚ) / 2 - s.height = 45 / 2) ∧
          sheet.lastPlaced {} none calls = some p := by
  intro sheet s
  have h : sheet.Sound s (sheet.lastPlaced {} none calls) :=
    (Sheet.Sound.start (Int.natCast_nonneg total)).behindCalls calls
  have hcounted : (s.measure + s.measuresLeft : ℤ) = min (total : ℤ) (f.measuresPerPage * s.page) :=
    h.counted
  have hlast : (f.measuresPerPage * s.page : ℤ) < s.measure + f.measuresPerPage := h.last_page
  have hleft : s.measuresLeft < f.measuresPerPage := by omega
  refine ⟨⟨?_, ?_⟩, ?_, ⟨?_, ?_⟩, h.page_eq_ceil, ?_, ?_, ?_, ?_⟩
  · simp only [State.beats]
    positivity
  · have hf : (s.filled : ℚ) ≤ 2 * f.beatsPerMeasure := by exact_mod_cast h.filled_le
    rw [State.beats, div_le_iff₀ (by norm_num)]
    linarith
  · exact_mod_cast hcounted
  · exact hleft.le
  · exact fun _ => hleft
  · intro hm
    simp [State.beats, (h.fresh hm).1]
  · intro hm
    obtain ⟨q, hq⟩ := Nat.exists_eq_succ_of_ne_zero (h.page_pos (Nat.one_le_iff_ne_zero.mp hm))
    have hy := h.height q hq
    rw [h.heightAfter_eq hq] at hy
    rw [State.height, hy, State.beats, hq]
    simp only [px, beatHeight]
    push_cast
    ring
  · have hy : (0 : ℚ) ≤ s.y := by exact_mod_cast h.y_nonneg
    rw [State.height]
    positivity
  · intro p hp
    obtain ⟨hm, hd, hlast⟩ := h.waits p hp
    refine ⟨Nat.one_le_iff_ne_zero.mpr hm, ?_, hlast⟩
    cases hd with
    | inl hd =>
      left
      rw [State.height, hd]
      simp only [beatHeight]
      push_cast
      ring
    | inr hd =>
      right
      rw [State.height, hd]
      simp only [beatHeight]
      push_cast
      ring

end Tablature.Engraving
