import Mathlib.Tactic.Ring
import Tablature.Engraving.Sheet
import Tablature.Proofs.SymbolGlyph

/-!
Where the drawing stands. `Sheet.cursor` computes the height of a symbol from its time alone.
`Sheet.stateAt` is the state behind symbols that take a given time, and `Sheet.ready` the state in
which the next one is placed; the lemmas say how a step leads from the one to the other. -/
namespace Tablature.Engraving
open Tablature.Music

namespace Sheet
variable (sheet : Sheet)

/-- The height of a symbol that begins at a time. -/
def cursor (t : Nat) : HalfPixel :=
  px (sheet.heightAfter (sheet.format.pageOf t) -
      beatHeight * ((sheet.format.beatsPerMeasure + 1) * sheet.format.placeOnPage t + 1)) -
    beatHeight * sheet.format.sinceBar t

def ready (t : Nat) (waiting : Option HalfPixel) : State where
  page := sheet.format.pageOf t + 1
  pageOpen := true
  measuresLeft := sheet.measuresAfter (sheet.format.pageOf t) - (sheet.format.placeOnPage t + 1)
  measure := sheet.format.measureOf t + 1
  filled := sheet.format.sinceBar t
  y := sheet.cursor t
  waiting := waiting

/-- The state behind symbols that take a time: it is reached in the measure of the last half beat
before it. -/
def stateAt (sheet : Sheet) : Nat → Option HalfPixel → State
  | 0, waiting => { waiting := waiting }
  | t + 1, waiting =>
    { sheet.ready t waiting with
      filled := sheet.format.sinceBar t + 1
      y := sheet.cursor t - beatHeight }

def Turns (t : Nat) : Prop := sheet.format.sinceBar t = 0 ∧ sheet.format.placeOnPage t = 0

instance (t : Nat) : Decidable (sheet.Turns t) := inferInstanceAs (Decidable (_ ∧ _))

/-- Ends the page before and begins the one of the time, if that is where it begins. -/
def turn (t : Nat) : List Mark :=
  if sheet.Turns t then
    (if t = 0 then [] else [.closeGroup]) ++
      sheet.origin (sheet.format.pageOf t) :: pageGlyph (sheet.heightAfter (sheet.format.pageOf t))
  else []

def bar (t : Nat) : List Mark :=
  if sheet.format.sinceBar t = 0 then
    barGlyph (sheet.cursor t + px 14) (sheet.format.measureOf t + 1)
  else []

theorem advance_ready {t d : Nat} (hd : 0 < d)
    (h : sheet.format.sinceBar t + d ≤ sheet.format.measureHalves) (waiting : Option HalfPixel) :
    { sheet.ready t waiting with
      filled := sheet.format.sinceBar t + d
      y := sheet.cursor t - beatHeight * d } = sheet.stateAt (t + d) waiting := by
  obtain ⟨e, rfl⟩ : ∃ e, d = e + 1 := ⟨d - 1, by omega⟩
  have hlt : sheet.format.sinceBar t + e < sheet.format.measureHalves := by omega
  have hm : sheet.format.measureOf (t + e) = sheet.format.measureOf t := div_add_of_lt hlt
  have hs : sheet.format.sinceBar (t + e) = sheet.format.sinceBar t + e := mod_add_of_lt hlt
  have hy : sheet.cursor (t + e) - beatHeight =
      sheet.cursor t - beatHeight * ((e + 1 : Nat) : Int) := by
    simp only [cursor, PageFormat.placeOnPage, PageFormat.pageOf, hm, hs]
    push_cast
    ring
  change _ = sheet.stateAt (t + e + 1) waiting
  simp only [stateAt, ready, hy, hs, PageFormat.placeOnPage, PageFormat.pageOf, hm, Nat.add_assoc]

theorem stateAt_eq_ready {t : Nat} (h : sheet.format.sinceBar t ≠ 0) (waiting : Option HalfPixel) :
    sheet.stateAt t waiting = sheet.ready t waiting := by
  obtain ⟨u, rfl⟩ : ∃ u, t = u + 1 := ⟨t - 1, by
    have : t ≠ 0 := fun h0 => h (by simp [h0, PageFormat.sinceBar])
    omega⟩
  have hlt : sheet.format.sinceBar u + 1 < sheet.format.measureHalves := by
    have hu := sheet.format.sinceBar_lt u
    have hne : sheet.format.sinceBar u + 1 ≠ sheet.format.measureHalves :=
      fun he => h (mod_add_of_eq he)
    omega
  have ha := sheet.advance_ready (t := u) (d := 1) (by decide) (Nat.le_of_lt hlt) waiting
  have hs : sheet.format.sinceBar (u + 1) = sheet.format.sinceBar u + 1 := mod_add_of_lt hlt
  have hm : sheet.format.measureOf (u + 1) = sheet.format.measureOf u := div_add_of_lt hlt
  rw [← ha]
  simp only [ready, cursor, hs, hm, PageFormat.placeOnPage, PageFormat.pageOf]
  push_cast
  simp only [State.mk.injEq, true_and, and_true]
  ring

section Boundary
variable {t : Nat}

theorem stateAt_of_full {u : Nat} (h : sheet.format.sinceBar u + 1 = sheet.format.measureHalves)
    (waiting : Option HalfPixel) :
    sheet.stateAt (u + 1) waiting =
      { sheet.ready u waiting with
        filled := sheet.format.measureHalves
        y := px (sheet.heightAfter (sheet.format.pageOf u) -
          beatHeight * ((sheet.format.beatsPerMeasure + 1) *
            (sheet.format.placeOnPage u + 1))) } := by
  have hM : (sheet.format.sinceBar u : Int) + 1 = 2 * sheet.format.beatsPerMeasure := by
    have : sheet.format.sinceBar u + 1 = 2 * sheet.format.beatsPerMeasure := h
    omega
  have hs : (sheet.format.sinceBar u : Int) = 2 * sheet.format.beatsPerMeasure - 1 := by omega
  simp only [stateAt, h, cursor, hs, px, State.mk.injEq, true_and, and_true]
  ring

theorem remaining_pageOf (t : Nat) : sheet.remaining (sheet.format.pageOf t) =
    sheet.total - sheet.format.measureOf t + sheet.format.placeOnPage t := by
  have hp := sheet.format.pageOf_placeOnPage t
  rw [remaining]
  omega

theorem measuresAfter_eq_min {page : Nat} (h : 0 ≤ sheet.remaining page) :
    (sheet.measuresAfter page : Int) = min (sheet.format.measuresPerPage : Int)
    (sheet.remaining page) := by
  rw [measuresAfter]
  split <;> omega

theorem measuresAfter_sub_eq_zero_iff {u : Nat}
    (h : (sheet.format.measureOf u + 1 : Int) < sheet.total) :
    sheet.measuresAfter (sheet.format.pageOf u) - (sheet.format.placeOnPage u + 1) = 0 ↔
      sheet.format.placeOnPage u + 1 = sheet.format.measuresPerPage := by
  have hj := sheet.format.placeOnPage_lt u
  have hr := sheet.remaining_pageOf u
  have hn := sheet.measuresAfter_eq_min (show 0 ≤ sheet.remaining (sheet.format.pageOf u) by omega)
  omega

theorem beginMeasure_eq_ready (t : Nat) (s : State) (hm : s.measure = sheet.format.measureOf t)
    (hp : s.page = sheet.format.pageOf t + 1) (ho : s.pageOpen = true)
    (hl : s.measuresLeft = sheet.measuresAfter (sheet.format.pageOf t) - sheet.format.placeOnPage t)
    (hs : sheet.format.sinceBar t = 0) (hy : s.y = sheet.cursor t + px beatHeight) :
    s.beginMeasure = ⟨sheet.bar t, sheet.ready t s.waiting, none⟩ := by
  rcases s with ⟨page, pageOpen, left, measure, filled, y, waiting⟩
  simp only at hm hp ho hl hy
  subst hm hp ho hl hy
  have hb : sheet.cursor t + px beatHeight - px 1 = sheet.cursor t + px 14 := by
    simp only [px, beatHeight]
    ring
  have hc : sheet.cursor t + px beatHeight - px beatHeight = sheet.cursor t :=
    add_sub_cancel_right _ _
  simp only [State.beginMeasure, bar, hs, if_true, ready, hb, hc, Nat.sub_sub]

theorem bar_of_sinceBar_ne (h : sheet.format.sinceBar t ≠ 0) : sheet.bar t = [] := by simp [bar, h]

theorem mem_bar {c : Mark} (h : c ∈ sheet.bar t) :
    c ∈ barGlyph (sheet.cursor t + px 14) (sheet.format.measureOf t + 1) := by
  by_cases hs : sheet.format.sinceBar t = 0
  · simpa [bar, hs] using h
  · simp [bar, hs] at h

theorem turn_of_sinceBar_ne (h : sheet.format.sinceBar t ≠ 0) : sheet.turn t = [] := by
  simp [turn, Turns, h]

theorem cursor_of_turns (h : sheet.Turns t) :
    sheet.cursor t + px beatHeight = px (sheet.heightAfter (sheet.format.pageOf t)) := by
  simp only [cursor, h.1, h.2, px]
  push_cast
  ring

theorem boundary_zero (h : 0 < sheet.total) (waiting : Option HalfPixel) :
    sheet.boundary (sheet.stateAt 0 waiting) =
      ⟨tapers waiting ++ (sheet.turn 0 ++ sheet.bar 0), sheet.ready 0 none, none⟩ := by
  have ht : sheet.Turns 0 := ⟨sheet.format.sinceBar_zero, sheet.format.placeOnPage_zero⟩
  have hr : ¬sheet.remaining 0 ≤ 0 := by simpa [remaining] using h
  have hc := sheet.cursor_of_turns ht
  rw [PageFormat.pageOf_zero] at hc
  have hb := sheet.beginMeasure_eq_ready 0
    { page := 1, pageOpen := true, measuresLeft := sheet.measuresAfter 0,
      y := px (sheet.heightAfter 0) }
    (by simp) (by simp) rfl (by simp) sheet.format.sinceBar_zero hc.symm
  simp [boundary, stateAt, State.settle_eq, Outcome.andThen, turnPage, hr, hb, turn, ht]

section Full
variable {u : Nat} (hu : sheet.format.sinceBar u + 1 = sheet.format.measureHalves)
  (hm : sheet.format.measureOf (u + 1) = sheet.format.measureOf u + 1)
  (h : (sheet.format.measureOf (u + 1) : Int) < sheet.total)
include hu hm h

theorem boundary_next_page (hk : sheet.format.placeOnPage u + 1 = sheet.format.measuresPerPage)
    (hs : sheet.format.sinceBar (u + 1) = 0) (waiting : Option HalfPixel) :
    sheet.boundary (sheet.stateAt (u + 1) waiting) =
      ⟨tapers waiting ++ (sheet.turn (u + 1) ++ sheet.bar (u + 1)), sheet.ready (u + 1) none,
        none⟩ := by
  have hroom := (sheet.measuresAfter_sub_eq_zero_iff (by rw [hm] at h; exact_mod_cast h)).mpr hk
  obtain ⟨hpage, hplace⟩ := sheet.format.next_page hm hk
  have hturn : sheet.Turns (u + 1) := ⟨hs, hplace⟩
  have hleft : ¬sheet.remaining (sheet.format.pageOf u + 1) ≤ 0 := by
    have hr := sheet.remaining_pageOf (u + 1)
    rw [hpage, hplace] at hr
    omega
  have hb := sheet.beginMeasure_eq_ready (u + 1)
    { sheet.ready u none with
      page := sheet.format.pageOf u + 1 + 1
      pageOpen := true
      measuresLeft := sheet.measuresAfter (sheet.format.pageOf u + 1)
      filled := sheet.format.measureHalves
      y := px (sheet.heightAfter (sheet.format.pageOf u + 1)) }
    (by simp [ready, hm]) (by simp [hpage]) rfl (by simp [hpage, hplace]) hs
    (by rw [sheet.cursor_of_turns hturn, hpage])
  rw [sheet.stateAt_of_full hu]
  simp only [ready] at hb hroom ⊢
  simp only [boundary, State.settle_eq, Outcome.andThen, turnPage, hroom, hleft, or_true, if_true,
    if_false, hb, turn, hturn, hpage]
  simp

theorem boundary_same_page (hk : sheet.format.placeOnPage u + 1 ≠ sheet.format.measuresPerPage)
    (hs : sheet.format.sinceBar (u + 1) = 0) (waiting : Option HalfPixel) :
    sheet.boundary (sheet.stateAt (u + 1) waiting) =
      ⟨tapers waiting ++ (sheet.turn (u + 1) ++ sheet.bar (u + 1)), sheet.ready (u + 1) none,
        none⟩ := by
  have hroom := mt (sheet.measuresAfter_sub_eq_zero_iff (by rw [hm] at h; exact_mod_cast h)).mp hk
  obtain ⟨hpage, hplace⟩ := sheet.format.same_page hm hk
  have hturn : ¬sheet.Turns (u + 1) := fun ht => by
    have := ht.2
    omega
  have hy : sheet.cursor (u + 1) + px beatHeight = px (sheet.heightAfter (sheet.format.pageOf u) -
      beatHeight * ((sheet.format.beatsPerMeasure + 1) * (sheet.format.placeOnPage u + 1))) := by
    simp only [cursor, hs, hpage, hplace, px]
    push_cast
    ring
  have hb := sheet.beginMeasure_eq_ready (u + 1)
    { sheet.ready u none with
      filled := sheet.format.measureHalves
      y := px (sheet.heightAfter (sheet.format.pageOf u) -
        beatHeight * ((sheet.format.beatsPerMeasure + 1) * (sheet.format.placeOnPage u + 1))) }
    (by simp [ready, hm]) (by simp [ready, hpage]) rfl (by simp [ready, hpage, hplace]) hs hy.symm
  rw [sheet.stateAt_of_full hu]
  simp only [ready] at hb hroom ⊢
  simp only [boundary, State.settle_eq, Outcome.andThen, hroom, or_true, if_true, if_false,
    hb, turn, hturn]
  simp

end Full

/-- Behind a full measure the waiting note settles, and a new measure begins, on a new page if this
one is full. -/
theorem boundary_full (h0 : t ≠ 0) (hs : sheet.format.sinceBar t = 0)
    (h : (sheet.format.measureOf t : Int) < sheet.total) (waiting : Option HalfPixel) :
    sheet.boundary (sheet.stateAt t waiting) =
      ⟨tapers waiting ++ (sheet.turn t ++ sheet.bar t), sheet.ready t none, none⟩ := by
  obtain ⟨u, rfl, hu, hm⟩ := sheet.format.exists_full h0 hs
  by_cases hk : sheet.format.placeOnPage u + 1 = sheet.format.measuresPerPage
  · exact sheet.boundary_next_page hu hm h hk hs waiting
  · exact sheet.boundary_same_page hu hm h hk hs waiting

/-- What is drawn for the time itself: the page and the bar that begin there. -/
def frame (t : Nat) : List Mark := sheet.turn t ++ sheet.bar t

theorem boundary_stateAt (h : (sheet.format.measureOf t : Int) < sheet.total)
    (waiting : Option HalfPixel) :
    sheet.boundary (sheet.stateAt t waiting) =
      if sheet.format.sinceBar t = 0 then ⟨tapers waiting ++ sheet.frame t, sheet.ready t none,
        none⟩
      else ⟨sheet.frame t, sheet.ready t waiting, none⟩ := by
  by_cases hs : sheet.format.sinceBar t = 0
  · rw [if_pos hs]
    by_cases h0 : t = 0
    · subst h0
      exact sheet.boundary_zero (by simpa using h) waiting
    · exact sheet.boundary_full h0 hs h waiting
  · have hlt := sheet.format.sinceBar_lt t
    have hne : sheet.format.sinceBar t ≠ sheet.format.measureHalves := by omega
    rw [if_neg hs, sheet.stateAt_eq_ready hs]
    simp [boundary, ready, hne, frame, sheet.turn_of_sinceBar_ne hs, sheet.bar_of_sinceBar_ne hs]

end Boundary

end Sheet
end Tablature.Engraving
