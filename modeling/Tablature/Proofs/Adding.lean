import Tablature.Proofs.Cursor

/-!
One symbol more. `Sheet.add` behind symbols that take a given time: an accepted moment draws its
frame and its glyph and leads to the state behind it, and a refused one leaves a sheet that
`State.close` ends as if only its frame and a broken glyph had been added. -/
namespace Tablature.Engraving
open Tablature.Music

def ending : List Mark := endGlyph ++ [.closeGroup, .finish]

theorem State.close_of_pageOpen {s : State} (h : s.pageOpen = true) :
    s.close = ⟨tapers s.waiting ++ ending, { s with waiting := none, pageOpen := false },
      none⟩ := by
  simp [close, h, settle_eq, Outcome.andThen, ending]

theorem State.close_of_not_pageOpen {s : State} (h : s.pageOpen = false) :
    s.close = ⟨[.finish], s, none⟩ := by
  simp [close, h, Outcome.andThen]

namespace Sheet
variable (sheet : Sheet)

def outline (m : Moment) : List Mark := sheet.frame m.start ++ glyph (sheet.cursor m.start) m.symbol

/-- What a refused moment leaves on the sheet. -/
def remnant (m : Moment) : List Mark :=
  if m.Fits sheet.format then brokenGlyph (sheet.cursor m.start) m.symbol else []

def stateBehind (m : Moment) : Option HalfPixel → State := sheet.stateAt (m.start + m.symbol.halves)

theorem fit_ready {m : Moment} (h : m.Fits sheet.format) (waiting : Option HalfPixel) :
    sheet.fit m.symbol (sheet.ready m.start waiting) =
      ((sheet.ready m.start waiting).place m.symbol).andThen (State.advance m.symbol) :=
  if_neg (Nat.not_lt.mpr h)

theorem advance_eq_stateBehind {m : Moment} (h : m.Fits sheet.format) (waiting : Option HalfPixel) :
    State.advance m.symbol (sheet.ready m.start waiting) =
      ⟨[], sheet.stateBehind m waiting, none⟩ := by
  have ha := sheet.advance_ready m.symbol.duration.halves_pos h waiting
  exact congrArg (Outcome.mk [] · none) ha

section Accepted
variable {m : Moment} (ha : m.Accepted sheet.format)
  (ht : (sheet.format.measureOf m.start : Int) < sheet.total)
include ha ht

theorem add_first (he : isSingleEighth m.symbol) :
    sheet.add m.symbol (sheet.stateAt m.start none) =
      ⟨sheet.outline m, sheet.stateBehind m (some (sheet.cursor m.start)), none⟩ := by
  have hb := sheet.boundary_stateAt ht none
  have hp := State.place_first he ha.2 (s := sheet.ready m.start none) rfl
  have hv := sheet.advance_eq_stateBehind ha.1 (some (sheet.cursor m.start))
  simp only [tapers, Option.toList_none, List.map_nil, List.nil_append, ite_self] at hb
  rw [add, hb, Outcome.andThen_of_ok rfl, sheet.fit_ready ha.1, hp]
  rw [Outcome.andThen_of_ok rfl]
  simp only [ready, outline] at hv ⊢
  rw [hv]
  simp

theorem add_other (he : isSingleEighth m.symbol = false) (waiting : Option HalfPixel) :
    sheet.add m.symbol (sheet.stateAt m.start waiting) =
      ⟨tapers waiting ++ (sheet.outline m ++ flag (sheet.cursor m.start) m.symbol),
        sheet.stateBehind m none, none⟩ := by
  have hb := sheet.boundary_stateAt ht waiting
  have hv := sheet.advance_eq_stateBehind ha.1 none
  by_cases hs : sheet.format.sinceBar m.start = 0
  · have hp := State.place_other (s := sheet.ready m.start none) he ha.2
    rw [add, hb, if_pos hs, Outcome.andThen_of_ok rfl, sheet.fit_ready ha.1, hp,
      Outcome.andThen_of_ok rfl]
    simp only [ready, outline] at hv ⊢
    rw [hv]
    simp [tapers]
  · have hp := State.place_other (s := sheet.ready m.start waiting) he ha.2
    rw [add, hb, if_neg hs, Outcome.andThen_of_ok rfl, sheet.fit_ready ha.1, hp,
      Outcome.andThen_of_ok rfl]
    simp only [ready, outline] at hv ⊢
    rw [hv]
    simp [frame, sheet.turn_of_sinceBar_ne hs, sheet.bar_of_sinceBar_ne hs]

/-- Within a measure a second single eighth note is joined to the one that waits. -/
theorem add_second (he : isSingleEighth m.symbol) (hs : sheet.format.sinceBar m.start ≠ 0)
    (earlier : HalfPixel) :
    sheet.add m.symbol (sheet.stateAt m.start (some earlier)) =
      ⟨sheet.outline m ++ [beamGlyph (sheet.cursor m.start) earlier], sheet.stateBehind m none,
        none⟩ := by
  have hb := sheet.boundary_stateAt ht (some earlier)
  have hp := State.place_second he ha.2 (s := sheet.ready m.start (some earlier)) rfl
  have hv := sheet.advance_eq_stateBehind ha.1 none
  rw [add, hb, if_neg hs, Outcome.andThen_of_ok rfl, sheet.fit_ready ha.1, hp,
    Outcome.andThen_of_ok rfl]
  simp only [ready, outline] at hv ⊢
  rw [hv]
  simp

end Accepted

theorem add_at_bar {m : Moment} (ht : (sheet.format.measureOf m.start : Int) < sheet.total)
    (hs : sheet.format.sinceBar m.start = 0) (waiting : Option HalfPixel) :
    sheet.add m.symbol (sheet.stateAt m.start waiting) =
      ⟨tapers waiting ++ (sheet.add m.symbol (sheet.stateAt m.start none)).drawn,
        (sheet.add m.symbol (sheet.stateAt m.start none)).state,
        (sheet.add m.symbol (sheet.stateAt m.start none)).fault⟩ := by
  rw [add, add, sheet.boundary_stateAt ht waiting, sheet.boundary_stateAt ht none, if_pos hs,
    if_pos hs, Outcome.andThen_of_ok rfl, Outcome.andThen_of_ok rfl]
  simp [tapers]

theorem add_unjoined {m : Moment} (ha : m.Accepted sheet.format)
    (ht : (sheet.format.measureOf m.start : Int) < sheet.total)
    (hj : sheet.format.sinceBar m.start = 0 ∨ isSingleEighth m.symbol = false)
    (waiting : Option HalfPixel) :
    sheet.add m.symbol (sheet.stateAt m.start waiting) =
      ⟨tapers waiting ++ (sheet.add m.symbol (sheet.stateAt m.start none)).drawn,
        (sheet.add m.symbol (sheet.stateAt m.start none)).state,
        (sheet.add m.symbol (sheet.stateAt m.start none)).fault⟩ := by
  rcases hj with hs | he
  · exact sheet.add_at_bar ht hs waiting
  · rw [sheet.add_other ha ht he waiting, sheet.add_other ha ht he none]
    simp [tapers]

/-- A refused moment: the fault, and how the sheet ends when it is closed then. -/
theorem add_refused {m : Moment} (ha : ¬m.Accepted sheet.format)
    (ht : (sheet.format.measureOf m.start : Int) < sheet.total) (waiting : Option HalfPixel) :
    (sheet.add m.symbol (sheet.stateAt m.start waiting)).fault = m.fault? sheet.format ∧
      (sheet.add m.symbol (sheet.stateAt m.start waiting)).drawn ++
          (sheet.add m.symbol (sheet.stateAt m.start waiting)).state.close.drawn =
        tapers waiting ++ (sheet.frame m.start ++ sheet.remnant m) ++ ending := by
  have hf : ∀ w, ∃ w' drawn, sheet.fit m.symbol (sheet.ready m.start w) =
      ⟨drawn, sheet.ready m.start w', m.fault? sheet.format⟩ ∧
      drawn ++ tapers w' = tapers w ++ sheet.remnant m := by
    intro w
    by_cases hfit : m.Fits sheet.format
    · have hd : ¬Drawable m.symbol := fun hd => ha ⟨hfit, hd⟩
      obtain ⟨w', drawn, hp, -, hdrawn⟩ := (sheet.ready m.start w).place_refused hd
      obtain ⟨fault, hfault⟩ :=
        Option.ne_none_iff_exists'.mp fun hn => hd ((glyphFault?_eq_none_iff _).mp hn)
      refine ⟨w', drawn, ?_, by simpa [remnant, hfit, ready] using hdrawn⟩
      rw [sheet.fit_ready hfit, hp, Outcome.andThen_of_fault hfault]
      simp [Moment.fault?, hfit, ready]
    · refine ⟨w, [], ?_, by simp [remnant, hfit]⟩
      have hlt : sheet.format.measureHalves < sheet.format.sinceBar m.start + m.symbol.halves :=
        Nat.not_le.mp hfit
      simp [fit, ready, hlt, Moment.fault?, hfit]
  have hclose : ∀ w, (sheet.ready m.start w).close.drawn = tapers w ++ ending := by
    intro w
    rw [State.close_of_pageOpen rfl]
    rfl
  rw [add, sheet.boundary_stateAt ht waiting]
  by_cases hs : sheet.format.sinceBar m.start = 0
  · obtain ⟨w', drawn, hfit, hdrawn⟩ := hf none
    rw [if_pos hs, Outcome.andThen_of_ok rfl, hfit, hclose]
    have hd : drawn ++ tapers w' = sheet.remnant m := by simpa [tapers] using hdrawn
    simp [← hd]
  · obtain ⟨w', drawn, hfit, hdrawn⟩ := hf waiting
    rw [if_neg hs, Outcome.andThen_of_ok rfl, hfit, hclose]
    simp only [frame, sheet.turn_of_sinceBar_ne hs, sheet.bar_of_sinceBar_ne hs, List.nil_append,
      true_and]
    rw [← List.append_assoc, hdrawn]

end Sheet
end Tablature.Engraving
