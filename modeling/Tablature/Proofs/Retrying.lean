import Tablature.Proofs.Calls

/-!
A symbol that fails does not disturb the symbols behind it. It may have ended a page and begun a
measure before it failed, but only where any other symbol would have done so, and a measure that has
begun is not begun again. So all that is added behind it finds its place, or fails, as if the failed
symbol had not been there (`failed_symbol_disturbs_nothing`). Only what is drawn, and the note that
waits for a beam, can tell the difference. -/
namespace Tablature.Engraving
open Tablature.Music

/-- The state but for the note that waits. -/
def State.standing (s : State) : State := { s with waiting := none }

/-- What a step comes to, apart from its marks and from the note that waits behind it. -/
def Outcome.told (o : Outcome) : Option Fault × State := (o.fault, o.state.standing)

theorem Outcome.told_andThen {o o' : Outcome} {step : State → Outcome} (h : o.told = o'.told)
    (hstep : ∀ s s', s.standing = s'.standing → (step s).told = (step s').told) :
    (o.andThen step).told = (o'.andThen step).told := by
  obtain ⟨hfault, hstate⟩ := Prod.mk.inj h
  cases hf : o.fault with
  | none =>
    rw [andThen_of_ok hf, andThen_of_ok (hfault.symm.trans hf)]
    exact hstep _ _ hstate
  | some fault =>
    rw [andThen_of_fault hf, andThen_of_fault (hfault.symm.trans hf)]
    exact h

theorem State.told_place (symbol : Symbol) (s : State) :
    (s.place symbol).told = (glyphFault? symbol, s.standing) := by
  by_cases hd : Drawable symbol
  · rw [(glyphFault?_eq_none_iff symbol).mpr hd]
    cases he : isSingleEighth symbol with
    | true =>
      cases hw : s.waiting with
      | none =>
        rw [place_first he hd hw]
        rfl
      | some earlier =>
        rw [place_second he hd hw]
        rfl
    | false =>
      rw [place_other he hd]
      rfl
  · obtain ⟨w, drawn, hplace, -, -⟩ := s.place_refused hd
    rw [hplace]
    rfl

namespace Sheet
variable (sheet : Sheet)

/-- The note that waits is settled before anything else happens at a bar, so nothing else depends on
it. -/
theorem told_boundary (s : State) : (sheet.boundary s).told = (sheet.boundary s.standing).told := by
  by_cases h : sheet.AtBar s
  · have hcross : ∀ s', sheet.AtBar s' → (sheet.boundary s').told =
        (((if s'.measuresLeft = 0 then sheet.turnPage s'.standing
          else ⟨[], s'.standing, none⟩).andThen
          State.beginMeasure)).told := by
      intro s' h'
      have hb : sheet.boundary s' =
          (s'.settle.andThen fun s => if s.measuresLeft = 0 then sheet.turnPage s
            else ⟨[], s, none⟩).andThen
            State.beginMeasure := if_pos h'
      rw [hb, Outcome.andThen_assoc, Outcome.andThen_of_ok s'.settle_fault, State.settle_eq]
      rfl
    rw [hcross s h, hcross s.standing h]
    rfl
  · have hb : sheet.boundary s = ⟨[], s, none⟩ := if_neg h
    have hb' : sheet.boundary s.standing = ⟨[], s.standing, none⟩ := if_neg h
    rw [hb, hb']
    rfl

def fitted (symbol : Symbol) (s : State) : Option Fault × State :=
  if sheet.format.measureHalves < s.filled + symbol.halves then
    (some (.overfull sheet.format.beatsPerMeasure s.measure (s.filled + symbol.halves)), s)
  else if (glyphFault? symbol).isSome then (glyphFault? symbol, s)
  else (none, { s with y := s.y - beatHeight * symbol.halves, filled := s.filled + symbol.halves })

theorem told_fit (symbol : Symbol) (s : State) :
    (sheet.fit symbol s).told = sheet.fitted symbol s.standing := by
  by_cases hover : sheet.format.measureHalves < s.filled + symbol.halves
  · have hfitted : sheet.fitted symbol s.standing =
        (some (.overfull sheet.format.beatsPerMeasure s.measure (s.filled + symbol.halves)),
          s.standing) :=
      if_pos hover
    rw [fit, if_pos hover, hfitted]
    rfl
  · have hfitted : sheet.fitted symbol s.standing = _ := if_neg hover
    obtain ⟨hfault, hstate⟩ := Prod.mk.inj (s.told_place symbol)
    rw [fit, if_neg hover, hfitted]
    cases hg : glyphFault? symbol with
    | some fault =>
      rw [Outcome.andThen_of_fault (hfault.trans hg), s.told_place, hg]
      rfl
    | none =>
      rw [Outcome.andThen_of_ok (hfault.trans hg), ← hstate]
      rfl

theorem told_fit_congr (symbol : Symbol) {s s' : State} (h : s.standing = s'.standing) :
    (sheet.fit symbol s).told = (sheet.fit symbol s').told := by
  rw [told_fit, told_fit, h]

theorem standing_of_fit_failed {symbol : Symbol} {s : State}
    (h : (sheet.fit symbol s).fault ≠ none) :
    (sheet.fit symbol s).state.standing = s.standing := by
  have htold := sheet.told_fit symbol s
  unfold fitted at htold
  split at htold
  · exact (Prod.mk.inj htold).2
  · split at htold
    · exact (Prod.mk.inj htold).2
    · exact absurd (Prod.mk.inj htold).1 h

theorem told_add_congr (symbol : Symbol) {s s' : State} (h : s.standing = s'.standing) :
    (sheet.add symbol s).told = (sheet.add symbol s').told := by
  apply Outcome.told_andThen
  · rw [told_boundary, h, ← told_boundary]
  · exact fun _ _ => sheet.told_fit_congr symbol

theorem not_atBar_boundary {s : State} (h : (sheet.boundary s).fault = none) :
    ¬sheet.AtBar (sheet.boundary s).state := by
  have hc := sheet.crossing s
  have hbegun : ∀ s' : State, ¬sheet.AtBar s'.measureBegun := by
    rintro s' (hmeasure | hfilled)
    · exact Nat.succ_ne_zero _ hmeasure
    · exact sheet.format.measureHalves_pos.ne hfilled
  generalize sheet.boundary s = o at hc h ⊢
  cases hc with
  | none hbar => exact hbar
  | measure => exact hbegun _
  | page => exact hbegun _
  | beyond => cases h

theorem state_boundary_failed {s : State} {fault : Fault}
    (h : (sheet.boundary s).fault = some fault) :
    (sheet.boundary s).state = s.standing := by
  have hc := sheet.crossing s
  generalize sheet.boundary s = o at hc h ⊢
  cases hc with
  | none | measure | page => cases h
  | beyond => rfl

/-- What has been begun for a symbol is not begun again for the next one, and what was refused is
refused again. -/
theorem told_boundary_boundary (s : State) :
    (sheet.boundary (sheet.boundary s).state).told = (sheet.boundary s).told := by
  cases hf : (sheet.boundary s).fault with
  | none =>
    have hstill : sheet.boundary (sheet.boundary s).state = ⟨[], (sheet.boundary s).state, none⟩ :=
      if_neg (sheet.not_atBar_boundary hf)
    rw [hstill, Outcome.told, Outcome.told, hf]
  | some fault => rw [sheet.state_boundary_failed hf, ← told_boundary]

theorem standing_of_add_failed {symbol : Symbol} {s : State}
    (h : (sheet.add symbol s).fault ≠ none) :
    (sheet.add symbol s).state.standing = (sheet.boundary s).state.standing := by
  cases hb : (sheet.boundary s).fault with
  | some fault => rw [add, Outcome.andThen_of_fault hb]
  | none =>
    rw [add, Outcome.andThen_of_ok hb] at h ⊢
    exact sheet.standing_of_fit_failed h

/-- The next symbol comes to the same behind a symbol that failed and without it. -/
theorem told_add_behind_failed {failed : Symbol} {s : State} (h : (sheet.add failed s).fault ≠ none)
    (symbol : Symbol) :
    (sheet.add symbol (sheet.add failed s).state).told = (sheet.add symbol s).told := calc
  (sheet.add symbol (sheet.add failed s).state).told =
    (sheet.add symbol (sheet.boundary s).state).told :=
    sheet.told_add_congr symbol (sheet.standing_of_add_failed h)
  _ = (sheet.add symbol s).told :=
    Outcome.told_andThen (sheet.told_boundary_boundary s) fun _ _ => sheet.told_fit_congr symbol

/-- By induction on the symbols, which carry the likeness of two states from one to the next. -/
theorem told_outcomes_congr (symbols : List Symbol) {s s' : State} (h : s.standing = s'.standing) :
    (sheet.outcomes s (symbols.map .add)).map Outcome.told =
      (sheet.outcomes s' (symbols.map .add)).map Outcome.told := by
  induction symbols generalizing s s' with
  | nil => rfl
  | cons symbol rest ih =>
    have hadd := sheet.told_add_congr symbol h
    simp only [List.map_cons, outcomes, perform, hadd, ih (Prod.mk.inj hadd).2]

theorem told_outcomes_behind_failed {failed : Symbol} {s : State}
    (h : (sheet.add failed s).fault ≠ none) (symbols : List Symbol) :
    (sheet.outcomes (sheet.add failed s).state (symbols.map .add)).map Outcome.told =
      (sheet.outcomes s (symbols.map .add)).map Outcome.told := by
  cases symbols with
  | nil => rfl
  | cons symbol rest =>
    have hadd := sheet.told_add_behind_failed h symbol
    have hrest := sheet.told_outcomes_congr rest (Prod.mk.inj hadd).2
    simp only [List.map_cons, outcomes, perform, hadd, hrest]

def placed : State → List Symbol → List Symbol
  | _, [] => []
  | s, symbol :: rest =>
    if (sheet.add symbol s).fault = none then symbol :: placed (sheet.add symbol s).state rest
    else placed (sheet.add symbol s).state rest

/-- A run in which symbols fail places the others as the run without them does. -/
theorem told_placed (symbols : List Symbol) (s : State) :
    (sheet.outcomes s ((sheet.placed s symbols).map .add)).map Outcome.told =
      ((sheet.outcomes s (symbols.map .add)).map Outcome.told).filter fun told =>
        told.1 = none := by
  induction symbols generalizing s with
  | nil => rfl
  | cons symbol rest ih =>
    by_cases h : (sheet.add symbol s).fault = none
    · simp [placed, outcomes, perform, Outcome.told, h, ← ih]
    · have hbehind :=
        sheet.told_outcomes_behind_failed h (sheet.placed (sheet.add symbol s).state rest)
      rw [placed, if_neg h, ← hbehind, ih]
      simp [outcomes, perform, Outcome.told, h]

end Sheet

/-- In any state, whatever calls have led to it and whichever of them failed: a symbol that fails
there leaves a sheet on which every other symbol comes to the same as without it, whether it is
placed or fails, and with which fault; the page, the measure, its filling and the cursor are the
same behind it. The failed symbol fails again in the same way, and all symbols that are added one
after the other behind it come to the same as without it. -/
theorem failed_symbol_disturbs_nothing {sheet : Sheet} {s : State} {failed : Symbol} {fault : Fault}
    (h : (sheet.add failed s).fault = some fault) :
    (∀ symbol,
      (sheet.add symbol (sheet.add failed s).state).fault = (sheet.add symbol s).fault ∧
      (sheet.add symbol (sheet.add failed s).state).state.standing =
        (sheet.add symbol s).state.standing) ∧
    (sheet.add failed (sheet.add failed s).state).fault = some fault ∧
    ∀ symbols : List Symbol,
      (sheet.outcomes (sheet.add failed s).state (symbols.map .add)).map Outcome.told =
        (sheet.outcomes s (symbols.map .add)).map Outcome.told := by
  have hne : (sheet.add failed s).fault ≠ none := by simp [h]
  refine ⟨fun symbol => Prod.mk.inj (sheet.told_add_behind_failed hne symbol), ?_,
    sheet.told_outcomes_behind_failed hne⟩
  exact (Prod.mk.inj (sheet.told_add_behind_failed hne failed)).1.trans h

/-- A measure is full with a note that waits. A note out of reach ends the page, begins the next one
and fails there; a rest added behind it stands where it would have stood without it. -/
theorem rest_behind_outOfRange :
    let sheet : Sheet := ⟨{ beatsPerMeasure := 1, measuresPerPage := 1 }, 2⟩
    let s := sheet.stateBehindCalls {} [.add ⟨⟨.eighth, false⟩, .note 0⟩]
    let failed : Symbol := ⟨⟨.eighth, false⟩, .note 17⟩
    let symbol : Symbol := ⟨⟨.eighth, false⟩, .rest⟩
    (sheet.add failed s).fault = some (.outOfRange 17) ∧ (sheet.add failed s).state.page ≠ s.page ∧
      (sheet.add symbol (sheet.add failed s).state).fault = (sheet.add symbol s).fault ∧
      (sheet.add symbol (sheet.add failed s).state).state.standing =
        (sheet.add symbol s).state.standing ∧
      (sheet.add failed (sheet.add failed s).state).fault = some (.outOfRange 17) := by
  intro sheet s failed symbol
  have hfault : (sheet.add failed s).fault = some (.outOfRange 17) := by decide +kernel
  obtain ⟨hnext, hagain, -⟩ := failed_symbol_disturbs_nothing hfault
  exact ⟨hfault, by decide +kernel, (hnext symbol).1, (hnext symbol).2, hagain⟩

end Tablature.Engraving
