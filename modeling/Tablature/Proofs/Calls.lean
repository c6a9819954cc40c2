import Tablature.Proofs.Role

/-!
Calls on a sheet, in any order and number. Symbols are added and the sheet is closed, and the caller
goes on behind a call that failed. `Crossing` and `Fitting` say once what the two steps of adding a
symbol can come to, in any state and for any symbol; what holds of all runs is read off them. -/
namespace Tablature.Engraving
open Tablature.Music

inductive Call where
  | add (symbol : Symbol)
  | close
  deriving DecidableEq, Repr

/-- Marks that a page holds: no page and no canvas begins or ends with them. -/
def OnPage (ms : List Mark) : Prop := ∀ c ∈ ms, role c ≠ .canvas ∧ role c ≠ .group

theorem OnPage.append {a b : List Mark} (ha : OnPage a) (hb : OnPage b) : OnPage (a ++ b) := by
  intro c hc
  cases List.mem_append.mp hc with
  | inl hc => exact ha c hc
  | inr hc => exact hb c hc

theorem AllRole.onPage {r : Role} {ms : List Mark} (h : AllRole r ms)
    (hr : r ≠ .canvas ∧ r ≠ .group) : OnPage ms := by
  intro c hc
  rw [h c hc]
  exact hr

theorem onPage_tapers (waiting : Option HalfPixel) : OnPage (tapers waiting) := by
  intro c hc
  obtain ⟨y, -, rfl⟩ := List.mem_map.mp hc
  exact ⟨nofun, nofun⟩

theorem onPage_barGlyph (y : HalfPixel) (measure : Nat) : OnPage (barGlyph y measure) := by
  intro c hc
  cases role_of_mem_barGlyph hc with
  | inl h => simp [h]
  | inr h => simp [h]

theorem onPage_glyph {s : Symbol} (h : Drawable s) (y : HalfPixel) : OnPage (glyph y s) :=
  (allRole_glyph h y).onPage (by decide)

theorem halves_of_isSingleEighth {s : Symbol} (h : isSingleEighth s) :
    s.halves = 2 ∨ s.halves = 3 := by
  obtain ⟨⟨l, dotted⟩, sound⟩ := s
  cases sound with
  | note p =>
    have hl : l = .eighth := by simpa [isSingleEighth] using h
    subst hl
    cases dotted
    · exact Or.inl rfl
    · exact Or.inr rfl
  | chord ps => simp [isSingleEighth] at h
  | rest => simp [isSingleEighth] at h
  | other => simp [isSingleEighth] at h

namespace State

def closing (s : State) : List Mark := if s.pageOpen then [.closeGroup] else []

def measureBegun (s : State) : State :=
  { s with
    measure := s.measure + 1
    measuresLeft := s.measuresLeft - 1
    filled := 0
    y := s.y - px beatHeight
    waiting := none }

end State

namespace Sheet
variable (sheet : Sheet)

def perform (s : State) : Call → Outcome
  | .add symbol => sheet.add symbol s
  | .close => s.close

def outcomes : State → List Call → List Outcome
  | _, [] => []
  | s, call :: rest => sheet.perform s call :: outcomes (sheet.perform s call).state rest

def stateBehindCalls : State → List Call → State
  | s, [] => s
  | s, call :: rest => stateBehindCalls (sheet.perform s call).state rest

def placedBy (s : State) : Call → Option HalfPixel
  | .add symbol =>
    if (sheet.add symbol s).fault = none then some (sheet.boundary s).state.y else none
  | .close => none

/-- The height of the symbol that was placed last, by one of some calls or before them. -/
def lastPlaced : State → Option HalfPixel → List Call → Option HalfPixel
  | _, last, [] => last
  | s, last, call :: rest =>
    lastPlaced (sheet.perform s call).state ((sheet.placedBy s call).or last) rest

def pageBegun (s : State) : State :=
  { s with
    page := s.page + 1
    pageOpen := true
    measuresLeft := sheet.measuresAfter s.page
    y := px (sheet.heightAfter s.page) }

def AtBar (s : State) : Prop := s.measure = 0 ∨ s.filled = sheet.format.measureHalves

/-- All that can happen before a symbol is placed. -/
inductive Crossing (s : State) : Outcome → Prop where
  | none (h : ¬sheet.AtBar s) : Crossing s ⟨[], s, .none⟩
  | measure (h : sheet.AtBar s) (left : s.measuresLeft ≠ 0) :
      Crossing s ⟨tapers s.waiting ++ barGlyph (s.y - px 1) (s.measure + 1), s.measureBegun, .none⟩
  | page (h : sheet.AtBar s) (left : s.measuresLeft = 0) (remains : 0 < sheet.remaining s.page) :
      Crossing s
        ⟨tapers s.waiting ++
          (s.closing ++ sheet.origin s.page :: pageGlyph (sheet.heightAfter s.page)) ++
            barGlyph ((sheet.pageBegun s).y - px 1) (s.measure + 1),
          (sheet.pageBegun s).measureBegun, .none⟩
  | beyond (h : sheet.AtBar s) (left : s.measuresLeft = 0) (remains : sheet.remaining s.page ≤ 0) :
      Crossing s ⟨tapers s.waiting ++ s.closing, { s with waiting := .none },
        some (.beyondTotal sheet.total)⟩

theorem crossing (s : State) : sheet.Crossing s (sheet.boundary s) := by
  by_cases h : sheet.AtBar s
  · have hb : sheet.boundary s =
        (s.settle.andThen fun s => if s.measuresLeft = 0 then sheet.turnPage s
          else ⟨[], s, none⟩).andThen
          State.beginMeasure := if_pos h
    rw [hb, State.settle_eq]
    by_cases hl : s.measuresLeft = 0
    · by_cases hr : sheet.remaining s.page ≤ 0
      · simp only [Outcome.andThen, hl, if_true, turnPage, hr]
        rw [← hl]
        exact .beyond h hl hr
      · have ho := Crossing.page h hl (Int.not_le.mp hr)
        simpa [Outcome.andThen, hl, turnPage, hr, State.beginMeasure, State.measureBegun,
          State.closing, pageBegun]
          using ho
    · have ho := Crossing.measure h hl
      simpa [Outcome.andThen, hl, State.beginMeasure, State.measureBegun] using ho
  · have hb : sheet.boundary s = ⟨[], s, none⟩ := if_neg h
    rw [hb]
    exact .none h

variable {sheet} in
theorem boundary_of_beyond {s : State} (h : sheet.AtBar s) (left : s.measuresLeft = 0)
    (remains : sheet.remaining s.page ≤ 0) :
    sheet.boundary s =
      ⟨tapers s.waiting ++ s.closing, { s with waiting := none },
        some (.beyondTotal sheet.total)⟩ := by
  have hc := sheet.crossing s
  generalize sheet.boundary s = o at hc ⊢
  cases hc with
  | none hb => exact absurd h hb
  | measure hb hl => exact absurd left hl
  | page hb hl hr => exact absurd remains (Int.not_le.mpr hr)
  | beyond => rfl

/-- All that can come of a symbol at the cursor. -/
inductive Fitting (symbol : Symbol) (s : State) : Outcome → Prop where
  | overfull (h : sheet.format.measureHalves < s.filled + symbol.halves) :
      Fitting symbol s
        ⟨[], s, some (.overfull sheet.format.beatsPerMeasure s.measure (s.filled + symbol.halves))⟩
  | refused (drawn : List Mark) (waiting : Option HalfPixel) (fault : Fault)
      (keeps : waiting = none ∨ waiting = s.waiting) (onPage : OnPage drawn)
        (hf : glyphFault? symbol = some fault) :
      Fitting symbol s ⟨drawn, { s with waiting := waiting }, some fault⟩
  | placed (drawn : List Mark) (waiting : Option HalfPixel)
      (h : s.filled + symbol.halves ≤ sheet.format.measureHalves) (onPage : OnPage drawn)
      (waits : waiting = none ∨ isSingleEighth symbol ∧ waiting = some s.y) :
      Fitting symbol s
        ⟨drawn,
          { s with
            waiting := waiting
            y := s.y - beatHeight * symbol.halves
            filled := s.filled + symbol.halves },
          none⟩

theorem fit_of_placed {symbol : Symbol} {s : State} {drawn : List Mark} {waiting : Option HalfPixel}
    (h : s.filled + symbol.halves ≤ sheet.format.measureHalves)
    (hp : s.place symbol = ⟨drawn, { s with waiting := waiting }, none⟩) :
    sheet.fit symbol s =
      ⟨drawn,
        { s with
          waiting := waiting
          y := s.y - beatHeight * symbol.halves
          filled := s.filled + symbol.halves },
        none⟩ := by
  rw [fit, if_neg (Nat.not_lt.mpr h), hp, Outcome.andThen_of_ok rfl]
  simp [State.advance]

theorem fitting (symbol : Symbol) (s : State) : sheet.Fitting symbol s (sheet.fit symbol s) := by
  by_cases h : s.filled + symbol.halves ≤ sheet.format.measureHalves
  · by_cases hd : Drawable symbol
    · have hg := onPage_glyph hd s.y
      by_cases he : isSingleEighth symbol = true
      · cases hw : s.waiting with
        | none =>
          rw [sheet.fit_of_placed h (State.place_first he hd hw)]
          exact .placed _ _ h hg (Or.inr ⟨he, rfl⟩)
        | some earlier =>
          rw [sheet.fit_of_placed h (State.place_second he hd hw)]
          refine .placed _ _ h (hg.append ?_) (Or.inl rfl)
          exact AllRole.onPage (r := .beam) (by simp [AllRole, role, beamGlyph]) (by decide)
      · have hf := (allRole_flag (s := symbol) (y := s.y)).onPage (by decide)
        rw [sheet.fit_of_placed h (State.place_other (by simpa using he) hd)]
        exact .placed _ _ h ((onPage_tapers _).append (hg.append hf)) (Or.inl rfl)
    · obtain ⟨fault, hfault⟩ :=
        Option.ne_none_iff_exists'.mp (mt (glyphFault?_eq_none_iff symbol).mp hd)
      obtain ⟨w, drawn, hp, hw, hdrawn⟩ := s.place_refused hd
      have hon : OnPage (drawn ++ tapers w) := by
        rw [hdrawn]
        exact (onPage_tapers _).append ((allRole_brokenGlyph _ _).onPage (by decide))
      rw [fit, if_neg (Nat.not_lt.mpr h), hp, Outcome.andThen_of_fault hfault, hfault]
      exact .refused drawn w fault hw (fun c hc => hon c (List.mem_append_left _ hc)) hfault
  · have hlt : sheet.format.measureHalves < s.filled + symbol.halves := Nat.not_le.mp h
    rw [fit, if_pos hlt]
    exact .overfull hlt

end Sheet
end Tablature.Engraving
