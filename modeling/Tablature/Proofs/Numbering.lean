import Tablature.Proofs.Beats
import Tablature.Proofs.Groups
import Tablature.Proofs.PageCount

/-!
The numbers of the measures. The drawing begins a measure whenever a symbol stands at a bar, without
looking at the count that was made before; by induction on the symbols it begins exactly as many as
were counted, in their order, and divides them among the pages. -/
namespace Tablature.Engraving
open Tablature.Music Tablature.Drawing

def label? : Mark → Option String
  | .text _ _ label _ => some label
  | _ => none

/-- The numbers written beside the bars. -/
def labels (ms : List Mark) : List String := (marksOf .number ms).filterMap label?

@[simp] theorem labels_append (a b : List Mark) : labels (a ++ b) = labels a ++ labels b := by
  simp [labels]

theorem labels_eq_nil {ms : List Mark} (h : ∀ c ∈ ms, role c ≠ .number) : labels ms = [] := by
  have hn : marksOf .number ms = [] := List.filter_eq_nil_iff.mpr fun c hc => by simpa using h c hc
  simp [labels, hn]

theorem AllRole.labels_eq_nil {r : Role} {ms : List Mark} (h : AllRole r ms) (hr : r ≠ .number) :
    labels ms = [] :=
  Engraving.labels_eq_nil fun c hc => by simpa [h c hc] using hr

theorem labels_opening (sheet : Sheet) (pages : Int) : labels (sheet.opening pages) = [] := by
  apply labels_eq_nil
  intro c hc
  rcases Sheet.role_of_mem_opening hc with hr | hr <;> simp [hr]

theorem labels_endGlyph : labels endGlyph = [] := allRole_endGlyph.labels_eq_nil (by decide)

theorem labels_endingOf (symbols : List Symbol) : labels (Sheet.endingOf symbols) = [] := by
  by_cases hs : symbols = []
  · rw [Sheet.endingOf, if_pos hs]
    rfl
  · rw [Sheet.endingOf, if_neg hs, ending, labels_append, labels_endGlyph]
    rfl

def barsAt (f : PageFormat) (ts : List Nat) : List Nat :=
  (ts.filter fun t => f.sinceBar t == 0).map f.measureOf

theorem barsAt_cons (f : PageFormat) (t : Nat) (ts : List Nat) :
    barsAt f (t :: ts) = if f.sinceBar t = 0 then f.measureOf t :: barsAt f ts
      else barsAt f ts := by
  by_cases h : f.sinceBar t = 0 <;> simp [barsAt, h]

theorem barsAt_filter_page (f : PageFormat) (ts : List Nat) (page : Nat) :
    barsAt f (ts.filter fun t => f.pageOf t == page) = (barsAt f ts).filter fun m =>
      m / f.measuresPerPage == page := by
  induction ts with
  | nil => rfl
  | cons t ts ih =>
    have hpage : (f.measureOf t / f.measuresPerPage == page) = (f.pageOf t == page) := rfl
    rw [List.filter_cons, barsAt_cons f t ts]
    by_cases hp : f.pageOf t = page <;> by_cases hs : f.sinceBar t = 0 <;>
      simp [hpage, hp, hs, barsAt_cons, ih]

namespace PageFormat
variable (f : PageFormat)

def begunBefore (t : Nat) : Nat := (t + (f.measureHalves - 1)) / f.measureHalves

theorem begunBefore_of_bar {t : Nat} (h : f.sinceBar t = 0) : f.begunBefore t = f.measureOf t := by
  have hM := f.measureHalves_pos
  have hlt : t % f.measureHalves + (f.measureHalves - 1) < f.measureHalves := by
    have h : t % f.measureHalves = 0 := h
    omega
  exact div_add_of_lt hlt

theorem begunBefore_zero : f.begunBefore 0 = 0 := by
  rw [f.begunBefore_of_bar f.sinceBar_zero, measureOf_zero]

theorem begunBefore_add {t d : Nat} (hd : 0 < d) (h : f.sinceBar t + d ≤ f.measureHalves) :
    f.begunBefore (t + d) = f.measureOf t + 1 := by
  have ht := f.measureOf_sinceBar t
  have hM := f.measureHalves_pos
  have hs : t + d + (f.measureHalves - 1) = f.measureHalves * (f.measureOf t + 1) +
      (f.sinceBar t + d - 1) := by
    rw [Nat.mul_succ]
    omega
  rw [begunBefore, hs, Nat.mul_add_div hM, Nat.div_eq_of_lt (by omega), Nat.add_zero]

theorem begunBefore_of_not_bar {t : Nat} (h : f.sinceBar t ≠ 0) :
    f.begunBefore t = f.measureOf t + 1 := by
  have hM := f.measureHalves_pos
  have hlt := f.sinceBar_lt t
  have ht := f.measureOf_sinceBar t
  have hs : t + (f.measureHalves - 1) = f.measureHalves * (f.measureOf t + 1) +
      (f.sinceBar t - 1) := by
    rw [Nat.mul_succ]
    omega
  rw [begunBefore, hs, Nat.mul_add_div hM, Nat.div_eq_of_lt (by omega), Nat.add_zero]

end PageFormat

/-- By induction on the symbols: each one that stands at a bar begins the measure behind those begun
before. -/
theorem barsAt_timeline {f : PageFormat} {t : Nat} {a : List Symbol}
    (h : ∀ m ∈ timeline t a, m.Fits f) :
    f.begunBefore t ≤ f.begunBefore (t + totalHalves a) ∧
      barsAt f ((timeline t a).map Moment.start) =
        List.range' (f.begunBefore t) (f.begunBefore (t + totalHalves a) - f.begunBefore t) := by
  induction a generalizing t with
  | nil => simp [barsAt]
  | cons s a ih =>
    obtain ⟨hs, ha⟩ := List.forall_mem_cons.mp h
    obtain ⟨hle, hbars⟩ := ih ha
    have hnext : f.begunBefore (t + s.halves) = f.measureOf t + 1 :=
      f.begunBefore_add s.duration.halves_pos hs
    rw [timeline_cons, List.map_cons, barsAt_cons, hbars, totalHalves_cons, ← Nat.add_assoc]
    rw [hnext] at hle ⊢
    by_cases hbar : f.sinceBar t = 0
    · have hcount : f.begunBefore (t + s.halves + totalHalves a) - f.measureOf t =
          f.begunBefore (t + s.halves + totalHalves a) - (f.measureOf t + 1) + 1 := by omega
      rw [if_pos hbar, f.begunBefore_of_bar hbar, hcount, List.range'_succ]
      exact ⟨by omega, rfl⟩
    · rw [if_neg hbar, f.begunBefore_of_not_bar hbar]
      exact ⟨hle, rfl⟩

theorem range_filter_div {k : Nat} (hk : 0 < k) (n q : Nat) :
    ((List.range n).filter fun m => m / k == q) = List.range' (k * q) (min k (n - k * q)) := by
  induction n with
  | zero => simp
  | succ n ih =>
    have hd := Nat.div_add_mod n k
    have hr := Nat.mod_lt n hk
    rw [List.range_succ, List.filter_append, ih]
    by_cases hq : n / k = q
    · subst hq
      have hmin : min k (n + 1 - k * (n / k)) = min k (n - k * (n / k)) + 1 := by omega
      have hlast : k * (n / k) + 1 * min k (n - k * (n / k)) = n := by omega
      rw [hmin, List.range'_concat, hlast]
      simp
    · have hmin : min k (n + 1 - k * q) = min k (n - k * q) := by
        by_cases hlow : n < k * q
        · omega
        · have hup : q + 1 ≤ n / k := by
            have hle : q ≤ n / k := (Nat.le_div_iff_mul_le hk).mpr (by rw [Nat.mul_comm]; omega)
            omega
          have := Nat.mul_le_mul_left k hup
          rw [Nat.mul_succ] at this
          omega
      simp [hq, hmin]

namespace Sheet
variable {sheet : Sheet} {symbols : List Symbol}

theorem labels_bar (t : Nat) :
    labels (sheet.bar t) =
      if sheet.format.sinceBar t = 0 then [toString (sheet.format.measureOf t + 1)] else [] := by
  by_cases hs : sheet.format.sinceBar t = 0
  · rw [bar, if_pos hs, if_pos hs, labels, marksOf_barGlyph]
    rfl
  · rw [bar, if_neg hs, if_neg hs]
    rfl

theorem labels_turn (t : Nat) : labels (sheet.turn t) = [] := by
  have hpage : ∀ height, labels (pageGlyph height) = [] := fun height =>
    (allRole_pageGlyph height).labels_eq_nil (by decide)
  by_cases ht : sheet.Turns t
  · have horigin : ∀ ms, labels (sheet.origin (sheet.format.pageOf t) :: ms) = labels ms :=
      fun ms => rfl
    rw [turn, if_pos ht, labels_append, horigin, hpage]
    split <;> rfl
  · rw [turn, if_neg ht]
    rfl

section Plates
variable {ps : List Plate} (h : ∀ p ∈ ps, p ∈ sheet.picture symbols)
include h

theorem flatMap_labels_body :
    labels (ps.flatMap sheet.body) = (barsAt sheet.format (ps.map Plate.start)).map fun m =>
      toString (m + 1) := by
  induction ps with
  | nil => rfl
  | cons p ps ih =>
    obtain ⟨hink, htail⟩ := roles_of_mem_picture (h p (by simp))
    have hi : labels p.ink = [] := hink.labels_eq_nil (by decide)
    have ht : labels p.tail = [] := labels_eq_nil fun c hc => by
      rcases htail c hc with hr | hr <;> simp [hr]
    have hp : labels (sheet.body p) = labels (sheet.bar p.start) := by simp [body, hi, ht]
    rw [List.flatMap_cons, labels_append, hp, labels_bar, ih fun q hq => h q (by simp [hq]),
      List.map_cons, barsAt_cons]
    split <;> rfl

theorem flatMap_labels_marks :
    labels (ps.flatMap sheet.marks) = labels (ps.flatMap sheet.body) := by
  induction ps with
  | nil => rfl
  | cons p ps ih =>
    rw [List.flatMap_cons, labels_append, List.flatMap_cons, labels_append,
      ih fun q hq => h q (by simp [hq])]
    simp [marks, body, frame, labels_turn]

end Plates

theorem picture_of_refused?_eq_none (h : refused? sheet.format symbols = none) :
    sheet.picture symbols = sheet.plates (timeline 0 symbols) := by
  rw [picture, accepted_of_refused?_eq_none h, h]
  simp

/-- The measures that an accepted score begins are those that were counted. -/
theorem barsAt_picture (h : refused? sheet.format symbols = none) :
    barsAt sheet.format ((sheet.picture symbols).map Plate.start) =
      List.range (sheet.format.measureCount symbols) := by
  have hfits : ∀ m ∈ timeline 0 symbols, m.Fits sheet.format := fun m hm =>
    (mem_accepted (accepted_of_refused?_eq_none h ▸ hm)).2.1
  have hcount : sheet.format.begunBefore (totalHalves symbols) =
      sheet.format.measureCount symbols := rfl
  have hbars := (barsAt_timeline hfits).2
  rw [Nat.zero_add, PageFormat.begunBefore_zero, hcount, Nat.sub_zero] at hbars
  rw [picture_of_refused?_eq_none h, plates_map_start, hbars, List.range_eq_range']

theorem lastStart_mem (t : Nat) (ps : List Plate) :
    (ps.map Plate.start).getLast?.getD t = lastStart t ps := by
  induction ps generalizing t with
  | nil => rfl
  | cons p ps ih => rw [lastStart, ← ih, List.map_cons, List.getLast?_cons, Option.getD_some]

theorem measureOf_lastStart (hne : symbols ≠ []) (h : refused? sheet.format symbols = none) :
    sheet.format.measureOf (lastStart 0 (sheet.picture symbols)) + 1 =
      sheet.format.measureCount symbols := by
  have hfits : ∀ m ∈ timeline 0 symbols, m.Fits sheet.format := fun m hm =>
    (mem_accepted (accepted_of_refused?_eq_none h ▸ hm)).2.1
  have hchain := timeline_chain hfits
  obtain ⟨s, rest, rfl⟩ := List.exists_cons_of_ne_nil hne
  have hlast : (sheet.plates (timeline 0 (s :: rest))).map Plate.start =
      (timeline 0 (s :: rest)).map Moment.start := plates_map_start _
  rw [picture_of_refused?_eq_none h, ← lastStart_mem, hlast]
  rw [Nat.zero_add, List.isChain_append] at hchain
  rcases hl : ((timeline 0 (s :: rest)).map Moment.start).getLast? with _ | t
  · simp at hl
  · obtain ⟨d, hd, hfit, htotal⟩ := hchain.2.2 t hl _ rfl
    have hnext := sheet.format.begunBefore_add hd hfit
    rw [← htotal] at hnext
    exact hnext.symm

end Sheet

namespace PageFormat
variable (f : PageFormat)

/-- The pages that some measures fill, the last one perhaps in part. -/
def pagesFor (measures : Nat) : Nat := (measures + (f.measuresPerPage - 1)) / f.measuresPerPage

theorem pagesFor_zero : f.pagesFor 0 = 0 := by
  have := f.measures_pos
  exact Nat.div_eq_of_lt (by omega)

theorem pagesFor_succ (m : Nat) : f.pagesFor (m + 1) = m / f.measuresPerPage + 1 := by
  have hk := f.measures_pos
  have hs : m + 1 + (f.measuresPerPage - 1) = m + f.measuresPerPage := by omega
  rw [pagesFor, hs, Nat.add_div_right m hk]

/-- Every page but the last is full, and the last one is not empty. -/
theorem pagesFor_bounds {measures : Nat} (h : 0 < measures) :
    f.measuresPerPage * (f.pagesFor measures - 1) < measures ∧
    measures ≤ f.measuresPerPage * f.pagesFor measures := by
  obtain ⟨m, rfl⟩ : ∃ m, measures = m + 1 := ⟨measures - 1, by omega⟩
  have hd := Nat.div_add_mod m f.measuresPerPage
  have hr := Nat.mod_lt m f.measures_pos
  rw [pagesFor_succ, Nat.add_sub_cancel, Nat.mul_succ]
  omega

theorem min_measures_of_page {measures q : Nat} (hq : q < f.pagesFor measures) :
    min f.measuresPerPage (measures - f.measuresPerPage * q) =
      if q + 1 = f.pagesFor measures then measures - f.measuresPerPage * q
        else f.measuresPerPage := by
  have hpos : 0 < measures := by
    by_contra h0
    rw [show measures = 0 by omega, pagesFor_zero] at hq
    omega
  obtain ⟨hlow, hup⟩ := f.pagesFor_bounds hpos
  by_cases hlast : q + 1 = f.pagesFor measures
  · rw [← hlast, Nat.mul_succ] at hup
    rw [if_pos hlast]
    omega
  · have hle : q + 1 ≤ f.pagesFor measures - 1 := by omega
    have hmul := Nat.mul_le_mul_left f.measuresPerPage hle
    rw [Nat.mul_succ] at hmul
    rw [if_neg hlast]
    omega

end PageFormat

theorem State.close_state (s : State) :
    ∃ pageOpen waiting, s.close.state = { s with pageOpen := pageOpen, waiting := waiting } := by
  by_cases h : s.pageOpen = true
  · exact ⟨false, none, by rw [close_of_pageOpen h]⟩
  · exact ⟨s.pageOpen, s.waiting, by rw [close_of_not_pageOpen (by simpa using h)]⟩

namespace Sheet
variable (sheet : Sheet)

theorem stateAt_measure (t : Nat) (waiting : Option HalfPixel) :
    (sheet.stateAt t waiting).measure = sheet.format.begunBefore t := by
  cases t with
  | zero => exact sheet.format.begunBefore_zero.symm
  | succ t => exact (sheet.format.begunBefore_add (by decide) (sheet.format.sinceBar_lt t)).symm

theorem stateAt_page (t : Nat) (waiting : Option HalfPixel) :
    (sheet.stateAt t waiting).page = sheet.format.pagesFor (sheet.stateAt t waiting).measure := by
  cases t with
  | zero => exact sheet.format.pagesFor_zero.symm
  | succ t => exact (sheet.format.pagesFor_succ _).symm

theorem stateAt_measuresLeft (t : Nat) (waiting : Option HalfPixel)
    (h : sheet.total = (sheet.stateAt t waiting).measure) :
    (sheet.stateAt t waiting).measuresLeft = 0 := by
  cases t with
  | zero => rfl
  | succ t =>
    change sheet.measuresAfter (sheet.format.pageOf t) - (sheet.format.placeOnPage t + 1) = 0
    have htotal : sheet.total = (sheet.format.measureOf t + 1 : Nat) := h
    have hj := sheet.format.placeOnPage_lt t
    have hr := sheet.remaining_pageOf t
    have hn :=
      sheet.measuresAfter_eq_min (show 0 ≤ sheet.remaining (sheet.format.pageOf t) by omega)
    omega

variable {sheet} {symbols : List Symbol}

theorem labels_pageGroup (ps : List Plate) (h : ∀ p ∈ ps, p ∈ sheet.picture symbols)
    (last page : Nat) :
    labels (sheet.pageGroup ps last page).content =
      ((barsAt sheet.format (ps.map Plate.start)).filter fun m =>
        m / sheet.format.measuresPerPage == page).map
        fun m => toString (m + 1) := by
  have hpage := (allRole_pageGlyph (sheet.heightAfter page)).labels_eq_nil (by decide)
  have hend : labels (if page = last then endGlyph else []) = [] := by
    split
    · exact labels_endGlyph
    · rfl
  have hfilter : (ps.filter fun p => sheet.format.pageOf p.start == page).map Plate.start =
      (ps.map Plate.start).filter fun t => sheet.format.pageOf t == page := by
    rw [List.filter_map]
    rfl
  rw [pageGroup, labels_append, labels_append, hpage, hend,
    flatMap_labels_body fun p hp => h p (List.mem_of_mem_filter hp), hfilter, barsAt_filter_page]
  simp

theorem pagesBegun_eq (h : refused? sheet.format symbols = none) :
    sheet.pagesBegun symbols = sheet.format.pagesFor (sheet.format.measureCount symbols) := by
  by_cases hne : symbols = []
  · rw [pagesBegun, if_pos hne, hne, PageFormat.measureCount_nil, PageFormat.pagesFor_zero]
  · rw [pagesBegun, if_neg hne, ← measureOf_lastStart hne h, PageFormat.pagesFor_succ]
    rfl

end Sheet

section Engraved
variable (f : PageFormat) (symbols : List Symbol) (pages : Int)

theorem labels_engrave (h : refused? f symbols = none) :
    labels ((Sheet.forSymbols f symbols).engrave pages symbols).drawing =
      (List.range' 1 (f.measureCount symbols)).map toString := by
  have hbars : barsAt f (((Sheet.forSymbols f symbols).picture symbols).map Plate.start) =
      List.range (f.measureCount symbols) :=
        @Sheet.barsAt_picture (Sheet.forSymbols f symbols) symbols h
  rw [engrave_drawing, labels_append, labels_append, labels_opening, labels_endingOf,
    Sheet.flatMap_labels_marks (fun p hp => hp), Sheet.flatMap_labels_body (fun p hp => hp)]
  rw [Sheet.forSymbols_format, hbars, List.range'_eq_map_range]
  simp [Nat.add_comm]

theorem labels_groups_engrave (h : refused? f symbols = none) :
    (groups ((Sheet.forSymbols f symbols).engrave pages symbols).drawing).map
      (fun g => labels g.content) =
      (List.range (f.pagesFor (f.measureCount symbols))).map fun q =>
        (List.range' (f.measuresPerPage * q + 1)
          (if q + 1 = f.pagesFor (f.measureCount symbols) then
            f.measureCount symbols - f.measuresPerPage * q
          else f.measuresPerPage)).map toString := by
  have hbars : barsAt f (((Sheet.forSymbols f symbols).picture symbols).map Plate.start) =
      List.range (f.measureCount symbols) :=
        @Sheet.barsAt_picture (Sheet.forSymbols f symbols) symbols h
  have hpages : (Sheet.forSymbols f symbols).pagesBegun symbols =
      f.pagesFor (f.measureCount symbols) :=
    @Sheet.pagesBegun_eq (Sheet.forSymbols f symbols) symbols h
  rw [groups_engrave, hpages, List.map_map]
  apply List.map_congr_left
  intro q hq
  rw [← f.min_measures_of_page (List.mem_range.mp hq), Nat.add_comm (f.measuresPerPage * q) 1,
    ← List.map_add_range', List.map_map]
  have hl :=
    Sheet.labels_pageGroup _ (fun p (hp : p ∈ (Sheet.forSymbols f symbols).picture symbols) => hp)
    ((Sheet.forSymbols f symbols).lastPage symbols) q
  rw [Sheet.forSymbols_format, hbars, range_filter_div f.measures_pos] at hl
  simpa [Function.comp_def, Nat.add_comm] using hl

theorem engrave_state (h : refused? f symbols = none) :
    ((Sheet.forSymbols f symbols).engrave pages symbols).state.measure = f.measureCount symbols ∧
      ((Sheet.forSymbols f symbols).engrave pages symbols).state.measuresLeft = 0 ∧
      ((Sheet.forSymbols f symbols).engrave pages symbols).state.page =
        f.pagesFor (f.measureCount symbols) := by
  obtain ⟨waiting, hstate⟩ := (Sheet.addAll_eq_picture (Sheet.forSymbols_holds symbols f)).2.2 h
  obtain ⟨pageOpen, w, hclose⟩ :=
    ((Sheet.forSymbols f symbols).stateAt (totalHalves symbols) waiting).close_state
  have hmeasure : ((Sheet.forSymbols f symbols).stateAt (totalHalves symbols) waiting).measure =
      f.measureCount symbols := Sheet.stateAt_measure _ _ _
  have hleft :=
    Sheet.stateAt_measuresLeft (Sheet.forSymbols f symbols) (totalHalves symbols) waiting
    (by rw [hmeasure]; rfl)
  have hpage := Sheet.stateAt_page (Sheet.forSymbols f symbols) (totalHalves symbols) waiting
  rw [hmeasure] at hpage
  simp only [Sheet.engrave, hstate, hclose]
  exact ⟨hmeasure, hleft, hpage⟩

end Engraved

/-- The drawing begins the measures that were counted, and no others: it never runs beyond the
count, and an accepted score ends with as many measures as the exact beats fill, numbered in order,
so many on each page and the rest on the last. -/
theorem numbered_as_counted (f : PageFormat) (symbols : List Symbol)
    (hcount : f.measureCount symbols ≤ 2 ^ 53) :
    ∃ score, engrave? f symbols = some score ∧
      (∀ total, score.fault ≠ some (.beyondTotal total)) ∧
      (f.measureCount symbols : ℤ) = ⌈totalBeats symbols / f.beatsPerMeasure⌉ ∧
      (score.fault = none →
        score.state.measure = f.measureCount symbols ∧
        score.state.measuresLeft = 0 ∧
        (score.state.page : ℤ) = ⌈(score.state.measure : ℚ) / f.measuresPerPage⌉ ∧
        labels score.drawing = (List.range' 1 score.state.measure).map toString ∧
        (groups score.drawing).map (fun g => labels g.content) =
          (List.range score.state.page).map (fun q =>
            (List.range' (f.measuresPerPage * q + 1)
              (if q + 1 = score.state.page then score.state.measure - f.measuresPerPage * q
              else f.measuresPerPage)).map toString) ∧
        (0 < score.state.page →
          f.measuresPerPage * (score.state.page - 1) < score.state.measure ∧
          score.state.measure ≤ f.measuresPerPage * score.state.page)) := by
  obtain ⟨pages, hscore⟩ := engrave?_eq_some hcount
  refine ⟨_, hscore, ?_, f.measureCount_eq_ceil symbols, ?_⟩
  · intro total
    rw [engrave_fault]
    cases refused? f symbols with
    | none => simp
    | some m => exact m.fault?_ne_beyondTotal f total
  · intro hfault
    have h := (engrave_fault_eq_none_iff f symbols pages).mp hfault
    obtain ⟨hmeasure, hleft, hpage⟩ := engrave_state f symbols pages h
    rw [hmeasure, hpage]
    refine ⟨rfl, hleft, ?_, labels_engrave f symbols pages h,
      labels_groups_engrave f symbols pages h, ?_⟩
    · exact (ceil_natCast_div _ f.measures_pos).symm
    · intro hpos
      apply f.pagesFor_bounds
      by_contra h0
      rw [show f.measureCount symbols = 0 by omega, f.pagesFor_zero] at hpos
      omega

def threeMeasures : List Symbol :=
  [⟨⟨.quarter, true⟩, .note 0⟩, ⟨⟨.eighth, false⟩, .note 16⟩, ⟨⟨.half, false⟩, .chord [2, 4]⟩,
    ⟨⟨.eighth, true⟩, .note 3⟩, ⟨⟨.eighth, true⟩, .rest⟩]

/-- They fill one page of two measures and half of a second. -/
theorem numbers_of_threeMeasures :
    ∃ score, engrave? { beatsPerMeasure := 4, measuresPerPage := 2 } threeMeasures = some score ∧
      score.state.measure = 3 ∧ score.state.page = 2 ∧ labels score.drawing = ["1", "2", "3"] ∧
      (groups score.drawing).map (fun g => labels g.content) = [["1", "2"], ["3"]] := by
  obtain ⟨score, hscore, -, -, hnumbers⟩ :=
    numbered_as_counted { beatsPerMeasure := 4, measuresPerPage := 2 } threeMeasures (by decide)
  have hfault : score.fault = none := by
    obtain ⟨pages, rfl⟩ := engrave_of_engrave? hscore
    rw [engrave_fault_eq_none_iff]
    decide
  obtain ⟨hmeasure, -, hpage, hlabels, hgroups, -⟩ := hnumbers hfault
  rw [hmeasure] at hpage hlabels hgroups
  have htwo : score.state.page = 2 := by
    have hceil : (score.state.page : ℤ) = 2 := by
      rw [hpage]
      decide +kernel
    omega
  rw [htwo] at hgroups
  exact ⟨score, hscore, hmeasure, htwo, hlabels, hgroups⟩

end Tablature.Engraving
