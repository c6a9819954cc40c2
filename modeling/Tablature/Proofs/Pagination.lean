import Tablature.Proofs.Numbering
import Tablature.Proofs.Translation

/-!
Pagination does not change the music. `music` takes out of a drawing what is drawn for its pages and
measures all heights from the latest bar. What is left depends on the symbols and on the beats of a
measure; how many measures stand on a page changes where the bars are, and everything else moves
with its bar. -/
namespace Tablature.Engraving
open Tablature.Music Tablature.Drawing

/-- The height of the bar of a measure. The lines that end the last measure are none. -/
def bar? : Mark → Option HalfPixel
  | .line x₁ y₁ x₂ y₂ style =>
    if x₁ = 0 ∧ style = barStyle ∧ Command.line x₁ y₁ x₂ y₂ style ∉ endGlyph then some y₁ else none
  | _ => none

/-- What is drawn for the page: canvas and groups, and of what belongs to a page all but the
bars. -/
def ofPage (c : Mark) : Bool :=
  match role c with
  | .canvas | .group => true
  | .page => (bar? c).isNone
  | .number | .sign | .beam | .taper => false

/-- The marks with their heights taken from the latest bar. -/
def fromBar : HalfPixel → List Mark → List Mark
  | _, [] => []
  | latest, c :: rest => lower (-(bar? c).getD latest) c :: fromBar ((bar? c).getD latest) rest

/-- What is left of a drawing without its pages. -/
def music (drawing : List Mark) : List Mark := fromBar 0 (drawing.filter fun c => !ofPage c)

theorem bar?_of_role_ne {c : Mark} (h : role c ≠ .page) : bar? c = none := by
  cases c with
  | line x₁ y₁ x₂ y₂ style =>
    apply if_neg
    rintro ⟨rfl, rfl, -⟩
    exact h rfl
  | start | finish | rect | circle | text | openGroup | closeGroup => rfl

theorem ofPage_of_role {c : Mark} (h : role c = .number ∨ role c = .sign ∨ role c = .beam ∨
    role c = .taper) :
    ofPage c = false := by
  rcases h with h | h | h | h <;> simp [ofPage, h]

theorem filter_ofPage_eq_nil {ms : List Mark} (h : ∀ c ∈ ms, ofPage c = true) :
    (ms.filter fun c => !ofPage c) = [] :=
  List.filter_eq_nil_iff.mpr fun c hc => by simp [h c hc]

theorem ofPage_of_mem_pageGlyph {height : Int} {c : Mark} (h : c ∈ pageGlyph height) :
    ofPage c = true := by
  have hrole : role c = .page := allRole_pageGlyph height c h
  have hbar : bar? c = none := by
    rcases List.mem_append.mp h with h | h
    · obtain ⟨lane, -, h⟩ := List.mem_flatMap.mp h
      simp only [laneGlyph, List.mem_cons, List.not_mem_nil, or_false] at h
      rcases h with rfl | rfl <;> rfl
    · have hx : px centreX ≠ 0 := by decide
      rw [List.mem_singleton.mp h]
      simp [bar?, hx]
  simp [ofPage, hrole, hbar]

theorem fromBar_of_bar?_eq_none {ms : List Mark} (h : ∀ c ∈ ms, bar? c = none) (latest : HalfPixel)
    (rest : List Mark) :
    fromBar latest (ms ++ rest) = ms.map (lower (-latest)) ++ fromBar latest rest := by
  induction ms with
  | nil => rfl
  | cons c ms ih =>
    obtain ⟨hc, hms⟩ := List.forall_mem_cons.mp h
    simp only [List.cons_append, fromBar, hc, Option.getD_none, ih hms, List.map_cons]

namespace Sheet
variable (sheet : Sheet)

theorem ofPage_of_mem_opening {pages : Int} {c : Mark} (h : c ∈ sheet.opening pages) :
    ofPage c = true := by
  simp only [opening, List.mem_cons, List.not_mem_nil, or_false] at h
  rcases h with rfl | rfl <;> rfl

theorem ofPage_of_mem_endingOf {symbols : List Symbol} {c : Mark} (h : c ∈ endingOf symbols) :
    ofPage c = true := by
  have hends : ∀ c ∈ ending, ofPage c = true := by decide
  by_cases hs : symbols = []
  · rw [endingOf, if_pos hs] at h
    rw [List.mem_singleton.mp h]
    rfl
  · rw [endingOf, if_neg hs] at h
    exact hends c h

theorem ofPage_of_mem_turn {t : Nat} {c : Mark} (h : c ∈ sheet.turn t) : ofPage c = true := by
  by_cases ht : sheet.Turns t
  · rw [turn, if_pos ht] at h
    rcases List.mem_append.mp h with h | h
    · by_cases h0 : t = 0
      · simp [h0] at h
      · rw [if_neg h0] at h
        rw [List.mem_singleton.mp h]
        rfl
    · rcases List.mem_cons.mp h with rfl | h
      · rfl
      · exact ofPage_of_mem_pageGlyph h
  · simp [turn, ht] at h

def barHeight (t : Nat) : HalfPixel :=
  px (sheet.heightAfter (sheet.format.pageOf t) -
    beatHeight * ((sheet.format.beatsPerMeasure + 1) * sheet.format.placeOnPage t + 1) + 14)

theorem cursor_eq_barHeight (t : Nat) :
    sheet.cursor t = sheet.barHeight t - px 14 - beatHeight * sheet.format.sinceBar t := by
  simp only [cursor, barHeight, px]
  ring

theorem barHeight_of_measureOf {t t' : Nat}
    (h : sheet.format.measureOf t = sheet.format.measureOf t') :
    sheet.barHeight t = sheet.barHeight t' := by
  simp only [barHeight, PageFormat.pageOf, PageFormat.placeOnPage, h]

/-- Heights of pages are multiples of the height of a beat, so that no bar lies on the upper end
line. -/
theorem barHeight_ne (t : Nat) : sheet.barHeight t ≠ px 1 := by
  have hheight : ∃ n : Int, sheet.heightAfter (sheet.format.pageOf t) = 15 * n := by
    simp only [heightAfter, heightOf, beatHeight]
    split
    · exact ⟨(sheet.format.beatsPerMeasure + 1) *
        sheet.measuresAfter (sheet.format.pageOf t) + 1, by ring⟩
    · exact ⟨(sheet.format.beatsPerMeasure + 1) *
        sheet.measuresAfter (sheet.format.pageOf t), by ring⟩
  obtain ⟨n, hn⟩ := hheight
  intro h
  rw [barHeight, hn, px_inj, beatHeight] at h
  omega

theorem bar_eq_of_bar {t : Nat} (h : sheet.format.sinceBar t = 0) :
    sheet.bar t = barGlyph (sheet.barHeight t) (sheet.format.measureOf t + 1) := by
  have hy : sheet.cursor t + px 14 = sheet.barHeight t := by
    rw [cursor_eq_barHeight, h]
    push_cast
    ring
  rw [bar, if_pos h, hy]

theorem bar?_bar (t : Nat) :
    bar? (.line 0 (sheet.barHeight t) (px pageWidth) (sheet.barHeight t) barStyle) =
      some (sheet.barHeight t) := by
  have hstyle : barStyle ≠ thinStyle := by decide
  apply if_pos
  simp [endGlyph, sheet.barHeight_ne t, hstyle]

theorem fromBar_bar {t : Nat} (h : sheet.format.sinceBar t = 0) (latest : HalfPixel)
    (rest : List Mark) :
    fromBar latest (sheet.bar t ++ rest) =
      (sheet.bar t).map (lower (-sheet.barHeight t)) ++ fromBar (sheet.barHeight t) rest := by
  have hnumber : ∀ x y label style, bar? (.text x y label style) = none := fun _ _ _ _ => rfl
  simp only [sheet.bar_eq_of_bar h, barGlyph, List.cons_append, List.nil_append, fromBar, bar?_bar,
    hnumber, Option.getD_some, Option.getD_none, List.map_cons, List.map_nil]

section Plates
variable {sheet} {symbols : List Symbol} {p : Plate} (hp : p ∈ sheet.picture symbols)
include hp

theorem role_of_mem_plate {c : Mark} (hc : c ∈ p.ink ++ p.tail) :
    role c = .sign ∨ role c = .beam ∨ role c = .taper := by
  obtain ⟨hink, htail⟩ := roles_of_mem_picture hp
  rcases List.mem_append.mp hc with hc | hc
  · exact Or.inl (hink c hc)
  · exact Or.inr (htail c hc)

theorem filter_marks : ((sheet.marks p).filter fun c => !ofPage c) = sheet.body p := by
  have hbar : ∀ c ∈ sheet.bar p.start, ofPage c = false := by
    intro c hc
    by_cases hs : sheet.format.sinceBar p.start = 0
    · rw [bar_eq_of_bar sheet hs, barGlyph] at hc
      rcases List.mem_cons.mp hc with rfl | hc
      · have hrole :
            role (.line 0 (sheet.barHeight p.start) (px pageWidth) (sheet.barHeight p.start)
              barStyle) = .page :=
          rfl
        simp [ofPage, hrole, bar?_bar]
      · rw [List.mem_singleton.mp hc]
        rfl
    · simp [bar_of_sinceBar_ne sheet hs] at hc
  have hmarks : sheet.marks p = sheet.turn p.start ++ sheet.body p := by simp [marks, frame, body]
  rw [hmarks, List.filter_append, filter_ofPage_eq_nil fun c hc => sheet.ofPage_of_mem_turn hc,
    List.nil_append]
  apply List.filter_eq_self.mpr
  intro c hc
  rw [body, List.append_assoc] at hc
  rcases List.mem_append.mp hc with hc | hc
  · simp [hbar c hc]
  · simp [ofPage_of_role (Or.inr (role_of_mem_plate hp hc))]

/-- A plate is measured from the bar of its measure: its own bar if it begins the measure, else the
latest one. -/
theorem fromBar_body {latest : HalfPixel}
    (h : sheet.format.sinceBar p.start = 0 ∨ latest = sheet.barHeight p.start) (rest : List Mark) :
    fromBar latest (sheet.body p ++ rest) =
      (sheet.body p).map (lower (-sheet.barHeight p.start)) ++
        fromBar (sheet.barHeight p.start) rest := by
  have hplate : ∀ c ∈ p.ink ++ p.tail, bar? c = none := by
    intro c hc
    apply bar?_of_role_ne
    rcases role_of_mem_plate hp hc with hr | hr | hr <;> simp [hr]
  have hbody : sheet.body p = sheet.bar p.start ++ (p.ink ++ p.tail) := List.append_assoc _ _ _
  rw [hbody, List.append_assoc, List.map_append, List.append_assoc (List.map _ _)]
  by_cases hs : sheet.format.sinceBar p.start = 0
  · rw [sheet.fromBar_bar hs, fromBar_of_bar?_eq_none hplate]
  · rw [sheet.bar_of_sinceBar_ne hs, h.resolve_left hs, List.nil_append,
      fromBar_of_bar?_eq_none hplate]
    rfl

end Plates

def sung (p : Plate) : List Mark := (sheet.body p).map (lower (-sheet.barHeight p.start))

/-- By induction on the plates: until the next bar the latest one is that of the measure under
way. -/
theorem InOrder.fromBar_bodies {sheet : Sheet} {symbols : List Symbol} {t : Nat} {ps : List Plate}
    (h : sheet.InOrder t ps) (hps : ∀ p ∈ ps, p ∈ sheet.picture symbols) :
    fromBar (sheet.barHeight t) (ps.flatMap sheet.body) = ps.flatMap sheet.sung := by
  induction ps generalizing t with
  | nil => rfl
  | cons p ps ih =>
    obtain ⟨⟨d, -, hfit, hstart⟩, hrest⟩ := h.cons
    have hlatest : sheet.format.sinceBar p.start = 0 ∨
        sheet.barHeight t = sheet.barHeight p.start := by
      rcases sheet.format.next_time hfit with ⟨hm, -⟩ | ⟨-, hs⟩
      · exact Or.inr (sheet.barHeight_of_measureOf (hstart ▸ hm.symm))
      · exact Or.inl (hstart ▸ hs)
    rw [List.flatMap_cons, fromBar_body (hps p (by simp)) hlatest,
      ih hrest fun q hq => hps q (by simp [hq])]
    rfl

theorem music_engrave (f : PageFormat) (symbols : List Symbol) (pages : Int) :
    music ((Sheet.forSymbols f symbols).engrave pages symbols).drawing =
      ((Sheet.forSymbols f symbols).picture symbols).flatMap (Sheet.forSymbols f symbols).sung := by
  have hmarks :
    ((((Sheet.forSymbols f symbols).picture symbols).flatMap
      (Sheet.forSymbols f symbols).marks).filter
      fun c => !ofPage c) = ((Sheet.forSymbols f symbols).picture symbols).flatMap (Sheet.forSymbols
      f symbols).body := by
    rw [List.filter_flatMap]
    exact List.flatMap_congr fun p hp => filter_marks hp
  rw [music, engrave_drawing, List.filter_append, List.filter_append, hmarks,
    filter_ofPage_eq_nil fun c hc => ofPage_of_mem_opening _ hc,
    filter_ofPage_eq_nil fun c hc => ofPage_of_mem_endingOf hc,
    List.nil_append, List.append_nil]
  generalize Sheet.forSymbols f symbols = sheet
  by_cases hne : symbols = []
  · subst hne
    rfl
  · obtain ⟨p, ps, hp, h0, hin⟩ := sheet.picture_inOrder hne
    have hmem : ∀ q ∈ p :: ps, q ∈ sheet.picture symbols := fun q hq => hp ▸ hq
    have hbar : sheet.format.sinceBar p.start = 0 := by rw [h0, PageFormat.sinceBar_zero]
    rw [hp, List.flatMap_cons, fromBar_body (hmem p (by simp)) (Or.inl hbar), h0,
      hin.fromBar_bodies fun q hq => hmem q (by simp [hq]), List.flatMap_cons, sung, h0]

end Sheet

section SameBeats
variable {f f' : PageFormat} (hbeats : f.beatsPerMeasure = f'.beatsPerMeasure)
include hbeats

theorem measureHalves_congr : f.measureHalves = f'.measureHalves := by
  rw [PageFormat.measureHalves, hbeats, PageFormat.measureHalves]

theorem measureOf_congr (t : Nat) : f.measureOf t = f'.measureOf t := by
  rw [PageFormat.measureOf, measureHalves_congr hbeats, PageFormat.measureOf]

theorem sinceBar_congr (t : Nat) : f.sinceBar t = f'.sinceBar t := by
  rw [PageFormat.sinceBar, measureHalves_congr hbeats, PageFormat.sinceBar]

theorem measureCount_congr (symbols : List Symbol) :
    f.measureCount symbols = f'.measureCount symbols := by
  rw [PageFormat.measureCount, measureHalves_congr hbeats, PageFormat.measureCount]

theorem joined_congr (m m' : Moment) : joined f m m' = joined f' m m' := by
  simp only [joined, measureOf_congr hbeats]

theorem fits_congr (m : Moment) : m.Fits f ↔ m.Fits f' := by
  simp only [Moment.Fits, sinceBar_congr hbeats, measureHalves_congr hbeats]

theorem accepted_iff_accepted (m : Moment) : m.Accepted f ↔ m.Accepted f' := by
  simp only [Moment.Accepted, fits_congr hbeats]

theorem fault?_congr (m : Moment) : m.fault? f = m.fault? f' := by
  simp only [Moment.fault?, fits_congr hbeats, hbeats, measureOf_congr hbeats,
    sinceBar_congr hbeats]

theorem accepted_congr (symbols : List Symbol) : accepted f symbols = accepted f' symbols := by
  simp only [accepted, accepted_iff_accepted hbeats]

theorem refused?_congr (symbols : List Symbol) : refused? f symbols = refused? f' symbols := by
  simp only [refused?, accepted_iff_accepted hbeats]

end SameBeats

namespace Sheet
section SameBeats
variable {sheet base : Sheet} (hbeats : sheet.format.beatsPerMeasure = base.format.beatsPerMeasure)
include hbeats

theorem cursor_congr_beats (t : Nat) :
    sheet.cursor t = base.cursor t + (sheet.barHeight t - base.barHeight t) := by
  rw [cursor_eq_barHeight, cursor_eq_barHeight, sinceBar_congr hbeats]
  ring

/-- The picture on the one sheet is that on the other, each plate moved as its bar is. -/
theorem picture_congr (symbols : List Symbol) :
    sheet.picture symbols =
      (base.picture symbols).map (Plate.moved 0 fun t => sheet.barHeight t - base.barHeight t) := by
  have hplates := plates_moved sheet base 0 (fun t => sheet.barHeight t - base.barHeight t)
    (accepted base.format symbols)
    (fun m m' => by rw [Moment.later_zero]; exact joined_congr hbeats m m')
    (fun t t' h => by
      have hsheet : sheet.format.measureOf t = sheet.format.measureOf t' := by
        rw [measureOf_congr hbeats, h, measureOf_congr hbeats]
      rw [sheet.barHeight_of_measureOf hsheet, base.barHeight_of_measureOf h])
    (fun m _ => by rw [Nat.zero_add]; exact cursor_congr_beats hbeats m.start)
  have hremnant : ∀ m : Moment, sheet.remnant m =
      (base.remnant m).map (lower (sheet.barHeight m.start - base.barHeight m.start)) := by
    intro m
    simp only [remnant, fits_congr hbeats, cursor_congr_beats hbeats, brokenGlyph_lower]
    split <;> rfl
  rw [Moment.later_zero, List.map_id] at hplates
  rw [picture, picture, accepted_congr hbeats, refused?_congr hbeats, hplates, List.map_append,
    List.map_map]
  congr 1
  apply List.map_congr_left
  intro m _
  simp [Plate.moved, hremnant m]

theorem sung_moved (p : Plate) :
    sheet.sung (p.moved 0 fun t => sheet.barHeight t - base.barHeight t) = base.sung p := by
  have hbar : sheet.bar p.start =
      (base.bar p.start).map (lower (sheet.barHeight p.start - base.barHeight p.start)) := by
    by_cases hs : base.format.sinceBar p.start = 0
    · rw [bar_eq_of_bar base hs, bar_eq_of_bar sheet (by rw [sinceBar_congr hbeats, hs]),
        ← barGlyph_lower, measureOf_congr hbeats]
      congr 1
      ring
    · rw [bar_of_sinceBar_ne base hs, bar_of_sinceBar_ne sheet (by rwa [sinceBar_congr hbeats]),
        List.map_nil]
  have hback : lower (-sheet.barHeight p.start) ∘
    lower (sheet.barHeight p.start - base.barHeight p.start) =
      lower (-base.barHeight p.start) := by
    funext c
    rw [Function.comp_apply, lower_lower]
    congr 1
    ring
  simp only [sung, body, Plate.moved, Nat.zero_add, hbar, List.map_append, List.map_map, hback]

end SameBeats
end Sheet

/-- Pagination does not change the music. However many measures stand on a page, a score is drawn or
refused with the same fault, and what is drawn besides the pages is the same, mark by mark, with
heights taken from the latest bar. -/
theorem same_music (f f' : PageFormat) (hbeats : f.beatsPerMeasure = f'.beatsPerMeasure)
    (symbols : List Symbol) (hcount : f.measureCount symbols ≤ 2 ^ 53) :
    ∃ score score', engrave? f symbols = some score ∧ engrave? f' symbols = some score' ∧
      score.fault = score'.fault ∧ music score.drawing = music score'.drawing := by
  obtain ⟨pages, hscore⟩ := engrave?_eq_some hcount
  obtain ⟨pages', hscore'⟩ := engrave?_eq_some (measureCount_congr hbeats symbols ▸ hcount)
  refine ⟨_, _, hscore, hscore', ?_, ?_⟩
  · rw [engrave_fault, engrave_fault, refused?_congr hbeats]
    exact congrArg _ (funext fun m => fault?_congr hbeats m)
  · have hsheets : (Sheet.forSymbols f symbols).format.beatsPerMeasure =
        (Sheet.forSymbols f' symbols).format.beatsPerMeasure := hbeats
    rw [Sheet.music_engrave, Sheet.music_engrave, Sheet.picture_congr hsheets, List.flatMap_map]
    exact List.flatMap_congr fun p _ => Sheet.sung_moved hsheets p

/-- Three measures on three pages, or on one. -/
theorem music_of_threeMeasures :
    ∃ score score',
      engrave? { beatsPerMeasure := 4, measuresPerPage := 1 } threeMeasures = some score ∧
      engrave? { beatsPerMeasure := 4, measuresPerPage := 7 } threeMeasures = some score' ∧
      score.fault = score'.fault ∧ music score.drawing = music score'.drawing :=
  same_music { beatsPerMeasure := 4, measuresPerPage := 1 }
    { beatsPerMeasure := 4, measuresPerPage := 7 } rfl threeMeasures (by decide)

end Tablature.Engraving
