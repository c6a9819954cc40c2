import Tablature.Proofs.Beaming
import Tablature.Proofs.Heights
import Tablature.Proofs.PageQuotient
import Tablature.Proofs.Shapes

/-!
Everything is drawn inside the canvas. On its page every mark stays between the ends of the stems
and the numbers of the measures, and between the upper edge and the names of the lanes (`OnPaper`);
pages lie side by side on one lower edge, and the canvas, whose size is fixed before anything is
drawn, has room for all of them. -/
namespace Tablature.Engraving
open Tablature.Music Tablature.Drawing

/-- The least x of a mark; a text stands at its anchor. -/
def left : Mark → Int
  | .line x₁ _ x₂ _ _ => min x₁ x₂
  | .rect x _ _ _ _ => x
  | .circle x _ r _ => x - r
  | .text x _ _ _ => x
  | _ => 0

def right : Mark → Int
  | .line x₁ _ x₂ _ _ => max x₁ x₂
  | .rect x _ width _ _ => x + width
  | .circle x _ r _ => x + r
  | .text x _ _ _ => x
  | _ => 0

def columnLeft : Int := px stemX

def columnRight : Int := px (pageWidth + 2)

/-- Sideways a mark stays between the ends of the stems and the numbers of the measures. -/
structure InColumn (c : Mark) : Prop where
  left : columnLeft ≤ left c
  right : right c ≤ columnRight

/-- A mark stays on a page so many pixels high, from its upper edge down to the names of the
lanes. -/
structure OnPaper (height : Int) (c : Mark) : Prop extends InColumn c where
  top : 0 ≤ top c
  bottom : bottom c ≤ px (height + laneStep * sideLanes + fontSize)

section Column
variable {c : Mark} {y : HalfPixel}

theorem headAt_bounds {p : Pitch} (h : InReach p) : 8 ≤ headAt p ∧ headAt p ≤ 248 := by
  obtain ⟨hl, hu⟩ := h
  interval_cases p <;> decide

theorem stemEnd_bounds {ps : List Pitch} (h : ∀ p ∈ ps, InReach p) :
    0 ≤ stemEnd ps ∧ stemEnd ps ≤ 248 := by
  rw [stemEnd]
  cases hmax : (ps.map headAt).max? with
  | none => decide
  | some x =>
    obtain ⟨p, hp, rfl⟩ := List.mem_map.mp (List.max?_mem hmax)
    have hx := headAt_bounds (h p hp)
    rw [Option.getD_some]
    omega

theorem inColumn_line {x₁ y₁ x₂ y₂ : HalfPixel} {style : String}
    (h₁ : columnLeft ≤ x₁ ∧ x₁ ≤ columnRight)
    (h₂ : columnLeft ≤ x₂ ∧ x₂ ≤ columnRight) : InColumn (.line x₁ y₁ x₂ y₂ style) :=
  ⟨le_min h₁.1 h₂.1, max_le h₁.2 h₂.2⟩

theorem inColumn_circle {x y r : HalfPixel} {style : String}
    (h : columnLeft ≤ x - r ∧ x + r ≤ columnRight) :
    InColumn (.circle x y r style) :=
  ⟨h.1, h.2⟩

theorem inColumn_headGlyph {x : Int} {d : Duration} (hx : 8 ≤ x ∧ x ≤ 248)
    (hc : c ∈ headGlyph x y d) :
    InColumn c := by
  have hhead : columnLeft ≤ 2 * x - 2 * 4 ∧ 2 * x + 2 * 4 ≤ columnRight := by
    simp only [columnLeft, columnRight, px, stemX, pageWidth, laneWidth, laneCount]
    omega
  have hdot : columnLeft ≤ 2 * (x + 6) - 2 * 2 ∧ 2 * (x + 6) + 2 * 2 ≤ columnRight := by
    simp only [columnLeft, columnRight, px, stemX, pageWidth, laneWidth, laneCount]
    omega
  cases List.mem_cons.mp hc with
  | inl hc =>
    subst hc
    exact inColumn_circle hhead
  | inr hc =>
    split at hc
    · rw [List.mem_singleton.mp hc]
      exact inColumn_circle hdot
    · cases hc

theorem inColumn_headRow {d : Duration} {ps : List Pitch} (h : ∀ p ∈ ps, InReach p)
    (hc : c ∈ headRow y d ps) :
    InColumn c := by
  obtain ⟨p, hp, hc⟩ := List.mem_flatMap.mp hc
  exact inColumn_headGlyph (headAt_bounds (h p hp)) hc

theorem inColumn_restGlyph {length : Length} (hc : c ∈ restGlyph y length) : InColumn c := by
  cases length <;> simp only [restGlyph, zigzag, List.mem_cons, List.not_mem_nil, or_false] at hc
  · rcases hc with rfl | rfl
    · exact inColumn_line (by decide) (by decide)
    · exact inColumn_circle (by decide)
  · rcases hc with rfl | rfl | rfl | rfl | rfl <;> exact inColumn_line (by decide) (by decide)
  all_goals
    subst hc
    constructor <;> simp only [left, right] <;> decide

theorem inColumn_stemGlyph {x : Int} {length : Length} (hx : 0 ≤ x ∧ x ≤ 248)
    (hc : c ∈ stemGlyph x y length) :
    InColumn c := by
  have hend : columnLeft ≤ 2 * x ∧ 2 * x ≤ columnRight := by
    simp only [columnLeft, columnRight, px, stemX, pageWidth, laneWidth, laneCount]
    omega
  rw [eq_of_mem_stemGlyph hc]
  exact inColumn_line (by decide) hend

theorem inColumn_glyph {s : Symbol} (hd : Drawable s) (hc : c ∈ glyph y s) : InColumn c := by
  obtain ⟨hplay, hreach⟩ := hd
  rcases s with ⟨d, p | ps | _ | _⟩
  · exact (List.mem_append.mp hc).elim (inColumn_headRow hreach)
      (inColumn_stemGlyph (stemEnd_bounds hreach))
  · exact (List.mem_append.mp hc).elim (inColumn_headRow hreach)
      (inColumn_stemGlyph (stemEnd_bounds hreach))
  · exact inColumn_restGlyph hc
  · exact hplay.elim

theorem inColumn_brokenGlyph {s : Symbol} (hc : c ∈ brokenGlyph y s) : InColumn c := by
  rcases s with ⟨d, p | ps | _ | _⟩
  · cases hc
  · refine inColumn_headRow (fun p hp => ?_) hc
    simpa using List.all_eq_true.mp List.all_takeWhile p hp
  · cases hc
  · cases hc

theorem inColumn_taperGlyph (y : HalfPixel) : InColumn (taperGlyph y) :=
  inColumn_line (by decide) (by decide)

theorem inColumn_beamGlyph (y earlier : HalfPixel) : InColumn (beamGlyph y earlier) :=
  inColumn_line (by decide) (by decide)

theorem span_brokenGlyph {s : Symbol} (hc : c ∈ brokenGlyph y s) :
    y - px 9 ≤ top c ∧ bottom c ≤ y + px 5 := by
  rcases s with ⟨d, p | ps | _ | _⟩
  · cases hc
  · exact span_headRow hc
  · cases hc
  · cases hc

end Column

theorem onPaper_of_span {height y : Int} {c : Mark} (hcolumn : InColumn c)
    (hspan : y - px 9 ≤ top c ∧ bottom c ≤ y + px 5) (hy : 18 ≤ y ∧ y ≤ px height) :
    OnPaper height c := by
  refine ⟨hcolumn, ?_, ?_⟩
  · simp only [px] at hspan
    omega
  · simp only [px, laneStep, sideLanes, fontSize] at hspan hy ⊢
    omega

theorem onPaper_pageGlyph {height : Int} (hh : 0 ≤ height) {c : Mark} (hc : c ∈ pageGlyph height) :
    OnPaper height c := by
  rcases List.mem_append.mp hc with hc | hc
  · obtain ⟨lane, hlane, hc⟩ := List.mem_flatMap.mp hc
    have hlane : lane < 17 := List.mem_range.mp hlane
    have hsteps : laneSteps lane ≤ 8 := (by decide : ∀ lane < 17, laneSteps lane ≤ 8) lane hlane
    simp only [laneGlyph, List.mem_cons, List.not_mem_nil, or_false] at hc
    rcases hc with rfl | rfl
    all_goals
      refine ⟨⟨?_, ?_⟩, ?_, ?_⟩ <;>
      simp only [left, right, top, bottom, columnLeft, columnRight, px, stemX, pageWidth, laneWidth,
        laneCount, laneStep, sideLanes, fontSize] <;>
      omega
  · rw [List.mem_singleton.mp hc]
    refine ⟨inColumn_line (by decide) (by decide), ?_, ?_⟩ <;>
      simp only [top, bottom, px, laneStep, sideLanes, fontSize] <;> omega

theorem onPaper_endGlyph {height : Int} (hh : 0 ≤ height) {c : Mark} (hc : c ∈ endGlyph) :
    OnPaper height c := by
  simp only [endGlyph, List.mem_cons, List.not_mem_nil, or_false] at hc
  rcases hc with rfl | rfl
  all_goals
    refine ⟨inColumn_line (by decide) (by decide), ?_, ?_⟩ <;>
      simp only [top, bottom, px, laneStep, sideLanes, fontSize] <;> omega

theorem onPaper_barGlyph {height y : Int} {measure : Nat} (hy : 0 ≤ y ∧ y ≤ px height) {c : Mark}
    (hc : c ∈ barGlyph y measure) : OnPaper height c := by
  simp only [barGlyph, List.mem_cons, List.not_mem_nil, or_false] at hc
  simp only [px] at hy
  rcases hc with rfl | rfl
  · refine ⟨inColumn_line (by decide) (by decide), ?_, ?_⟩ <;>
      simp only [top, bottom, px, laneStep, sideLanes, fontSize] <;> omega
  · refine ⟨⟨(by decide : columnLeft ≤ px (pageWidth + 2)), Int.le_refl _⟩, ?_, ?_⟩ <;>
      simp only [top, bottom, px, laneStep, sideLanes, fontSize] <;> omega

namespace Sheet
variable {sheet : Sheet}

theorem heightAfter_bounds (page : Nat) :
    15 * (((sheet.format.beatsPerMeasure : ℤ) + 1) * sheet.measuresAfter page) ≤
      sheet.heightAfter page ∧
      sheet.heightAfter page ≤ sheet.fullHeight := by
  have hn : (sheet.measuresAfter page : ℤ) ≤ sheet.format.measuresPerPage := by
    rw [measuresAfter]
    split <;> omega
  have hmul : ((sheet.format.beatsPerMeasure : ℤ) + 1) * sheet.measuresAfter page ≤
      (sheet.format.beatsPerMeasure + 1) * sheet.format.measuresPerPage :=
    mul_le_mul_of_nonneg_left hn (by omega)
  simp only [heightAfter, fullHeight, heightOf, beatHeight]
  constructor
  · split <;> linarith
  · split <;> simp only [if_true] <;> linarith

theorem heightAfter_nonneg (page : Nat) : 0 ≤ sheet.heightAfter page := by
  have hle := (sheet.heightAfter_bounds page).1
  have hpos : 0 ≤ 15 * (((sheet.format.beatsPerMeasure : ℤ) + 1) * sheet.measuresAfter page) := by
    positivity
  exact hpos.trans hle

/-- The cursor of a symbol that finds a measure: above it there is room for the rest of the measure,
and below it at least for the bar. -/
theorem cursor_bounds {t : Nat} (h : (sheet.format.measureOf t : Int) < sheet.total) :
    15 * ((sheet.format.measureHalves : ℤ) - sheet.format.sinceBar t) ≤ sheet.cursor t ∧
      sheet.cursor t ≤ 2 * (sheet.heightAfter (sheet.format.pageOf t) - 15) := by
  have hremaining := sheet.remaining_pageOf t
  have hplace := sheet.format.placeOnPage_lt t
  have hn := sheet.measuresAfter_eq_min (show 0 ≤ sheet.remaining (sheet.format.pageOf t) by omega)
  have hroom : (sheet.format.placeOnPage t : ℤ) + 1 ≤
      sheet.measuresAfter (sheet.format.pageOf t) := by omega
  have hheight := (sheet.heightAfter_bounds (sheet.format.pageOf t)).1
  have hmul : ((sheet.format.beatsPerMeasure : ℤ) + 1) * (sheet.format.placeOnPage t + 1) ≤
      (sheet.format.beatsPerMeasure + 1) * sheet.measuresAfter (sheet.format.pageOf t) :=
    mul_le_mul_of_nonneg_left hroom (by omega)
  have hpos : 0 ≤ ((sheet.format.beatsPerMeasure : ℤ) + 1) * sheet.format.placeOnPage t := by
    positivity
  have hhalves : (sheet.format.measureHalves : ℤ) = 2 * sheet.format.beatsPerMeasure :=
    sheet.format.cast_measureHalves
  simp only [cursor, px, beatHeight]
  constructor
  · rw [hhalves]
    linarith
  · have hsince : (0 : ℤ) ≤ sheet.format.sinceBar t := Int.natCast_nonneg _
    linarith

variable {symbols : List Symbol}

theorem cursor_of_fits (hholds : sheet.Holds symbols) {m : Moment} (hm : m ∈ timeline 0 symbols)
    (hfits : m.Fits sheet.format) :
    18 ≤ sheet.cursor m.start ∧
      sheet.cursor m.start ≤ px (sheet.heightAfter (sheet.format.pageOf m.start)) := by
  have htime : m.start < totalHalves symbols := by simpa using (start_lt_of_mem_timeline hm).2
  obtain ⟨hlow, hhigh⟩ := sheet.cursor_bounds (hholds m.start htime)
  have hsymbol := two_le_halves m.symbol
  have hroom : sheet.format.sinceBar m.start + m.symbol.halves ≤ sheet.format.measureHalves := hfits
  have hhalves : (2 : ℤ) ≤ sheet.format.measureHalves - sheet.format.sinceBar m.start := by omega
  simp only [px]
  constructor <;> linarith

theorem tail_of_mem_runPlates {g : List Moment} {p : Plate} (h : p ∈ sheet.runPlates g) :
    ∃ m ∈ g, ∃ tail, p = sheet.plate m tail ∧
      ∀ c ∈ tail, c ∈ flag (sheet.cursor m.start) m.symbol ∨ ∃ m' ∈ g, c = sheet.beam m' m := by
  fun_induction runPlates sheet g with
  | case1 m₁ m₂ rest ih =>
    cases List.mem_cons.mp h with
    | inl hp => exact ⟨m₁, by simp, [], hp, by simp⟩
    | inr h =>
      cases List.mem_cons.mp h with
      | inl hp =>
        exact ⟨m₂, by simp, _, hp, fun c hc => Or.inr ⟨m₁, by simp, List.mem_singleton.mp hc⟩⟩
      | inr h =>
        obtain ⟨m, hm, tail, hp, htail⟩ := ih h
        refine ⟨m, by simp [hm], tail, hp, fun c hc => (htail c hc).imp id ?_⟩
        exact Exists.imp fun m' hm' => ⟨by simp [hm'.1], hm'.2⟩
  | case2 m => exact ⟨m, by simp, _, List.mem_singleton.mp h, fun c hc => Or.inl hc⟩
  | case3 => cases h

theorem tail_of_mem_plates {ms : List Moment} {p : Plate} (h : p ∈ sheet.plates ms) :
    ∃ m ∈ ms, ∃ tail, p = sheet.plate m tail ∧
      ∀ c ∈ tail, c ∈ flag (sheet.cursor m.start) m.symbol ∨
      ∃ m' ∈ ms, sheet.format.measureOf m'.start = sheet.format.measureOf m.start ∧
        c = sheet.beam m' m := by
  obtain ⟨g, hg, hp⟩ := List.mem_flatMap.mp h
  have hmem : ∀ m ∈ g, m ∈ ms := by
    intro m hm
    rw [← List.flatten_splitBy (joined sheet.format) ms]
    exact List.mem_flatten.mpr ⟨g, hg, hm⟩
  have hmeasure : ∀ m ∈ g, ∀ m' ∈ g, sheet.format.measureOf m'.start =
      sheet.format.measureOf m.start := by
    intro m hm m' hm'
    rcases mem_runs hg with ⟨only, rfl, -⟩ | ⟨n, hall⟩
    · rw [List.mem_singleton.mp hm, List.mem_singleton.mp hm']
    · rw [(hall m hm).2, (hall m' hm').2]
  obtain ⟨m, hm, tail, hp, htail⟩ := tail_of_mem_runPlates hp
  refine ⟨m, hmem m hm, tail, hp, fun c hc => (htail c hc).imp id ?_⟩
  exact Exists.imp fun m' hm' => ⟨hmem m' hm'.1, hmeasure m hm m' hm'.1, hm'.2⟩

theorem start_of_mem_picture {p : Plate} (hp : p ∈ sheet.picture symbols) :
    p.start < totalHalves symbols := by
  have htime : ∀ m ∈ timeline 0 symbols, m.start < totalHalves symbols := fun m hm => by
    simpa using (start_lt_of_mem_timeline hm).2
  rcases List.mem_append.mp hp with hp | hp
  · obtain ⟨m, hm, tail, rfl, -⟩ := mem_plates hp
    exact htime m (mem_accepted hm).1
  · obtain ⟨m, hm, rfl⟩ := List.mem_map.mp hp
    exact htime m (List.mem_of_find?_eq_some (Option.mem_toList.mp hm))

theorem onPaper_bar {t : Nat} (h : (sheet.format.measureOf t : Int) < sheet.total) {c : Mark}
    (hc : c ∈ sheet.bar t) :
    OnPaper (sheet.heightAfter (sheet.format.pageOf t)) c := by
  obtain ⟨hlow, hhigh⟩ := sheet.cursor_bounds h
  have hsince := sheet.format.sinceBar_lt t
  have hroom : 0 ≤ 15 * ((sheet.format.measureHalves : ℤ) - sheet.format.sinceBar t) := by omega
  refine onPaper_barGlyph ⟨?_, ?_⟩ (sheet.mem_bar hc)
  · simp only [px]
    linarith
  · simp only [px]
    linarith

/-- What a plate of this time adds to its page: the bar, the glyph of a moment that fits or what is
left of a broken one, its taper, or a beam from an earlier note of its measure. -/
inductive BodyMark (sheet : Sheet) (symbols : List Symbol) : Nat → Mark → Prop
  | bar {t : Nat} {c : Mark} (h : c ∈ sheet.bar t) : BodyMark sheet symbols t c
  | glyph {m : Moment} {c : Mark} (hm : m ∈ timeline 0 symbols) (hfits : m.Fits sheet.format)
    (hd : Drawable m.symbol)
      (h : c ∈ glyph (sheet.cursor m.start) m.symbol) : BodyMark sheet symbols m.start c
  | broken {m : Moment} {c : Mark} (hm : m ∈ timeline 0 symbols) (hfits : m.Fits sheet.format)
      (h : c ∈ brokenGlyph (sheet.cursor m.start) m.symbol) : BodyMark sheet symbols m.start c
  | taper {m : Moment} (hm : m ∈ timeline 0 symbols) (hfits : m.Fits sheet.format)
      (h : taperGlyph (sheet.cursor m.start) ∈ flag (sheet.cursor m.start) m.symbol) :
      BodyMark sheet symbols m.start (taperGlyph (sheet.cursor m.start))
  | beam {m m' : Moment} (hm : m ∈ timeline 0 symbols) (hfits : m.Fits sheet.format)
    (hm' : m' ∈ timeline 0 symbols)
      (hfits' : m'.Fits sheet.format) (hmeasure : sheet.format.measureOf m'.start =
        sheet.format.measureOf m.start) :
      BodyMark sheet symbols m.start (sheet.beam m' m)

theorem bodyMark_of_mem_body {p : Plate} (hp : p ∈ sheet.picture symbols) :
    ∀ c ∈ sheet.body p, sheet.BodyMark symbols p.start c := by
  intro c hc
  rcases List.mem_append.mp hc with hc | htail
  · rcases List.mem_append.mp hc with hbar | hink
    · exact .bar hbar
    · rcases List.mem_append.mp hp with hp | hp
      · obtain ⟨m, hm, tail, rfl, -⟩ := mem_plates hp
        obtain ⟨htime, hfits, hdrawable⟩ := mem_accepted hm
        exact .glyph htime hfits hdrawable hink
      · obtain ⟨m, hm, rfl⟩ := List.mem_map.mp hp
        have htime := List.mem_of_find?_eq_some (Option.mem_toList.mp hm)
        by_cases hfits : m.Fits sheet.format
        · have hbroken : c ∈ brokenGlyph (sheet.cursor m.start) m.symbol := by
            simpa [remnant, hfits] using hink
          exact .broken htime hfits hbroken
        · simp [remnant, hfits] at hink
  · rcases List.mem_append.mp hp with hp | hp
    · obtain ⟨m, hm, tail, rfl, hcases⟩ := tail_of_mem_plates hp
      obtain ⟨htime, hfits, -⟩ := mem_accepted hm
      rcases hcases c htail with hflag | ⟨m', hm', hmeasure, rfl⟩
      · obtain rfl := eq_of_mem_flag hflag
        exact .taper htime hfits hflag
      · obtain ⟨htime', hfits', -⟩ := mem_accepted hm'
        exact .beam htime hfits htime' hfits' hmeasure
    · obtain ⟨m, -, rfl⟩ := List.mem_map.mp hp
      cases htail

/-- All that a plate adds to its page stays on that page. -/
theorem onPaper_body (hholds : sheet.Holds symbols) {p : Plate} (hp : p ∈ sheet.picture symbols) :
    ∀ c ∈ sheet.body p, OnPaper (sheet.heightAfter (sheet.format.pageOf p.start)) c := by
  intro c hc
  have hmeasure := hholds p.start (start_of_mem_picture hp)
  have hmark := bodyMark_of_mem_body hp c hc
  generalize p.start = t at hmark hmeasure ⊢
  cases hmark with
  | bar h => exact onPaper_bar hmeasure h
  | glyph hm hfits hd h =>
    exact onPaper_of_span (inColumn_glyph hd h) (span_glyph h) (cursor_of_fits hholds hm hfits)
  | broken hm hfits h =>
    exact onPaper_of_span (inColumn_brokenGlyph h) (span_brokenGlyph h)
      (cursor_of_fits hholds hm hfits)
  | taper hm hfits h =>
    exact onPaper_of_span (inColumn_taperGlyph _) (span_flag h) (cursor_of_fits hholds hm hfits)
  | @beam m m' hm hfits hm' hfits' hsame =>
    -- The beam begins at the earlier note, which is on the same page.
    obtain ⟨hlow, hhigh⟩ := cursor_of_fits hholds hm hfits
    obtain ⟨hlow', hhigh'⟩ := cursor_of_fits hholds hm' hfits'
    have hpage : sheet.format.pageOf m'.start = sheet.format.pageOf m.start := by
      rw [PageFormat.pageOf, hsame, PageFormat.pageOf]
    rw [hpage] at hhigh'
    simp only [px] at hhigh hhigh'
    refine ⟨inColumn_beamGlyph _ _, ?_, ?_⟩
    · simp only [Sheet.beam, beamGlyph, top, px, headRadius]
      refine le_min ?_ ?_ <;> linarith
    · simp only [Sheet.beam, beamGlyph, bottom, px, headRadius, laneStep, sideLanes, fontSize]
      refine max_le ?_ ?_ <;> push_cast <;> linarith

theorem onPaper_pageGroup (hholds : sheet.Holds symbols) (last page : Nat) :
    ∀ c ∈ (sheet.pageGroup (sheet.picture symbols) last page).content,
      OnPaper (sheet.heightAfter page) c := by
  intro c hc
  have hh := sheet.heightAfter_nonneg page
  rcases List.mem_append.mp hc with hc | hc
  · exact onPaper_pageGlyph hh hc
  · rcases List.mem_append.mp hc with hc | hc
    · obtain ⟨p, hp, hc⟩ := List.mem_flatMap.mp hc
      obtain ⟨hp, hpage⟩ := List.mem_filter.mp hp
      rw [← eq_of_beq hpage]
      exact onPaper_body hholds hp c hc
    · split at hc
      · exact onPaper_endGlyph hh hc
      · cases hc

theorem lastStart_eq_or_mem (t : Nat) (ps : List Plate) :
    lastStart t ps = t ∨ ∃ p ∈ ps, lastStart t ps = p.start := by
  induction ps generalizing t with
  | nil => exact Or.inl rfl
  | cons p ps ih =>
    refine Or.inr ?_
    rcases ih p.start with h | ⟨q, hq, h⟩
    · exact ⟨p, List.mem_cons_self, h⟩
    · exact ⟨q, List.mem_cons_of_mem p hq, h⟩

theorem remaining_pos (hholds : sheet.Holds symbols) {page : Nat}
    (hpage : page < sheet.pagesBegun symbols) :
    0 < sheet.remaining page := by
  by_cases hne : symbols = []
  · rw [pagesBegun, if_pos hne] at hpage
    cases hpage
  · rw [pagesBegun, if_neg hne, Nat.lt_succ_iff] at hpage
    have hlast : lastStart 0 (sheet.picture symbols) < totalHalves symbols := by
      rcases lastStart_eq_or_mem 0 (sheet.picture symbols) with h | ⟨p, hp, h⟩
      · obtain ⟨p, ps, hpicture, h0, -⟩ := sheet.picture_inOrder hne
        rw [h, ← h0]
        exact start_of_mem_picture (hpicture ▸ List.mem_cons_self)
      · rw [h]
        exact start_of_mem_picture hp
    have hmeasure := hholds _ hlast
    have hplace := sheet.format.pageOf_placeOnPage (lastStart 0 (sheet.picture symbols))
    have hmul : sheet.format.measuresPerPage * page ≤
        sheet.format.measuresPerPage * sheet.format.pageOf (lastStart 0 (sheet.picture symbols)) :=
      Nat.mul_le_mul_left _ hpage
    have hle : (sheet.format.measuresPerPage : ℤ) * page ≤
        sheet.format.measureOf (lastStart 0 (sheet.picture symbols)) := by
      exact_mod_cast hmul.trans ((Nat.le_add_right _ _).trans hplace.le)
    rw [remaining]
    linarith

theorem page_lt_pages {pages : Int} (hpages : sheet.total ≤ sheet.format.measuresPerPage * pages)
    {page : Nat} (h : 0 < sheet.remaining page) : (page : ℤ) < pages := by
  have hk : (0 : ℤ) ≤ sheet.format.measuresPerPage := Int.natCast_nonneg _
  rw [remaining] at h
  exact lt_of_mul_lt_mul_left ((Int.sub_pos.mp h).trans_le hpages) hk

end Sheet

namespace Shape

def left (s : Shape) : Int := s.dx + Engraving.left s.mark

def right (s : Shape) : Int := s.dx + Engraving.right s.mark

def top (s : Shape) : Int := s.dy + Engraving.top s.mark

def bottom (s : Shape) : Int := s.dy + Engraving.bottom s.mark

end Shape

theorem mem_shapes_pageGroup {sheet : Sheet} {symbols : List Symbol} {last page : Nat} {s : Shape}
    (h : s ∈ (sheet.pageGroup (sheet.picture symbols) last page).shapes) :
    ∃ c ∈ (sheet.pageGroup (sheet.picture symbols) last page).content,
      s = ⟨px ((page + 1) * marginX + page * pageWidth),
        px (marginY + sheet.fullHeight - sheet.heightAfter page), c⟩ := by
  obtain ⟨c, hc, rfl⟩ := List.mem_map.mp h
  exact ⟨c, List.mem_of_mem_filter hc, rfl⟩

theorem Sheet.bounds_of_mem_shapes {sheet : Sheet} {symbols : List Symbol}
    (hholds : sheet.Holds symbols) {last page : Nat} {s : Shape}
    (h : s ∈ (sheet.pageGroup (sheet.picture symbols) last page).shapes) :
    (px (305 * page + 30) ≤ s.left ∧ s.right ≤ px (305 * (page + 1) + 2)) ∧ 0 ≤ s.top ∧
    s.bottom ≤ px sheet.height := by
  obtain ⟨c, hc, rfl⟩ := mem_shapes_pageGroup h
  have hpaper := onPaper_pageGroup hholds last page c hc
  have hl := hpaper.left
  have hr := hpaper.right
  have ht := hpaper.top
  have hb := hpaper.bottom
  have hfull := (sheet.heightAfter_bounds page).2
  simp only [columnLeft, columnRight, px, stemX, pageWidth, laneWidth, laneCount, laneStep,
    sideLanes, fontSize]
    at hl hr hb
  simp only [Shape.left, Shape.right, Shape.top, Shape.bottom, height, px, marginX, marginY,
    pageWidth, laneWidth, laneCount, laneStep, sideLanes, fontSize]
  push_cast at hl hr hb ⊢
  refine ⟨⟨?_, ?_⟩, ?_, ?_⟩ <;> linarith

/-- Everything is drawn inside the canvas, also if a symbol fails: all shapes and texts belong to
the groups of the pages, and their extents lie within its width and its height. Every page has a
stretch of the width for itself, and the lower edges of all pages are on one line. -/
theorem drawn_inside_canvas (f : PageFormat) (symbols : List Symbol)
    (hpage : f.measuresPerPage ≤ 2 ^ 53) (hcount : f.measureCount symbols ≤ 2 ^ 53) :
    ∃ score width height ground rest, engrave? f symbols = some score ∧
      score.drawing = .start width height :: .rect 0 0 width height ground :: rest ∧
      shapes [] rest = (groups rest).flatMap Group.shapes ∧
      (∀ s ∈ shapes [] rest, 0 ≤ s.left ∧ s.right ≤ width ∧ 0 ≤ s.top ∧ s.bottom ≤ height) ∧
      (∀ (page : Nat) (g : Group), (groups rest)[page]? = some g →
        ∀ s ∈ g.shapes, px (305 * page + 30) ≤ s.left ∧ s.right ≤ px (305 * (page + 1) + 2)) ∧
      (∀ (page page' : Nat) (g g' : Group), page < page' → (groups rest)[page]? = some g →
        (groups rest)[page']? = some g' →
        ∀ s ∈ g.shapes, ∀ s' ∈ g'.shapes, s.right < s'.left) ∧
      ∃ edge, ∀ (page : Nat) (g : Group), (groups rest)[page]? = some g →
        pageGlyph (f.heightOfPage (f.measureCount symbols) page) <+: g.content ∧
          g.dy + px (f.heightOfPage (f.measureCount symbols) page) = edge := by
  obtain ⟨_, hscore⟩ := engrave?_eq_some hcount
  obtain ⟨pages, hpages, -⟩ := Option.map_eq_some_iff.mp hscore
  have hscore : engrave? f symbols = some ((Sheet.forSymbols f symbols).engrave pages symbols) := by
    rw [engrave?, hpages]
    rfl
  have htotal : (Sheet.forSymbols f symbols).total ≤ 2 ^ 53 := by
    have hcast : (f.measureCount symbols : ℤ) ≤ 2 ^ 53 := by exact_mod_cast hcount
    exact hcast
  have hroom := Sheet.total_le_pages hpages (Int.natCast_nonneg _) htotal hpage
  obtain ⟨rest, hdrawing, hwalk, hgroups⟩ := engrave_drawing_eq f symbols pages
  have hholds := Sheet.forSymbols_holds symbols f
  have hget : ∀ (page : Nat) (g : Group), (groups rest)[page]? = some g →
      page < (Sheet.forSymbols f symbols).pagesBegun symbols ∧
        g = (Sheet.forSymbols f symbols).pageGroup ((Sheet.forSymbols f symbols).picture symbols)
          ((Sheet.forSymbols f symbols).lastPage symbols) page := by
    intro page g hg
    rw [hgroups, List.getElem?_map] at hg
    obtain ⟨q, hq, rfl⟩ := Option.map_eq_some_iff.mp hg
    obtain ⟨hlt, hrange⟩ := List.getElem?_eq_some_iff.mp hq
    rw [List.length_range] at hlt
    rw [List.getElem_range] at hrange
    exact ⟨hlt, by rw [hrange]⟩
  have hcolumn : ∀ (page : Nat) (g : Group), (groups rest)[page]? = some g →
      ∀ s ∈ g.shapes, px (305 * page + 30) ≤ s.left ∧ s.right ≤ px (305 * (page + 1) + 2) := by
    intro page g hg s hs
    rw [(hget page g hg).2] at hs
    exact (Sheet.bounds_of_mem_shapes hholds hs).1
  have hshapes := (shapes_of_walk rest).1 hwalk
  refine ⟨_, _, _, _, rest, hscore, hdrawing, hshapes, ?_, hcolumn, ?_, ?_⟩
  · intro s hs
    rw [hshapes] at hs
    obtain ⟨g, hg, hs⟩ := List.mem_flatMap.mp hs
    obtain ⟨page, hg⟩ := List.mem_iff_getElem?.mp hg
    obtain ⟨hlt, rfl⟩ := hget page g hg
    obtain ⟨⟨hl, hr⟩, ht, hb⟩ := Sheet.bounds_of_mem_shapes hholds hs
    have hpages := Sheet.page_lt_pages hroom (Sheet.remaining_pos hholds hlt)
    refine ⟨?_, ?_, ht, hb⟩
    · simp only [px] at hl
      linarith
    · simp only [Sheet.width, px, pageWidth, laneWidth, laneCount, marginX] at hr ⊢
      push_cast at hr ⊢
      linarith
  · intro page page' g g' hlt hg hg' s hs s' hs'
    have hr := (hcolumn page g hg s hs).2
    have hl := (hcolumn page' g' hg' s' hs').1
    have hpages : (page : ℤ) + 1 ≤ page' := by exact_mod_cast hlt
    simp only [px] at hr hl
    linarith
  · refine ⟨px (marginY + (Sheet.forSymbols f symbols).fullHeight), fun page g hg => ?_⟩
    obtain ⟨hlt, rfl⟩ := hget page g hg
    have hheight := (Sheet.forSymbols f symbols).heightAfter_eq (Sheet.remaining_pos hholds hlt).le
    have htop : (Sheet.forSymbols f symbols).heightAfter page =
        f.heightOfPage (f.measureCount symbols) page := hheight
    rw [← htop]
    refine ⟨List.prefix_append _ _, ?_⟩
    simp only [Sheet.pageGroup, px]
    ring

def partialChord : List Symbol := [⟨⟨.half, false⟩, .note 16⟩, ⟨⟨.quarter, true⟩, .chord [16, 17]⟩]

/-- The head in the outermost lane, with its dot, is drawn; two pages need 660 pixels. -/
theorem canvas_of_partialChord :
    ∃ score rest,
      engrave? { beatsPerMeasure := 4, measuresPerPage := 1 } partialChord = some score ∧
      score.fault = some (.outOfRange 17) ∧
      score.drawing = .start (px 660) (px 160) :: .rect 0 0 (px 660) (px 160) "fill:white" :: rest ∧
      ∀ s ∈ shapes [] rest, 0 ≤ s.left ∧ s.right ≤ px 660 ∧ 0 ≤ s.top ∧ s.bottom ≤ px 160 := by
  obtain ⟨score, width, height, ground, rest, hscore, hdrawing, -, hinside, -⟩ :=
    drawn_inside_canvas { beatsPerMeasure := 4, measuresPerPage := 1 } partialChord
      (by decide) (by decide)
  have hopening : (engrave? { beatsPerMeasure := 4, measuresPerPage := 1 } partialChord).map
      (fun score => (score.fault, score.drawing.take 2)) =
      some (some (.outOfRange 17),
        [.start (px 660) (px 160), .rect 0 0 (px 660) (px 160) "fill:white"]) := by
    decide +kernel
  rw [hscore, Option.map_some, hdrawing] at hopening
  obtain ⟨hfault, htake⟩ := Prod.mk.inj (Option.some.inj hopening)
  obtain ⟨⟨rfl, rfl⟩, -, -, rfl⟩ :
    (width = px 660 ∧ height = px 160) ∧ width = px 660 ∧ height = px 160 ∧
      ground = "fill:white" := by simpa using htake
  exact ⟨score, rest, hscore, hfault, hdrawing, hinside⟩

end Tablature.Engraving
