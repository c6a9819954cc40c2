import Mathlib.Tactic.LinearCombination
import Mathlib.Tactic.Zify
import Tablature.Proofs.Beats
import Tablature.Proofs.Groups
import Tablature.Proofs.PageCount
import Tablature.Proofs.Pixels

/-!
Where symbols stand. The drawing moves one cursor from symbol to symbol; the height at which it
draws a symbol is a closed form of the exact beats before it. Symbols of one page stand one above
the other, with room between them. -/
namespace Tablature.Engraving
open Tablature.Music Tablature.Drawing
open Tablature.Drawing.Svg (recorded)

namespace PageFormat
variable (f : PageFormat)

def pageOfBeat (beat : ℚ) : ℤ := f.measureOfBeat beat / f.measuresPerPage

/-- The height of a page in pixels: fifteen for each beat and for the bar of each measure that it
holds, and fifteen more for the end lines on the last page. -/
def heightOfPage (total page : ℤ) : ℤ :=
  15 * (f.beatsPerMeasure + 1) * min (f.measuresPerPage : ℤ) (total - f.measuresPerPage * page) +
    if total ≤ f.measuresPerPage * (page + 1) then 15 else 0

/-- The height in pixels of a symbol that begins at a beat, on a sheet of so many measures. -/
def heightAtBeat (total : ℤ) (beat : ℚ) : ℚ :=
  f.heightOfPage total (f.pageOfBeat beat) -
    15 * ((f.measureOfBeat beat % f.measuresPerPage : ℤ) * (f.beatsPerMeasure + 1) + 1) -
      15 * f.beatInMeasure beat

theorem pageOfBeat_eq (t : Nat) : f.pageOfBeat ((t : ℚ) / 2) = f.pageOf t := by
  rw [pageOfBeat, measureOfBeat_eq, pageOf, Int.natCast_div]

theorem placeOnPage_eq (t : Nat) :
    f.measureOfBeat ((t : ℚ) / 2) % f.measuresPerPage = f.placeOnPage t := by
  rw [measureOfBeat_eq, placeOnPage, Int.natCast_mod]

end PageFormat

namespace Sheet
variable (sheet : Sheet)

theorem heightAfter_eq {page : Nat} (h : 0 ≤ sheet.remaining page) :
    sheet.heightAfter page = sheet.format.heightOfPage sheet.total page := by
  have hr : sheet.remaining page = sheet.total - sheet.format.measuresPerPage * page := rfl
  have hlast : sheet.remaining page ≤ sheet.format.measuresPerPage ↔
      sheet.total ≤ sheet.format.measuresPerPage * ((page : ℤ) + 1) := by
    rw [hr, mul_add, mul_one]
    omega
  have hn := sheet.measuresAfter_eq_min h
  rw [hr] at hn
  rw [heightAfter, heightOf, PageFormat.heightOfPage, hn]
  by_cases hl : sheet.remaining page ≤ sheet.format.measuresPerPage
  · simp only [hl, decide_true, if_true, hlast.mp hl, beatHeight]
    ring
  · simp only [hl, decide_false, if_neg (mt hlast.mpr hl), beatHeight, Bool.false_eq_true, if_false]
    ring

/-- The cursor is where the beats say. -/
theorem cursor_eq_heightAtBeat {t : Nat} (h : (sheet.format.measureOf t : Int) < sheet.total) :
    (sheet.cursor t : ℚ) / 2 = sheet.format.heightAtBeat sheet.total ((t : ℚ) / 2) := by
  have hr : 0 ≤ sheet.remaining (sheet.format.pageOf t) := by
    rw [remaining_pageOf]
    omega
  rw [PageFormat.heightAtBeat, PageFormat.pageOfBeat_eq, PageFormat.placeOnPage_eq,
    PageFormat.beatInMeasure_eq, ← sheet.heightAfter_eq hr]
  simp only [cursor, px, beatHeight]
  push_cast
  ring

theorem cursor_le {t t' : Nat} (hle : t ≤ t')
    (hpage : sheet.format.pageOf t = sheet.format.pageOf t') :
    sheet.cursor t' ≤ sheet.cursor t - beatHeight * ((t' : ℤ) - t) := by
  have hp := sheet.format.pageOf_placeOnPage t
  have hp' := sheet.format.pageOf_placeOnPage t'
  have ht := sheet.format.measureOf_sinceBar t
  have ht' := sheet.format.measureOf_sinceBar t'
  have hm := sheet.format.measureOf_mono hle
  rw [hpage] at hp
  have hplace : sheet.format.placeOnPage t ≤ sheet.format.placeOnPage t' := by omega
  obtain ⟨d, hd⟩ := Nat.exists_eq_add_of_le hplace
  have hmd : sheet.format.measureOf t' = sheet.format.measureOf t + d := by omega
  rw [hmd] at ht'
  zify at ht ht'
  rw [PageFormat.cast_measureHalves] at ht ht'
  have hstep : sheet.cursor t' = sheet.cursor t - beatHeight * ((t' : ℤ) - t + 2 * d) := by
    simp only [cursor, hpage, hd, px, beatHeight]
    push_cast
    linear_combination 15 * ht - 15 * ht'
  have hpos : (0 : ℤ) ≤ d := Int.natCast_nonneg d
  rw [hstep]
  simp only [beatHeight]
  linarith

theorem cursor_inj {t t' : Nat} (hpage : sheet.format.pageOf t = sheet.format.pageOf t')
    (h : sheet.cursor t = sheet.cursor t') : t = t' := by
  rcases Nat.le_total t t' with hle | hle
  · have hcursor := sheet.cursor_le hle hpage
    simp only [beatHeight] at hcursor
    have hge : (t' : ℤ) ≤ t := by linarith
    omega
  · have hcursor := sheet.cursor_le hle hpage.symm
    simp only [beatHeight] at hcursor
    have hge : (t : ℤ) ≤ t' := by linarith
    omega

end Sheet

/-- The least y of a mark; y grows downwards. -/
def top : Mark → Int
  | .line _ y₁ _ y₂ _ => min y₁ y₂
  | .rect _ y _ _ _ => y
  | .circle _ y r _ => y - r
  | .text _ y _ _ => y
  | _ => 0

def bottom : Mark → Int
  | .line _ y₁ _ y₂ _ => max y₁ y₂
  | .rect _ y _ height _ => y + height
  | .circle _ y r _ => y + r
  | .text _ y _ _ => y
  | _ => 0

theorem span_headRow {y : Int} {d : Duration} {ps : List Pitch} {c : Mark}
    (h : c ∈ headRow y d ps) :
    y - px 9 ≤ top c ∧ bottom c ≤ y + px 5 := by
  rcases exists_of_mem_headRow h with ⟨x, style, rfl⟩ | ⟨x, style, rfl⟩
  · simp only [top, bottom, px, headRadius]
    omega
  · simp only [top, bottom, px]
    omega

/-- A glyph lies between nine pixels above its height and five below. -/
theorem span_glyph {y : Int} {s : Symbol} {c : Mark} (h : c ∈ glyph y s) :
    y - px 9 ≤ top c ∧ bottom c ≤ y + px 5 := by
  have hstem : ∀ {x : Int} {length : Length}, c ∈ stemGlyph x y length →
      y - px 9 ≤ top c ∧ bottom c ≤ y + px 5 := by
    intro x length hc
    rw [eq_of_mem_stemGlyph hc]
    simp only [top, bottom, px, headRadius]
    omega
  rcases s with ⟨d, p | ps | _ | _⟩
  · exact (List.mem_append.mp h).elim span_headRow hstem
  · exact (List.mem_append.mp h).elim span_headRow hstem
  · rcases d with ⟨length, dotted⟩
    cases length <;>
      simp only [glyph, restGlyph, zigzag, List.mem_cons, List.not_mem_nil, or_false] at h
    · rcases h with rfl | rfl <;> simp only [top, bottom, px, headRadius] <;> omega
    · rcases h with rfl | rfl | rfl | rfl | rfl <;> simp only [top, bottom, px] <;> omega
    · subst h
      simp only [top, bottom, px]
      omega
    · subst h
      simp only [top, bottom, px]
      omega
  · simp [glyph] at h

theorem span_flag {y : Int} {s : Symbol} {c : Mark} (h : c ∈ flag y s) :
    y - px 9 ≤ top c ∧ bottom c ≤ y + px 5 := by
  rw [eq_of_mem_flag h]
  simp only [taperGlyph, top, bottom, px, headRadius, taperWidth]
  omega

theorem two_le_halves (s : Symbol) : 2 ≤ s.halves := by
  have hd : ∀ d : Duration, 2 ≤ d.halves := by
    rintro ⟨length, dotted⟩
    cases length <;> cases dotted <;> decide
  exact hd s.duration

theorem spans_disjoint {y y' : Int} {s s' : Symbol} {c c' : Mark}
    (hy : y' ≤ y - beatHeight * s.halves)
    (hc : c ∈ glyph y s ++ flag y s) (hc' : c' ∈ glyph y' s' ++ flag y' s') :
    bottom c' < top c := by
  have hs := two_le_halves s
  have htop := ((List.mem_append.mp hc).elim span_glyph span_flag).1
  have hbottom := ((List.mem_append.mp hc').elim span_glyph span_flag).2
  simp only [px, beatHeight] at *
  omega

namespace Sheet
variable {sheet : Sheet}

theorem filter_plates_ink (ms : List Moment) (P : Nat → Bool) :
    ((sheet.plates ms).filter fun p => P p.start).flatMap Plate.ink =
      (ms.filter fun m => P m.start).flatMap fun m => glyph (sheet.cursor m.start) m.symbol := by
  have hmap :=
    congrArg (fun l => (l.filter fun q => P q.1).flatMap Prod.snd) (sheet.plates_map Prod.mk ms)
  simpa only [List.filter_map, List.flatMap_map, Function.comp_def] using hmap

/-- The signs of a page are the glyphs of its accepted symbols, and at the end what is left of a
refused one. -/
theorem signs_pageGroup (symbols : List Symbol) (last page : Nat) :
    ∃ left, marksOf .sign (sheet.pageGroup (sheet.picture symbols) last page).content =
        (((accepted sheet.format symbols).filter fun m => sheet.format.pageOf m.start ==
          page).flatMap fun m =>
          glyph (sheet.cursor m.start) m.symbol) ++ left ∧
      (refused? sheet.format symbols = none → left = []) := by
  have hink : ∀ p ∈ (sheet.picture symbols).filter fun p => sheet.format.pageOf p.start == page,
      marksOf .sign (p.ink ++ p.tail) = p.ink := by
    intro p hp
    obtain ⟨hi, ht⟩ := roles_of_mem_picture (List.mem_of_mem_filter hp)
    have htail : marksOf .sign p.tail = [] := marksOf_eq_nil fun c hc => by
      rcases ht c hc with hr | hr <;> simp [hr]
    rw [marksOf_append, htail, List.append_nil, hi.marksOf_eq, if_pos rfl]
  rw [marksOf_pageGroup rfl, List.flatMap_congr hink, picture, List.filter_append,
    List.flatMap_append, filter_plates_ink _ fun t => sheet.format.pageOf t == page]
  refine ⟨_, rfl, ?_⟩
  intro hnone
  rw [hnone]
  rfl

end Sheet

def Score.heightOf (score : Score) (symbols : List Symbol) (i : Nat) : HalfPixel :=
  score.sheet.cursor (totalHalves (symbols.take i))

theorem mem_moments {score : Score} {symbols : List Symbol} {i : Nat} {s : Symbol}
    (hi : i < (score.sheet.taken symbols {}).length) (hs : symbols[i]? = some s) :
    ⟨totalHalves (symbols.take i), s⟩ ∈ score.moments symbols := by
  obtain ⟨rest, hrest⟩ := score.sheet.taken_isPrefix symbols {}
  have hget := congrArg (fun l => l[i]?) hrest
  have htake := congrArg (List.take i) hrest
  simp only [List.getElem?_append_left hi, hs] at hget
  rw [List.take_append_of_le_length (Nat.le_of_lt hi)] at htake
  apply List.mem_of_getElem? (i := i)
  rw [Score.moments, timeline_getElem?, hget, htake, Nat.zero_add]
  rfl

theorem totalHalves_take_mono (symbols : List Symbol) {i j : Nat} (h : i ≤ j) :
    totalHalves (symbols.take i) ≤ totalHalves (symbols.take j) := by
  have hcut := congrArg totalHalves (List.take_append_drop i (symbols.take j))
  rw [List.take_take, Nat.min_eq_left h, totalHalves_append] at hcut
  omega

theorem totalHalves_take_add_le {symbols : List Symbol} {i j : Nat} {s : Symbol} (hij : i < j)
    (hs : symbols[i]? = some s) :
    totalHalves (symbols.take i) + s.halves ≤ totalHalves (symbols.take j) := by
  obtain ⟨hi, rfl⟩ := List.getElem?_eq_some_iff.mp hs
  have hmono := totalHalves_take_mono symbols (show i + 1 ≤ j from hij)
  rw [List.take_succ_eq_append_getElem hi, totalHalves_append] at hmono
  exact hmono

theorem headX?_eq_laneX {p : Pitch} (h : InReach p) : headX? p = some (laneX p) := by
  rw [laneX_eq h]
  exact (headX?_of_inReach h).1

theorem recorded_glyph_of_mem {f : PageFormat} {symbols : List Symbol} {m : Moment}
    (h : m ∈ accepted f symbols) :
    (((Sheet.forSymbols f symbols).cursor m.start : ℤ) : ℚ) / 2 =
        f.heightAtBeat (f.measureCount symbols) ((m.start : ℚ) / 2) ∧
      (glyph ((Sheet.forSymbols f symbols).cursor m.start) m.symbol).map recorded =
        symbolMarks (f.heightAtBeat (f.measureCount symbols) ((m.start : ℚ) / 2)) m.symbol := by
  obtain ⟨htime, haccepted⟩ := mem_accepted h
  have hlt := Sheet.forSymbols_holds symbols f _
    (by simpa using (start_lt_of_mem_timeline htime).2)
  have hheight := (Sheet.forSymbols f symbols).cursor_eq_heightAtBeat hlt
  refine ⟨hheight, ?_⟩
  rw [recorded_glyph _ haccepted.2, hheight]
  rfl

/-- On every page the signs are the marks of the symbols that begin there, in their order; each is
drawn at the height that the exact beats before it give. Later symbols of a page stand wholly above
earlier ones. -/
theorem drawn_at_start_beat {f : PageFormat} {symbols : List Symbol} {score : Score}
    (h : engrave? f symbols = some score) :
    score.sheet.taken symbols {} <+: symbols ∧
    (score.fault = none → score.sheet.taken symbols {} = symbols) ∧
    (∀ page g, (groups score.drawing)[page]? = some g →
      ∃ left, (marksOf .sign g.content).map recorded =
          (((score.moments symbols).filter fun m => f.pageOf m.start == page).flatMap fun m =>
            symbolMarks (f.heightAtBeat (f.measureCount symbols) ((m.start : ℚ) / 2)) m.symbol) ++
            left ∧
        (score.fault = none → left = [])) ∧
    (∀ i s, i < (score.sheet.taken symbols {}).length → symbols[i]? = some s →
      (∃ g, (groups score.drawing)[(f.pageOfBeat (startBeat symbols i)).toNat]? = some g ∧
        symbolMarks (f.heightAtBeat (f.measureCount symbols) (startBeat symbols i)) s <:+:
          g.content.map recorded) ∧
      (∀ p ∈ s.pitches, headX? p = some (laneX p)) ∧
      ((score.heightOf symbols i : ℤ) : ℚ) / 2 =
        f.heightAtBeat (f.measureCount symbols) (startBeat symbols i) ∧
      (glyph (score.heightOf symbols i) s).map recorded =
        symbolMarks (f.heightAtBeat (f.measureCount symbols) (startBeat symbols i)) s) ∧
    ∀ i j s u, i < j → symbols[i]? = some s → symbols[j]? = some u →
      f.pageOfBeat (startBeat symbols i) = f.pageOfBeat (startBeat symbols j) →
      score.heightOf symbols j < score.heightOf symbols i ∧
        ∀ c ∈ glyph (score.heightOf symbols i) s ++ flag (score.heightOf symbols i) s,
          ∀ c' ∈ glyph (score.heightOf symbols j) u ++ flag (score.heightOf symbols j) u,
            bottom c' < top c := by
  obtain ⟨pages, rfl⟩ := engrave_of_engrave? h
  have hmoments := engrave_moments f symbols pages
  refine ⟨Sheet.taken_isPrefix _ _ _, engrave_taken, ?_, ?_, ?_⟩
  · intro page g hg
    obtain ⟨left, hsigns, hleft⟩ :=
      @Sheet.signs_pageGroup (Sheet.forSymbols f symbols) symbols
        ((Sheet.forSymbols f symbols).lastPage symbols) page
    rw [group_eq_pageGroup hg, hmoments, hsigns, List.map_append, List.map_flatMap]
    refine ⟨left.map recorded, congrArg (· ++ _) (List.flatMap_congr fun m hm => ?_),
      fun hfault => ?_⟩
    · exact (recorded_glyph_of_mem (List.mem_of_mem_filter hm)).2
    · rw [hleft ((engrave_fault_eq_none_iff f symbols pages).mp hfault), List.map_nil]
  · intro i s hi hs
    have hm := mem_moments hi hs
    rw [hmoments] at hm
    obtain ⟨g, hg, hinfix⟩ := exists_group hm pages
    obtain ⟨hheight, hmarks⟩ := recorded_glyph_of_mem hm
    rw [startBeat_eq, f.pageOfBeat_eq, Int.toNat_natCast]
    refine ⟨⟨g, hg, ?_⟩, fun p hp => ?_, hheight, hmarks⟩
    · rw [← hmarks]
      exact hinfix.map recorded
    · exact headX?_eq_laneX ((mem_accepted hm).2.2.2 p hp)
  · intro i j s u hij hs hu hpage
    rw [startBeat_eq, startBeat_eq, f.pageOfBeat_eq, f.pageOfBeat_eq, Int.natCast_inj] at hpage
    have hle := totalHalves_take_add_le hij hs
    have hpos := two_le_halves s
    have hcursor := (Sheet.forSymbols f symbols).cursor_le (by omega) hpage
    have hstep : (Sheet.forSymbols f symbols).cursor (totalHalves (symbols.take j)) ≤
        (Sheet.forSymbols f symbols).cursor (totalHalves (symbols.take i)) - beatHeight *
          s.halves := by
      simp only [beatHeight] at hcursor ⊢
      have hhalves : (s.halves : ℤ) ≤ (totalHalves (symbols.take j) : ℤ) -
          totalHalves (symbols.take i) := by omega
      linarith
    refine ⟨?_, fun c hc c' hc' => spans_disjoint hstep hc hc'⟩
    have hhalves : (2 : ℤ) ≤ s.halves := by exact_mod_cast hpos
    simp only [beatHeight] at hstep
    simp only [Score.heightOf, Sheet.engrave]
    linarith

def twoMeasures : List Symbol :=
  [⟨⟨.half, false⟩, .note 7⟩, ⟨⟨.quarter, true⟩, .chord [0, 2]⟩, ⟨⟨.eighth, false⟩, .rest⟩]

/-- The chord is the first symbol of the second page, fifteen pixels below the top of its one
measure; the rest stands three beats above it. -/
theorem chord_of_twoMeasures :
    ∃ score g, engrave? { beatsPerMeasure := 4, measuresPerPage := 1 } twoMeasures = some score ∧
      (groups score.drawing)[1]? = some g ∧
      [.circle 128 75 4 "stroke-width:1;stroke:black;fill:black", .circle 134 68 2 "fill:black",
        .circle 143 75 4 "stroke-width:1;stroke:black;fill:black", .circle 149 68 2 "fill:black",
        .line (-20) 71 143 71 "stroke-width:1;stroke:black"] <:+: g.content.map recorded ∧
      [.line 143 26 158 34 "stroke-width:2;stroke:black;fill:none",
        .circle 147 32 3 "fill:black"] <:+:
        g.content.map recorded := by
  have hcount : PageFormat.measureCount { beatsPerMeasure := 4, measuresPerPage := 1 } twoMeasures ≤
      2 ^ 53 := by
    decide
  obtain ⟨pages, hscore⟩ := engrave?_eq_some hcount
  obtain ⟨-, -, -, hsymbols, -⟩ := drawn_at_start_beat hscore
  obtain ⟨⟨g, hg, hchord⟩, -⟩ := hsymbols 1 ⟨⟨.quarter, true⟩, .chord [0, 2]⟩
    (by simp only [Sheet.engrave]; decide +kernel) rfl
  obtain ⟨⟨g', hg', hrest⟩, -⟩ := hsymbols 2 ⟨⟨.eighth, false⟩, .rest⟩
    (by simp only [Sheet.engrave]; decide +kernel) rfl
  have hpage : ∀ i, i = 1 ∨ i = 2 → (PageFormat.pageOfBeat
      { beatsPerMeasure := 4, measuresPerPage := 1 } (startBeat twoMeasures i)).toNat = 1 := by
    rintro i (rfl | rfl) <;> decide +kernel
  rw [hpage 1 (.inl rfl)] at hg
  rw [hpage 2 (.inr rfl)] at hg'
  obtain rfl : g = g' := Option.some.inj (hg.symm.trans hg')
  have hmarks : symbolMarks (PageFormat.heightAtBeat { beatsPerMeasure := 4, measuresPerPage := 1 }
        (PageFormat.measureCount { beatsPerMeasure := 4, measuresPerPage := 1 } twoMeasures)
        (startBeat twoMeasures 1)) ⟨⟨.quarter, true⟩, .chord [0, 2]⟩ =
      [.circle 128 75 4 "stroke-width:1;stroke:black;fill:black", .circle 134 68 2 "fill:black",
        .circle 143 75 4 "stroke-width:1;stroke:black;fill:black", .circle 149 68 2 "fill:black",
        .line (-20) 71 143 71 "stroke-width:1;stroke:black"] := by
    decide +kernel
  have hstrokes : symbolMarks (PageFormat.heightAtBeat
        { beatsPerMeasure := 4, measuresPerPage := 1 }
        (PageFormat.measureCount { beatsPerMeasure := 4, measuresPerPage := 1 } twoMeasures)
        (startBeat twoMeasures 2)) ⟨⟨.eighth, false⟩, .rest⟩ =
      [.line 143 26 158 34 "stroke-width:2;stroke:black;fill:none",
        .circle 147 32 3 "fill:black"] := by
    decide +kernel
  rw [hmarks] at hchord
  rw [hstrokes] at hrest
  exact ⟨_, g, hscore, hg, hchord, hrest⟩

end Tablature.Engraving
