import Mathlib.Data.List.Sort
import Tablature.Proofs.Beaming
import Tablature.Proofs.Heights
import Tablature.Proofs.Numbering

/-!
A drawing can be deciphered. Every sign tells the height of the symbol that it belongs to, so the
glyph of a symbol can be picked out of its page; a glyph tells the pitches, the dot and the length
of what it shows. Only eighth and quarter notes have the same glyph: beams and tapers tell the
heights of the eighth notes. So two scores with the same drawing have the same symbols at the same
beats, as far as a drawing can show them (`drawing_tells_symbols`). -/
namespace Tablature.Engraving
open Tablature.Music Tablature.Drawing

def signHeight : Mark → HalfPixel
  | .circle _ y r _ => if r = px headRadius then y else if r = px 2 then y + px 7 else y - px 2
  | .rect _ y _ _ _ => y + px 2
  | .line x₁ y₁ _ _ style =>
    if style = restStyle then
      if x₁ = px (centreX + 7) ∨ x₁ = px (centreX + 20) then y₁ + px 7
      else if x₁ = px (centreX + 22) then y₁ + px headRadius
      else y₁
    else y₁ + px headRadius
  | _ => 0

theorem signHeight_of_mem_glyph {c : Mark} {y : HalfPixel} {s : Symbol} (h : c ∈ glyph y s) :
    signHeight c = y := by
  have hhead : ∀ {d : Duration} {ps : List Pitch}, c ∈ headRow y d ps → signHeight c = y := by
    intro d ps hc
    rcases exists_of_mem_headRow hc with ⟨x, style, rfl⟩ | ⟨x, style, rfl⟩
    · rfl
    · simp [signHeight, px, headRadius]
  have hstem : ∀ {x : Int} {length : Length}, c ∈ stemGlyph x y length → signHeight c = y := by
    intro x length hc
    have hstyle : thinStyle ≠ restStyle := by decide
    rw [eq_of_mem_stemGlyph hc]
    simp [signHeight, hstyle]
  obtain ⟨⟨length, dotted⟩, sound⟩ := s
  cases sound with
  | note p => exact (List.mem_append.mp h).elim hhead hstem
  | chord ps => exact (List.mem_append.mp h).elim hhead hstem
  | rest =>
    cases length <;>
      simp only [glyph, restGlyph, zigzag, List.mem_cons, List.not_mem_nil, or_false] at h
    · rcases h with rfl | rfl <;> simp [signHeight, px, headRadius, centreX]
    · rcases h with rfl | rfl | rfl | rfl | rfl <;> simp [signHeight, px, centreX]
    · subst h
      simp [signHeight]
    · subst h
      simp [signHeight]
  | other => cases h

def pitchAt (x : HalfPixel) : Pitch := lanePitches.getD ((x / 2 - 8) / laneWidth).toNat 0

theorem pitchAt_headAt {p : Pitch} (h : InReach p) : pitchAt (px (headAt p)) = p := by
  obtain ⟨hl, hu⟩ := h
  interval_cases p <;> decide

def headPitch? : Mark → Option Pitch
  | .circle x _ r _ => if r = px headRadius then some (pitchAt x) else none
  | _ => none

def isHollowHead : Mark → Bool
  | .circle _ _ r style => r == px headRadius && style == thinStyle ++ ";fill:white"
  | _ => false

def isDot : Mark → Bool
  | .circle _ _ r _ => r == px 2
  | _ => false

def isStem : Mark → Bool
  | .line _ _ _ _ _ => true
  | _ => false

def restLength : Mark → Length
  | .rect x _ _ _ _ => if x = px centreX then .whole else .half
  | .line x₁ _ _ _ _ => if x₁ = px centreX then .quarter else .eighth
  | _ => .whole

section Reading
variable (y : HalfPixel) (d : Duration)

theorem headGlyph_pitches {p : Pitch} (h : InReach p) :
    (headGlyph (headAt p) y d).filterMap headPitch? = [p] := by
  by_cases hd : d.dotted = true
  · have hdot : px 2 ≠ px headRadius := by decide
    simp [headGlyph, hd, headPitch?, pitchAt_headAt h, hdot]
  · simp [headGlyph, hd, headPitch?, pitchAt_headAt h]

theorem soundGlyph_pitches {ps : List Pitch} (h : ∀ p ∈ ps, InReach p) :
    (soundGlyph y d ps).filterMap headPitch? = ps := by
  have hrow : (headRow y d ps).filterMap headPitch? = ps := by
    induction ps with
    | nil => rfl
    | cons p ps ih =>
      obtain ⟨hp, hps⟩ := List.forall_mem_cons.mp h
      rw [headRow, List.flatMap_cons, List.filterMap_append, headGlyph_pitches y d hp]
      exact congrArg (p :: ·) (ih hps)
  have hstem : (stemGlyph (stemEnd ps) y d.length).filterMap headPitch? = [] := by
    by_cases hl : d.length = .whole
    · simp [stemGlyph, hl]
    · simp [stemGlyph, hl, headPitch?]
  rw [soundGlyph, List.filterMap_append, hrow, hstem, List.append_nil]

end Reading

theorem glyph_pitches {s : Symbol} (hs : Drawable s) (y : HalfPixel) :
    (glyph y s).filterMap headPitch? = s.pitches := by
  obtain ⟨hplay, hreach⟩ := hs
  obtain ⟨⟨length, dotted⟩, sound⟩ := s
  cases sound with
  | note p => exact soundGlyph_pitches y _ hreach
  | chord ps => exact soundGlyph_pitches y _ hreach
  | rest => cases length <;> rfl
  | other => exact hplay.elim

section Tests
variable (y : HalfPixel) (d : Duration) {ps : List Pitch} (hne : ps ≠ [])
include hne

/-- A test of signs that answers the same for all heads, the same for all dots, and the same for all
stems. -/
theorem any_soundGlyph (test : Mark → Bool) (head dot stem : Bool)
    (hhead : ∀ x, test (.circle x y (px headRadius)
      (thinStyle ++ ";fill:" ++ if isHollow d.length then "white" else "black")) = head)
    (hdot : ∀ x y, test (.circle x y (px 2) inkStyle) = dot)
    (hstem : ∀ x x' y, test (.line x y x' y thinStyle) = stem) :
    (soundGlyph y d ps).any test = (head || d.dotted && dot || d.length != .whole && stem) := by
  have hhead : ∀ p, (headGlyph (headAt p) y d).any test = (head || d.dotted && dot) := by
    intro p
    cases hd : d.dotted <;> simp [headGlyph, hd, hhead, hdot]
  have hstem : (stemGlyph (stemEnd ps) y d.length).any test = (d.length != .whole && stem) := by
    by_cases hl : d.length = .whole
    · simp [stemGlyph, hl]
    · simp [stemGlyph, hl, hstem]
  obtain ⟨p, ps, rfl⟩ := List.exists_cons_of_ne_nil hne
  rw [soundGlyph, List.any_append, hstem, headRow, List.any_flatMap]
  simp only [hhead]
  cases head || d.dotted && dot <;> simp

theorem any_isHollowHead : (soundGlyph y d ps).any isHollowHead = isHollow d.length := by
  have hfill : ∀ hollow : Bool,
      (thinStyle ++ ";fill:" ++ (if hollow then "white" else "black") == thinStyle ++
        ";fill:white") = hollow := by
    decide
  have hany := any_soundGlyph y d hne isHollowHead (isHollow d.length) false false
    (fun x => hfill _) (fun x y => rfl) fun x x' y => rfl
  simpa using hany

theorem any_isDot : (soundGlyph y d ps).any isDot = d.dotted := by
  have hany :=
    any_soundGlyph y d hne isDot false true false (fun x => rfl) (fun x y => rfl) fun x x' y => rfl
  simpa using hany

theorem any_isStem : (soundGlyph y d ps).any isStem = (d.length != .whole) := by
  have hany :=
    any_soundGlyph y d hne isStem false false true (fun x => rfl) (fun x y => rfl) fun x x' y => rfl
  simpa using hany

end Tests

def isSounding (s : Symbol) : Bool :=
  match s.sound with
  | .note _ | .chord _ => true
  | _ => false

theorem sounding_or_rest {s : Symbol} (hs : Drawable s) :
    (isSounding s = true ∧ s.pitches ≠ [] ∧ ∀ y, glyph y s = soundGlyph y s.duration s.pitches) ∨
      (s.sound = .rest ∧ s.pitches = []) := by
  obtain ⟨d, sound⟩ := s
  cases sound with
  | note p => exact Or.inl ⟨rfl, List.cons_ne_nil p [], fun _ => rfl⟩
  | chord ps => exact Or.inl ⟨rfl, hs.1, fun _ => rfl⟩
  | rest => exact Or.inr ⟨rfl, rfl⟩
  | other => exact hs.1.elim

/-- What a drawing shows of a symbol: of a rest its length, of a note or a chord its pitches and its
duration. -/
def LookAlike (s u : Symbol) : Prop :=
  (s.sound = .rest ∧ u.sound = .rest ∧ s.duration.length = u.duration.length) ∨
    (isSounding s = true ∧ isSounding u = true ∧ s.pitches = u.pitches ∧
      s.duration.length = u.duration.length ∧
      s.duration.dotted = u.duration.dotted)

theorem length_of_restGlyph {y : HalfPixel} {length length' : Length}
    (h : restGlyph y length = restGlyph y length') :
    length = length' := by
  have hread : ∀ l, (restGlyph y l).head?.map restLength = some l := by
    intro l
    cases l <;> rfl
  have heq := hread length
  rw [h, hread length'] at heq
  exact (Option.some.inj heq).symm

theorem glyph_ne_nil {s : Symbol} (hs : Drawable s) (y : HalfPixel) : glyph y s ≠ [] := by
  rcases sounding_or_rest hs with ⟨-, hne, -⟩ | ⟨hrest, -⟩
  · intro hnil
    have hpitches := glyph_pitches hs y
    rw [hnil] at hpitches
    exact hne hpitches.symm
  · rw [glyph, hrest]
    cases s.duration.length <;> exact List.cons_ne_nil _ _

/-- What the glyph of a note or a chord tells of its duration: whether heads are hollow, whether
there are dots, and whether there is a stem. -/
theorem duration_of_soundGlyph {y : HalfPixel} {d d' : Duration} {ps : List Pitch} (hne : ps ≠ [])
    (h : soundGlyph y d ps = soundGlyph y d' ps) :
    isHollow d.length = isHollow d'.length ∧ d.dotted = d'.dotted ∧
    (d.length = .whole ↔ d'.length = .whole) := by
  refine ⟨?_, ?_, ?_⟩
  · rw [← any_isHollowHead y d hne, h, any_isHollowHead y d' hne]
  · rw [← any_isDot y d hne, h, any_isDot y d' hne]
  · have hstem : (d.length != .whole) = (d'.length != .whole) := by
      rw [← any_isStem y d hne, h, any_isStem y d' hne]
    simpa [bne] using hstem

theorem length_eq {l l' : Length} (hhollow : isHollow l = isHollow l')
    (hwhole : l = .whole ↔ l' = .whole)
    (heighth : l = .eighth ↔ l' = .eighth) : l = l' := by
  cases l <;> cases l' <;> simp [isHollow] at hhollow hwhole heighth ⊢

def isFlagged (s : Symbol) : Bool := isSounding s && s.duration.length == .eighth

/-- Symbols with the same glyph look alike, if the eighth notes and eighth chords among them are
known. -/
theorem lookAlike_of_glyph {s u : Symbol} (hs : Drawable s) (hu : Drawable u) {y : HalfPixel}
    (h : glyph y s = glyph y u) (hflag : isFlagged s = isFlagged u) : LookAlike s u := by
  have hpitches : s.pitches = u.pitches := by rw [← glyph_pitches hs y, h, glyph_pitches hu y]
  rcases sounding_or_rest hs with ⟨hsound, hne, hglyph⟩ | ⟨hrest, hnone⟩
  · rcases sounding_or_rest hu with ⟨hsound', hne', hglyph'⟩ | ⟨-, hnone'⟩
    · rw [hglyph, hglyph', hpitches] at h
      obtain ⟨hhollow, hdot, hwhole⟩ := duration_of_soundGlyph hne' h
      have heighth : s.duration.length = .eighth ↔ u.duration.length = .eighth := by
        simpa [isFlagged, hsound, hsound'] using hflag
      exact Or.inr ⟨hsound, hsound', hpitches, length_eq hhollow hwhole heighth, hdot⟩
    · exact absurd (hpitches.trans hnone') hne
  · rcases sounding_or_rest hu with ⟨-, hne', -⟩ | ⟨hrest', -⟩
    · exact absurd (hpitches.symm.trans hnone) hne'
    · rw [glyph, glyph, hrest, hrest'] at h
      exact Or.inl ⟨hrest, hrest', length_of_restGlyph h⟩

def signsAt (y : HalfPixel) (ms : List Mark) : List Mark :=
  (marksOf .sign ms).filter fun c => signHeight c == y

def beamEnds : Mark → List HalfPixel
  | .line _ y₁ _ y₂ _ => [y₂ + px headRadius, y₁ + px headRadius]
  | _ => []

def taperEnd : Mark → HalfPixel
  | .line _ y₁ _ _ _ => y₁ + px headRadius
  | _ => 0

def flagHeights (ms : List Mark) : List HalfPixel :=
  (marksOf .beam ms).flatMap beamEnds ++ (marksOf .taper ms).map taperEnd

namespace Sheet
variable {sheet : Sheet}

theorem beamEnds_beam (m m' : Moment) :
    beamEnds (sheet.beam m m') = [sheet.cursor m.start, sheet.cursor m'.start] := by
  simp [beam, beamGlyph, beamEnds]

theorem taperEnd_taper (m : Moment) : taperEnd (sheet.taper m) = sheet.cursor m.start := by
  simp [taper, taperGlyph, taperEnd]

/-- Beams and tapers stand at the heights of the notes of the runs and of the eighth chords. -/
theorem Grouped.mem_flagHeights {rs : List (List Moment)} {ms : List Moment} {drawn : List Mark}
    {y : HalfPixel} (h : sheet.Grouped rs ms drawn) :
    y ∈ flagHeights drawn ↔
      ∃ m, (m ∈ rs.flatten ∨ m ∈ ms ∧ isEighthChord m.symbol = true) ∧
        sheet.cursor m.start = y := by
  obtain ⟨hbeams, htapers⟩ := h
  have hends : (marksOf .beam drawn).flatMap beamEnds =
      rs.flatMap fun g => ((pairs g).flatMap fun q => [q.1, q.2]).map fun m =>
        sheet.cursor m.start := by
    simp only [hbeams, beams, List.flatMap_assoc, List.flatMap_map, List.map_flatMap, beamEnds_beam,
      List.map_cons, List.map_nil]
  have htaper : y ∈ (marksOf .taper drawn).map taperEnd ↔
      ∃ m, ((∃ g ∈ rs, lone g = some m) ∨ m ∈ ms ∧ isEighthChord m.symbol = true) ∧
        sheet.cursor m.start = y := by
    rw [(htapers.map taperEnd).mem_iff, List.map_map]
    simp only [List.mem_map, List.mem_append, List.mem_filterMap, List.mem_filter,
      Function.comp_def, taperEnd_taper]
  rw [flagHeights, List.mem_append, hends, htaper, List.mem_flatMap]
  simp only [List.mem_map]
  -- A note of a run is an end of one of its beams, or the one that keeps its taper.
  constructor
  · rintro (⟨g, hg, m, hm, rfl⟩ | ⟨m, ⟨g, hg, hm⟩ | hm, rfl⟩)
    · exact ⟨m, Or.inl (List.mem_flatten.mpr ⟨g, hg, mem_iff_paired_or_lone.mpr (Or.inl hm)⟩), rfl⟩
    · exact ⟨m, Or.inl (List.mem_flatten.mpr ⟨g, hg, mem_iff_paired_or_lone.mpr (Or.inr hm)⟩), rfl⟩
    · exact ⟨m, Or.inr hm, rfl⟩
  · rintro ⟨m, hm | hm, rfl⟩
    · obtain ⟨g, hg, hm⟩ := List.mem_flatten.mp hm
      rcases mem_iff_paired_or_lone.mp hm with hm | hm
      · exact Or.inl ⟨g, hg, m, hm, rfl⟩
      · exact Or.inr ⟨m, Or.inl ⟨g, hg, hm⟩, rfl⟩
    · exact Or.inr ⟨m, Or.inr hm, rfl⟩

end Sheet

theorem isFlagged_iff {s : Symbol} :
    isFlagged s = true ↔ isSingleEighth s = true ∨ isEighthChord s = true := by
  obtain ⟨d, sound⟩ := s
  cases sound <;> simp [isFlagged, isSounding, isSingleEighth, isEighthChord]

section Pages
variable {f : PageFormat} {symbols : List Symbol} (h : refused? f symbols = none) (last page : Nat)
  (y : HalfPixel)
include h

theorem signsAt_pageGroup :
    signsAt y
        ((Sheet.forSymbols f symbols).pageGroup ((Sheet.forSymbols f symbols).picture symbols) last
          page).content =
      (((timeline 0 symbols).filter fun m => f.pageOf m.start == page).filter fun m =>
        (Sheet.forSymbols f symbols).cursor m.start == y).flatMap fun m =>
          glyph ((Sheet.forSymbols f symbols).cursor m.start) m.symbol := by
  obtain ⟨left, hsigns, hleft⟩ :=
    @Sheet.signs_pageGroup (Sheet.forSymbols f symbols) symbols last page
  rw [signsAt, hsigns, hleft h, List.append_nil, Sheet.forSymbols_format,
    accepted_of_refused?_eq_none h]
  apply filter_flatMap_of_whole
  intro m _
  by_cases hy : (Sheet.forSymbols f symbols).cursor m.start = y
  · refine Or.inl ⟨by simp [hy], ?_⟩
    intro c hc
    simp [signHeight_of_mem_glyph hc, hy]
  · refine Or.inr ⟨by simp [hy], ?_⟩
    intro c hc
    simp [signHeight_of_mem_glyph hc, hy]

theorem mem_flagHeights_pageGroup :
    y ∈ flagHeights
        ((Sheet.forSymbols f symbols).pageGroup ((Sheet.forSymbols f symbols).picture symbols) last
          page).content ↔
      ∃ m ∈ timeline 0 symbols, f.pageOf m.start = page ∧
        (Sheet.forSymbols f symbols).cursor m.start = y ∧
        isFlagged m.symbol = true := by
  rw [(grouped_pageGroup f symbols last page).mem_flagHeights, accepted_of_refused?_eq_none h]
  simp only [mem_eighthRuns_onPage, List.mem_filter, isFlagged_iff, beq_iff_eq]
  constructor
  · rintro ⟨m, ⟨hm, he, hpage⟩ | ⟨⟨hm, hpage⟩, he⟩, hy⟩
    · exact ⟨m, hm, hpage, hy, Or.inl he⟩
    · exact ⟨m, hm, hpage, hy, Or.inr he⟩
  · rintro ⟨m, hm, hpage, hy, he | he⟩
    · exact ⟨m, Or.inl ⟨hm, he, hpage⟩, hy⟩
    · exact ⟨m, Or.inr ⟨⟨hm, hpage⟩, he⟩, hy⟩

end Pages

theorem eq_of_start_eq {symbols : List Symbol} {m m' : Moment} (hm : m ∈ timeline 0 symbols)
    (hm' : m' ∈ timeline 0 symbols) (h : m.start = m'.start) : m = m' :=
  List.inj_on_of_nodup_map (starts_pairwise 0 symbols).nodup hm hm' h

section Partners
variable {f : PageFormat} {symbols : List Symbol} (h : refused? f symbols = none) (last : Nat)
  {m : Moment} (hm : m ∈ timeline 0 symbols)
include h hm

/-- The glyph of a symbol is what stands at its height on its page. -/
theorem signsAt_cursor :
    signsAt ((Sheet.forSymbols f symbols).cursor m.start) ((Sheet.forSymbols f symbols).pageGroup
        ((Sheet.forSymbols f symbols).picture symbols) last (f.pageOf m.start)).content =
      glyph ((Sheet.forSymbols f symbols).cursor m.start) m.symbol := by
  -- No other symbol of the page stands at this height.
  have hsame : ∀ m' ∈ timeline 0 symbols,
      ((Sheet.forSymbols f symbols).cursor m'.start ==
        (Sheet.forSymbols f symbols).cursor m.start &&
        f.pageOf m'.start == f.pageOf m.start) = (m' == m) := by
    intro m' hm'
    apply Bool.eq_iff_iff.mpr
    simp only [Bool.and_eq_true, beq_iff_eq]
    constructor
    · rintro ⟨hcursor, hpage⟩
      exact eq_of_start_eq hm' hm ((Sheet.forSymbols f symbols).cursor_inj hpage hcursor)
    · rintro rfl
      exact ⟨rfl, rfl⟩
  have hnodup : (timeline 0 symbols).Nodup := (starts_pairwise 0 symbols).nodup.of_map
  rw [signsAt_pageGroup h, List.filter_filter, List.filter_congr hsame, List.filter_beq,
    List.count_eq_one_of_mem hnodup hm, List.replicate_one, List.flatMap_singleton]

theorem mem_flagHeights_cursor :
    (Sheet.forSymbols f symbols).cursor m.start ∈
      flagHeights ((Sheet.forSymbols f symbols).pageGroup
        ((Sheet.forSymbols f symbols).picture symbols) last (f.pageOf m.start)).content ↔
      isFlagged m.symbol = true := by
  rw [mem_flagHeights_pageGroup h]
  constructor
  · rintro ⟨m', hm', hpage, hcursor, hflag⟩
    have hstart : m'.start = m.start := (Sheet.forSymbols f symbols).cursor_inj hpage hcursor
    rwa [eq_of_start_eq hm hm' hstart.symm]
  · intro hflag
    exact ⟨m, hm, rfl, rfl, hflag⟩

end Partners

section Twins
variable {f : PageFormat} {a b : List Symbol} {pages pages' : Int} (ha : refused? f a = none)
  (hb : refused? f b = none)
  (h : ((Sheet.forSymbols f a).engrave pages a).drawing =
    ((Sheet.forSymbols f b).engrave pages' b).drawing)
include ha hb h

/-- The numbers beside the bars tell the number of measures, and so the sheet. -/
theorem sheet_of_drawing : Sheet.forSymbols f b = Sheet.forSymbols f a := by
  have hlabels := congrArg (fun drawing => (labels drawing).length) h
  simp only [labels_engrave f a pages ha, labels_engrave f b pages' hb, List.length_map,
    List.length_range'] at hlabels
  rw [Sheet.forSymbols, Sheet.forSymbols, hlabels]

theorem exists_lookAlike {m : Moment} (hm : m ∈ timeline 0 a) :
    ∃ m' ∈ timeline 0 b, m'.start = m.start ∧ LookAlike m.symbol m'.symbol := by
  have hdrawable : ∀ {symbols : List Symbol}, refused? f symbols = none →
      ∀ m ∈ timeline 0 symbols, Drawable m.symbol := by
    intro symbols hnone m hm
    exact (mem_accepted (accepted_of_refused?_eq_none hnone ▸ hm)).2.2
  have hsheet := sheet_of_drawing ha hb h
  -- Both scores have the same group for the page of the moment.
  obtain ⟨g, hg, -⟩ := exists_group (accepted_of_refused?_eq_none ha ▸ hm) pages
  have hga := group_eq_pageGroup hg
  rw [h] at hg
  have hgb := group_eq_pageGroup hg
  have hglyph := signsAt_cursor ha ((Sheet.forSymbols f a).lastPage a) hm
  rw [← hga] at hglyph
  -- What stands at its height on that page is not nothing.
  have hne := glyph_ne_nil (hdrawable ha m hm) ((Sheet.forSymbols f a).cursor m.start)
  rw [← hglyph, hgb, signsAt_pageGroup hb, hsheet] at hne
  simp only [ne_eq, List.flatMap_eq_nil_iff, not_forall] at hne
  obtain ⟨m', hm', -⟩ := hne
  simp only [List.mem_filter, beq_iff_eq] at hm'
  obtain ⟨⟨hm', hpage⟩, hcursor⟩ := hm'
  have hstart : m'.start = m.start := (Sheet.forSymbols f a).cursor_inj hpage hcursor
  have hglyph' := signsAt_cursor hb ((Sheet.forSymbols f b).lastPage b) hm'
  have hflag := mem_flagHeights_cursor ha ((Sheet.forSymbols f a).lastPage a) hm
  have hflag' := mem_flagHeights_cursor hb ((Sheet.forSymbols f b).lastPage b) hm'
  rw [hstart, ← hgb, hsheet] at hglyph' hflag'
  rw [← hga] at hflag
  have hflags : isFlagged m.symbol = isFlagged m'.symbol :=
    Bool.eq_iff_iff.mpr (hflag.symm.trans hflag')
  have halike :=
    lookAlike_of_glyph (hdrawable ha m hm) (hdrawable hb m' hm') (hglyph.symm.trans hglyph') hflags
  exact ⟨m', hm', hstart, halike⟩

end Twins

/-- Two scores with the same drawing have the same number of symbols, and in each place the two
symbols begin at the same beat and look alike. -/
theorem drawing_tells_symbols {f : PageFormat} {a b : List Symbol} {score score' : Score}
    (ha : engrave? f a = some score) (hb : engrave? f b = some score') (hfault : score.fault = none)
    (hfault' : score'.fault = none) (h : score.drawing = score'.drawing) :
    a.length = b.length ∧ ∀ i s u, a[i]? = some s → b[i]? = some u →
      startBeat a i = startBeat b i ∧ LookAlike s u := by
  obtain ⟨pages, rfl⟩ := engrave_of_engrave? ha
  obtain ⟨pages', rfl⟩ := engrave_of_engrave? hb
  have hna := (engrave_fault_eq_none_iff f a pages).mp hfault
  have hnb := (engrave_fault_eq_none_iff f b pages').mp hfault'
  have hstarts : (timeline 0 a).map Moment.start = (timeline 0 b).map Moment.start := by
    refine (starts_pairwise 0 a).eq_of_mem_iff (starts_pairwise 0 b) ?_
    intro t
    simp only [List.mem_map]
    constructor
    · rintro ⟨m, hm, rfl⟩
      obtain ⟨m', hm', hstart, -⟩ := exists_lookAlike hna hnb h hm
      exact ⟨m', hm', hstart⟩
    · rintro ⟨m, hm, rfl⟩
      obtain ⟨m', hm', hstart, -⟩ := exists_lookAlike hnb hna h.symm hm
      exact ⟨m', hm', hstart⟩
  refine ⟨by simpa [timeline_length] using congrArg List.length hstarts, ?_⟩
  intro i s u hs hu
  have hma : (timeline 0 a)[i]? = some ⟨totalHalves (a.take i), s⟩ := by
    simp [timeline_getElem?, hs]
  have hmb : (timeline 0 b)[i]? = some ⟨totalHalves (b.take i), u⟩ := by
    simp [timeline_getElem?, hu]
  have hstart : totalHalves (a.take i) = totalHalves (b.take i) := by
    have hget := congrArg (fun ts : List Nat => ts[i]?) hstarts
    simpa [hma, hmb] using hget
  refine ⟨by rw [startBeat_eq, startBeat_eq, hstart], ?_⟩
  obtain ⟨m', hm', hsame, halike⟩ := exists_lookAlike hna hnb h (List.mem_of_getElem? hma)
  have hpartner : m' = ⟨totalHalves (b.take i), u⟩ :=
    eq_of_start_eq hm' (List.mem_of_getElem? hmb) (hsame.trans hstart)
  rwa [hpartner] at halike

def noteAndRest : List Symbol := [⟨⟨.quarter, true⟩, .note 4⟩, ⟨⟨.eighth, true⟩, .rest⟩]

def chordAndRest : List Symbol := [⟨⟨.quarter, true⟩, .chord [4]⟩, ⟨⟨.eighth, false⟩, .rest⟩]

/-- They have the same drawing; the dot of the rest is not drawn. -/
theorem same_drawing_of_noteAndRest :
    ∃ score score', engrave? {} noteAndRest = some score ∧ engrave? {} chordAndRest = some score' ∧
      score.fault = none ∧ score'.fault = none ∧ score.drawing = score'.drawing ∧
      startBeat noteAndRest 1 = startBeat chordAndRest 1 ∧
      LookAlike ⟨⟨.quarter, true⟩, .note 4⟩ ⟨⟨.quarter, true⟩, .chord [4]⟩ ∧
      LookAlike ⟨⟨.eighth, true⟩, .rest⟩ ⟨⟨.eighth, false⟩, .rest⟩ := by
  have hpages : (Sheet.forSymbols {} noteAndRest).pageCount? = some 1 := by decide +kernel
  have hpages' : (Sheet.forSymbols {} chordAndRest).pageCount? = some 1 := by decide +kernel
  have hnone : refused? {} noteAndRest = none := by decide
  have hnone' : refused? {} chordAndRest = none := by decide
  have ha : engrave? {} noteAndRest =
      some ((Sheet.forSymbols {} noteAndRest).engrave 1 noteAndRest) := by
    rw [engrave?, hpages]
    rfl
  have hb : engrave? {} chordAndRest =
      some ((Sheet.forSymbols {} chordAndRest).engrave 1 chordAndRest) := by
    rw [engrave?, hpages']
    rfl
  have hfault := (engrave_fault_eq_none_iff _ _ 1).mpr hnone
  have hfault' := (engrave_fault_eq_none_iff _ _ 1).mpr hnone'
  have hdrawing : ((Sheet.forSymbols {} noteAndRest).engrave 1 noteAndRest).drawing =
      ((Sheet.forSymbols {} chordAndRest).engrave 1 chordAndRest).drawing := by
    decide +kernel
  obtain ⟨-, htells⟩ := drawing_tells_symbols ha hb hfault hfault' hdrawing
  obtain ⟨-, hsounding⟩ := htells 0 _ _ rfl rfl
  obtain ⟨hstart, hrest⟩ := htells 1 _ _ rfl rfl
  exact ⟨_, _, ha, hb, hfault, hfault', hdrawing, hstart, hsounding, hrest⟩

end Tablature.Engraving
