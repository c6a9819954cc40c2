import Tablature.Proofs.Deciphering
import Tablature.Proofs.Letters
import Tablature.Proofs.Recording

/-!
Heads and lanes. A reader of a page finds the heads, the circles of their radius, and for each the
lanes in which it stands and what is written at those lanes, without knowing any pitch. On a page of
a score there is one lane and one label for a head, and they name its pitch (`labels_of_heads`); so
the labels that the heads of a document mark are the note letters of its text, in capitals and in
their order (`marks_typed_letters`). -/
namespace Tablature.Engraving
open Tablature.Music Tablature.Drawing Tablature.Notation

def headCentre? : Mark → Option (HalfPixel × HalfPixel)
  | .circle x y r _ => if r = px headRadius then some (x, y) else none
  | _ => none

/-- The left edge of a lane in which a place lies. -/
def laneAt? (place : HalfPixel × HalfPixel) : Mark → Option HalfPixel
  | .rect x y width height _ =>
    if width = px laneWidth ∧ (x ≤ place.1 ∧ place.1 ≤ x + width) ∧
      (y ≤ place.2 ∧ place.2 ≤ y + height) then some x
    else none
  | _ => none

def labelIn? (left : HalfPixel) : Mark → Option String
  | .text x _ content _ => if left ≤ x ∧ x ≤ left + px laneWidth then some content else none
  | _ => none

/-- The labels of all lanes of a page in which a place lies. -/
def labelsAt (page : List Mark) (place : HalfPixel × HalfPixel) : List String :=
  (page.filterMap (laneAt? place)).flatMap fun left => page.filterMap (labelIn? left)

section Lanes
variable {height : Int} {lane : Nat} {y : HalfPixel}

theorem flatMap_lanes {α : Type} (h : lane < laneCount) (F : Nat → α) :
    ((List.range laneCount).flatMap fun i => if i = lane then [F i] else []) = [F lane] := by
  rw [laneCount] at h
  interval_cases lane <;> rfl

theorem lanes_pageGlyph (h : lane < laneCount) (hy : 0 ≤ y ∧ y ≤ px height) :
    (pageGlyph height).filterMap (laneAt? (px (laneCentre lane), y)) = [px (laneWidth * lane)] := by
  have hlane : ∀ i, (laneGlyph height i).filterMap (laneAt? (px (laneCentre lane), y)) =
      if i = lane then [px (laneWidth * i)] else [] := by
    intro i
    have hacross : (px (laneWidth * i) ≤ px (laneCentre lane) ∧
        px (laneCentre lane) ≤ px (laneWidth * i) + px laneWidth) ↔ i = lane := by
      simp only [px, laneCentre, laneWidth, HalfPixel]
      omega
    have hdown : (0 : HalfPixel) ≤ y ∧ y ≤ 0 + px (height + laneStep * laneSteps i) := by
      simp only [px, laneStep, HalfPixel] at hy ⊢
      omega
    simp only [laneGlyph, List.filterMap_cons, laneAt?, List.filterMap_nil, hacross, hdown,
      true_and, and_true]
    by_cases hi : i = lane
    · simp only [if_pos hi]
    · simp only [if_neg hi]
  have hline : ([.line (px centreX) 0 (px centreX) (px (height + laneStep * sideLanes)) barStyle] :
    List Mark).filterMap
      (laneAt? (px (laneCentre lane), y)) = [] := rfl
  rw [pageGlyph, List.filterMap_append, hline, List.append_nil, List.filterMap_flatMap]
  simp only [hlane]
  exact flatMap_lanes h fun i => px (laneWidth * i)

theorem labels_pageGlyph (h : lane < laneCount) :
    (pageGlyph height).filterMap (labelIn? (px (laneWidth * lane))) =
      [String.singleton (laneNames.getD lane ' ')] := by
  have hlane : ∀ i, (laneGlyph height i).filterMap (labelIn? (px (laneWidth * lane))) =
      if i = lane then [String.singleton (laneNames.getD i ' ')] else [] := by
    intro i
    have hacross : (px (laneWidth * lane) ≤ px (laneWidth * i + 7) ∧
        px (laneWidth * i + 7) ≤ px (laneWidth * lane) + px laneWidth) ↔ i = lane := by
      simp only [px, laneWidth, HalfPixel]
      omega
    simp only [laneGlyph, List.filterMap_cons, labelIn?, List.filterMap_nil, hacross]
    by_cases hi : i = lane
    · simp only [if_pos hi]
    · simp only [if_neg hi]
  have hline : ([.line (px centreX) 0 (px centreX) (px (height + laneStep * sideLanes)) barStyle] :
    List Mark).filterMap
      (labelIn? (px (laneWidth * lane))) = [] := rfl
  rw [pageGlyph, List.filterMap_append, hline, List.append_nil, List.filterMap_flatMap]
  simp only [hlane]
  exact flatMap_lanes h fun i => String.singleton (laneNames.getD i ' ')

/-- The zigzag of the lanes and their labels agree: the lane of a pitch is labelled with its
name. -/
theorem exists_lane {p : Pitch} (h : InReach p) :
    ∃ lane < laneCount, headAt p = laneCentre lane ∧
      String.singleton (laneNames.getD lane ' ') = pitchName p := by
  refine ⟨(laneOf? p).getD 0, ?_⟩
  obtain ⟨hl, hu⟩ := h
  interval_cases p <;> decide +kernel

end Lanes

structure OffLanes (c : Mark) : Prop where
  lane : ∀ place, laneAt? place c = none
  label : ∀ lane < laneCount, labelIn? (px (laneWidth * lane)) c = none

section OffLanes
variable {c : Mark} {y : HalfPixel}

theorem offLanes_line {x x' y' : HalfPixel} {style : String} : OffLanes (.line x y x' y' style) :=
  ⟨fun _ => rfl, fun _ _ => rfl⟩

theorem offLanes_circle {x r : HalfPixel} {style : String} : OffLanes (.circle x y r style) :=
  ⟨fun _ => rfl, fun _ _ => rfl⟩

theorem offLanes_rect {x width height : HalfPixel} {style : String} (h : width ≠ px laneWidth) :
    OffLanes (.rect x y width height style) :=
  ⟨fun _ => if_neg fun hin => h hin.1, fun _ _ => rfl⟩

theorem offLanes_barGlyph {measure : Nat} (hc : c ∈ barGlyph y measure) : OffLanes c := by
  simp only [barGlyph, List.mem_cons, List.not_mem_nil, or_false] at hc
  rcases hc with rfl | rfl
  · exact offLanes_line
  · refine ⟨fun _ => rfl, fun lane hlane => if_neg ?_⟩
    simp only [px, pageWidth, laneWidth, laneCount, HalfPixel] at hlane ⊢
    omega

theorem offLanes_headRow {d : Duration} {ps : List Pitch} (hc : c ∈ headRow y d ps) :
    OffLanes c := by
  rcases exists_of_mem_headRow hc with ⟨x, style, rfl⟩ | ⟨x, style, rfl⟩ <;> exact offLanes_circle

theorem offLanes_stemGlyph {x : Int} {length : Length} (hc : c ∈ stemGlyph x y length) :
    OffLanes c := by
  rw [eq_of_mem_stemGlyph hc]
  exact offLanes_line

theorem offLanes_restGlyph {length : Length} (hc : c ∈ restGlyph y length) : OffLanes c := by
  cases length <;> simp only [restGlyph, zigzag, List.mem_cons, List.not_mem_nil, or_false] at hc
  · rcases hc with rfl | rfl
    · exact offLanes_line
    · exact offLanes_circle
  · rcases hc with rfl | rfl | rfl | rfl | rfl <;> exact offLanes_line
  all_goals
    subst hc
    exact offLanes_rect (by decide)

theorem offLanes_glyph {s : Symbol} (hc : c ∈ glyph y s) : OffLanes c := by
  rcases s with ⟨d, p | ps | _ | _⟩
  · exact (List.mem_append.mp hc).elim offLanes_headRow offLanes_stemGlyph
  · exact (List.mem_append.mp hc).elim offLanes_headRow offLanes_stemGlyph
  · exact offLanes_restGlyph hc
  · cases hc

theorem offLanes_brokenGlyph {s : Symbol} (hc : c ∈ brokenGlyph y s) : OffLanes c := by
  rcases s with ⟨d, p | ps | _ | _⟩
  · cases hc
  · exact offLanes_headRow hc
  · cases hc
  · cases hc

theorem offLanes_endGlyph (hc : c ∈ endGlyph) : OffLanes c := by
  simp only [endGlyph, List.mem_cons, List.not_mem_nil, or_false] at hc
  rcases hc with rfl | rfl <;> exact offLanes_line

theorem Sheet.BodyMark.offLanes {sheet : Sheet} {symbols : List Symbol} {t : Nat}
    (h : sheet.BodyMark symbols t c) :
    OffLanes c := by
  cases h with
  | bar h => exact offLanes_barGlyph (sheet.mem_bar h)
  | glyph hm hfits hd h => exact offLanes_glyph h
  | broken hm hfits h => exact offLanes_brokenGlyph h
  | taper | beam => exact offLanes_line

/-- A head stands in one lane, whose label is the name of its pitch. -/
theorem labelsAt_page {height : Int} {rest : List Mark} (h : ∀ c ∈ rest, OffLanes c) {p : Pitch}
    (hp : InReach p)
    (hy : 0 ≤ y ∧ y ≤ px height) :
    labelsAt (pageGlyph height ++ rest) (px (headAt p), y) = [pitchName p] := by
  obtain ⟨lane, hlane, hhead, hname⟩ := exists_lane hp
  have hlanes : rest.filterMap (laneAt? (px (headAt p), y)) = [] :=
    List.filterMap_eq_nil_iff.mpr fun c hc => (h c hc).lane _
  have hlabels : rest.filterMap (labelIn? (px (laneWidth * lane))) = [] :=
    List.filterMap_eq_nil_iff.mpr fun c hc => (h c hc).label lane hlane
  rw [labelsAt, List.filterMap_append, hlanes, List.append_nil, hhead, lanes_pageGlyph hlane hy,
    List.flatMap_cons, List.flatMap_nil, List.append_nil, List.filterMap_append, hlabels,
    List.append_nil, labels_pageGlyph hlane, hname]

end OffLanes

section Heads

theorem heads_headRow (y : HalfPixel) (d : Duration) (ps : List Pitch) :
    (headRow y d ps).filterMap headCentre? = ps.map fun p => (px (headAt p), y) := by
  have hdot : px 2 ≠ px headRadius := by decide
  induction ps with
  | nil => rfl
  | cons p ps ih =>
    have hhead : (headGlyph (headAt p) y d).filterMap headCentre? = [(px (headAt p), y)] := by
      cases hd : d.dotted <;> simp [headGlyph, hd, headCentre?, hdot]
    rw [headRow, List.flatMap_cons, List.filterMap_append, hhead]
    exact congrArg ((px (headAt p), y) :: ·) ih

theorem heads_glyph {s : Symbol} (h : s.Playable) (y : HalfPixel) :
    (glyph y s).filterMap headCentre? = s.pitches.map fun p => (px (headAt p), y) := by
  have hsound : ∀ d ps, (soundGlyph y d ps).filterMap headCentre? = ps.map fun p =>
    (px (headAt p), y) := by
    intro d ps
    have hstem : (stemGlyph (stemEnd ps) y d.length).filterMap headCentre? = [] := by
      rw [List.filterMap_eq_nil_iff]
      intro c hc
      rw [eq_of_mem_stemGlyph hc]
      rfl
    rw [soundGlyph, List.filterMap_append, heads_headRow, hstem, List.append_nil]
  obtain ⟨⟨length, dotted⟩, sound⟩ := s
  cases sound with
  | note p => exact hsound _ [p]
  | chord ps => exact hsound _ ps
  | rest => cases length <;> rfl
  | other => exact h.elim

theorem heads_marksOf (ms : List Mark) :
    (marksOf .sign ms).filterMap headCentre? = ms.filterMap headCentre? := by
  rw [marksOf, List.filterMap_filter]
  refine List.filterMap_congr fun c _ => ?_
  cases c with
  | circle => rfl
  | start | finish | rect | line | text | openGroup | closeGroup => exact ite_self _

theorem heads_shapes (shifts : List (HalfPixel × HalfPixel)) (ms : List Mark) :
    (shapes shifts ms).filterMap (fun s => headCentre? s.mark) = ms.filterMap headCentre? := by
  induction ms generalizing shifts with
  | nil => rfl
  | cons c ms ih => cases c <;> simp only [shapes, List.filterMap_cons, ih] <;> rfl

theorem Group.heads_shapes (g : Group) :
    g.shapes.filterMap (fun s => headCentre? s.mark) = g.content.filterMap headCentre? := by
  rw [Group.shapes, List.filterMap_map, List.filterMap_filter]
  refine List.filterMap_congr fun c _ => ?_
  cases c <;> rfl

/-- Every head of a drawing belongs to one of its groups, and they come in the same order. -/
theorem heads_groups (f : PageFormat) (symbols : List Symbol) (pages : Int) :
    ((Sheet.forSymbols f symbols).engrave pages symbols).drawing.filterMap headCentre? =
      (groups ((Sheet.forSymbols f symbols).engrave pages symbols).drawing).flatMap fun g =>
        g.content.filterMap headCentre? := by
  obtain ⟨rest, hdrawing, hwalk, -⟩ := engrave_drawing_eq f symbols pages
  have hopening : groups ((Sheet.forSymbols f symbols).opening pages ++ rest) = groups rest := rfl
  have hnone : ((Sheet.forSymbols f symbols).opening pages).filterMap headCentre? = [] := rfl
  rw [hdrawing, hopening, List.filterMap_append, hnone, List.nil_append, ← heads_shapes [] rest,
    (shapes_of_walk rest).1 hwalk, List.filterMap_flatMap]
  simp only [Group.heads_shapes]

variable {f : PageFormat} {symbols : List Symbol}

theorem heads_of_mem_picture {sheet : Sheet} {p : Plate} (h : p ∈ sheet.picture symbols) :
    (marksOf .sign (p.ink ++ p.tail)).filterMap headCentre? = p.ink.filterMap headCentre? := by
  have htail : marksOf .sign p.tail = [] := marksOf_eq_nil fun c hc => by
    rcases (Sheet.roles_of_mem_picture h).2 c hc with hr | hr <;> simp [hr]
  rw [marksOf_append, htail, List.append_nil, heads_marksOf]

theorem accepted_of_mem_timeline (h : refused? f symbols = none) {m : Moment}
    (hm : m ∈ timeline 0 symbols) :
    m.Accepted f := by
  rw [← accepted_of_refused?_eq_none h] at hm
  exact (mem_accepted hm).2

theorem heads_engrave (h : refused? f symbols = none) (pages : Int) :
    ((Sheet.forSymbols f symbols).engrave pages symbols).drawing.filterMap headCentre? =
      (timeline 0 symbols).flatMap fun m => m.symbol.pitches.map fun p =>
        (px (headAt p), (Sheet.forSymbols f symbols).cursor m.start) := by
  have hheads : ∀ m ∈ timeline 0 symbols,
      (glyph ((Sheet.forSymbols f symbols).cursor m.start) m.symbol).filterMap headCentre? =
        m.symbol.pitches.map fun p =>
          (px (headAt p), (Sheet.forSymbols f symbols).cursor m.start) := by
    intro m hm
    exact heads_glyph (accepted_of_mem_timeline h hm).2.1 _
  rw [← heads_marksOf, marksOf_engrave rfl, List.filterMap_flatMap,
    List.flatMap_congr fun p hp => heads_of_mem_picture hp, Sheet.picture_of_refused?_eq_none h,
    List.flatMap_def, (Sheet.forSymbols f symbols).plates_map fun _ ink =>
      ink.filterMap headCentre?, ← List.flatMap_def]
  exact List.flatMap_congr hheads

theorem exists_pitch_of_head (h : refused? f symbols = none) {last page : Nat}
    {place : HalfPixel × HalfPixel}
    (hplace : place ∈
      ((Sheet.forSymbols f symbols).pageGroup ((Sheet.forSymbols f symbols).picture symbols) last
      page).content.filterMap headCentre?) :
    ∃ p y, InReach p ∧ place = (px (headAt p), y) ∧
      0 ≤ y ∧ y ≤ px ((Sheet.forSymbols f symbols).heightAfter page) := by
  rw [← heads_marksOf, Sheet.marksOf_pageGroup rfl, List.filterMap_flatMap] at hplace
  obtain ⟨plate, hplate, hhead⟩ := List.mem_flatMap.mp hplace
  obtain ⟨hpicture, hpage⟩ := List.mem_filter.mp hplate
  rw [heads_of_mem_picture hpicture] at hhead
  rw [Sheet.picture_of_refused?_eq_none h] at hpicture
  obtain ⟨m, hm, tail, rfl, -⟩ := Sheet.mem_plates hpicture
  obtain ⟨hfits, hplay, hreach⟩ := accepted_of_mem_timeline h hm
  obtain ⟨hlow, hhigh⟩ := Sheet.cursor_of_fits (Sheet.forSymbols_holds symbols f) hm hfits
  rw [Sheet.plate, heads_glyph hplay] at hhead
  obtain ⟨p, hp, rfl⟩ := List.mem_map.mp hhead
  have hpage : f.pageOf m.start = page := by simpa [Sheet.plate] using hpage
  refine ⟨p, _, hreach p hp, rfl, ?_, ?_⟩
  · exact le_trans (by decide) hlow
  · rw [← hpage]
    exact hhigh

/-- The labels that the heads of a score mark name its pitches, one for one and in their order. -/
theorem labels_of_heads (h : refused? f symbols = none) (pages : Int) :
    ((groups ((Sheet.forSymbols f symbols).engrave pages symbols).drawing).flatMap fun g =>
      (g.content.filterMap headCentre?).map (labelsAt g.content)) =
      symbols.flatMap fun s => s.pitches.map fun p => [pitchName p] := by
  have hlabels : ∀ g ∈ groups ((Sheet.forSymbols f symbols).engrave pages symbols).drawing,
      (g.content.filterMap headCentre?).map (labelsAt g.content) =
        (g.content.filterMap headCentre?).map fun place => [pitchName (pitchAt place.1)] := by
    intro g hg
    rw [groups_engrave] at hg
    obtain ⟨page, -, rfl⟩ := List.mem_map.mp hg
    refine List.map_congr_left fun place hplace => ?_
    obtain ⟨p, y, hp, rfl, hy⟩ := exists_pitch_of_head h hplace
    rw [pitchAt_headAt hp]
    refine labelsAt_page (fun c hc => ?_) hp hy
    rcases List.mem_append.mp hc with hbody | hend
    · obtain ⟨plate, hplate, hc⟩ := List.mem_flatMap.mp hbody
      exact (Sheet.bodyMark_of_mem_body (List.mem_filter.mp hplate).1 c hc).offLanes
    · split at hend
      · exact offLanes_endGlyph hend
      · cases hend
  have hsymbols : (symbols.flatMap fun s => s.pitches.map fun p => [pitchName p]) =
      (timeline 0 symbols).flatMap fun m => m.symbol.pitches.map fun p => [pitchName p] := by
    conv_lhs => rw [← timeline_map_symbol 0 symbols, List.flatMap_map]
  rw [List.flatMap_congr hlabels, ← List.map_flatMap, ← heads_groups, heads_engrave h,
    List.map_flatMap, hsymbols]
  refine List.flatMap_congr fun m hm => ?_
  rw [List.map_map]
  refine List.map_congr_left fun p hp => ?_
  rw [Function.comp_apply, pitchAt_headAt ((accepted_of_mem_timeline h hm).2.2 p hp)]

end Heads
end Tablature.Engraving

namespace Tablature.Rendition
open Tablature.Music Tablature.Notation Tablature.Engraving Tablature.Drawing

/-- The heads of a document mark the letters that were typed: they come in the order of the note
letters of the text, one for each, those of chords among them, and each stands in one lane of its
page, whose one label is the letter in capitals. -/
theorem marks_typed_letters {r : Rendition} {text document : String}
    (h : r.document text = .ok document) :
    ∃ ts symbols score, tokens text = .ok ts ∧ Notation.symbols text = .ok symbols ∧
      engrave? r.format symbols = some score ∧ svgOf score = .ok score.document ∧
      r.wrap score.document = .ok document ∧
      score.drawing.filterMap headCentre? =
        ((groups score.drawing).flatMap fun g => g.content.filterMap headCentre?) ∧
      ((groups score.drawing).flatMap fun g =>
        (g.content.filterMap headCentre?).map (labelsAt g.content)) =
        (ts.filter fun t => t.kind = .noteLetter).map fun t => [t.text.toUpper] := by
  obtain ⟨symbols, svg, hsymbols, hsvg, hwrap⟩ := document_eq_ok h
  obtain ⟨ts, hts⟩ := tokens_of_symbols hsymbols
  obtain ⟨score, hscore, hfault, rfl, hwritten⟩ := svg_eq_ok hsvg
  obtain ⟨pages, rfl⟩ := engrave_of_engrave? hscore
  have hrefused := (engrave_fault_eq_none_iff r.format symbols pages).mp hfault
  refine ⟨ts, symbols, _, hts, hsymbols, hscore, hwritten, hwrap,
    heads_groups r.format symbols pages, ?_⟩
  have hnames := congrArg (List.map fun name => [name]) (names_of_symbols hts hsymbols)
  rw [List.map_flatMap, List.map_map] at hnames
  simp only [List.map_map] at hnames
  exact (labels_of_heads hrefused pages).trans hnames

def shiftedNotes : String := "> c' (Eg) < B"

/-- The letters are marked in the octaves in which they are heard. -/
theorem letters_of_shiftedNotes :
    ∃ written score, ({} : Rendition).document shiftedNotes = .ok written ∧
      engrave? {} [⟨⟨.quarter, false⟩, .note 14⟩, ⟨⟨.quarter, false⟩, .chord [9, 11]⟩,
        ⟨⟨.quarter, false⟩, .note 6⟩] = some score ∧
      ((groups score.drawing).flatMap fun g =>
        (g.content.filterMap headCentre?).map (labelsAt g.content)) =
        [["C"], ["E"], ["G"], ["B"]] := by
  have hread : Notation.symbols shiftedNotes = .ok [⟨⟨.quarter, false⟩, .note 14⟩,
      ⟨⟨.quarter, false⟩, .chord [9, 11]⟩, ⟨⟨.quarter, false⟩, .note 6⟩] := by decide +kernel
  have hletters : ((tokens shiftedNotes).map fun ts =>
      (ts.filter fun t => t.kind = .noteLetter).map fun t => [t.text.toUpper]) =
        .ok [["C"], ["E"], ["G"], ["B"]] := by decide +kernel
  have hdocument : (({} : Rendition).document shiftedNotes).isOk = true := by decide +kernel
  cases hd : ({} : Rendition).document shiftedNotes with
  | error f =>
    rw [hd] at hdocument
    cases hdocument
  | ok written =>
    obtain ⟨ts, symbols, score, hts, hsymbols, hscore, -, -, -, hlabels⟩ := marks_typed_letters hd
    obtain rfl := Except.ok.inj (hread.symm.trans hsymbols)
    rw [hts] at hletters
    exact ⟨written, score, rfl, hscore, hlabels.trans (Except.ok.inj hletters)⟩

end Tablature.Rendition
