import Tablature.Proofs.Canvas
import Tablature.Proofs.Markup
import Tablature.Rendition

/-!
The document of a score is a record of its drawing, also if a symbol fails. Every mark is neat: its
sizes are not negative, and its style and text can be written. It stays on its page, and the pages
are those of the canvas and at most one more, so that on a canvas below 2^52 pixels every coordinate
can be read back. -/
namespace Tablature.Rendition
open Tablature.Engraving Tablature.Music

theorem svg_eq (r : Rendition) (symbols : List Symbol) :
    r.svg symbols = match engrave? r.format symbols with
      | none => .error (.coordinate .outOfRange)
      | some score => svgOf score := by
  -- Whole functions are compared, so that no one computes the pages of unknown symbols.
  have hdef : svg = fun r symbols => match engrave? r.format symbols with
    | none => .error (.coordinate .outOfRange)
    | some score => svgOf score := rfl
  rw [hdef]

end Tablature.Rendition

namespace Tablature.Engraving
open Tablature.Music Tablature.Number Tablature.Drawing

def sizes : Mark → List Int
  | .rect _ _ width height _ => [width, height]
  | .circle _ _ radius _ => [radius]
  | _ => []

/-- A shape or a text of no negative size that can be written. -/
structure Neat (c : Mark) : Prop extends Svg.Clean c where
  isShape : isShape c = true
  sizes : ∀ n ∈ sizes c, 0 ≤ n

section Neat
variable {x y : HalfPixel} {style : String} (hstyle : Svg.Quotable style)
include hstyle

theorem neat_line {x₂ y₂ : HalfPixel} : Neat (.line x y x₂ y₂ style) :=
  ⟨.of_style rfl hstyle rfl, rfl, by simp [sizes]⟩

theorem neat_rect {width height : HalfPixel} (hw : 0 ≤ width) (hh : 0 ≤ height) :
    Neat (.rect x y width height style) :=
  ⟨.of_style rfl hstyle rfl, rfl, by simp [sizes, hw, hh]⟩

theorem neat_circle {radius : HalfPixel} (hr : 0 ≤ radius) : Neat (.circle x y radius style) :=
  ⟨.of_style rfl hstyle rfl, rfl, by simp [sizes, hr]⟩

theorem neat_text {content : String} (hcontent : '\n' ∉ content.toList) :
    Neat (.text x y content style) where
  style := by simpa [Command.style?] using hstyle
  content := by simpa [Command.content?] using hcontent
  isShape := rfl
  sizes := by simp [sizes]

end Neat

section Glyphs
variable {c : Mark} {y : HalfPixel}

theorem neat_pageGlyph {height : Int} (hh : 0 ≤ height) (hc : c ∈ pageGlyph height) : Neat c := by
  rcases List.mem_append.mp hc with hc | hc
  · obtain ⟨lane, hlane, hc⟩ := List.mem_flatMap.mp hc
    have hlane : lane < 17 := List.mem_range.mp hlane
    have hsteps : laneSteps lane ≤ 8 := (by decide : ∀ lane < 17, laneSteps lane ≤ 8) lane hlane
    have hname : laneNames.getD lane ' ' ≠ '\n' :=
      (by decide : ∀ lane < 17, laneNames.getD lane ' ' ≠ '\n') lane hlane
    have hfill : ∀ fill : Bool, Svg.Quotable (thinStyle ++ ";fill:" ++ if fill then "salmon"
      else "white") := by decide
    simp only [laneGlyph, List.mem_cons, List.not_mem_nil, or_false] at hc
    rcases hc with rfl | rfl
    · have hlength : 0 ≤ 2 * (height + 5 * laneSteps lane) := by omega
      exact neat_rect (hfill (isMarked lane)) (by decide) hlength
    · exact neat_text (by decide) (by simpa using hname.symm)
  · rw [List.mem_singleton.mp hc]
    exact neat_line (by decide)

theorem neat_barGlyph {measure : Nat} (hc : c ∈ barGlyph y measure) : Neat c := by
  simp only [barGlyph, List.mem_cons, List.not_mem_nil, or_false] at hc
  rcases hc with rfl | rfl
  · exact neat_line (by decide)
  · exact neat_text (by decide) (Coordinate.notMem_toString (by decide) measure)

theorem neat_endGlyph (hc : c ∈ endGlyph) : Neat c := by
  simp only [endGlyph, List.mem_cons, List.not_mem_nil, or_false] at hc
  rcases hc with rfl | rfl <;> exact neat_line (by decide)

theorem neat_headRow {d : Duration} {ps : List Pitch} (hc : c ∈ headRow y d ps) : Neat c := by
  have hfill : ∀ hollow : Bool, Svg.Quotable (thinStyle ++ ";fill:" ++ if hollow then "white"
    else "black") := by decide
  obtain ⟨p, -, hc⟩ := List.mem_flatMap.mp hc
  rcases List.mem_cons.mp hc with rfl | hc
  · exact neat_circle (hfill (isHollow d.length)) (by decide)
  · split at hc
    · rw [List.mem_singleton.mp hc]
      exact neat_circle (by decide) (by decide)
    · cases hc

theorem neat_stemGlyph {x : Int} {length : Length} (hc : c ∈ stemGlyph x y length) : Neat c := by
  rw [eq_of_mem_stemGlyph hc]
  exact neat_line (by decide)

theorem neat_restGlyph {length : Length} (hc : c ∈ restGlyph y length) : Neat c := by
  cases length <;> simp only [restGlyph, zigzag, List.mem_cons, List.not_mem_nil, or_false] at hc
  · rcases hc with rfl | rfl
    · exact neat_line (by decide)
    · exact neat_circle (by decide) (by decide)
  · rcases hc with rfl | rfl | rfl | rfl | rfl <;> exact neat_line (by decide)
  all_goals
    subst hc
    exact neat_rect (by decide) (by decide) (by decide)

theorem neat_glyph {s : Symbol} (hc : c ∈ glyph y s) : Neat c := by
  rcases s with ⟨d, p | ps | _ | _⟩
  · exact (List.mem_append.mp hc).elim neat_headRow neat_stemGlyph
  · exact (List.mem_append.mp hc).elim neat_headRow neat_stemGlyph
  · exact neat_restGlyph hc
  · cases hc

theorem neat_brokenGlyph {s : Symbol} (hc : c ∈ brokenGlyph y s) : Neat c := by
  rcases s with ⟨d, p | ps | _ | _⟩
  · cases hc
  · exact neat_headRow hc
  · cases hc
  · cases hc

end Glyphs

theorem near_of_onPaper {height : Int} {c : Mark} (hneat : Neat c) (hpaper : OnPaper height c)
    (hh : height + 50 < 2 ^ 52) : ∀ n ∈ c.coordinates, n.natAbs < 2 ^ 53 := by
  obtain ⟨⟨hl, hr⟩, ht, hb⟩ := hpaper
  have hshape := hneat.isShape
  have hsizes := hneat.sizes
  simp only [columnLeft, columnRight, px, stemX, pageWidth, laneWidth, laneCount, laneStep,
    sideLanes, fontSize]
    at hl hr hb
  cases c with
  | start | finish | openGroup | closeGroup => cases hshape
  | rect | line | circle | text =>
    simp only [left, right, top, bottom, sizes, List.forall_mem_cons] at hl hr ht hb hsizes
    simp only [Command.coordinates, Command.places, List.map_cons, List.map_nil,
      List.forall_mem_cons, List.not_mem_nil, false_implies, implies_true, and_true]
    omega

namespace Sheet
variable {sheet : Sheet} {symbols : List Symbol}

theorem BodyMark.neat {t : Nat} {c : Mark} (h : sheet.BodyMark symbols t c) : Neat c := by
  cases h with
  | bar h => exact neat_barGlyph (sheet.mem_bar h)
  | glyph hm hfits hd h => exact neat_glyph h
  | broken hm hfits h => exact neat_brokenGlyph h
  | taper | beam => exact neat_line (by decide)

def pageMarks (sheet : Sheet) (symbols : List Symbol) : List Mark :=
  (sheet.picture symbols).flatMap sheet.marks ++ if symbols = [] then []
    else endGlyph ++ [.closeGroup]

/-- The end of a page, the beginning of one that was counted, or a neat mark that stays on its
page. -/
inductive PageMark (sheet : Sheet) : Mark → Prop
  | close : PageMark sheet .closeGroup
  | origin {page : Nat} (h : 0 < sheet.remaining page) : PageMark sheet (sheet.origin page)
  | shape {page : Nat} {c : Mark} (hneat : Neat c) (hpaper : OnPaper (sheet.heightAfter page) c) :
    PageMark sheet c

theorem pageMark_of_mem_marks (hholds : sheet.Holds symbols) {p : Plate}
    (hp : p ∈ sheet.picture symbols) :
    ∀ c ∈ sheet.marks p, sheet.PageMark c := by
  intro c hc
  have hmeasure := hholds p.start (start_of_mem_picture hp)
  have hremaining : 0 < sheet.remaining (sheet.format.pageOf p.start) := by
    rw [sheet.remaining_pageOf]
    omega
  have hmarks : sheet.marks p = sheet.turn p.start ++ sheet.body p := by simp [marks, frame, body]
  rw [hmarks] at hc
  rcases List.mem_append.mp hc with hturn | hbody
  · rw [turn] at hturn
    split at hturn
    · rcases List.mem_append.mp hturn with hclose | hpage
      · split at hclose
        · cases hclose
        · rw [List.mem_singleton.mp hclose]
          exact .close
      · rcases List.mem_cons.mp hpage with rfl | hlane
        · exact .origin hremaining
        · have hh := sheet.heightAfter_nonneg (sheet.format.pageOf p.start)
          exact .shape (neat_pageGlyph hh hlane) (onPaper_pageGlyph hh hlane)
    · cases hturn
  · exact .shape (bodyMark_of_mem_body hp c hbody).neat (onPaper_body hholds hp c hbody)

theorem pageMark_of_mem_pageMarks (hholds : sheet.Holds symbols) :
    ∀ c ∈ sheet.pageMarks symbols, sheet.PageMark c := by
  intro c hc
  rcases List.mem_append.mp hc with hc | hc
  · obtain ⟨p, hp, hc⟩ := List.mem_flatMap.mp hc
    exact pageMark_of_mem_marks hholds hp c hc
  · split at hc
    · cases hc
    · rcases List.mem_append.mp hc with hend | hclose
      · exact .shape (neat_endGlyph hend) (onPaper_endGlyph (sheet.heightAfter_nonneg 0) hend)
      · rw [List.mem_singleton.mp hclose]
        exact .close

theorem PageMark.role_ne_canvas {c : Mark} (h : sheet.PageMark c) : role c ≠ .canvas := by
  cases h with
  | close => decide
  | origin => simp [Sheet.origin, role]
  | shape hneat hpaper => exact (onPage_of_isShape hneat.isShape).1

theorem endingOf_eq (symbols : List Symbol) :
    endingOf symbols = (if symbols = [] then [] else endGlyph ++ [.closeGroup]) ++ [.finish] := by
  rw [endingOf, ending]
  split <;> simp

/-- Pages begin and end in turn between the opening and the end. -/
theorem walk_pageMarks (symbols : List Symbol) :
    Engraving.walk false (sheet.pageMarks symbols) = some false := by
  have h := sheet.walk_picture symbols
  rw [endingOf_eq, ← List.append_assoc, ← pageMarks, walk_append] at h
  obtain ⟨pageOpen, hwalk, hfinish⟩ := Option.bind_eq_some_iff.mp h
  rw [hwalk]
  cases pageOpen <;> exact hfinish

theorem width_eq (pages : Int) : width pages = 305 * pages + 50 := by
  simp only [width, pageWidth, laneWidth, laneCount, marginX]
  omega

variable (sheet) in
theorem height_eq : sheet.height = sheet.fullHeight + 70 := by
  simp only [height, marginY, laneStep, sideLanes, fontSize]
  omega

theorem PageMark.recordable {pages : Int}
    (hroom : sheet.total ≤ sheet.format.measuresPerPage * (pages + 1))
    (hwidth : width pages < 2 ^ 52) (hheight : sheet.height < 2 ^ 52) {c : Mark}
    (h : sheet.PageMark c) :
    Svg.Recordable c := by
  rw [width_eq] at hwidth
  rw [height_eq] at hheight
  cases h with
  | close => exact Svg.recordable_closeGroup
  | @origin page h =>
    have hpage := page_lt_pages hroom h
    have hfull := (sheet.heightAfter_bounds page).2
    have hnonneg := sheet.heightAfter_nonneg page
    refine ⟨.of_none rfl rfl, ?_⟩
    simp only [Sheet.origin, Command.coordinates, Command.places, List.map_cons, List.map_nil,
      List.forall_mem_cons, List.not_mem_nil, false_implies, implies_true, and_true, px, marginX,
      marginY, pageWidth, laneWidth, laneCount]
    omega
  | @shape page _ hneat hpaper =>
    have hfull := (sheet.heightAfter_bounds page).2
    exact ⟨hneat.toClean, near_of_onPaper hneat hpaper (by omega)⟩

theorem ground_recordable {pages : Int} (hpages : 0 ≤ pages) (hwidth : width pages < 2 ^ 52)
    (hheight : sheet.height < 2 ^ 52) :
    Svg.Recordable (.start (px (width pages)) (px sheet.height)) ∧
      Svg.Recordable (.rect 0 0 (px (width pages)) (px sheet.height) "fill:white") := by
  have hfull := (sheet.heightAfter_bounds 0).2
  have hnonneg := sheet.heightAfter_nonneg 0
  have hsize : Int.natAbs (px (width pages)) < 2 ^ 53 ∧ Int.natAbs (px sheet.height) < 2 ^ 53 := by
    rw [width_eq] at hwidth ⊢
    rw [height_eq] at hheight ⊢
    simp only [px]
    omega
  refine ⟨⟨.of_none rfl rfl, ?_⟩, ⟨.of_style rfl (by decide) rfl, ?_⟩⟩
  · simpa [Command.coordinates, Command.places] using hsize
  · simpa [Command.coordinates, Command.places] using hsize

end Sheet

theorem enter?_pieceOf {grouped grouped' : Bool} {c : Mark} (h : pass? grouped c = some grouped')
    (hcanvas : role c ≠ .canvas) : Svg.enter? grouped (Svg.pieceOf c) = some grouped' := by
  cases c with
  | start | finish => exact absurd rfl hcanvas
  | rect | line | circle | text | openGroup | closeGroup =>
    cases grouped <;> first | exact h | cases h

theorem enter?_of_walk {ms : List Mark} {grouped grouped' : Bool}
    (h : walk grouped ms = some grouped')
    (hcanvas : ∀ c ∈ ms, role c ≠ .canvas) :
    (ms.map Svg.pieceOf).foldlM Svg.enter? grouped = some grouped' := by
  induction ms generalizing grouped with
  | nil => exact h
  | cons c ms ih =>
    rw [walk_cons] at h
    obtain ⟨next, hpass, hrest⟩ := Option.bind_eq_some_iff.mp h
    rw [List.map_cons, List.foldlM_cons, enter?_pieceOf hpass (hcanvas c List.mem_cons_self)]
    exact ih hrest fun c' hc' => hcanvas c' (List.mem_cons_of_mem c hc')

/-- The document of one canvas around groups in turn and whole elements. -/
theorem document_of_recordable {width height : HalfPixel} {marks : List Mark}
    (h : ∀ c ∈ .start width height :: (marks ++ [.finish]), Svg.Recordable c)
    (hcanvas : ∀ c ∈ marks, role c ≠ .canvas)
    (hturn : (marks.map Svg.pieceOf).foldlM Svg.enter? false = some false) :
    (∃ attributes body, Svg.pieces? (Svg.documentOf (.start width height :: (marks ++ [.finish]))) =
          some (.opening "svg" attributes :: body ++ [.closing "svg"]) ∧
        body.foldlM Svg.enter? false = some false) ∧
      Svg.read? (Svg.documentOf (.start width height :: (marks ++ [.finish]))) =
        some ((.start width height :: (marks ++ [.finish])).map Svg.recorded) := by
  have hpreamble : ∀ c ∈ marks ++ [.finish], Svg.preamble (c.map Coordinate.ofHalves) = [] := by
    intro c hc
    rcases List.mem_append.mp hc with hc | hc
    · cases c with
      | start => exact absurd rfl (hcanvas _ hc)
      | finish | rect | line | circle | text | openGroup | closeGroup => rfl
    · rw [List.mem_singleton.mp hc]
      rfl
  obtain ⟨hpieces, hread⟩ := Svg.read_documentOf h hpreamble
  have hends : (.start width height :: (marks ++ [.finish])).map Svg.pieceOf =
      .opening "svg" (Svg.pieceOf (.start width height)).attributes :: marks.map Svg.pieceOf ++
        [.closing "svg"] := by
    rw [List.map_cons, List.map_append]
    rfl
  exact ⟨⟨_, _, hpieces.trans (congrArg some hends), hturn⟩, hread⟩

/-- The document of a drawing, also of one that a fault has ended early. -/
def Score.document (e : Score) : String :=
  Svg.document (Svg.writeAll (e.drawing.map Rendition.instruction)).1

theorem Score.document_eq (e : Score) : e.document = Svg.documentOf e.drawing := rfl

theorem engrave_drawing_eq_pageMarks (f : PageFormat) (symbols : List Symbol) (pages : Int) :
    ((Sheet.forSymbols f symbols).engrave pages symbols).drawing =
      .start (px (Sheet.width pages)) (px (Sheet.forSymbols f symbols).height) ::
        ((.rect 0 0 (px (Sheet.width pages)) (px (Sheet.forSymbols f symbols).height)
            "fill:white" ::
          (Sheet.forSymbols f symbols).pageMarks symbols) ++ [.finish]) := by
  rw [engrave_drawing, Sheet.endingOf_eq, Sheet.opening, Sheet.pageMarks]
  simp

/-- On a canvas below 2^52 pixels every mark can be written and read back. -/
theorem recordable_of_mem_drawing {f : PageFormat} {symbols : List Symbol} {pages : Int}
    (hpages : (Sheet.forSymbols f symbols).pageCount? = some pages)
    (hwidth : Sheet.width pages < 2 ^ 52) (hheight : (Sheet.forSymbols f symbols).height < 2 ^ 52) :
    ∀ c ∈ ((Sheet.forSymbols f symbols).engrave pages symbols).drawing, Svg.Recordable c := by
  have htotal : 0 ≤ (Sheet.forSymbols f symbols).total := Int.natCast_nonneg _
  have hpages₀ := Sheet.pages_nonneg hpages htotal
  have hpages₁ : pages < 2 ^ 52 := by
    rw [Sheet.width_eq] at hwidth
    omega
  have hroom := Sheet.total_le_pages_succ hpages htotal hpages₁
  have hmarks := Sheet.pageMark_of_mem_pageMarks (Sheet.forSymbols_holds symbols f)
  obtain ⟨hstart, hground⟩ := Sheet.ground_recordable hpages₀ hwidth hheight
  rw [engrave_drawing_eq_pageMarks]
  simp only [List.forall_mem_cons, List.cons_append, List.forall_mem_append]
  exact ⟨hstart, hground, fun c hc => (hmarks c hc).recordable hroom hwidth hheight,
    Svg.recordable_finish, by simp⟩

/-- The document of a score records its drawing without loss, also if a symbol fails. On a canvas
below 2^52 pixels no coordinate is without a text; the document is one canvas around groups in turn
and whole elements, a piece for every command in order, and what is read off the pieces are the
commands with their exact coordinates. -/
theorem document_records_drawing {f : PageFormat} {symbols : List Symbol} {score : Score}
    (h : engrave? f symbols = some score) (hwidth : Sheet.width score.pages < 2 ^ 52)
    (hheight : score.sheet.height < 2 ^ 52) :
    Svg.firstFault? (score.drawing.map Rendition.instruction) = none ∧
      score.drawing.map Rendition.instruction =
        (score.drawing.map Svg.recorded).map (Command.map Extended.exact) ∧
      (∃ attributes body, Svg.pieces? score.document = some (.opening "svg" attributes :: body ++
        [.closing "svg"]) ∧
        body.foldlM Svg.enter? false = some false) ∧
      Svg.read? score.document = some (score.drawing.map Svg.recorded) := by
  obtain ⟨pages, hpages, rfl⟩ := Option.map_eq_some_iff.mp h
  have hrecordable := recordable_of_mem_drawing hpages hwidth hheight
  have hmarks : ∀ c ∈ (Sheet.forSymbols f symbols).pageMarks symbols, role c ≠ .canvas :=
    fun c hc =>
    (Sheet.pageMark_of_mem_pageMarks (Sheet.forSymbols_holds symbols f) c hc).role_ne_canvas
  have hwalk := enter?_of_walk ((Sheet.forSymbols f symbols).walk_pageMarks symbols) hmarks
  refine ⟨Svg.firstFault?_of_recordable hrecordable, ?_, ?_⟩
  · rw [List.map_map]
    exact List.map_congr_left fun c _ => Svg.map_ofHalves c
  · have hdrawing := engrave_drawing_eq_pageMarks f symbols pages
    rw [hdrawing] at hrecordable
    have hcanvas : ∀ c ∈ .rect 0 0 (px (Sheet.width pages)) (px (Sheet.forSymbols f symbols).height)
      "fill:white" ::
        (Sheet.forSymbols f symbols).pageMarks symbols, role c ≠ .canvas := by
      rw [List.forall_mem_cons]
      exact ⟨(onPage_of_isShape rfl).1, hmarks⟩
    rw [Score.document_eq, hdrawing]
    exact document_of_recordable hrecordable hcanvas hwalk

def tornChord : List Symbol := [⟨⟨.eighth, true⟩, .rest⟩, ⟨⟨.eighth, false⟩, .chord [16, 17]⟩]

/-- The head of the chord stands at a height of 52 1/2 pixels, and from there it is read back. -/
theorem document_of_tornChord :
    ∃ score calls, engrave? { beatsPerMeasure := 4, measuresPerPage := 1 } tornChord = some score ∧
      score.fault = some (.outOfRange 17) ∧ Sheet.width score.pages < 2 ^ 52 ∧
      score.sheet.height < 2 ^ 52 ∧
      Svg.read? score.document = some calls ∧
      .circle 248 (105 / 2) 4 "stroke-width:1;stroke:black;fill:black" ∈ calls := by
  have hfacts : (engrave? { beatsPerMeasure := 4, measuresPerPage := 1 } tornChord).map
      (fun score => (score.fault, Sheet.width score.pages, score.sheet.height,
        score.drawing.contains (.circle 496 105 8 "stroke-width:1;stroke:black;fill:black"))) =
      some (some (.outOfRange 17), 355, 160, true) := by
    decide +kernel
  obtain ⟨score, hscore, heq⟩ := Option.map_eq_some_iff.mp hfacts
  obtain ⟨hfault, hw, hh, hmem⟩ :
    score.fault = some (.outOfRange 17) ∧ Sheet.width score.pages = 355 ∧
      score.sheet.height = 160 ∧
        .circle 496 105 8 "stroke-width:1;stroke:black;fill:black" ∈ score.drawing := by
    simpa using heq
  have hwidth : Sheet.width score.pages < 2 ^ 52 := hw ▸ (by decide)
  have hheight : score.sheet.height < 2 ^ 52 := hh ▸ (by decide)
  obtain ⟨-, -, -, hread⟩ := document_records_drawing hscore hwidth hheight
  have hcircle : Svg.recorded (.circle 496 105 8 "stroke-width:1;stroke:black;fill:black") =
      .circle 248 (105 / 2) 4 "stroke-width:1;stroke:black;fill:black" := by
    norm_num [Svg.recorded, Command.map]
  exact ⟨score, _, hscore, hfault, hwidth, hheight, hread, hcircle ▸ List.mem_map_of_mem hmem⟩

end Tablature.Engraving

namespace Tablature.Rendition
open Tablature.Music Tablature.Notation Tablature.Engraving Tablature.Drawing

/-- Whatever document is made, it is that of a drawing of the symbols that are read. -/
theorem document_eq_ok {r : Rendition} {text document : String}
    (h : r.document text = .ok document) :
    ∃ symbols svg, Notation.symbols text = .ok symbols ∧ r.svg symbols = .ok svg ∧
      r.wrap svg = .ok document := by
  revert h
  fun_cases Rendition.document r text with
  | case1 | case2 => exact nofun
  | case3 symbols hsymbols svg hsvg => exact fun h => ⟨symbols, svg, hsymbols, hsvg, h⟩

theorem svgOf_eq_ok {score : Score} {svg : String} (h : svgOf score = .ok svg) :
    Svg.firstFault? (score.drawing.map instruction) = none ∧ score.fault = none ∧
    svg = score.document := by
  unfold svgOf at h
  split at h
  · cases h
  · cases h
  · next hwritten hfault => exact ⟨hwritten, hfault, (Except.ok.inj h).symm⟩

theorem svg_eq_ok {r : Rendition} {symbols : List Symbol} {svg : String}
    (h : r.svg symbols = .ok svg) :
    ∃ score, engrave? r.format symbols = some score ∧ score.fault = none ∧ svg = score.document ∧
      svgOf score = .ok score.document := by
  rw [svg_eq] at h
  cases hscore : engrave? r.format symbols with
  | none =>
    rw [hscore] at h
    cases h
  | some score =>
    rw [hscore] at h
    have hsvg : svgOf score = .ok svg := h
    obtain ⟨-, hfault, rfl⟩ := svgOf_eq_ok hsvg
    exact ⟨score, rfl, hfault, rfl, hsvg⟩

end Tablature.Rendition
