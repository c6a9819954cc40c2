import Tablature.Proofs.ForeignTags

/-!
Pages of HTML and the drawings in them. A rendition as HTML fails as the one as SVG does, and its
page holds the drawing without its declaration. The tags of a page are foreign to drawings, and no
tag begins in an escaped title; so they are found where they were written, and the title and the
drawing are read back from the page (`html_wraps_svg`). -/
namespace Tablature.Drawing
open Tablature.Text

namespace Html

def front : List String :=
  ["<!DOCTYPE html>\n<html lang=\"en\">\n<head>\n  <meta charset=\"UTF-8\" />\n", "  "]

def middle : List String :=
  ["\n",
   "  <style>\n",
   "    body \x7b font-family: sans-serif; margin: 1rem; \x7d\n",
   "    h1 \x7b font-size: 1.4rem; \x7d\n",
   "    .page \x7b overflow-x: auto; \x7d\n",
   "    @page \x7b size: landscape; \x7d\n",
   "    @media print \x7b\n",
   "      .page \x7b overflow: visible; page-break-after: always; \x7d\n",
   "    \x7d\n",
   "  </style>\n</head>\n<body>\n"]

def back : String := "\n</body>\n</html>"

def headingParts (copy : String) (headed : Bool) : List String :=
  if headed then ["  ", "<h1>", copy, "</h1>", "\n"] else []

/-- A page as its parts make it: the escaped title, whether a heading repeats it, and the contents
of the division. -/
def layout (copy : String) (headed : Bool) (body : String) : String :=
  String.join (front ++ "<title>" :: copy :: "</title>" :: (middle ++ (headingParts copy headed ++
    "  " :: "<div class=\"page\">" :: body :: "</div>" :: [back])))

theorem body?_eq {svg : String} {rest : List Char}
    (h : svg.toList = Svg.declaration.toList ++ rest) :
    body? svg = some (String.ofList (trimStart rest)) := by
  rw [body?, h]
  rfl

/-- A drawing whose second line begins with a character that is not blank loses its first line. -/
theorem body?_of_declaration {body : String} {c : Char} {rest : List Char}
    (h : body.toList = c :: rest)
    (hc : isBlank c = false) : body? (Svg.declaration ++ "\n" ++ body) = some body := by
  have htrim : trimStart ('\n' :: body.toList) = body.toList := by
    rw [trimStart, List.dropWhile_cons_of_pos isBlank_newline, h,
      List.dropWhile_cons_of_neg (by simp [hc])]
  have htext : (Svg.declaration ++ "\n" ++ body).toList =
      Svg.declaration.toList ++ '\n' :: body.toList := by simp
  rw [body?_eq htext, htrim, String.ofList_toList]

theorem head_eq (title : String) :
    head title = String.join (front ++ "<title>" :: escaped title :: "</title>" :: middle) := by
  have htitle : "  <title>" = "  " ++ "<title>" := by simp
  have hend : "</title>\n" = "</title>" ++ "\n" := by simp
  unfold head front middle
  rw [htitle, hend]
  simp only [List.cons_append, List.nil_append, String.join_cons, String.join_nil,
    String.append_empty, String.append_assoc, -String.reduceAppend]

theorem heading_eq (title : String) :
    heading title = String.join (headingParts (escaped title) (!title.isEmpty)) := by
  have hopening : "  <h1>" = "  " ++ "<h1>" := by simp
  have hclosing : "</h1>\n" = "</h1>" ++ "\n" := by simp
  rw [heading, headingParts, hopening, hclosing]
  cases title.isEmpty
  · simp only [Bool.false_eq_true, if_false, Bool.not_false, if_true, String.join_cons,
      String.join_nil, String.append_empty, String.append_assoc, -String.reduceAppend]
  · rfl

theorem page?_of_body? {svg body : String} (title : String) (h : body? svg = some body) :
    page? title [svg] = some (layout (escaped title) (!title.isEmpty) body) := by
  have hdivision : division body = String.join ["  ", "<div class=\"page\">", body, "</div>"] := by
    have hopening : "  <div class=\"page\">" = "  " ++ "<div class=\"page\">" := by simp
    unfold division
    rw [hopening]
    simp only [String.join_cons, String.join_nil, String.append_empty, String.append_assoc,
      -String.reduceAppend]
  have hbodies : [svg].mapM body? = some [body] := by simp [h]
  simp only [page?, hbodies, Option.map_some, List.map_singleton, String.intercalate_singleton,
    head_eq, heading_eq, hdivision, layout, back, String.join_append, String.join_cons,
    String.join_nil, String.append_empty, String.append_assoc]

/-- The contents of the first element with a tag, its entities read. -/
def contents? (opening closing page : String) : Option String :=
  (between? opening.toList closing.toList page.toList).map String.ofList

def unescaped (s : String) : String := String.ofList (unescape s.toList)

def title? (page : String) : Option String := (contents? "<title>" "</title>" page).map unescaped

def heading? (page : String) : Option String := (contents? "<h1>" "</h1>" page).map unescaped

def drawing? (page : String) : Option String :=
  (contents? "<div class=\"page\">" "</div>" page).map fun body => Svg.declaration ++ "\n" ++ body

/-- A part of a page between two tags: the first occurs once, and the part is what stands behind
it. -/
structure Delimits (opening closing inside page : String) : Prop where
  once : occurrences opening.toList page.toList = 1
  contents : contents? opening closing page = some inside

theorem delimits_of_parts {opening closing inside : String} {before after : List String}
    (htag : opening.toList.head? = some '<' ∧ '<' ∉ opening.toList.tail)
    (hclosing : closing.toList ≠ []) (hbefore : ∀ part ∈ before, Avoids opening.toList part.toList)
    (hinside : Avoids closing.toList inside.toList) (hafter : ∀ part ∈ inside :: closing :: after,
      Avoids opening.toList part.toList) :
    Delimits opening closing inside
      (String.join (before ++ opening :: inside :: closing :: after)) := by
  obtain ⟨rest, hrest⟩ := List.head?_eq_some_iff.mp htag.1
  have hne : opening.toList ≠ [] := by simp [hrest]
  have htail : '<' ∉ rest := by simpa [hrest] using htag.2
  constructor
  · have hbefore := Avoids.flatMap hbefore
    have hafter := Avoids.flatMap hafter
    rw [String.toList_join, List.flatMap_append, List.flatMap_cons]
    rw [hrest] at hbefore hafter ⊢
    exact occurrences_once htail hbefore hafter
  · rw [contents?, String.toList_join, List.flatMap_append, List.flatMap_cons, List.flatMap_cons,
      List.flatMap_cons, between?_append hne hclosing (.flatMap hbefore) hinside, Option.map_some,
      String.ofList_toList]

def tags : List String := ["<title>", "<h1>", "<div class=\"page\">", "</div>"]

theorem foreign_of_mem_tags : ∀ tag ∈ tags, Svg.Foreign tag.toList := by decide +kernel

theorem avoids_frame (tag : String) (h : tag ∈ ["<title>", "<h1>", "<div class=\"page\">"]) :
    ∀ part ∈ front ++ middle ++ [back], Avoids tag.toList part.toList := by
  have hframe : ∀ part ∈ front ++ middle ++ [back], '<' ∉ part.toList ∨
      ∀ tag ∈ ["<title>", "<h1>", "<div class=\"page\">"], Avoids tag.toList part.toList := by
        decide +kernel
  intro part hpart
  rcases hframe part hpart with hplain | havoids
  · exact (foreign_of_mem_tags tag (List.mem_append_left ["</div>"] h)).avoids_of_notMem hplain
  · exact havoids tag h

section Layout
variable {copy body : String} (headed : Bool)

theorem avoids_headingParts (hcopy : '<' ∉ copy.toList) (tag : String)
    (htag : tag ∈ ["<title>", "<div class=\"page\">"]) :
    ∀ part ∈ headingParts copy headed, Avoids tag.toList part.toList := by
  have hfixed : ∀ tag ∈ ["<title>", "<div class=\"page\">"], tag ∈ tags ∧
    ∀ part ∈ ["  ", "<h1>", "</h1>", "\n"], Avoids tag.toList part.toList := by decide +kernel
  obtain ⟨hmem, hparts⟩ := hfixed tag htag
  cases headed with
  | false => exact fun part hpart => by cases hpart
  | true =>
    simp only [headingParts, if_true, List.forall_mem_cons] at hparts ⊢
    exact ⟨hparts.1, hparts.2.1, (foreign_of_mem_tags tag hmem).avoids_of_notMem hcopy, hparts.2.2⟩

def top (copy : String) : List String := front ++ "<title>" :: copy :: "</title>" :: middle

def bottom (body : String) : List String :=
  "  " :: "<div class=\"page\">" :: body :: "</div>" :: [back]

theorem avoids_top (hcopy : '<' ∉ copy.toList) (tag : String)
    (htag : tag ∈ ["<h1>", "<div class=\"page\">"]) :
    ∀ part ∈ top copy, Avoids tag.toList part.toList := by
  have hfixed : ∀ tag ∈ ["<h1>", "<div class=\"page\">"], tag ∈ tags ∧
    ∀ part ∈ ["<title>", "</title>"], Avoids tag.toList part.toList := by decide +kernel
  obtain ⟨hmem, hparts⟩ := hfixed tag htag
  have hframe := avoids_frame tag (List.mem_cons_of_mem "<title>" htag)
  simp only [top, List.forall_mem_append, List.forall_mem_cons] at hframe hparts ⊢
  exact ⟨hframe.1.1, hparts.1, (foreign_of_mem_tags tag hmem).avoids_of_notMem hcopy, hparts.2.1,
    hframe.1.2⟩

theorem avoids_bottom (hbody : ∀ tag ∈ tags, Avoids tag.toList body.toList) :
    ∀ part ∈ bottom body, Avoids "<h1>".toList part.toList := by
  have hframe := avoids_frame "<h1>" (by decide)
  simp only [bottom, List.forall_mem_append, List.forall_mem_cons] at hframe ⊢
  exact ⟨by decide +kernel, by decide +kernel, hbody _ (by decide), by decide +kernel, hframe.2⟩

variable (hcopy : '<' ∉ copy.toList) (hbody : ∀ tag ∈ tags, Avoids tag.toList body.toList)
include hcopy hbody

theorem delimits_title : Delimits "<title>" "</title>" copy (layout copy headed body) := by
  have hforeign := foreign_of_mem_tags "<title>" (by decide)
  have hframe := avoids_frame "<title>" (by decide)
  have hheading := avoids_headingParts headed hcopy "<title>" (by decide)
  rw [List.forall_mem_append, List.forall_mem_append] at hframe
  refine delimits_of_parts (by decide) (by decide) hframe.1.1 (avoids_of_notMem hcopy) ?_
  simp only [List.forall_mem_cons, List.forall_mem_append] at hframe ⊢
  exact ⟨hforeign.avoids_of_notMem hcopy, by decide +kernel, hframe.1.2,
    hheading, by decide +kernel, by decide +kernel, hbody _ (by decide), by
      decide +kernel, hframe.2⟩

theorem delimits_division :
    Delimits "<div class=\"page\">" "</div>" body (layout copy headed body) := by
  have hframe := avoids_frame "<div class=\"page\">" (by decide)
  have hheading := avoids_headingParts headed hcopy "<div class=\"page\">" (by decide)
  have hpage : layout copy headed body =
    String.join ((top copy ++ (headingParts copy headed ++ ["  "])) ++
      "<div class=\"page\">" :: body :: "</div>" :: [back]) := by
    simp only [layout, top, List.append_assoc, List.cons_append, List.nil_append]
  rw [hpage]
  refine delimits_of_parts (by decide) (by decide) ?_ (hbody _ (by decide)) ?_
  · rw [List.forall_mem_append, List.forall_mem_append]
    exact ⟨avoids_top hcopy _ (by decide), hheading, by decide +kernel⟩
  · simp only [List.forall_mem_cons, List.forall_mem_append] at hframe ⊢
    exact ⟨hbody _ (by decide), by decide +kernel, hframe.2⟩

theorem delimits_heading : Delimits "<h1>" "</h1>" copy (layout copy true body) := by
  have hforeign := foreign_of_mem_tags "<h1>" (by decide)
  have hpage : layout copy true body =
      String.join ((top copy ++ ["  "]) ++ "<h1>" :: copy :: "</h1>" :: ("\n" :: bottom body)) := by
    simp only [layout, top, bottom, headingParts, if_true, List.append_assoc, List.cons_append,
      List.nil_append]
  rw [hpage]
  refine delimits_of_parts (by decide) (by decide) ?_ (avoids_of_notMem hcopy) ?_
  · rw [List.forall_mem_append]
    exact ⟨avoids_top hcopy _ (by decide), by decide +kernel⟩
  · simp only [List.forall_mem_cons]
    exact ⟨hforeign.avoids_of_notMem hcopy, by decide +kernel, by decide +kernel,
      avoids_bottom hbody⟩

theorem no_heading :
    occurrences "<h1>".toList (layout copy false body).toList = 0 ∧
      contents? "<h1>" "</h1>" (layout copy false body) = none := by
  have hpage : layout copy false body = String.join (top copy ++ bottom body) := by
    simp only [layout, top, bottom, headingParts, Bool.false_eq_true, if_false, List.append_assoc,
      List.cons_append, List.nil_append]
  have hnone : Avoids "<h1>".toList (layout copy false body).toList := by
    rw [hpage, String.toList_join]
    exact .flatMap (List.forall_mem_append.mpr ⟨avoids_top hcopy _ (by decide),
      avoids_bottom hbody⟩)
  refine ⟨occurrences_of_avoids hnone, ?_⟩
  simp only [contents?, between?, cut?_of_avoids hnone, Option.bind_none, Option.map_none]

end Layout

/-- The page of a title and a drawing. The title stands in it through its escaped copies alone, in
the title and, if it is not empty, in one heading; the drawing stands in its one division, and
nothing of it is missing but the line of its declaration. Both can be read back. -/
structure Wraps (title svg page : String) : Prop where
  parts : ∃ body, svg = Svg.declaration ++ "\n" ++ body ∧
    page = layout (escaped title) (!title.isEmpty) body
  titles : occurrences "<title>".toList page.toList = 1
  headings : occurrences "<h1>".toList page.toList = if title = "" then 0 else 1
  divisions : occurrences "<div class=\"page\">".toList page.toList = 1
  reads_title : title? page = some title
  reads_heading : heading? page = if title = "" then none else some title
  reads_drawing : drawing? page = some svg

theorem unescaped_escaped (s : String) : unescaped (escaped s) = s := by
  rw [unescaped, toList_escaped, unescape_escape, String.ofList_toList]

theorem wraps_layout (title : String) {body : String}
    (hbody : ∀ tag ∈ tags, Avoids tag.toList body.toList) :
    Wraps title (Svg.declaration ++ "\n" ++ body)
    (layout (escaped title) (!title.isEmpty) body) := by
  have hcopy : '<' ∉ (escaped title).toList := by
    rw [toList_escaped]
    exact bracket_notMem_escape (.inl rfl) _
  have htitle := delimits_title (!title.isEmpty) hcopy hbody
  have hdivision := delimits_division (!title.isEmpty) hcopy hbody
  have hheading : occurrences "<h1>".toList (layout (escaped title) (!title.isEmpty) body).toList =
        (if title = "" then 0 else 1) ∧
      heading? (layout (escaped title) (!title.isEmpty) body) = if title = "" then none
        else some title := by
    by_cases hempty : title = ""
    · have hheaded : (!title.isEmpty) = false := by simp [String.isEmpty_iff, hempty]
      obtain ⟨hnone, hcontents⟩ := no_heading hcopy hbody
      rw [hheaded, if_pos hempty, if_pos hempty, heading?, hcontents]
      exact ⟨hnone, rfl⟩
    · have hheaded : (!title.isEmpty) = true := by simp [hempty]
      obtain ⟨honce, hcontents⟩ := delimits_heading hcopy hbody
      rw [hheaded, if_neg hempty, if_neg hempty, heading?, hcontents, Option.map_some,
        unescaped_escaped]
      exact ⟨honce, rfl⟩
  refine ⟨⟨body, rfl, rfl⟩, htitle.once, hheading.1, hdivision.once, ?_, hheading.2, ?_⟩
  · rw [title?, htitle.contents, Option.map_some, unescaped_escaped]
  · rw [drawing?, hdivision.contents, Option.map_some]

end Html
end Tablature.Drawing

namespace Tablature.Rendition
open Tablature.Text Tablature.Number Tablature.Music Tablature.Engraving Tablature.Drawing

section Document
variable {r r' : Rendition} {text : String} {symbols : List Symbol}

theorem svg_congr (h : r.format = r'.format) (symbols : List Symbol) :
    r.svg symbols = r'.svg symbols := by
  have hr := svg_eq r symbols
  have hr' := svg_eq r' symbols
  rw [h] at hr
  rw [hr, hr']

theorem document_of_error {e : Notation.ReadError} (h : Notation.symbols text = .error e) :
    r.document text = .error (.reading e) := by
  unfold document
  rw [h]

theorem document_of_symbols (h : Notation.symbols text = .ok symbols) :
    r.document text = (r.svg symbols).bind r.wrap := by
  fun_cases document r text with
  | case1 e he => cases he.symm.trans h
  | case2 symbols' hsymbols f hf =>
    obtain rfl := Except.ok.inj (h.symm.trans hsymbols)
    rw [hf]
    rfl
  | case3 symbols' hsymbols drawing hdrawing =>
    obtain rfl := Except.ok.inj (h.symm.trans hsymbols)
    rw [hdrawing]
    rfl

/-- A document of any kind is the drawing of the same format, wrapped. -/
theorem document_eq_bind (hkind : r'.kind = .svg) (hformat : r.format = r'.format) (text : String) :
    r.document text = (r'.document text).bind r.wrap := by
  cases hsymbols : Notation.symbols text with
  | error e =>
    rw [document_of_error hsymbols, document_of_error hsymbols]
    rfl
  | ok symbols =>
    have hwrap : ∀ drawing, r'.wrap drawing = .ok drawing := fun drawing => by rw [wrap, hkind]
    rw [document_of_symbols hsymbols, document_of_symbols hsymbols, svg_congr hformat]
    cases r'.svg symbols with
    | error f => rfl
    | ok drawing => exact congrArg (fun answer => Except.bind answer r.wrap) (hwrap drawing).symm

theorem exists_canvas_of_svg {svg : String} (h : r.svg symbols = .ok svg) :
    ∃ (width height : Coordinate) (e : String) (cs : List Svg.Instruction),
      Svg.element (.start width height) = .ok e ∧
        svg = Svg.document (Svg.declaration :: e :: (Svg.writeAll cs).1) := by
  obtain ⟨score, hscore, -, rfl, hsvg⟩ := svg_eq_ok h
  obtain ⟨hnone, -⟩ := svgOf_eq_ok hsvg
  obtain ⟨pages, rfl⟩ := engrave_of_engrave? hscore
  rw [Score.document]
  rw [engrave_drawing_eq_pageMarks, List.map_cons] at hnone ⊢
  obtain ⟨e, he, hlines⟩ := Svg.writeAll_start hnone
  exact ⟨_, _, e, _, he, congrArg Svg.document hlines⟩

/-- What stands behind the declaration begins with a bracket and holds no tag of a page. -/
theorem exists_body_of_svg {svg : String} (h : r.svg symbols = .ok svg) :
    ∃ body rest, svg = Svg.declaration ++ "\n" ++ body ∧ body.toList = '<' :: rest ∧
      ∀ tag ∈ Html.tags, Avoids tag.toList body.toList := by
  obtain ⟨width, height, e, cs, he, rfl⟩ := exists_canvas_of_svg h
  obtain ⟨p, htext, -, -⟩ := Svg.exists_piece_of_element he
  obtain ⟨inner, hinner⟩ : ∃ inner, e.toList = '<' :: inner := by
    cases p <;> exact ⟨_, htext⟩
  obtain ⟨rest, hrest⟩ := Svg.toList_document_cons hinner (Svg.writeAll cs).1
  refine ⟨_, rest, Svg.document_cons_cons .., hrest, fun tag htag => ?_⟩
  have hforeign := Html.foreign_of_mem_tags tag htag
  refine hforeign.avoids_document (List.forall_mem_cons.mpr ⟨hforeign.avoids_element he,
    fun line hline => ?_⟩)
  exact hforeign.avoids_line hline

theorem exists_symbols_of_document {svg : String} (hkind : r.kind = .svg)
    (h : r.document text = .ok svg) :
    ∃ symbols, r.svg symbols = .ok svg := by
  obtain ⟨symbols, drawing, -, hsvg, hwrap⟩ := document_eq_ok h
  have hsame : r.wrap drawing = .ok drawing := by rw [wrap, hkind]
  exact ⟨symbols, hsvg.trans (hsame.symm.trans hwrap)⟩

end Document

/-- The renditions as SVG and as HTML fail alike, or the page is that of the drawing. -/
theorem document_alike (title : String) (format : PageFormat) (text : String) :
    (∃ f, document ⟨title, .svg, format⟩ text = .error f ∧
        document ⟨title, .html, format⟩ text = .error f) ∨
      ∃ svg page, document ⟨title, .svg, format⟩ text = .ok svg ∧
        document ⟨title, .html, format⟩ text = .ok page ∧
        Html.Wraps title svg page := by
  have hhtml := @document_eq_bind ⟨title, .html, format⟩ ⟨title, .svg, format⟩ rfl rfl text
  cases hsvg : document ⟨title, .svg, format⟩ text with
  | error f => exact .inl ⟨f, rfl, by rw [hhtml, hsvg]; rfl⟩
  | ok svg =>
    obtain ⟨symbols, hdrawing⟩ := exists_symbols_of_document rfl hsvg
    obtain ⟨body, rest, rfl, hrest, hbody⟩ := exists_body_of_svg hdrawing
    have hpage := Html.page?_of_body? title (Html.body?_of_declaration hrest (by decide))
    refine .inr ⟨_, _, rfl, ?_, Html.wraps_layout title hbody⟩
    rw [hhtml, hsvg, Except.bind, wrap]
    simp only [hpage]

theorem exists_svg_of_html {title : String} {format : PageFormat} {text page : String}
    (h : document ⟨title, .html, format⟩ text = .ok page) :
    ∃ svg, document ⟨title, .svg, format⟩ text = .ok svg ∧ Html.Wraps title svg page := by
  rcases document_alike title format text with ⟨f, -, hhtml⟩ | ⟨svg, page', hsvg, hhtml, hwraps⟩
  · cases h.symm.trans hhtml
  · obtain rfl := Except.ok.inj (h.symm.trans hhtml)
    exact ⟨svg, hsvg, hwraps⟩

/-- A text fails as HTML as it fails as SVG, and otherwise its page wraps its drawing. Two pages are
equal only if both their titles and their drawings are. -/
theorem html_wraps_svg (title : String) (format : PageFormat) (text : String) :
    (∀ f, document ⟨title, .html, format⟩ text = .error f ↔
      document ⟨title, .svg, format⟩ text = .error f) ∧
      (∀ svg, document ⟨title, .svg, format⟩ text = .ok svg →
        ∃ page, document ⟨title, .html, format⟩ text = .ok page ∧ Html.Wraps title svg page) ∧
      ∀ title' format' text' page, document ⟨title, .html, format⟩ text = .ok page →
        document ⟨title', .html, format'⟩ text' = .ok page →
          title = title' ∧
            document ⟨title, .svg, format⟩ text = document ⟨title', .svg, format'⟩ text' := by
  refine ⟨fun f => ?_, fun svg hsvg => ?_, fun title' format' text' page h h' => ?_⟩
  · rcases document_alike title format text with ⟨f', hsvg, hhtml⟩ | ⟨svg, page, hsvg, hhtml, -⟩ <;>
      rw [hsvg, hhtml]
    simp
  · rcases document_alike title format text with ⟨f, hsvg', -⟩ | ⟨svg', page, hsvg', hhtml, hwraps⟩
    · cases hsvg.symm.trans hsvg'
    · obtain rfl := Except.ok.inj (hsvg.symm.trans hsvg')
      exact ⟨page, hhtml, hwraps⟩
  · obtain ⟨svg, hsvg, hwraps⟩ := exists_svg_of_html h
    obtain ⟨svg', hsvg', hwraps'⟩ := exists_svg_of_html h'
    obtain rfl := Option.some.inj (hwraps.reads_drawing.symm.trans hwraps'.reads_drawing)
    exact ⟨Option.some.inj (hwraps.reads_title.symm.trans hwraps'.reads_title),
      hsvg.trans hsvg'.symm⟩

/-- A title may hold the tags of a page itself. -/
theorem page_of_markup :
    ∃ svg page, document ⟨"</title><h1>&lt;", .svg, {}⟩ "c" = .ok svg ∧
      document ⟨"</title><h1>&lt;", .html, {}⟩ "c" = .ok page ∧
      Html.Wraps "</title><h1>&lt;" svg page := by
  have hok : (document ⟨"</title><h1>&lt;", .svg, {}⟩ "c").isOk = true := by decide +kernel
  cases hsvg : document ⟨"</title><h1>&lt;", .svg, {}⟩ "c" with
  | error f =>
    rw [hsvg] at hok
    cases hok
  | ok svg =>
    obtain ⟨page, hpage, hwraps⟩ := (html_wraps_svg "</title><h1>&lt;" {} "c").2.1 svg hsvg
    exact ⟨svg, page, rfl, hpage, hwraps⟩

end Tablature.Rendition
