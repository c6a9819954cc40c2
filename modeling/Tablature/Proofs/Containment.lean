import Tablature.Proofs.Atomicity

/-!
What stays in its place in the text of a drawing. A document is cut at its opening brackets; each
part is a tag, from which its name and its attributes are read, and the text up to the next tag
(`stretches?`). Brackets are escaped everywhere, so whatever the styles and labels are, the tags are
those of the commands and every label is read back. A quotation mark is not escaped: in a style it
ends the attribute, and as many marks as a tag has beyond its own, as many are left over
(`length_of_attributes?`). So a drawing is read as it was commanded if and only if no style holds
one (`contained_iff`). -/
namespace Tablature.Drawing

theorem Command.style?_map {α β : Type} (f : α → β) (c : Command α) :
    (c.map f).style? = c.style? := by cases c <;> rfl

namespace Svg
open Tablature.Number Tablature.Text

/-- What stands between two angle brackets: a declaration, the beginning or the end of an element,
or a whole one. -/
inductive Tag where
  | instruction (content : String)
  | opening (name : String) (attributes : Attributes)
  | closing (name : String)
  | alone (name : String) (attributes : Attributes)
  deriving DecidableEq, Repr

/-- A tag with the text between it and the next one. -/
structure Stretch where
  tag : Tag
  behind : String
  deriving DecidableEq, Repr

def Tag.attributes : Tag → Attributes
  | opening _ attributes | alone _ attributes => attributes
  | instruction _ | closing _ => []

section Reading

/-- A name with attributes begins an element, or with a stroke behind them is a whole one. -/
def Tag.ofNamed? (parts : String × Attributes × List Char) : Option Tag :=
  if parts.2.2 = [] then some (.opening parts.1 parts.2.1)
  else if parts.2.2 = " /".toList then some (.alone parts.1 parts.2.1)
  else none

def Tag.ofInside? : List Char → Option Tag
  | '?' :: content => some (.instruction (String.ofList content))
  | '/' :: name => if name.all isNameChar then some (.closing (String.ofList name)) else none
  | inside => (tag? inside).bind Tag.ofNamed?

def behind? (part : List Char) : Option String :=
  match part.dropWhile (· != '>') with
  | [] => none
  | _ :: behind => some (String.ofList (unescape behind))

def stretch? (part : List Char) : Option Stretch :=
  (behind? part).bind fun behind => (Tag.ofInside? (part.takeWhile (· != '>'))).map fun tag =>
    ⟨tag, behind⟩

def parts (document : String) : List (List Char) := (document.toList.splitOn '<').tail

/-- The tags of a document with the texts behind them; nothing if one of them cannot be read. -/
def stretches? (document : String) : Option (List Stretch) := (parts document).mapM stretch?

end Reading

section Writing

def Tag.text : Tag → List Char
  | instruction content => '?' :: content.toList
  | opening name attributes => name.toList ++ quoted attributes
  | closing name => '/' :: name.toList
  | alone name attributes => name.toList ++ (quoted attributes ++ " /".toList)

def Stretch.text (s : Stretch) : List Char := s.tag.text ++ '>' :: escape s.behind.toList

def Piece.stretches : Piece → List Stretch
  | opening name attributes => [⟨.opening name attributes, "\n"⟩]
  | closing name => [⟨.closing name, "\n"⟩]
  | alone name attributes => [⟨.alone name attributes, "\n"⟩]
  | around name attributes content => [⟨.opening name attributes, content⟩, ⟨.closing name, "\n"⟩]

/-- The stretches that a command is written as: its one element with its attributes and its label,
and the declaration in front of a canvas. -/
def stretchesOf (c : Instruction) : List Stretch :=
  (if c.isStart then [⟨.instruction "xml version=\"1.0\"?", "\n"⟩] else []) ++
    (piece (c.map textOf)).stretches

end Writing

section Quotes

theorem length_splitOn (c : Char) (s : List Char) : (s.splitOn c).length = s.count c + 1 := by
  induction s with
  | nil => rfl
  | cons d s ih =>
    rw [List.splitOn_cons_eq_if_modifyHead, List.count_cons]
    by_cases hd : d = c <;> simp [hd, ih]

theorem length_of_attributes? {cuts : List (List Char)} {attributes : Attributes} {rest : List Char}
    (h : attributes? cuts = some (attributes, rest)) : cuts.length = 2 * attributes.length + 1 := by
  fun_induction attributes? cuts generalizing attributes with
  | case1 rest' =>
    cases h
    rfl
  | case2 name value more _ ih =>
    obtain ⟨⟨others, rest'⟩, hmore, heq⟩ := Option.map_eq_some_iff.mp h
    cases heq
    simp only [List.length_cons, ih hmore]
    omega
  | case3 | case4 => cases h

theorem count_quote_escape (s : List Char) : (escape s).count '"' = s.count '"' := by
  have hchar : ∀ c : Char, (escapeChar c).count '"' = [c].count '"' := by
    intro c
    unfold escapeChar
    split <;> rfl
  rw [escape_eq_flatMap]
  induction s with
  | nil => rfl
  | cons c s ih =>
    rw [List.flatMap_cons, List.count_append, hchar, ih, ← List.count_append, List.singleton_append]

theorem count_quote_quoted {attributes : Attributes} (h : ∀ a ∈ attributes, IsName a.1) :
    (quoted attributes).count '"' =
      2 * attributes.length + (attributes.map fun a => a.2.toList.count '"').sum := by
  induction attributes with
  | nil => rfl
  | cons a attributes ih =>
    obtain ⟨hname, hnames⟩ := List.forall_mem_cons.mp h
    have hhead : (' ' :: (a.1.toList ++ ['='])).count '"' = 0 := by
      simpa [List.count_cons] using List.count_eq_zero.mpr (hname.notMem (c := '"') (by decide))
    rw [← List.append_nil (quoted _), quoted_cons_append, List.append_nil, List.count_append, hhead,
      List.count_cons_self, List.count_append, count_quote_escape, List.count_cons_self, ih hnames,
      List.length_cons, List.map_cons, List.sum_cons]
    omega

/-- Attributes are read back if and only if no value holds a quotation mark. -/
theorem attributes?_quoted_iff {attributes : Attributes} (h : ∀ a ∈ attributes, IsName a.1)
    {rest : List Char} (hrest : '"' ∉ rest) :
    attributes? ((quoted attributes ++ rest).splitOn '"') = some (attributes, rest) ↔
      ∀ a ∈ attributes, '"' ∉ a.2.toList := by
  refine ⟨fun hread => ?_, fun hquote =>
    attributes?_quoted (fun a ha => ⟨h a ha, hquote a ha⟩) hrest⟩
  have hlength := length_of_attributes? hread
  rw [length_splitOn, List.count_append, count_quote_quoted h,
    List.count_eq_zero.mpr hrest] at hlength
  have hsum : (attributes.map fun a => a.2.toList.count '"').sum = 0 := by omega
  intro a ha
  exact List.count_eq_zero.mp (List.sum_eq_zero_iff_forall_eq_nat.mp hsum _
    (List.mem_map_of_mem ha))

end Quotes

section Tags

def Tag.Named : Tag → Prop
  | .instruction content => '<' ∉ content.toList ∧ '>' ∉ content.toList
  | .opening name attributes | .alone name attributes => IsName name ∧ ∀ a ∈ attributes, IsName a.1
  | .closing name => IsName name

theorem bracket_notMem_tag {t : Tag} (h : t.Named) {d : Char} (hd : d = '<' ∨ d = '>') :
    d ∉ t.text := by
  have hname : ∀ {name}, IsName name → d ∉ name.toList :=
    fun hn => hn.notMem (by rcases hd with rfl | rfl <;> decide)
  have hmarks : d ≠ '?' ∧ d ≠ '/' ∧ d ≠ ' ' := by rcases hd with rfl | rfl <;> decide
  cases t with
  | instruction content =>
    have hcontent : d ∉ content.toList := by
      rcases hd with rfl | rfl
      · exact h.1
      · exact h.2
    simp [Tag.text, hmarks, hcontent]
  | opening name attributes => simp [Tag.text, hname h.1, bracket_notMem_quoted hd h.2]
  | closing name => simp [Tag.text, hmarks, hname h]
  | alone name attributes => simp [Tag.text, hmarks, hname h.1, bracket_notMem_quoted hd h.2]

theorem ofInside?_name {name : String} (h : IsName name) (s : List Char) :
    Tag.ofInside? (name.toList ++ s) = (tag? (name.toList ++ s)).bind Tag.ofNamed? := by
  obtain ⟨c, inside, hc⟩ := List.exists_cons_of_ne_nil h.1
  have hmem : c ∈ name.toList := hc ▸ List.mem_cons_self
  rw [hc, List.cons_append, Tag.ofInside?]
  · rintro content ⟨⟩
    exact h.notMem (c := '?') (by decide) hmem
  · rintro closing ⟨⟩
    exact h.notMem (c := '/') (by decide) hmem

theorem ofNamed?_eq_opening_iff {parts : String × Attributes × List Char} {name : String}
    {attributes : Attributes} :
    Tag.ofNamed? parts = some (.opening name attributes) ↔ parts = (name, attributes, []) := by
  obtain ⟨name', attributes', rest⟩ := parts
  unfold Tag.ofNamed?
  split_ifs with hopening halone <;> simp_all

theorem ofNamed?_eq_alone_iff {parts : String × Attributes × List Char} {name : String}
    {attributes : Attributes} :
    Tag.ofNamed? parts = some (.alone name attributes) ↔
      parts = (name, attributes, " /".toList) := by
  obtain ⟨name', attributes', rest⟩ := parts
  unfold Tag.ofNamed?
  split_ifs with hopening halone <;> simp_all

theorem tag?_iff {name : String} {attributes : Attributes} (hname : IsName name)
    (h : ∀ a ∈ attributes, IsName a.1) {rest : List Char} (hrest : rest = [] ∨ rest = " /".toList) :
    tag? (name.toList ++ (quoted attributes ++ rest)) = some (name, attributes, rest) ↔
      ∀ a ∈ attributes, '"' ∉ a.2.toList := by
  have hquote : '"' ∉ rest := by rcases hrest with rfl | rfl <;> decide
  rw [tag?_name_append hname attributes hrest, ← attributes?_quoted_iff h hquote]
  simp

/-- A tag is read back if and only if no value of an attribute holds a quotation mark. -/
theorem ofInside?_text_iff {t : Tag} (h : t.Named) :
    Tag.ofInside? t.text = some t ↔ ∀ a ∈ t.attributes, '"' ∉ a.2.toList := by
  cases t with
  | instruction content => simp [Tag.text, Tag.ofInside?, Tag.attributes]
  | closing name =>
    have hname : name.toList.all isNameChar = true := h.2
    simp [Tag.text, Tag.ofInside?, Tag.attributes, hname]
  | opening name attributes =>
    have hread := tag?_iff h.1 h.2 (.inl (rfl : ([] : List Char) = []))
    rw [Tag.text, ← List.append_nil (quoted attributes), ofInside?_name h.1, Tag.attributes,
      ← hread, Option.bind_eq_some_iff]
    simp [ofNamed?_eq_opening_iff]
  | alone name attributes =>
    have hread := tag?_iff h.1 h.2 (.inr rfl)
    rw [Tag.text, ofInside?_name h.1, Tag.attributes, ← hread, Option.bind_eq_some_iff]
    simp [ofNamed?_eq_alone_iff]

end Tags

section Stretches
variable {s : Stretch}

theorem cut_stretch (h : s.tag.Named) :
    s.text.takeWhile (· != '>') = s.tag.text ∧
    s.text.dropWhile (· != '>') = '>' :: escape s.behind.toList :=
  cut_append (fun _ hc => bne_iff_ne.mpr fun he => bracket_notMem_tag h (.inr rfl) (he ▸ hc))
    (by simp)

theorem behind?_text (h : s.tag.Named) : behind? s.text = some s.behind := by
  simp only [behind?, (cut_stretch h).2, unescape_escape, String.ofList_toList]

theorem stretch?_text_iff (h : s.tag.Named) :
    stretch? s.text = some s ↔ ∀ a ∈ s.tag.attributes, '"' ∉ a.2.toList := by
  rw [← ofInside?_text_iff h, stretch?, behind?_text h, (cut_stretch h).1, Option.bind_some,
    Option.map_eq_some_iff]
  constructor
  · rintro ⟨tag, hread, heq⟩
    rw [hread]
    exact congrArg (fun s => some (Stretch.tag s)) heq
  · exact fun hread => ⟨s.tag, hread, rfl⟩

theorem bracket_notMem_stretch (h : s.tag.Named) : '<' ∉ s.text := by
  simp [Stretch.text, bracket_notMem_tag h (.inl rfl), bracket_notMem_escape (.inl rfl)]

/-- Stretches that follow each other are cut apart where they begin. -/
theorem splitOn_stretches (before : List Char) (hbefore : '<' ∉ before) {stretches : List Stretch}
    (h : ∀ s ∈ stretches, s.tag.Named) :
    (before ++ stretches.flatMap fun s => '<' :: s.text).splitOn '<' =
      before :: stretches.map Stretch.text := by
  induction stretches generalizing before with
  | nil => simpa using List.splitOn_eq_singleton hbefore
  | cons s stretches ih =>
    obtain ⟨hs, hrest⟩ := List.forall_mem_cons.mp h
    rw [List.flatMap_cons, List.cons_append, List.splitOn_append_cons_self_of_not_mem hbefore,
      ih s.text (bracket_notMem_stretch hs) hrest]
    rfl

theorem mapM_map_eq_some_iff {α β : Type} {f : β → Option α} {g : α → β} {l : List α} :
    (l.map g).mapM f = some l ↔ ∀ a ∈ l, f (g a) = some a := by
  induction l with
  | nil => simp
  | cons a l ih =>
    rw [List.forall_mem_cons, ← ih, List.map_cons, List.mapM_cons]
    cases f (g a) <;> cases (l.map g).mapM f <;> simp

end Stretches

section Commands
variable {c : Instruction} {cs : List Instruction}

theorem toList_document {lines : List String} (h : lines ≠ []) :
    (document lines).toList = lines.flatMap fun line => line.toList ++ ['\n'] := by
  induction lines with
  | nil => exact absurd rfl h
  | cons line lines ih =>
    cases lines with
    | nil => simp [document]
    | cons next lines =>
      rw [document_cons_cons, String.toList_append, String.toList_append,
        ih (List.cons_ne_nil next lines), List.flatMap_cons]
      rfl

theorem text_stretches (p : Piece) :
    (p.stretches.flatMap fun s => '<' :: s.text) = p.text ++ ['\n'] := by
  have hbreak : escape ['\n'] = ['\n'] := by decide
  cases p <;> simp [Piece.stretches, Piece.text, Stretch.text, Tag.text, hbreak]

theorem writes_of_not_fails (h : ¬Fails c) : ∀ a ∈ c.coordinates, Writes a (textOf a) := by
  intro a ha
  have hwritable : a.Writable := by
    by_contra hnot
    exact h ((fails_iff c).mpr ⟨a, ha, hnot⟩)
  exact writes_textOf ((Coordinate.exists_text_iff_writable a).mpr hwritable)

theorem text_stretchesOf (h : ¬Fails c) :
    ((stretchesOf c).flatMap fun s => '<' :: s.text) = (write c).1.flatMap fun line =>
      line.toList ++ ['\n'] := by
  have helement := element_map (f := id) (writes_of_not_fails h)
  rw [Command.map_id] at helement
  rw [write, helement, List.flatMap_append, stretchesOf, List.flatMap_append, text_stretches,
    List.flatMap_singleton, String.toList_ofList]
  refine congrArg (· ++ _) ?_
  cases c <;> rfl

theorem text_stretchesOf_all (h : ∀ c ∈ cs, ¬Fails c) :
    ((cs.flatMap stretchesOf).flatMap fun s => '<' :: s.text) =
      (writeAll cs).1.flatMap fun line => line.toList ++ ['\n'] := by
  rw [writeAll, List.flatMap_assoc, List.flatMap_assoc]
  exact List.flatMap_congr fun c hc => text_stretchesOf (h c hc)

theorem forall_attributes_stretches {p : Piece} {P : String × String → Prop} :
    (∀ s ∈ p.stretches, ∀ a ∈ s.tag.attributes, P a) ↔ ∀ a ∈ p.attributes, P a := by
  cases p <;> simp [Piece.stretches, Piece.attributes, Tag.attributes]

theorem named_stretches {p : Piece} (hname : IsName p.name) (h : ∀ a ∈ p.attributes, IsName a.1) :
    ∀ s ∈ p.stretches, s.tag.Named := by
  cases p with
  | opening name attributes | alone name attributes =>
    exact List.forall_mem_singleton.mpr ⟨hname, h⟩
  | closing name => exact List.forall_mem_singleton.mpr hname
  | around name attributes content =>
    exact List.forall_mem_cons.mpr ⟨⟨hname, h⟩, List.forall_mem_singleton.mpr hname⟩

theorem plain_of_not_fails (h : ¬Fails c) :
    ∀ a ∈ c.coordinates, (textOf a).toList.all isPlain = true :=
  fun a ha => plain_of_decimal (writes_of_not_fails h a ha).decimal

theorem named_stretchesOf (h : ¬Fails c) : ∀ s ∈ stretchesOf c, s.tag.Named := by
  intro s hs
  rcases List.mem_append.mp hs with hs | hs
  · split at hs
    · rw [List.mem_singleton.mp hs, Tag.Named]
      decide
    · cases hs
  · exact named_stretches (isName_piece _)
      (fun a ha => (plain_or_style (plain_of_not_fails h) a ha).1) s hs

theorem named_stretchesOf_all (h : ∀ c ∈ cs, ¬Fails c) :
    ∀ s ∈ cs.flatMap stretchesOf, s.tag.Named := by
  intro s hs
  obtain ⟨c, hc, hs⟩ := List.mem_flatMap.mp hs
  exact named_stretchesOf (h c hc) s hs

theorem style_mem_attributes {c : Command String} {style : String} (h : c.style? = some style)
    (hne : style ≠ "") :
    ("style", style) ∈ (piece c).attributes := by
  have hmem : ("style", style) ∈ styleAttributes style := by simp [styleAttributes, hne]
  cases c with
  | rect | line | circle | text =>
    cases h
    exact List.mem_append_right _ hmem
  | start | finish | openGroup | closeGroup => cases h

theorem quote_notMem_stretchesOf_iff (h : ¬Fails c) :
    (∀ s ∈ stretchesOf c, ∀ a ∈ s.tag.attributes, '"' ∉ a.2.toList) ↔
      ∀ style ∈ c.style?, '"' ∉ style.toList := by
  have hpiece : (∀ s ∈ stretchesOf c, ∀ a ∈ s.tag.attributes, '"' ∉ a.2.toList) ↔
      ∀ a ∈ (piece (c.map textOf)).attributes, '"' ∉ a.2.toList := by
    rw [stretchesOf, List.forall_mem_append, forall_attributes_stretches]
    cases c <;> simp [Command.isStart, Tag.attributes]
  rw [hpiece]
  constructor
  · intro hvalues style hstyle
    by_cases hempty : style = ""
    · simp [hempty]
    · exact hvalues _ (style_mem_attributes ((Command.style?_map textOf c).trans hstyle) hempty)
  · intro hstyle a ha
    rcases (plain_or_style (plain_of_not_fails h) a ha).2 with hplain | hmem
    · exact notMem_of_all hplain (by decide)
    · exact hstyle a.2 hmem

theorem parts_document (h : ∀ c ∈ cs, ¬Fails c) :
    parts (document (writeAll cs).1) = (cs.flatMap stretchesOf).map Stretch.text := by
  by_cases hlines : (writeAll cs).1 = []
  · have hnone : cs = [] := List.eq_nil_iff_forall_not_mem.mpr fun c hc =>
      (write_of_not_fails (h c hc)).1 (List.flatMap_eq_nil_iff.mp hlines c hc)
    rw [hnone]
    decide
  · have hcut := splitOn_stretches [] List.not_mem_nil (named_stretchesOf_all h)
    rw [parts, toList_document hlines, ← text_stretchesOf_all h,
      ← List.nil_append (List.flatMap _ _), hcut, List.tail_cons]

/-- The stretches of a command are read back if and only if its style holds no quotation mark. -/
theorem stretch?_stretchesOf_iff (h : ¬Fails c) :
    (∀ s ∈ stretchesOf c, stretch? s.text = some s) ↔ ∀ style ∈ c.style?, '"' ∉ style.toList := by
  rw [← quote_notMem_stretchesOf_iff h]
  exact forall₂_congr fun s hs => stretch?_text_iff (named_stretchesOf h s hs)

/-- The document of commands that do not fail is cut at its opening brackets into what each command
is written as, whatever the styles and labels are. The tags of a command are read back, with its
style as the value of an attribute, if and only if there is no quotation mark in this style; its
label is read back in any case. So the whole drawing is read back if and only if no style holds a
quotation mark. -/
theorem contained_iff (h : ∀ c ∈ cs, ¬Fails c) :
    parts (document (writeAll cs).1) = (cs.flatMap stretchesOf).map Stretch.text ∧
    (∀ c ∈ cs,
      ((∀ s ∈ stretchesOf c, stretch? s.text = some s) ↔ ∀ style ∈ c.style?, '"' ∉ style.toList) ∧
      ∀ s ∈ stretchesOf c, behind? s.text = some s.behind) ∧
    (stretches? (document (writeAll cs).1) = some (cs.flatMap stretchesOf) ↔
      ∀ c ∈ cs, ∀ style ∈ c.style?, '"' ∉ style.toList) := by
  have hparts := parts_document h
  refine ⟨hparts, fun c hc => ⟨stretch?_stretchesOf_iff (h c hc), fun s hs => ?_⟩, ?_⟩
  · exact behind?_text (named_stretchesOf (h c hc) s hs)
  · rw [stretches?, hparts, mapM_map_eq_some_iff, List.forall_mem_flatMap]
    exact forall₂_congr fun c hc => stretch?_stretchesOf_iff (h c hc)

/-- Brackets, entities and quotation marks in a label, brackets and entities in a style. -/
theorem contained_hostileLabel :
    ¬Fails (.text (.exact 0) (.exact 1) "</text><g id=\"&quot;\">&amp;lt;\n" "<&>'&lt;") ∧
      stretches? (document (writeAll
          [.text (.exact 0) (.exact 1) "</text><g id=\"&quot;\">&amp;lt;\n" "<&>'&lt;"]).1) =
        some ([.text (.exact 0) (.exact 1) "</text><g id=\"&quot;\">&amp;lt;\n" "<&>'&lt;"].flatMap
          stretchesOf) :=
  ⟨by decide +kernel, (contained_iff (by decide +kernel)).2.2.mpr (by decide +kernel)⟩

/-- A quotation mark in a style ends it, and what follows is read as one more attribute. -/
theorem style_adds_attribute :
    ¬Fails (.rect (.exact 0) (.exact 0) (.exact 1) (.exact 1) "a\" id=\"b") ∧
      stretches?
        (document (writeAll [.rect (.exact 0) (.exact 0) (.exact 1) (.exact 1) "a\" id=\"b"]).1) =
        some [⟨.alone "rect" [("x", "0"), ("y", "0"), ("width", "1"), ("height", "1"),
          ("style", "a"), ("id", "b")], "\n"⟩] ∧
      [.rect (.exact 0) (.exact 0) (.exact 1) (.exact 1) "a\" id=\"b"].flatMap stretchesOf =
        [⟨.alone "rect" [("x", "0"), ("y", "0"), ("width", "1"), ("height", "1"),
          ("style", "a\" id=\"b")], "\n"⟩] := by
  decide +kernel

end Commands

end Svg
end Tablature.Drawing
