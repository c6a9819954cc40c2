import Tablature.Proofs.Decimals
import Tablature.Proofs.Tags

/-!
Drawings read back from their documents. `pieces?` takes a document apart into the pieces on its
lines, `enter?` follows the groups they begin and end, and `command?` decodes a piece. A drawing of
which every coordinate has a text, and of which no style holds a quotation mark and no style or text
a line break, is written without a fault: as its canvas, one piece for each command, from which the
command is read back. -/
namespace Tablature.Drawing

namespace Command
variable {α : Type}

/-- The numbers of a command by the names of their attributes; a shift has no attributes of its
own. -/
def places : Command α → List (String × α)
  | start width height => [("width", width), ("height", height)]
  | rect x y width height _ => [("x", x), ("y", y), ("width", width), ("height", height)]
  | line x₁ y₁ x₂ y₂ _ => [("x1", x₁), ("y1", y₁), ("x2", x₂), ("y2", y₂)]
  | circle x y radius _ => [("cx", x), ("cy", y), ("r", radius)]
  | text x y _ _ => [("x", x), ("y", y)]
  | openGroup dx dy => [("dx", dx), ("dy", dy)]
  | finish | closeGroup => []

def coordinates (c : Command α) : List α := c.places.map Prod.snd

def style? : Command α → Option String
  | rect _ _ _ _ style | line _ _ _ _ style | circle _ _ _ style | text _ _ _ style => some style
  | _ => none

def content? : Command α → Option String
  | text _ _ content _ => some content
  | _ => none

theorem places_map {β : Type} (f : α → β) (c : Command α) :
    (c.map f).places = c.places.map fun a => (a.1, f a.2) := by
  cases c <;> rfl

theorem mem_coordinates {c : Command α} {a : String × α} (h : a ∈ c.places) : a.2 ∈ c.coordinates :=
  List.mem_map_of_mem h

end Command

namespace Svg
open Tablature.Number Tablature.Text

section Reading

def number? (attributes : Attributes) (name : String) : Option ℚ :=
  (attributes.lookup name).bind fun t => Coordinate.value? t.toList

def styleOf (attributes : Attributes) : String := (attributes.lookup "style").getD ""

def shift? (s : List Char) : Option (ℚ × ℚ) :=
  match s.splitOn '(' with
  | [word, inside] => match inside.splitOn ',' with
    | [x, y] =>
      if word = "translate".toList ∧ y.getLast? = some ')' then
        (Coordinate.value? x).bind fun dx => (Coordinate.value? y.dropLast).map fun dy => (dx, dy)
      else none
    | _ => none
  | _ => none

/-- The command that a piece stands for. -/
def Piece.command? : Piece → Option (Command ℚ)
  | opening name attributes =>
    if name = "svg" then do
      return .start (← number? attributes "width") (← number? attributes "height")
    else if name = "g" then
      ((attributes.lookup "transform").bind fun t => shift? t.toList).map fun shift =>
        .openGroup shift.1 shift.2
    else none
  | closing name =>
    if name = "svg" then some .finish else if name = "g" then some .closeGroup else none
  | alone name attributes =>
    if name = "rect" then do
      return .rect (← number? attributes "x") (← number? attributes "y")
        (← number? attributes "width")
        (← number? attributes "height") (styleOf attributes)
    else if name = "line" then do
      return .line (← number? attributes "x1") (← number? attributes "y1")
        (← number? attributes "x2")
        (← number? attributes "y2") (styleOf attributes)
    else if name = "circle" then do
      return .circle (← number? attributes "cx") (← number? attributes "cy")
        (← number? attributes "r")
        (styleOf attributes)
    else none
  | around name attributes content =>
    if name = "text" then do
      return .text (← number? attributes "x") (← number? attributes "y") content
        (styleOf attributes)
    else none

/-- The pieces of a document, one on each line behind its declaration; nothing if the last line does
not end. -/
def pieces? (document : String) : Option (List Piece) :=
  match document.toList.splitOn '\n' with
  | first :: rest =>
    if first = declaration.toList ∧ rest.getLast? = some [] then rest.dropLast.mapM piece? else none
  | [] => none

/-- The commands of a document, in the order of its lines. -/
def read? (document : String) : Option (List (Command ℚ)) :=
  (pieces? document).bind fun ps => ps.mapM Piece.command?

/-- Whether a group is open behind a piece: no group begins inside another, none ends that is not
open, and besides groups there are only whole elements. -/
def enter? : Bool → Piece → Option Bool
  | false, .opening name _ => if name = "g" then some true else none
  | true, .closing name => if name = "g" then some false else none
  | grouped, .alone _ _ => some grouped
  | grouped, .around _ _ _ => some grouped
  | _, _ => none

end Reading

def styleAttributes (style : String) : Attributes :=
  if style.isEmpty then [] else [("style", style)]

def namespaceAttributes : Attributes :=
  [("xmlns", "http://www.w3.org/2000/svg"), ("xmlns:xlink", "http://www.w3.org/1999/xlink")]

def shiftText (dx dy : String) : String := "translate(" ++ dx ++ "," ++ dy ++ ")"

/-- The piece of a command whose numbers have their texts. -/
def piece (c : Command String) : Piece :=
  match c with
  | .start _ _ => .opening "svg" (c.places ++ namespaceAttributes)
  | .finish => .closing "svg"
  | .rect _ _ _ _ style => .alone "rect" (c.places ++ styleAttributes style)
  | .line _ _ _ _ style => .alone "line" (c.places ++ styleAttributes style)
  | .circle _ _ _ style => .alone "circle" (c.places ++ styleAttributes style)
  | .text _ _ content style => .around "text" (c.places ++ styleAttributes style) content
  | .openGroup dx dy => .opening "g" [("transform", shiftText dx dy)]
  | .closeGroup => .closing "g"

structure Writes (value : Coordinate) (t : String) : Prop where
  text : value.text = .ok t
  decimal : t.toList.all Coordinate.isDecimalChar = true

def isPlain (c : Char) : Bool := c != '&' && c != '<' && c != '>' && c != '"' && c != '\n'

theorem notMem_of_all {p : Char → Bool} {s : List Char} (h : s.all p = true) {d : Char}
    (hd : p d = false) : d ∉ s :=
  fun hmem => by
    rw [List.all_eq_true.mp h d hmem] at hd
    cases hd

theorem escape_plain {s : List Char} (h : s.all isPlain = true) : escape s = s := by
  have hne : ∀ d, isPlain d = false → ∀ c ∈ s, c ≠ d :=
    fun d hd c hc he => notMem_of_all h hd (he ▸ hc)
  exact escape_eq_self fun c hc => ⟨hne '&' (by decide) c hc, hne '<' (by decide) c hc,
    hne '>' (by decide) c hc⟩

theorem plain_of_decimal {s : List Char} (h : s.all Coordinate.isDecimalChar = true) :
    s.all isPlain = true := by
  refine List.all_eq_true.mpr fun c hc => ?_
  have hne : ∀ d, Coordinate.isDecimalChar d = false → c ≠ d :=
    fun d hd he => notMem_of_all h hd (he ▸ hc)
  simp [isPlain, hne '&' (by decide), hne '<' (by decide), hne '>' (by decide), hne '"' (by decide),
    hne '\n' (by decide)]

theorem toList_shiftText (dx dy : String) :
    (shiftText dx dy).toList =
      "translate".toList ++ '(' :: (dx.toList ++ ',' :: (dy.toList ++ [')'])) := by
  simp [shiftText]

theorem plain_shiftText {dx dy : String} (hx : dx.toList.all isPlain = true)
    (hy : dy.toList.all isPlain = true) :
    (shiftText dx dy).toList.all isPlain = true := by
  rw [toList_shiftText, List.all_append, List.all_cons, List.all_append, List.all_cons,
    List.all_append, hx, hy]
  decide

theorem quoted_append (a b : Attributes) : quoted (a ++ b) = quoted a ++ quoted b :=
  List.flatMap_append

theorem quoted_styleAttributes (style : String) :
    quoted (styleAttributes style) = (styleField style).toList := by
  rw [styleAttributes, styleField]
  split
  · rfl
  · simp [quoted]

theorem quoted_namespaceAttributes : quoted namespaceAttributes = namespaces.toList := by decide

section Element
variable {α : Type} {f : α → Coordinate} {g : α → String}

theorem fields_map (as : List (String × α)) (h : ∀ a ∈ as, Writes (f a.2) (g a.2)) :
    fields (as.map fun a => (a.1, f a.2)) =
      .ok (String.ofList (quoted (as.map fun a => (a.1, g a.2)))) := by
  induction as with
  | nil => rfl
  | cons a as ih =>
    obtain ⟨htext, hdecimal⟩ := h a List.mem_cons_self
    rw [List.map_cons, fields]
    simp only [htext, ih fun b hb => h b (List.mem_cons_of_mem a hb), Except.map]
    simp [quoted, escaped, escape_plain (plain_of_decimal hdecimal)]

/-- The element of a command is the text of its piece. -/
theorem element_map {c : Command α} (h : ∀ a ∈ c.coordinates, Writes (f a) (g a)) :
    element (c.map f) = .ok (String.ofList (piece (c.map g)).text) := by
  have hfields := fields_map c.places fun a ha => h a.2 (Command.mem_coordinates ha)
  cases c with
  | start | rect | line | circle | text =>
    simp only [Command.places, List.map_cons, List.map_nil] at hfields
    simp only [Command.map, element, hfields, Except.map, piece, Command.places, Piece.text,
      quoted_append, quoted_namespaceAttributes, quoted_styleAttributes]
    refine congrArg Except.ok (String.toList_inj.mp ?_)
    simp [escaped]
  | openGroup dx dy =>
    have hdx := h dx List.mem_cons_self
    have hdy := h dy (List.mem_cons_of_mem dx List.mem_cons_self)
    simp only [Command.map, element, hdx.text, hdy.text, Except.map, piece, Piece.text]
    have hescaped : escaped (shiftText (g dx) (g dy)) = shiftText (g dx) (g dy) := by
      rw [escaped, escape_plain (plain_shiftText (plain_of_decimal hdx.decimal)
        (plain_of_decimal hdy.decimal)), String.ofList_toList]
    refine congrArg Except.ok (String.toList_inj.mp ?_)
    rw [← shiftText]
    simp [quoted, hescaped]
  | finish | closeGroup =>
    exact congrArg Except.ok (String.toList_inj.mp (by simp [Piece.text, piece, Command.map]))

end Element

section Command
variable {α : Type} {g : α → String} {v : α → ℚ}

structure Reads (t : String) (q : ℚ) : Prop where
  value : Coordinate.value? t.toList = some q
  decimal : t.toList.all Coordinate.isDecimalChar = true

theorem number?_cons_self (name t : String) (attributes : Attributes) :
    number? ((name, t) :: attributes) name = Coordinate.value? t.toList := by
  simp [number?]

theorem number?_cons_of_ne {name other : String} (h : name ≠ other) (t : String)
    (attributes : Attributes) :
    number? ((other, t) :: attributes) name = number? attributes name := by
  rw [number?, List.lookup_cons, beq_false_of_ne h, number?]

theorem styleOf_cons_of_ne {name : String} (h : "style" ≠ name) (t : String)
    (attributes : Attributes) :
    styleOf ((name, t) :: attributes) = styleOf attributes := by
  rw [styleOf, List.lookup_cons, beq_false_of_ne h, styleOf]

theorem styleOf_styleAttributes (style : String) : styleOf (styleAttributes style) = style := by
  rw [styleOf, styleAttributes]
  split
  · next hempty => exact (String.isEmpty_iff.mp hempty).symm
  · rfl

theorem shift?_shiftText {dx dy : String} {p q : ℚ} (hx : Reads dx p) (hy : Reads dy q) :
    shift? (shiftText dx dy).toList = some (p, q) := by
  have hword : '(' ∉ "translate".toList := by decide
  have hinside : '(' ∉ dx.toList ++ ',' :: (dy.toList ++ [')']) := by
    simp [notMem_of_all hx.decimal (d := '(') (by decide),
      notMem_of_all hy.decimal (d := '(') (by decide)]
  have hsecond : ',' ∉ dy.toList ++ [')'] := by
    simp [notMem_of_all hy.decimal (d := ',') (by decide)]
  rw [shift?, toList_shiftText, List.splitOn_append_cons_self_of_not_mem hword,
    List.splitOn_eq_singleton hinside]
  simp only [List.splitOn_append_cons_self_of_not_mem
    (notMem_of_all hx.decimal (d := ',') (by decide)), List.splitOn_eq_singleton hsecond,
    List.getLast?_concat, List.dropLast_concat, hx.value, hy.value, and_self, if_true,
    Option.bind_some, Option.map_some]

/-- A piece whose texts read as numbers stands for its command with these numbers. -/
theorem command?_piece {c : Command α} (h : ∀ a ∈ c.coordinates, Reads (g a) (v a)) :
    (piece (c.map g)).command? = some (c.map v) := by
  have hvalues : ∀ a ∈ c.coordinates, Coordinate.value? (g a).toList = some (v a) :=
    fun a ha => (h a ha).value
  cases c with
  | start | rect | line | circle | text =>
    simp only [Command.coordinates, Command.places, List.map_cons, List.map_nil,
      List.forall_mem_cons] at hvalues
    simp [piece, Command.map, Command.places, Piece.command?, number?_cons_self, number?_cons_of_ne,
      styleOf_cons_of_ne, styleOf_styleAttributes, hvalues]
  | openGroup dx dy =>
    have hshift :=
      shift?_shiftText (h dx List.mem_cons_self) (h dy (List.mem_cons_of_mem dx List.mem_cons_self))
    simp [piece, Command.map, Piece.command?, hshift]
  | finish | closeGroup => rfl

end Command

section Tidy
variable {α : Type} {c : Command α} {g : α → String}

theorem isName_of_mem_places {a : String × α} (h : a ∈ c.places) : IsName a.1 := by
  have hnames : ∀ name ∈ c.places.map Prod.fst, IsName name := by
    cases c <;> simp only [Command.places, List.map_cons, List.map_nil] <;> decide
  exact hnames a.1 (List.mem_map_of_mem h)

theorem isName_piece (c : Command String) : IsName (piece c).name := by
  cases c <;> simp only [piece, Piece.name] <;> decide

theorem eq_of_mem_styleAttributes {style : String} {a : String × String}
    (h : a ∈ styleAttributes style) :
    a = ("style", style) := by
  rw [styleAttributes] at h
  split at h
  · cases h
  · exact List.mem_singleton.mp h

theorem plain_namespaceAttributes :
    ∀ a ∈ namespaceAttributes, IsName a.1 ∧ a.2.toList.all isPlain = true := by decide

theorem plain_or_style (h : ∀ a ∈ c.coordinates, (g a).toList.all isPlain = true) :
    ∀ a ∈ (piece (c.map g)).attributes, IsName a.1 ∧
      (a.2.toList.all isPlain = true ∨ c.style? = some a.2) := by
  have hplace : ∀ a ∈ (c.map g).places, IsName a.1 ∧
      (a.2.toList.all isPlain = true ∨ c.style? = some a.2) := by
    rw [Command.places_map]
    intro a ha
    obtain ⟨b, hb, rfl⟩ := List.mem_map.mp ha
    exact ⟨isName_of_mem_places (c := c) hb, Or.inl (h b.2 (Command.mem_coordinates hb))⟩
  have hstyle : ∀ style, c.style? = some style → ∀ a ∈ styleAttributes style,
      IsName a.1 ∧ (a.2.toList.all isPlain = true ∨ c.style? = some a.2) := by
    intro style hs a ha
    rw [eq_of_mem_styleAttributes ha]
    exact ⟨(by decide : IsName "style"), Or.inr hs⟩
  intro a ha
  cases c with
  | start =>
    rcases List.mem_append.mp ha with ha | ha
    · exact hplace a ha
    · exact (plain_namespaceAttributes a ha).imp id Or.inl
  | rect _ _ _ _ style | line _ _ _ _ style | circle _ _ _ style | text _ _ _ style =>
    rcases List.mem_append.mp ha with ha | ha
    · exact hplace a ha
    · exact hstyle style rfl a ha
  | openGroup dx dy =>
    rw [List.mem_singleton.mp ha]
    exact ⟨(by decide : IsName "transform"), Or.inl (plain_shiftText (h dx List.mem_cons_self)
      (h dy (List.mem_cons_of_mem dx List.mem_cons_self)))⟩
  | finish | closeGroup => cases ha

def Quotable (style : String) : Prop := '"' ∉ style.toList ∧ '\n' ∉ style.toList

instance (style : String) : Decidable (Quotable style) := inferInstanceAs (Decidable (_ ∧ _))

/-- The style of a command stays within its quotation marks, and no text runs over its line. -/
structure Clean (c : Command α) : Prop where
  style : ∀ style ∈ c.style?, Quotable style
  content : ∀ content ∈ c.content?, '\n' ∉ content.toList

theorem Clean.of_none (hstyle : c.style? = none) (hcontent : c.content? = none) : Clean c where
  style := by simp [hstyle]
  content := by simp [hcontent]

theorem Clean.of_style {style : String} (hstyle : c.style? = some style) (h : Quotable style)
    (hcontent : c.content? = none) : Clean c where
  style := by simpa [hstyle] using h
  content := by simp [hcontent]

theorem tidy_piece (h : ∀ a ∈ c.coordinates, (g a).toList.all isPlain = true) (hclean : Clean c) :
    (piece (c.map g)).Tidy := by
  refine ⟨isName_piece (c.map g), fun a ha => ?_⟩
  obtain ⟨hname, hplain | hstyle⟩ := plain_or_style h a ha
  · exact ⟨hname, notMem_of_all hplain (by decide)⟩
  · exact ⟨hname, (hclean.style a.2 hstyle).1⟩

theorem onLine_piece (h : ∀ a ∈ c.coordinates, (g a).toList.all isPlain = true) (hclean : Clean c) :
    (piece (c.map g)).OnLine := by
  refine ⟨fun a ha => ?_, fun content hcontent => hclean.content content ?_⟩
  · obtain ⟨-, hplain | hstyle⟩ := plain_or_style h a ha
    · exact notMem_of_all hplain (by decide)
    · exact (hclean.style a.2 hstyle).2
  · cases c with
    | text => exact hcontent
    | start | finish | rect | line | circle | openGroup | closeGroup => cases hcontent

end Tidy

section Document

theorem intercalate_concat_nil (sep : Char) {lines : List (List Char)} (h : lines ≠ []) :
    [sep].intercalate (lines ++ [[]]) = [sep].intercalate lines ++ [sep] := by
  induction lines with
  | nil => exact absurd rfl h
  | cons line lines ih =>
    cases lines with
    | nil => simp [List.intercalate_cons_cons]
    | cons line' lines =>
      rw [List.cons_append, List.cons_append, List.intercalate_cons_cons,
        List.intercalate_cons_cons, ← List.cons_append, ih (List.cons_ne_nil line' lines),
        List.append_assoc _ _ [sep]]

theorem mapM_eq_some_map {α β : Type} {f : α → Option β} {g : α → β} {l : List α}
    (h : ∀ a ∈ l, f a = some (g a)) :
    l.mapM f = some (l.map g) := by
  induction l with
  | nil => rfl
  | cons a l ih =>
    rw [List.mapM_cons, h a List.mem_cons_self, ih fun b hb => h b (List.mem_cons_of_mem a hb)]
    rfl

theorem pieces?_document {lines : List (List Char)} (h : ∀ line ∈ lines, '\n' ∉ line) :
    pieces? (document (declaration :: lines.map String.ofList)) = lines.mapM piece? := by
  have htext : (document (declaration :: lines.map String.ofList)).toList =
      ['\n'].intercalate (declaration.toList :: lines ++ [[]]) := by
    have hlines : (lines.map String.ofList).map String.toList = lines := by simp
    rw [intercalate_concat_nil '\n' (List.cons_ne_nil _ _), document, String.toList_append,
      String.toList_intercalate, List.map_cons, hlines]
    rfl
  have hbreaks : ∀ line ∈ declaration.toList :: lines ++ [[]], '\n' ∉ line := by
    simp only [List.forall_mem_append, List.forall_mem_cons, List.cons_append]
    exact ⟨by decide, h, by simp⟩
  rw [pieces?, htext, List.splitOn_intercalate '\n' hbreaks (by simp)]
  simp

end Document

section Halves

def halvesText (n : ℤ) : String :=
  match (Coordinate.ofHalves n).text with
  | .ok t => t
  | .error _ => ""

theorem halvesText_spec {n : ℤ} (h : n.natAbs < 2 ^ 53) :
    Writes (Coordinate.ofHalves n) (halvesText n) ∧ Reads (halvesText n) ((n : ℚ) / 2) := by
  obtain ⟨t, htext, hvalue, hdecimal⟩ := Coordinate.exists_text_ofHalves h
  have ht : halvesText n = t := by rw [halvesText, htext]
  rw [ht]
  exact ⟨⟨htext, hdecimal⟩, ⟨hvalue, hdecimal⟩⟩

/-- A command placed in half pixels that can be written and read back. -/
structure Recordable (c : Command ℤ) : Prop extends Clean c where
  near : ∀ n ∈ c.coordinates, n.natAbs < 2 ^ 53

def recorded (c : Command ℤ) : Command ℚ := c.map fun n : ℤ => (n : ℚ) / 2

theorem map_ofHalves (c : Command ℤ) :
    c.map Coordinate.ofHalves = (recorded c).map Extended.exact := by
  rw [recorded, Command.map_map]
  refine congrArg (fun f => c.map f) (funext fun n => ?_)
  rw [Coordinate.ofHalves, Rat.mkRat_eq_div]
  rfl

theorem recordable_finish : Recordable .finish :=
  ⟨.of_none rfl rfl, by simp [Command.coordinates, Command.places]⟩

theorem recordable_closeGroup : Recordable .closeGroup :=
  ⟨.of_none rfl rfl, by simp [Command.coordinates, Command.places]⟩

def pieceOf (c : Command ℤ) : Piece := piece (c.map halvesText)

variable {c : Command ℤ}

theorem element_of_recordable (h : Recordable c) :
    element (c.map Coordinate.ofHalves) = .ok (String.ofList (pieceOf c).text) :=
  element_map fun n hn => (halvesText_spec (h.near n hn)).1

theorem plain_of_recordable (h : Recordable c) :
    ∀ n ∈ c.coordinates, (halvesText n).toList.all isPlain = true :=
  fun n hn => plain_of_decimal (halvesText_spec (h.near n hn)).1.decimal

theorem piece?_of_recordable (h : Recordable c) : piece? (pieceOf c).text = some (pieceOf c) :=
  piece?_text (tidy_piece (plain_of_recordable h) h.toClean)

theorem command?_of_recordable (h : Recordable c) : (pieceOf c).command? = some (recorded c) :=
  command?_piece fun n hn => (halvesText_spec (h.near n hn)).2

theorem write_of_recordable (h : Recordable c) :
    write (c.map Coordinate.ofHalves) =
      (preamble (c.map Coordinate.ofHalves) ++ [String.ofList (pieceOf c).text], none) := by
  rw [write, element_of_recordable h]

theorem writeAll_cons (c : Instruction) (cs : List Instruction) :
    (writeAll (c :: cs)).1 = (write c).1 ++ (writeAll cs).1 := by
  simp [writeAll]

variable {cs : List (Command ℤ)}

theorem firstFault?_of_recordable (h : ∀ c ∈ cs, Recordable c) :
    firstFault? (cs.map fun c => c.map Coordinate.ofHalves) = none := by
  rw [firstFault?, List.findSome?_eq_none_iff]
  intro fault hfault
  obtain ⟨instruction, hmem, rfl⟩ := List.mem_map.mp hfault
  obtain ⟨c, hc, rfl⟩ := List.mem_map.mp hmem
  rw [write_of_recordable (h c hc)]
  rfl

theorem writeAll_of_recordable (h : ∀ c ∈ cs, Recordable c)
    (hbody : ∀ c ∈ cs, preamble (c.map Coordinate.ofHalves) = []) :
    (writeAll (cs.map fun c => c.map Coordinate.ofHalves)).1 =
      (cs.map fun c => (pieceOf c).text).map String.ofList := by
  induction cs with
  | nil => rfl
  | cons c cs ih =>
    have htail := ih (fun b hb => h b (List.mem_cons_of_mem c hb)) fun b hb =>
      hbody b (List.mem_cons_of_mem c hb)
    have hhead := write_of_recordable (h c List.mem_cons_self)
    rw [hbody c List.mem_cons_self, List.nil_append] at hhead
    rw [List.map_cons, writeAll_cons, hhead, htail]
    rfl

def documentOf (cs : List (Command ℤ)) : String :=
  document (writeAll (cs.map fun c => c.map Coordinate.ofHalves)).1

/-- The document of a drawing: its canvas, then one piece for each command, and from the pieces the
commands are read back. -/
theorem read_documentOf {width height : ℤ} (h : ∀ c ∈ .start width height :: cs, Recordable c)
    (hbody : ∀ c ∈ cs, preamble (c.map Coordinate.ofHalves) = []) :
    pieces? (documentOf (.start width height :: cs)) =
      some ((.start width height :: cs).map pieceOf) ∧
      read? (documentOf (.start width height :: cs)) =
        some ((.start width height :: cs).map recorded) := by
  have hlines : (writeAll ((.start width height :: cs).map fun c => c.map Coordinate.ofHalves)).1 =
      declaration :: ((.start width height :: cs).map fun c => (pieceOf c).text).map
        String.ofList := by
    have hhead := write_of_recordable (h (.start width height) List.mem_cons_self)
    have htail := writeAll_of_recordable (fun c hc => h c (List.mem_cons_of_mem _ hc)) hbody
    rw [List.map_cons, writeAll_cons, hhead, htail]
    rfl
  have hbreaks : ∀ line ∈ (.start width height :: cs).map fun c => (pieceOf c).text,
      '\n' ∉ line := by
    intro line hline
    obtain ⟨c, hc, rfl⟩ := List.mem_map.mp hline
    have hplain := plain_of_recordable (h c hc)
    exact break_notMem_text (tidy_piece hplain (h c hc).toClean)
      (onLine_piece hplain (h c hc).toClean)
  have hpieces : pieces? (documentOf (.start width height :: cs)) =
      some ((.start width height :: cs).map pieceOf) := by
    rw [documentOf, hlines, pieces?_document hbreaks, List.mapM_map]
    exact mapM_eq_some_map fun c hc => piece?_of_recordable (h c hc)
  refine ⟨hpieces, ?_⟩
  rw [read?, hpieces, Option.bind_some, List.mapM_map]
  exact mapM_eq_some_map fun c hc => command?_of_recordable (h c hc)

end Halves

end Svg
end Tablature.Drawing
