import Tablature.Drawing.Svg
import Tablature.Proofs.Entities

/-!
Tags read back. A piece of markup is the beginning or the end of an element, or a whole element,
empty or around a text; `Piece.text` writes it on a line, and `piece?` reads a line. As long as no
value holds a quotation mark, a piece is read back with its name, its attributes in order, and its
text. -/
namespace Tablature.Drawing.Svg
open Tablature.Text

abbrev Attributes := List (String × String)

inductive Piece where
  | opening (name : String) (attributes : Attributes)
  | closing (name : String)
  | alone (name : String) (attributes : Attributes)
  | around (name : String) (attributes : Attributes) (content : String)
  deriving DecidableEq, Repr

namespace Piece

def name : Piece → String
  | opening name _ | closing name | alone name _ | around name _ _ => name

def attributes : Piece → Attributes
  | opening _ attributes | alone _ attributes | around _ attributes _ => attributes
  | closing _ => []

def content? : Piece → Option String
  | around _ _ content => some content
  | _ => none

end Piece

def isNameChar (c : Char) : Bool := c.isAlphanum || c == ':'

def IsName (s : String) : Prop := s.toList ≠ [] ∧ s.toList.all isNameChar = true

instance (s : String) : Decidable (IsName s) := inferInstanceAs (Decidable (_ ∧ _))

section Writing

def quoted (attributes : Attributes) : List Char :=
  attributes.flatMap fun a => (field a.1 (escaped a.2)).toList

def Piece.text : Piece → List Char
  | opening name attributes => '<' :: (name.toList ++ (quoted attributes ++ ['>']))
  | closing name => '<' :: '/' :: (name.toList ++ ['>'])
  | alone name attributes => '<' :: (name.toList ++ (quoted attributes ++ (" /".toList ++ ['>'])))
  | around name attributes content =>
    '<' :: (name.toList ++ (quoted attributes ++
      '>' :: (escape content.toList ++ ("</".toList ++ name.toList ++ ['>']))))

end Writing

section Reading

/-- The attributes of a tag that is cut at its quotation marks, so that names and values take turns,
with what follows the last value. -/
def attributes? : List (List Char) → Option (Attributes × List Char)
  | [rest] => some ([], rest)
  | (' ' :: name) :: value :: more =>
    if name.getLast? = some '=' then
      (attributes? more).map fun r =>
        ((String.ofList name.dropLast, String.ofList (unescape value)) :: r.1, r.2)
    else none
  | _ => none

def tag? (s : List Char) : Option (String × Attributes × List Char) :=
  (attributes? ((s.dropWhile isNameChar).splitOn '"')).map fun r =>
    (String.ofList (s.takeWhile isNameChar), r)

/-- A piece that begins with a tag; what follows the attributes and what stands behind the tag are
given. -/
def behindTag? (name : String) (attributes : Attributes) (rest behind : List Char) : Option Piece :=
  if behind = [] then
    if rest = [] then some (.opening name attributes)
    else if rest = " /".toList then some (.alone name attributes)
    else none
  else if rest = [] ∧ behind.dropWhile (· != '<') = "</".toList ++ name.toList ++ ['>'] then
    some (.around name attributes (String.ofList (unescape (behind.takeWhile (· != '<')))))
  else none

def piece? : List Char → Option Piece
  | '<' :: '/' :: s =>
    if s.dropWhile isNameChar = ['>'] then some (.closing (String.ofList (s.takeWhile isNameChar)))
      else none
  | '<' :: s => match tag? (s.takeWhile (· != '>')), s.dropWhile (· != '>') with
    | some (name, attributes, rest), _ :: behind => behindTag? name attributes rest behind
    | _, _ => none
  | _ => none

end Reading

/-- Names are names, and values stay within their quotation marks. -/
def Tidy (attributes : Attributes) : Prop := ∀ a ∈ attributes, IsName a.1 ∧ '"' ∉ a.2.toList

structure Piece.Tidy (p : Piece) : Prop where
  name : IsName p.name
  attributes : Svg.Tidy p.attributes

theorem toList_field (name value : String) :
    (field name value).toList = ' ' :: (name.toList ++ ['=']) ++
      '"' :: (value.toList ++ ['"']) := by
  simp [field]

theorem quoted_cons_append (a : String × String) (attributes : Attributes) (rest : List Char) :
    quoted (a :: attributes) ++ rest =
      (' ' :: (a.1.toList ++ ['='])) ++
        '"' :: (escape a.2.toList ++ '"' :: (quoted attributes ++ rest)) := by
  simp [quoted, toList_field, escaped]

theorem isNameChar_ne {c d : Char} (h : isNameChar c = true) (hd : isNameChar d = false) :
    c ≠ d := by
  rintro rfl
  rw [h] at hd
  cases hd

theorem IsName.notMem {s : String} (h : IsName s) {c : Char} (hc : isNameChar c = false) :
    c ∉ s.toList := fun hmem =>
  isNameChar_ne (List.all_eq_true.mp h.2 c hmem) hc rfl

/-- A text is cut where a condition first fails. -/
theorem cut_append {p : Char → Bool} {a b : List Char} (ha : ∀ c ∈ a, p c = true)
    (hb : ∀ c ∈ b.head?, p c = false) :
    (a ++ b).takeWhile p = a ∧ (a ++ b).dropWhile p = b := by
  rw [List.takeWhile_append_of_pos ha, List.dropWhile_append_of_pos ha]
  cases b with
  | nil => simp
  | cons d b => simp [hb d rfl]

theorem quote_notMem_escape {s : String} (h : '"' ∉ s.toList) : '"' ∉ escape s.toList := fun hc =>
  h (mem_of_mem_escape (by decide) hc)

theorem attributes?_quoted {attributes : Attributes} (h : Tidy attributes) {rest : List Char}
    (hrest : '"' ∉ rest) :
    attributes? ((quoted attributes ++ rest).splitOn '"') = some (attributes, rest) := by
  induction attributes with
  | nil =>
    rw [quoted, List.flatMap_nil, List.nil_append, List.splitOn_eq_singleton hrest]
    rfl
  | cons a attributes ih =>
    obtain ⟨hname, hvalue⟩ := h a List.mem_cons_self
    have hhead : '"' ∉ ' ' :: (a.1.toList ++ ['=']) := by
      simpa using hname.notMem (c := '"') (by decide)
    rw [quoted_cons_append, List.splitOn_append_cons_self_of_not_mem hhead,
      List.splitOn_append_cons_self_of_not_mem (quote_notMem_escape hvalue), attributes?,
      if_pos List.getLast?_concat, ih fun b hb => h b (List.mem_cons_of_mem a hb)]
    simp

theorem head_quoted_append {attributes : Attributes} {rest : List Char}
    (h : ∀ c ∈ rest.head?, isNameChar c = false) :
    ∀ c ∈ (quoted attributes ++ rest).head?, isNameChar c = false := by
  cases attributes with
  | nil => exact h
  | cons a attributes =>
    rw [quoted_cons_append]
    rintro c ⟨⟩
    decide

/-- A name ends where its attributes begin, if at most a stroke follows them. -/
theorem tag?_name_append {name : String} (hname : IsName name) (attributes : Attributes)
    {rest : List Char} (hrest : rest = [] ∨ rest = " /".toList) :
    tag? (name.toList ++ (quoted attributes ++ rest)) =
      (attributes? ((quoted attributes ++ rest).splitOn '"')).map fun r => (name, r) := by
  have hhead : ∀ c ∈ rest.head?, isNameChar c = false := by
    rcases hrest with rfl | rfl
    · simp
    · rintro c ⟨⟩
      decide
  have hbehind : ∀ c ∈ (quoted attributes ++ rest).head?, isNameChar c = false :=
    head_quoted_append hhead
  obtain ⟨htake, hdrop⟩ := cut_append (List.all_eq_true.mp hname.2) hbehind
  rw [tag?, htake, hdrop, String.ofList_toList]

theorem tag?_eq {name : String} {attributes : Attributes} (hname : IsName name)
    (h : Tidy attributes) {rest : List Char} (hrest : rest = [] ∨ rest = " /".toList) :
    tag? (name.toList ++ (quoted attributes ++ rest)) = some (name, attributes, rest) := by
  have hquote : '"' ∉ rest := by rcases hrest with rfl | rfl <;> decide
  rw [tag?_name_append hname attributes hrest, attributes?_quoted h hquote, Option.map_some]

theorem bracket_notMem_quoted {d : Char} (hd : d = '<' ∨ d = '>') {attributes : Attributes}
    (h : ∀ a ∈ attributes, IsName a.1) : d ∉ quoted attributes := by
  rw [quoted, List.mem_flatMap]
  rintro ⟨a, ha, hc⟩
  have hvalue := bracket_notMem_escape hd a.2.toList
  have hname : d ∉ a.1.toList := (h a ha).notMem (by rcases hd with rfl | rfl <;> decide)
  rcases hd with rfl | rfl <;> simp [toList_field, escaped, hname, hvalue] at hc

theorem piece?_tag {name : String} {attributes : Attributes} (hname : IsName name)
    (h : Tidy attributes) {rest : List Char} (hrest : rest = [] ∨ rest = " /".toList)
    (behind : List Char) :
    piece? ('<' :: (name.toList ++ (quoted attributes ++ (rest ++ '>' :: behind)))) =
      behindTag? name attributes rest behind := by
  have hin : ∀ c ∈ name.toList ++ (quoted attributes ++ rest), (c != '>') = true := by
    have hend : '>' ∉ rest := by rcases hrest with rfl | rfl <;> decide
    have hnot : '>' ∉ name.toList ++ (quoted attributes ++ rest) := by
      simp [hname.notMem (c := '>') (by decide),
        bracket_notMem_quoted (.inr rfl) fun a ha => (h a ha).1, hend]
    intro c hc
    exact bne_iff_ne.mpr fun he => hnot (he ▸ hc)
  have hcut := cut_append hin (b := '>' :: behind) (by simp)
  simp only [List.append_assoc] at hcut
  obtain ⟨c, s, hs⟩ := List.exists_cons_of_ne_nil hname.1
  have hc : c ≠ '/' :=
    isNameChar_ne (List.all_eq_true.mp hname.2 c (hs ▸ List.mem_cons_self)) (by decide)
  have hread : ∀ s, piece? ('<' :: c :: s) =
      match tag? ((c :: s).takeWhile (· != '>')), (c :: s).dropWhile (· != '>') with
      | some (name, attributes, rest), _ :: behind => behindTag? name attributes rest behind
      | _, _ => none := by
    intro s
    rw [piece?]
    rintro s' ⟨⟩
    exact hc rfl
  rw [hs, List.cons_append, hread, ← List.cons_append, ← hs, hcut.1, hcut.2, tag?_eq hname h hrest]

theorem behindTag?_content (name : String) (attributes : Attributes) (content : String) :
    behindTag? name attributes [] (escape content.toList ++ ("</".toList ++ name.toList ++ ['>'])) =
      some (.around name attributes content) := by
  have hin : ∀ c ∈ escape content.toList, (c != '<') = true := fun c hc =>
    bne_iff_ne.mpr fun he => bracket_notMem_escape (Or.inl rfl) content.toList (he ▸ hc)
  obtain ⟨htake, hdrop⟩ := cut_append hin (b := "</".toList ++ name.toList ++ ['>']) (by simp)
  have hne : escape content.toList ++ ("</".toList ++ name.toList ++ ['>']) ≠ [] := by simp
  rw [behindTag?, if_neg hne, htake, hdrop, if_pos ⟨rfl, rfl⟩, unescape_escape,
    String.ofList_toList]

/-- Tidy pieces are read back from their lines. -/
theorem piece?_text {p : Piece} (h : p.Tidy) : piece? p.text = some p := by
  cases p with
  | opening name attributes => exact piece?_tag h.name h.attributes (Or.inl rfl) []
  | closing name =>
    have hname : ∀ c ∈ name.toList, isNameChar c = true := List.all_eq_true.mp h.name.2
    have hend : ∀ c ∈ ['>'].head?, isNameChar c = false := by
      rintro c ⟨⟩
      decide
    obtain ⟨htake, hdrop⟩ := cut_append hname hend
    rw [Piece.text, piece?, hdrop, htake, if_pos rfl, String.ofList_toList]
  | alone name attributes => exact piece?_tag h.name h.attributes (Or.inr rfl) []
  | around name attributes content =>
    exact (piece?_tag h.name h.attributes (Or.inl rfl) _).trans
      (behindTag?_content name attributes content)

structure Piece.OnLine (p : Piece) : Prop where
  attributes : ∀ a ∈ p.attributes, '\n' ∉ a.2.toList
  content : ∀ content ∈ p.content?, '\n' ∉ content.toList

theorem break_notMem_escape {s : String} (h : '\n' ∉ s.toList) : '\n' ∉ escape s.toList := fun hc =>
  h (mem_of_mem_escape (by decide) hc)

theorem break_notMem_quoted {attributes : Attributes} (h : Tidy attributes)
    (hline : ∀ a ∈ attributes, '\n' ∉ a.2.toList) : '\n' ∉ quoted attributes := by
  rw [quoted, List.mem_flatMap]
  rintro ⟨a, ha, hc⟩
  have hname := (h a ha).1.notMem (c := '\n') (by decide)
  have hvalue := break_notMem_escape (hline a ha)
  simp [toList_field, escaped, hname, hvalue] at hc

theorem break_notMem_text {p : Piece} (h : p.Tidy) (hline : p.OnLine) : '\n' ∉ p.text := by
  have hname : '\n' ∉ p.name.toList := h.name.notMem (by decide)
  have hquoted := break_notMem_quoted h.attributes hline.attributes
  cases p with
  | opening name attributes => simpa [Piece.text] using ⟨hname, hquoted⟩
  | closing name => simpa [Piece.text, Piece.name] using hname
  | alone name attributes => simpa [Piece.text] using ⟨hname, hquoted⟩
  | around name attributes content =>
    have hcontent := break_notMem_escape (hline.content content rfl)
    simpa [Piece.text] using ⟨hname, hquoted, hcontent, hname⟩

end Tablature.Drawing.Svg
