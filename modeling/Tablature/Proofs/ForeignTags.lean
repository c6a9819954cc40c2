import Mathlib.Tactic.MkIffOfInductiveProp
import Tablature.Proofs.Atomicity
import Tablature.Proofs.Delimiters

/-!
Tags that do not occur in drawings. In the document of a drawing a bracket opens the declaration or
stands before the name of an element, at its beginning or its end; coordinates, styles and texts
hold none. So a tag that begins like none of these is not found on any line, nor across two lines
(`Foreign.avoids_document`). -/
namespace Tablature.Drawing
open Tablature.Text

namespace Svg
open Tablature.Number

/-- A tag that is neither the declaration nor the beginning or the end of an element. -/
@[mk_iff]
structure Foreign (tag : List Char) : Prop where
  bracket : tag.head? = some '<'
  declaration : Avoids tag Svg.declaration.toList
  elements : ∀ name ∈ elementNames, Avoids tag ('<' :: name.toList) ∧
    Avoids tag ("</".toList ++ name.toList)

instance (tag : List Char) : Decidable (Foreign tag) := decidable_of_iff _ (foreign_iff tag).symm

namespace Foreign
variable {tag : List Char} (h : Foreign tag)
include h

theorem avoids_of_notMem {s : List Char} (hs : '<' ∉ s) : Avoids tag s := by
  obtain ⟨rest, rfl⟩ := List.head?_eq_some_iff.mp h.bracket
  exact Text.avoids_of_notMem hs

theorem avoids_text {p : Piece} (hname : p.name ∈ elementNames)
    (hattributes : ∀ a ∈ p.attributes, IsName a.1) :
    Avoids tag p.text := by
  obtain ⟨hopening, hclosing⟩ := h.elements p.name hname
  have hquoted := bracket_notMem_quoted (.inl rfl) hattributes
  cases p with
  | opening name attributes =>
    exact hopening.append (h.avoids_of_notMem (by simpa [Piece.attributes] using hquoted))
  | closing name => exact hclosing.append (h.avoids_of_notMem (by decide))
  | alone name attributes =>
    exact hopening.append (h.avoids_of_notMem (by simpa [Piece.attributes] using hquoted))
  | around name attributes content =>
    have hcontent : '<' ∉ escape content.toList := bracket_notMem_escape (.inl rfl) _
    have hinside : '<' ∉ quoted attributes ++ '>' :: escape content.toList := by
      simpa [Piece.attributes, hcontent] using hquoted
    have htext : (Piece.around name attributes content).text = ('<' :: name.toList) ++
        ((quoted attributes ++ '>' :: escape content.toList) ++
          (("</".toList ++ name.toList) ++ ['>'])) := by
      simp [Piece.text]
    rw [htext]
    exact hopening.append ((h.avoids_of_notMem hinside).append
      (hclosing.append (h.avoids_of_notMem (by decide))))

theorem avoids_element {c : Instruction} {e : String} (he : element c = .ok e) :
    Avoids tag e.toList := by
  obtain ⟨p, htext, hname, hattributes⟩ := exists_piece_of_element he
  exact htext ▸ h.avoids_text hname hattributes

theorem avoids_line {cs : List Instruction} {line : String} (hline : line ∈ (writeAll cs).1) :
    Avoids tag line.toList := by
  obtain ⟨c, -, hline⟩ := List.mem_flatMap.mp hline
  have hpreamble : ∀ line ∈ preamble c, Avoids tag line.toList := by
    cases c with
    | start => exact fun line hline => List.mem_singleton.mp hline ▸ h.declaration
    | finish | rect | line | circle | text | openGroup | closeGroup =>
      exact fun line hline => by cases hline
  rw [write] at hline
  cases he : element c with
  | error f => exact hpreamble line (by simpa [he] using hline)
  | ok e =>
    simp only [he, List.mem_append, List.mem_singleton] at hline
    rcases hline with hline | rfl
    · exact hpreamble line hline
    · exact h.avoids_element he

theorem avoids_document {lines : List String} (hlines : ∀ line ∈ lines, Avoids tag line.toList) :
    Avoids tag (document lines).toList := by
  have hbreak : Avoids tag "\n".toList := h.avoids_of_notMem (by decide)
  induction lines with
  | nil => exact hbreak
  | cons line lines ih =>
    obtain ⟨hline, hrest⟩ := List.forall_mem_cons.mp hlines
    cases lines with
    | nil =>
      rw [document, String.intercalate_singleton, String.toList_append]
      exact hline.append hbreak
    | cons next lines =>
      rw [document_cons_cons, String.toList_append, String.toList_append]
      exact (hline.append hbreak).append (ih hrest)

end Foreign

/-- A canvas that is written stands behind the declaration. -/
theorem writeAll_start {width height : Coordinate} {cs : List Instruction}
    (h : firstFault? (.start width height :: cs) = none) :
    ∃ e, element (.start width height) = .ok e ∧
      (writeAll (.start width height :: cs)).1 = declaration :: e :: (writeAll cs).1 := by
  rw [firstFault?, List.findSome?_eq_none_iff] at h
  have hstart := h _ (List.mem_map_of_mem List.mem_cons_self)
  cases he : element (.start width height) with
  | error f => simp [write, he] at hstart
  | ok e =>
    refine ⟨e, rfl, ?_⟩
    rw [writeAll_cons, write, he]
    rfl

theorem toList_document_cons {line : String} {c : Char} {inner : List Char}
    (h : line.toList = c :: inner) (lines : List String) :
    ∃ rest, (document (line :: lines)).toList = c :: rest := by
  cases lines with
  | nil =>
    refine ⟨inner ++ "\n".toList, ?_⟩
    rw [document, String.intercalate_singleton, String.toList_append, h]
    rfl
  | cons next lines =>
    refine ⟨inner ++ ("\n".toList ++ (document (next :: lines)).toList), ?_⟩
    rw [document_cons_cons, String.toList_append, String.toList_append, h, List.append_assoc,
      List.cons_append]

end Svg
end Tablature.Drawing
