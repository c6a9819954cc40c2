import Mathlib.Algebra.BigOperators.Group.List.Basic
import Tablature.Proofs.Groups
import Tablature.Proofs.Nesting

/-!
The shapes of a drawing. `shapes` reads them off any drawing, each with the sum of the shifts of the
groups around it. Where groups begin and end in turn, the shapes are those of the groups, one group
after the other; the pages of a score do so, whether a symbol fails or not. -/
namespace Tablature.Engraving
open Tablature.Music Tablature.Drawing

/-- A shape or a text, with how far it is moved in all. -/
structure Shape where
  dx : HalfPixel
  dy : HalfPixel
  mark : Mark
  deriving DecidableEq, Repr

/-- The shapes and texts of a drawing; the shifts of the groups that are open around it are given,
the innermost first. -/
def shapes (shifts : List (HalfPixel × HalfPixel)) : List Mark → List Shape
  | [] => []
  | .openGroup dx dy :: rest => shapes ((dx, dy) :: shifts) rest
  | .closeGroup :: rest => shapes shifts.tail rest
  | .start _ _ :: rest => shapes shifts rest
  | .finish :: rest => shapes shifts rest
  | c :: rest => ⟨(shifts.map Prod.fst).sum, (shifts.map Prod.snd).sum, c⟩ :: shapes shifts rest

def isShape : Mark → Bool
  | .start _ _ | .finish | .openGroup _ _ | .closeGroup => false
  | _ => true

theorem onPage_of_isShape {c : Mark} (h : isShape c = true) :
    role c ≠ .canvas ∧ role c ≠ .group := by
  cases c with
  | start | finish | openGroup | closeGroup => cases h
  | circle => exact ⟨nofun, nofun⟩
  | rect | line | text =>
    simp only [role]
    repeat' split
    all_goals exact ⟨by decide, by decide⟩

def Group.shapes (g : Group) : List Shape := (g.content.filter isShape).map (Shape.mk g.dx g.dy)

theorem shapes_cons_of_isShape {c : Mark} (h : isShape c = true)
    (shifts : List (HalfPixel × HalfPixel)) (rest : List Mark) :
    shapes shifts (c :: rest) = ⟨(shifts.map Prod.fst).sum, (shifts.map Prod.snd).sum, c⟩ :: shapes
      shifts rest := by
  cases c with
  | start | finish | openGroup | closeGroup => cases h
  | rect | line | circle | text => rfl

/-- Groups in turn: outside of them no shape is drawn, and inside one the shapes up to its end are
its own. -/
theorem shapes_of_walk (ms : List Mark) :
    (walk false ms = some false → shapes [] ms = (groups ms).flatMap Group.shapes) ∧
      ∀ dx dy, walk true ms = some false →
        shapes [(dx, dy)] ms = (⟨dx, dy, leading ms⟩ : Group).shapes ++
          (groups ms).flatMap Group.shapes := by
  induction ms with
  | nil =>
    refine ⟨fun _ => rfl, fun dx dy h => ?_⟩
    rw [walk_nil] at h
    cases h
  | cons c ms ih =>
    obtain ⟨houtside, hinside⟩ := ih
    by_cases hc : isShape c = true
    · have hpage := onPage_of_isShape hc
      refine ⟨fun h => ?_, fun dx dy h => ?_⟩
      · rw [walk_cons, pass?_false_of_onPage hpage] at h
        cases h
      · rw [walk_cons, pass?_of_onPage hpage] at h
        have hleading : leading (c :: ms) = c :: leading ms := by simp [leading, hpage.2]
        have hgroups : groups (c :: ms) = groups ms :=
          groups_append (a := [c]) (by simpa [Plain] using hpage.2) ms
        rw [shapes_cons_of_isShape hc, hinside dx dy h, hleading, hgroups, Group.shapes,
          Group.shapes]
        simp [hc]
    · cases c with
      | rect | line | circle | text => exact absurd rfl hc
      | start | finish => exact ⟨houtside, hinside⟩
      | openGroup dx dy =>
        refine ⟨fun h => hinside dx dy h, fun dx dy h => ?_⟩
        cases (show none = some false from h)
      | closeGroup =>
        refine ⟨fun h => ?_, fun dx dy h => houtside h⟩
        cases (show none = some false from h)

namespace Sheet
variable {sheet : Sheet}

theorem onPage_body_of_mem_picture {symbols : List Symbol} {p : Plate}
    (h : p ∈ sheet.picture symbols) :
    OnPage (sheet.body p) := by
  obtain ⟨hink, htail⟩ := roles_of_mem_picture h
  have hbar : OnPage (sheet.bar p.start) := by
    intro c hc
    rcases role_of_mem_bar hc with hr | hr <;> simp [hr]
  refine (hbar.append (hink.onPage (by decide))).append ?_
  intro c hc
  rcases htail c hc with hr | hr <;> simp [hr]

theorem walk_origin (page : Nat) (rest : List Mark) :
    Engraving.walk false (sheet.origin page :: rest) = Engraving.walk true rest := rfl

theorem walk_closeGroup (rest : List Mark) :
    Engraving.walk true (.closeGroup :: rest) = Engraving.walk false rest := rfl

/-- With a page open, each plate stands on it or ends it and begins the next. -/
theorem InOrder.walk {t : Nat} {ps : List Plate} (h : sheet.InOrder t ps)
    (hp : ∀ p ∈ ps, OnPage (sheet.body p)) :
    walk true (ps.flatMap sheet.marks ++ ending) = some false := by
  induction ps generalizing t with
  | nil =>
    rw [List.flatMap_nil, List.nil_append, ending, walk_onPage_append onPage_endGlyph]
    rfl
  | cons p ps ih =>
    obtain ⟨hf, hrest⟩ := h.cons
    have hbody := hp p List.mem_cons_self
    have htail := ih hrest fun q hq => hp q (List.mem_cons_of_mem p hq)
    rw [List.flatMap_cons, List.append_assoc]
    rcases hf.page with ⟨-, ht⟩ | ⟨-, ht, h0⟩
    · have hm : sheet.marks p = sheet.body p := by simp [marks, frame, turn, ht, body]
      rw [hm, walk_onPage_append hbody, htail]
    · have hm : sheet.marks p = .closeGroup :: sheet.origin (sheet.format.pageOf p.start) ::
          (pageGlyph (sheet.heightAfter (sheet.format.pageOf p.start)) ++ sheet.body p) := by
        simp [marks, frame, turn, ht, h0, body]
      rw [hm, List.cons_append, List.cons_append, List.append_assoc, walk_closeGroup, walk_origin,
        walk_onPage_append (onPage_pageGlyph _), walk_onPage_append hbody, htail]

theorem walk_picture (symbols : List Symbol) :
    Engraving.walk false ((sheet.picture symbols).flatMap sheet.marks ++ endingOf symbols) =
      some false := by
  by_cases hne : symbols = []
  · subst hne
    rfl
  · obtain ⟨p, ps, hpicture, h0, hin⟩ := sheet.picture_inOrder hne
    have hbody : ∀ q ∈ p :: ps, OnPage (sheet.body q) :=
      fun q hq => onPage_body_of_mem_picture (hpicture ▸ hq)
    have hm : sheet.marks p =
        sheet.origin 0 :: (pageGlyph (sheet.heightAfter 0) ++ sheet.body p) := by
      simp [marks, frame, turn, Turns, h0, body]
    rw [hpicture, endingOf, if_neg hne, List.flatMap_cons, hm, List.cons_append, List.cons_append,
      List.append_assoc, List.append_assoc, walk_origin, walk_onPage_append (onPage_pageGlyph _),
      walk_onPage_append (hbody p List.mem_cons_self)]
    exact hin.walk fun q hq => hbody q (List.mem_cons_of_mem p hq)

end Sheet

/-- The drawing of a score: the canvas and its ground, then the pages in turn. -/
theorem engrave_drawing_eq (f : PageFormat) (symbols : List Symbol) (pages : Int) :
    ∃ rest, ((Sheet.forSymbols f symbols).engrave pages symbols).drawing =
        (Sheet.forSymbols f symbols).opening pages ++ rest ∧
      walk false rest = some false ∧
      groups rest = (List.range ((Sheet.forSymbols f symbols).pagesBegun symbols)).map
        ((Sheet.forSymbols f symbols).pageGroup ((Sheet.forSymbols f symbols).picture symbols)
          ((Sheet.forSymbols f symbols).lastPage symbols)) := by
  have hopen : Plain ((Sheet.forSymbols f symbols).opening pages) := by
    intro c hc
    rcases Sheet.role_of_mem_opening hc with hr | hr <;> simp [hr]
  have hgroups := groups_engrave f symbols pages
  rw [engrave_drawing, List.append_assoc] at hgroups ⊢
  rw [groups_append hopen] at hgroups
  exact ⟨_, rfl, Sheet.walk_picture symbols, hgroups⟩

end Tablature.Engraving
