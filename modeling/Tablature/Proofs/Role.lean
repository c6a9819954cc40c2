import Tablature.Proofs.Picture

/-!
What a mark is for. `role` reads it off the mark alone: canvas and groups, the page with its lanes
and bars, the numbers of the measures, the signs of the symbols, beams and tapers. The lemmas give
the roles of all that the drawing puts down, so that its signs, beams or numbers can be picked out
of it. -/
namespace Tablature.Engraving
open Tablature.Music Tablature.Drawing

inductive Role where
  | canvas
  | group
  | page
  | number
  | sign
  | beam
  | taper
  deriving DecidableEq, Repr

/-- Beams run along the ends of the stems, tapers away from them. Stems, heads, dots and rests are
signs. -/
def role : Mark → Role
  | .start _ _ => .canvas
  | .finish => .canvas
  | .openGroup _ _ => .group
  | .closeGroup => .group
  | .circle _ _ _ _ => .sign
  | .rect _ _ _ _ style => if style = inkStyle then .sign else .page
  | .text x _ _ _ => if x = px (pageWidth + 2) then .number else .page
  | .line x₁ _ x₂ _ style =>
    if x₁ = px stemX then
      if x₂ = px stemX then .beam else if x₂ = px (stemX + taperWidth) then .taper else .sign
    else if style = restStyle then .sign else .page

def Role.ofSymbol : Role → Bool
  | .sign | .beam | .taper => true
  | _ => false

def marksOf (r : Role) (ms : List Mark) : List Mark := ms.filter fun c => role c == r

@[simp] theorem marksOf_append (r : Role) (a b : List Mark) :
    marksOf r (a ++ b) = marksOf r a ++ marksOf r b :=
  List.filter_append ..

@[simp] theorem marksOf_flatMap {α : Type} (r : Role) (f : α → List Mark) (l : List α) :
    marksOf r (l.flatMap f) = l.flatMap fun a => marksOf r (f a) := by
  induction l with
  | nil => rfl
  | cons a l ih => simp [ih]

def AllRole (r : Role) (ms : List Mark) : Prop := ∀ c ∈ ms, role c = r

theorem AllRole.append {r : Role} {a b : List Mark} (ha : AllRole r a) (hb : AllRole r b) :
    AllRole r (a ++ b) := by
  intro c hc
  rcases List.mem_append.mp hc with hc | hc
  · exact ha c hc
  · exact hb c hc

theorem AllRole.marksOf_eq {r r' : Role} {ms : List Mark} (h : AllRole r ms) :
    marksOf r' ms = if r' = r then ms else [] := by
  by_cases hr : r' = r
  · rw [if_pos hr, hr]
    exact List.filter_eq_self.mpr fun c hc => by simp [h c hc]
  · rw [if_neg hr]
    exact List.filter_eq_nil_iff.mpr fun c hc => by simpa [h c hc] using Ne.symm hr

theorem marksOf_eq_nil {r : Role} {ms : List Mark} (h : ∀ c ∈ ms, role c ≠ r) : marksOf r ms = [] :=
  List.filter_eq_nil_iff.mpr fun c hc => by simpa using h c hc

theorem px_inj {a b : Int} : px a = px b ↔ a = b := by
  constructor
  · intro h
    have h : 2 * a = 2 * b := h
    omega
  · rintro rfl
    rfl

theorem allRole_pageGlyph (height : Int) : AllRole .page (pageGlyph height) := by
  intro c hc
  rcases List.mem_append.mp hc with hc | hc
  · obtain ⟨lane, hl, hc⟩ := List.mem_flatMap.mp hc
    have hlane : lane < 17 := List.mem_range.mp hl
    have hx : px (laneWidth * lane + 7) ≠ px (pageWidth + 2) := mt px_inj.mp (by
      simp only [laneWidth, pageWidth, laneCount]
      omega)
    have hs : ∀ fill : Bool, thinStyle ++ ";fill:" ++ (if fill then "salmon" else "white") ≠
        inkStyle := by decide
    simp only [laneGlyph, List.mem_cons, List.not_mem_nil, or_false] at hc
    rcases hc with rfl | rfl
    · simp only [role, if_neg (hs (isMarked lane))]
    · simp only [role, if_neg hx]
  · rw [List.mem_singleton.mp hc]
    rfl

theorem allRole_endGlyph : AllRole .page endGlyph := by
  simp only [AllRole]
  decide

theorem marksOf_barGlyph (y : HalfPixel) (measure : Nat) :
    marksOf .number (barGlyph y measure) =
      [.text (px (pageWidth + 2)) y (toString measure)
        (labelStyle ++ ";dominant-baseline:central")] := by
  rfl

theorem role_of_mem_barGlyph {y : HalfPixel} {measure : Nat} {c : Mark}
    (h : c ∈ barGlyph y measure) :
    role c = .page ∨ role c = .number := by
  simp only [barGlyph, List.mem_cons, List.not_mem_nil, or_false] at h
  rcases h with rfl | rfl
  · exact Or.inl rfl
  · exact Or.inr rfl

theorem allRole_headRow (y : HalfPixel) (d : Duration) (ps : List Pitch) :
    AllRole .sign (headRow y d ps) := by
  intro c hc
  rcases exists_of_mem_headRow hc with ⟨x, style, rfl⟩ | ⟨x, style, rfl⟩ <;> rfl

theorem allRole_stemGlyph {x : Int} (hx : 0 < x) (y : HalfPixel) (length : Length) :
    AllRole .sign (stemGlyph x y length) := by
  intro c hc
  have h₁ : px x ≠ px stemX := mt px_inj.mp (by
    simp only [stemX]
    omega)
  have h₂ : px x ≠ px (stemX + taperWidth) := mt px_inj.mp (by
    simp only [stemX, taperWidth]
    omega)
  rw [eq_of_mem_stemGlyph hc]
  simp [role, h₁, h₂]

theorem allRole_restGlyph (y : HalfPixel) (length : Length) :
    AllRole .sign (restGlyph y length) := by
  intro c hc
  cases length <;> simp only [restGlyph, zigzag, List.mem_cons, List.not_mem_nil, or_false] at hc
  · rcases hc with rfl | rfl <;> rfl
  · rcases hc with rfl | rfl | rfl | rfl | rfl <;> rfl
  · subst hc
    rfl
  · subst hc
    rfl

theorem stemEnd_pos {ps : List Pitch} (hne : ps ≠ []) (h : ∀ p ∈ ps, InReach p) :
    0 < stemEnd ps := by
  obtain ⟨x, hx⟩ : ∃ x, (ps.map headAt).max? = some x := by
    apply Option.isSome_iff_exists.mp
    simpa [Option.isSome_iff_ne_none] using hne
  obtain ⟨p, hp, rfl⟩ := List.mem_map.mp (List.max?_mem hx)
  rw [stemEnd, hx]
  exact headAt_pos (h p hp)

theorem allRole_glyph {s : Symbol} (hd : Drawable s) (y : HalfPixel) :
    AllRole .sign (glyph y s) := by
  obtain ⟨hplay, hr⟩ := hd
  rcases s with ⟨d, p | ps | _ | _⟩
  · exact (allRole_headRow y d [p]).append
      (allRole_stemGlyph (stemEnd_pos (List.cons_ne_nil p []) hr) y d.length)
  · exact (allRole_headRow y d ps).append (allRole_stemGlyph (stemEnd_pos hplay hr) y d.length)
  · exact allRole_restGlyph y d.length
  · exact hplay.elim

theorem allRole_brokenGlyph (y : HalfPixel) (s : Symbol) : AllRole .sign (brokenGlyph y s) := by
  rcases s with ⟨d, p | ps | _ | _⟩
  · simp [AllRole, brokenGlyph]
  · exact allRole_headRow y d _
  · simp [AllRole, brokenGlyph]
  · simp [AllRole, brokenGlyph]

theorem allRole_flag (y : HalfPixel) (s : Symbol) : AllRole .taper (flag y s) := by
  intro c hc
  rw [eq_of_mem_flag hc]
  rfl

namespace Sheet
variable {sheet : Sheet}

theorem role_of_mem_bar {t : Nat} {c : Mark} (h : c ∈ sheet.bar t) :
    role c = .page ∨ role c = .number :=
  role_of_mem_barGlyph (sheet.mem_bar h)

theorem role_of_mem_opening {pages : Int} {c : Mark} (h : c ∈ sheet.opening pages) :
    role c = .canvas ∨ role c = .page := by
  simp only [opening, List.mem_cons, List.not_mem_nil, or_false] at h
  rcases h with rfl | rfl
  · exact Or.inl rfl
  · exact Or.inr rfl

theorem role_beam (m m' : Moment) : role (sheet.beam m m') = .beam := rfl

theorem allRole_remnant (m : Moment) : AllRole .sign (sheet.remnant m) := by
  by_cases hf : m.Fits sheet.format
  · rw [remnant, if_pos hf]
    exact allRole_brokenGlyph _ _
  · simp [AllRole, remnant, hf]

section Paper
variable {r : Role} (hr : r.ofSymbol)
include hr

theorem marksOf_pageGlyph (height : Int) : marksOf r (pageGlyph height) = [] := by
  rw [(allRole_pageGlyph height).marksOf_eq, if_neg]
  rintro rfl
  cases hr

theorem marksOf_endGlyph : marksOf r endGlyph = [] := by
  rw [allRole_endGlyph.marksOf_eq, if_neg]
  rintro rfl
  cases hr

theorem marksOf_endingOf (symbols : List Symbol) : marksOf r (endingOf symbols) = [] := by
  have hclose : ∀ ms, (∀ c ∈ ms, c = .closeGroup ∨ c = .finish) → marksOf r ms = [] := by
    intro ms hms
    apply marksOf_eq_nil
    rintro c hc rfl
    rcases hms c hc with rfl | rfl <;> cases hr
  by_cases hs : symbols = []
  · rw [endingOf, if_pos hs]
    exact hclose _ (by simp)
  · rw [endingOf, if_neg hs, ending, marksOf_append, marksOf_endGlyph hr, hclose _ (by simp)]
    rfl

theorem marksOf_opening (pages : Int) : marksOf r (sheet.opening pages) = [] := by
  apply marksOf_eq_nil
  rintro c hc rfl
  rcases role_of_mem_opening hc with h | h <;> simp [h, Role.ofSymbol] at hr

theorem marksOf_bar (t : Nat) : marksOf r (sheet.bar t) = [] := by
  apply marksOf_eq_nil
  rintro c hc rfl
  rcases role_of_mem_bar hc with h | h <;> simp [h, Role.ofSymbol] at hr

theorem marksOf_frame (t : Nat) : marksOf r (sheet.frame t) = [] := by
  have hclose : marksOf r (if t = 0 then [] else [.closeGroup]) = [] := by
    apply marksOf_eq_nil
    rintro c hc rfl
    split at hc
    · simp at hc
    · rw [List.mem_singleton.mp hc] at hr
      cases hr
  have horigin : ∀ ms, marksOf r (sheet.origin (sheet.format.pageOf t) :: ms) = marksOf r ms := by
    intro ms
    apply List.filter_cons_of_neg
    simp only [beq_iff_eq]
    rintro rfl
    cases hr
  rw [frame, marksOf_append, marksOf_bar hr, turn]
  split
  · rw [marksOf_append, hclose, horigin, marksOf_pageGlyph hr]
    rfl
  · rfl

end Paper

/-- A plate of the picture of some moments shows the glyph of one of them, with a beam or taper or
nothing behind it. -/
theorem mem_runPlates {ms : List Moment} {p : Plate} (h : p ∈ sheet.runPlates ms) :
    ∃ m ∈ ms, ∃ tail, p = sheet.plate m tail ∧ ∀ c ∈ tail, role c = .beam ∨ role c = .taper := by
  fun_induction runPlates sheet ms with
  | case1 m₁ m₂ rest ih =>
    rcases List.mem_cons.mp h with rfl | h
    · exact ⟨m₁, by simp, [], rfl, by simp⟩
    · rcases List.mem_cons.mp h with rfl | h
      · exact ⟨m₂, by simp, _, rfl, by simp [role_beam]⟩
      · obtain ⟨m, hm, hp⟩ := ih h
        exact ⟨m, by simp [hm], hp⟩
  | case2 m =>
    rw [List.mem_singleton] at h
    exact ⟨m, by simp, _, h, fun c hc => Or.inr (allRole_flag _ _ c hc)⟩
  | case3 => simp at h

theorem mem_plates {ms : List Moment} {p : Plate} (h : p ∈ sheet.plates ms) :
    ∃ m ∈ ms, ∃ tail, p = sheet.plate m tail ∧ ∀ c ∈ tail, role c = .beam ∨ role c = .taper := by
  obtain ⟨g, hg, hp⟩ := List.mem_flatMap.mp h
  obtain ⟨m, hm, hm'⟩ := mem_runPlates hp
  refine ⟨m, ?_, hm'⟩
  rw [← List.flatten_splitBy (joined sheet.format) ms]
  exact List.mem_flatten.mpr ⟨g, hg, hm⟩

theorem roles_of_mem_picture {symbols : List Symbol} {p : Plate} (h : p ∈ sheet.picture symbols) :
    AllRole .sign p.ink ∧ ∀ c ∈ p.tail, role c = .beam ∨ role c = .taper := by
  rcases List.mem_append.mp h with h | h
  · obtain ⟨m, hm, tail, rfl, ht⟩ := mem_plates h
    exact ⟨allRole_glyph (mem_accepted hm).2.2 _, ht⟩
  · obtain ⟨m, -, rfl⟩ := List.mem_map.mp h
    exact ⟨allRole_remnant m, by simp⟩

end Sheet
end Tablature.Engraving
