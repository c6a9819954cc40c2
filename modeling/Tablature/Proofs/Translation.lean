import Tablature.Proofs.Beaming

/-!
Drawings that are moved. `lower` moves a mark down. What a symbol draws follows the cursor, and a
beam joins notes that stand under one bar; so where two sheets place the same measures at heights of
their own, or one of them later than the other, the plates of the one are those of the other, moved
(`plates_moved`). -/
namespace Tablature.Engraving
open Tablature.Music Tablature.Drawing

def lower (dy : HalfPixel) : Mark → Mark
  | .rect x y width height style => .rect x (y + dy) width height style
  | .line x₁ y₁ x₂ y₂ style => .line x₁ (y₁ + dy) x₂ (y₂ + dy) style
  | .circle x y radius style => .circle x (y + dy) radius style
  | .text x y content style => .text x (y + dy) content style
  | c => c

@[simp] theorem lower_zero : lower 0 = id := by
  funext c
  cases c <;> simp [lower]

theorem lower_lower (d e : HalfPixel) (c : Mark) : lower e (lower d c) = lower (d + e) c := by
  cases c <;> simp [lower, add_assoc]

section Glyphs
variable (y dy : HalfPixel)

theorem headGlyph_lower (x : Int) (d : Duration) :
    headGlyph x (y + dy) d = (headGlyph x y d).map (lower dy) := by
  by_cases hd : d.dotted = true
  · simp [headGlyph, hd, lower, add_sub_right_comm]
  · simp [headGlyph, hd, lower]

theorem stemGlyph_lower (x : Int) (length : Length) :
    stemGlyph x (y + dy) length = (stemGlyph x y length).map (lower dy) := by
  by_cases hl : length = .whole
  · simp [stemGlyph, hl]
  · simp [stemGlyph, hl, lower, add_sub_right_comm]

theorem headRow_lower (d : Duration) (ps : List Pitch) :
    headRow (y + dy) d ps = (headRow y d ps).map (lower dy) := by
  simp only [headRow, headGlyph_lower, List.map_flatMap]

theorem soundGlyph_lower (d : Duration) (ps : List Pitch) :
    soundGlyph (y + dy) d ps = (soundGlyph y d ps).map (lower dy) := by
  rw [soundGlyph, headRow_lower, stemGlyph_lower, soundGlyph, List.map_append]

theorem restGlyph_lower (length : Length) :
    restGlyph (y + dy) length = (restGlyph y length).map (lower dy) := by
  cases length <;> simp [restGlyph, zigzag, lower, add_sub_right_comm, add_right_comm]

theorem glyph_lower (s : Symbol) : glyph (y + dy) s = (glyph y s).map (lower dy) := by
  obtain ⟨d, sound⟩ := s
  cases sound with
  | note p => exact soundGlyph_lower y dy d [p]
  | chord ps => exact soundGlyph_lower y dy d ps
  | rest => exact restGlyph_lower y dy d.length
  | other => rfl

theorem brokenGlyph_lower (s : Symbol) :
    brokenGlyph (y + dy) s = (brokenGlyph y s).map (lower dy) := by
  obtain ⟨d, sound⟩ := s
  cases sound with
  | chord ps => exact headRow_lower y dy d _
  | note | rest | other => rfl

theorem taperGlyph_lower : taperGlyph (y + dy) = lower dy (taperGlyph y) := by
  simp [taperGlyph, lower, add_sub_right_comm]

theorem beamGlyph_lower (earlier : HalfPixel) :
    beamGlyph (y + dy) (earlier + dy) = lower dy (beamGlyph y earlier) := by
  simp [beamGlyph, lower, add_sub_right_comm]

theorem barGlyph_lower (measure : Nat) :
    barGlyph (y + dy) measure = (barGlyph y measure).map (lower dy) := rfl

theorem flag_lower (s : Symbol) : flag (y + dy) s = (flag y s).map (lower dy) := by
  obtain ⟨d, sound⟩ := s
  by_cases hl : d.length = .eighth
  · cases sound <;> simp [flag, hl, taperGlyph_lower]
  · cases sound <;> simp [flag, hl]

end Glyphs

theorem splitBy_map {α β : Type} (g : α → β) (r : β → β → Bool) (l : List α) :
    (l.map g).splitBy r = (l.splitBy fun a b => r (g a) (g b)).map (List.map g) := by
  obtain ⟨hflat, hnil, hchain, hcuts⟩ :=
    List.splitBy_eq_iff.mp (rfl : l.splitBy (fun a b => r (g a) (g b)) = _)
  apply List.splitBy_eq_iff.mpr
  refine ⟨?_, ?_, ?_, ?_⟩
  · rw [← List.map_flatten, ← hflat]
  · simp
  · intro part hpart
    obtain ⟨part', hmem, rfl⟩ := List.mem_map.mp hpart
    exact (List.isChain_map g).mpr (hchain part' hmem)
  · apply (List.isChain_map (List.map g)).mpr
    refine hcuts.imp ?_
    rintro a b ⟨ha, hb, hcut⟩
    exact ⟨by simpa using ha, by simpa using hb, by simpa using hcut⟩

def Moment.later (time : Nat) (m : Moment) : Moment := ⟨time + m.start, m.symbol⟩

@[simp] theorem Moment.later_zero : Moment.later 0 = id := by
  funext m
  simp [later]

theorem timeline_later (time t : Nat) (a : List Symbol) :
    timeline (time + t) a = (timeline t a).map (Moment.later time) := by
  induction a generalizing t with
  | nil => rfl
  | cons s a ih => simp [Moment.later, Nat.add_assoc, ih]

/-- The plate some time later, moved down as far as is given for its time. -/
def Plate.moved (time : Nat) (dy : Nat → HalfPixel) (p : Plate) : Plate :=
  ⟨time + p.start, p.ink.map (lower (dy p.start)), p.tail.map (lower (dy p.start))⟩

namespace Sheet
section Moved
variable {sheet base : Sheet} {time : Nat} {dy : Nat → HalfPixel}

theorem plate_moved {m : Moment}
    (hcursor : sheet.cursor (time + m.start) = base.cursor m.start + dy m.start)
    (tail : List Mark) :
    sheet.plate (m.later time) (tail.map (lower (dy m.start))) =
      (base.plate m tail).moved time dy := by
  simp [plate, Plate.moved, Moment.later, hcursor, glyph_lower]

/-- Within a run all notes stand under one bar, so that they are moved alike and a beam is moved
with them. -/
theorem runPlates_moved {g : List Moment}
    (hcursor : ∀ m ∈ g, sheet.cursor (time + m.start) = base.cursor m.start + dy m.start)
    (hrun : ∀ m ∈ g, ∀ m' ∈ g, dy m.start = dy m'.start) :
    sheet.runPlates (g.map (Moment.later time)) = (base.runPlates g).map (Plate.moved time dy) := by
  fun_induction runPlates base g with
  | case1 m₁ m₂ rest ih =>
    have h₁ := hcursor m₁ (by simp)
    have h₂ := hcursor m₂ (by simp)
    have hdy := hrun m₁ (by simp) m₂ (by simp)
    have hbeam : sheet.beam (m₁.later time) (m₂.later time) =
        lower (dy m₂.start) (base.beam m₁ m₂) := by
      simp only [beam, Moment.later, h₁, h₂, hdy, beamGlyph_lower]
    have hrest := ih (fun m hm => hcursor m (by simp [hm])) fun m hm m' hm' =>
      hrun m (by simp [hm]) m' (by simp [hm'])
    have hp₁ := plate_moved h₁ []
    have hp₂ := plate_moved h₂ [base.beam m₁ m₂]
    rw [List.map_cons, List.map_cons, runPlates, hrest, hbeam]
    exact congrArg₂ List.cons hp₁ (congrArg₂ List.cons hp₂ rfl)
  | case2 m =>
    have h := hcursor m (by simp)
    have hp := plate_moved h (flag (base.cursor m.start) m.symbol)
    rw [← flag_lower, ← h] at hp
    exact congrArg (List.cons · []) hp
  | case3 => rfl

/-- Two sheets place the same moments, one of them some time later. If the notes that may be joined
are the same and their heights differ by one amount for each measure, the plates differ by that
too. -/
theorem plates_moved (sheet base : Sheet) (time : Nat) (dy : Nat → HalfPixel) (ms : List Moment)
    (hjoined : ∀ m m', joined sheet.format (m.later time) (m'.later time) = joined base.format m m')
    (hdy : ∀ t t', base.format.measureOf t = base.format.measureOf t' → dy t = dy t')
    (hcursor : ∀ m ∈ ms, sheet.cursor (time + m.start) = base.cursor m.start + dy m.start) :
    sheet.plates (ms.map (Moment.later time)) = (base.plates ms).map (Plate.moved time dy) := by
  have hruns : runs sheet.format (ms.map (Moment.later time)) =
      (runs base.format ms).map (List.map (Moment.later time)) := by
    simp only [runs, splitBy_map, hjoined]
  rw [plates, plates, hruns, List.flatMap_map, List.map_flatMap]
  refine List.flatMap_congr fun g hg => runPlates_moved ?_ ?_
  · intro m hm
    apply hcursor
    have hmem : m ∈ (runs base.format ms).flatten := List.mem_flatten.mpr ⟨g, hg, hm⟩
    rwa [runs_flatten] at hmem
  · intro m hm m' hm'
    rcases mem_runs hg with ⟨m₀, rfl, -⟩ | ⟨n, hn⟩
    · rw [List.mem_singleton.mp hm, List.mem_singleton.mp hm']
    · exact hdy _ _ ((hn m hm).2.trans (hn m' hm').2.symm)

end Moved
end Sheet
end Tablature.Engraving
