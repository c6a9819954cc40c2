import Tablature.Proofs.Markup
import Tablature.Proofs.SymbolGlyph

/-!
Symbols in pixels. The marks of a symbol are written out with their coordinates: a head of radius
four for each pitch with its dot, one stem, or the strokes of a rest. The glyphs, which are drawn
in half pixels, are these marks (`recorded_glyph`). -/
namespace Tablature.Engraving
open Tablature.Music Tablature.Drawing
open Tablature.Drawing.Svg (recorded)

/-- Middle C stands at 128. Of the pitches above it the even ones follow to the right and the odd
ones to the left. -/
def laneX (p : Pitch) : ℤ := if p % 2 = 0 then 128 + 15 * (p / 2) else 113 - 15 * (p / 2)

def headMarks (x y : ℚ) (d : Duration) : List (Command ℚ) :=
  .circle x y 4
      (if d.length = .half ∨ d.length = .whole then "stroke-width:1;stroke:black;fill:white"
      else "stroke-width:1;stroke:black;fill:black") ::
    if d.dotted then [.circle (x + 6) (y - 7) 2 "fill:black"] else []

def stemMarks (x y : ℚ) (length : Length) : List (Command ℚ) :=
  if length = .whole then []
  else [.line (-20) (y - 4) x (y - 4) "stroke-width:1;stroke:black"]

def restMarks (y : ℚ) : Length → List (Command ℚ)
  | .whole => [.rect 121 (y - 2) 2 4 "fill:black"]
  | .half => [.rect 119 (y - 2) 2 4 "fill:black"]
  | .quarter =>
    [.line 121 y 128 (y - 7) "stroke-width:2;stroke:black;fill:none",
     .line 128 (y - 7) 136 y "stroke-width:2;stroke:black;fill:none",
     .line 136 y 141 (y - 7) "stroke-width:2;stroke:black;fill:none",
     .line 141 (y - 7) 146 y "stroke-width:2;stroke:black;fill:none",
     .line 146 y 151 (y - 3) "stroke-width:2;stroke:black;fill:none"]
  | .eighth =>
    [.line 143 (y - 4) 158 (y + 4) "stroke-width:2;stroke:black;fill:none",
     .circle 147 (y + 2) 3 "fill:black"]

/-- The heads in the order of the pitches, then the stem to the rightmost of them. -/
def soundMarks (y : ℚ) (d : Duration) (ps : List Pitch) : List (Command ℚ) :=
  (ps.flatMap fun p => headMarks (laneX p) y d) ++
    match (ps.map laneX).max? with
    | some x => stemMarks x y d.length
    | none => []

def symbolMarks (y : ℚ) (s : Symbol) : List (Command ℚ) :=
  match s.sound with
  | .note p => soundMarks y s.duration [p]
  | .chord ps => soundMarks y s.duration ps
  | .rest => restMarks y s.duration.length
  | .other => []

/-- Both ends lie where the stems begin. -/
def isBeam : Command ℚ → Bool
  | .line x _ x' _ _ => x == -20 && x' == -20
  | _ => false

/-- It leads from where the stems begin towards the lanes. -/
def isTaper : Command ℚ → Bool
  | .line x _ x' _ _ => x == -20 && x' == -15
  | _ => false

theorem half_px (n : ℤ) : ((px n : ℤ) : ℚ) / 2 = n := by
  simp only [px]
  push_cast
  ring

theorem half_eq_iff {a n : ℤ} : (a : ℚ) / 2 = n ↔ a = px n := by
  constructor
  · intro h
    have hdouble : (a : ℚ) = ((2 * n : ℤ) : ℚ) := by
      push_cast
      linarith
    exact_mod_cast hdouble
  · rintro rfl
    exact half_px n

theorem half_add_px (y : ℚ) (n : ℤ) : (y + (px n : ℤ)) / 2 = y / 2 + n := by
  rw [add_div, half_px]

theorem half_sub_px (y : ℚ) (n : ℤ) : (y - (px n : ℤ)) / 2 = y / 2 - n := by
  rw [sub_div, half_px]

section Recorded
variable (y : HalfPixel)

theorem recorded_headGlyph (x : ℤ) (d : Duration) :
    (headGlyph x y d).map recorded = headMarks x ((y : ℚ) / 2) d := by
  have hfill : (thinStyle ++ ";fill:" ++ if isHollow d.length then "white" else "black") =
      if d.length = .half ∨ d.length = .whole then "stroke-width:1;stroke:black;fill:white"
      else "stroke-width:1;stroke:black;fill:black" := by
    cases d.length <;> rfl
  cases hd : d.dotted <;>
    simp [headGlyph, headMarks, hd, hfill, recorded, Command.map, half_px, half_sub_px, headRadius,
      inkStyle]

theorem recorded_stemGlyph (x : ℤ) (length : Length) :
    (stemGlyph x y length).map recorded = stemMarks x ((y : ℚ) / 2) length := by
  cases length <;>
    simp [stemGlyph, stemMarks, recorded, Command.map, half_px, half_sub_px, stemX, headRadius,
      thinStyle]

theorem recorded_restGlyph (length : Length) :
    (restGlyph y length).map recorded = restMarks ((y : ℚ) / 2) length := by
  cases length <;>
    simp [restGlyph, zigzag, restMarks, recorded, Command.map, half_px, half_sub_px, half_add_px,
      centreX, headRadius, inkStyle, restStyle]

theorem recorded_beamGlyph (earlier : HalfPixel) :
    recorded (beamGlyph y earlier) =
      .line (-20) ((y : ℚ) / 2 - 4) (-20)
      ((earlier : ℚ) / 2 - 4) "stroke-width:1;stroke:black" := by
  simp [beamGlyph, recorded, Command.map, half_px, half_sub_px, stemX, headRadius, thinStyle]

theorem recorded_taperGlyph :
    recorded (taperGlyph y) =
      .line (-20) ((y : ℚ) / 2 - 4) (-15) ((y : ℚ) / 2 - 9) "stroke-width:1;stroke:black" := by
  have htop : (y : ℚ) / 2 - 4 - 5 = (y : ℚ) / 2 - 9 := by ring
  simp [taperGlyph, recorded, Command.map, half_px, half_sub_px, stemX, headRadius, taperWidth,
    thinStyle, htop]

theorem laneX_eq {p : Pitch} (h : InReach p) : laneX p = headAt p := by
  obtain ⟨hl, hu⟩ := h
  interval_cases p <;> decide

theorem recorded_soundGlyph (d : Duration) {ps : List Pitch} (hne : ps ≠ [])
    (hreach : ∀ p ∈ ps, InReach p) :
    (soundGlyph y d ps).map recorded = soundMarks ((y : ℚ) / 2) d ps := by
  have hheads : (headRow y d ps).map recorded =
      ps.flatMap fun p => headMarks (laneX p) ((y : ℚ) / 2) d := by
    rw [headRow, List.map_flatMap]
    refine List.flatMap_congr fun p hp => ?_
    rw [recorded_headGlyph, laneX_eq (hreach p hp)]
  have hlanes : ps.map laneX = ps.map headAt :=
    List.map_congr_left fun p hp => laneX_eq (hreach p hp)
  obtain ⟨x, hx⟩ : ∃ x, (ps.map headAt).max? = some x := by
    apply Option.isSome_iff_exists.mp
    simpa [Option.isSome_iff_ne_none] using hne
  rw [soundGlyph, soundMarks, List.map_append, hheads, recorded_stemGlyph, stemEnd, hlanes, hx,
    Option.getD_some]

theorem recorded_glyph {s : Symbol} (h : Drawable s) :
    (glyph y s).map recorded = symbolMarks ((y : ℚ) / 2) s := by
  obtain ⟨hplay, hreach⟩ := h
  rcases s with ⟨d, p | ps | _ | _⟩
  · exact recorded_soundGlyph y d (List.cons_ne_nil p []) hreach
  · exact recorded_soundGlyph y d hplay hreach
  · exact recorded_restGlyph y d.length
  · rfl

end Recorded
end Tablature.Engraving
