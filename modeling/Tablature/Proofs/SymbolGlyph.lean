import Mathlib.Tactic.IntervalCases
import Tablature.Engraving.Placement
import Tablature.Proofs.Timeline

/-!
What one symbol draws. `glyph` is the drawing of a symbol at a height, without the beams and tapers
of eighth notes; the lemmas on `State.place` say that placing a symbol draws its glyph and what
becomes of a waiting eighth note. -/
namespace Tablature.Engraving
open Tablature.Music

def headAt (p : Pitch) : Int := (headX? p).getD 0

theorem headX?_of_inReach {p : Pitch} (h : InReach p) :
    headX? p = some (headAt p) ∧ 0 < headAt p := by
  obtain ⟨hl, hu⟩ := h
  interval_cases p <;> decide

theorem headX?_of_not_inReach {p : Pitch} (h : ¬InReach p) : headX? p = none := by
  have hr : ∀ q ∈ lanePitches, InReach q := by decide
  have hn : laneOf? p = none := by
    apply List.findIdx?_eq_none_iff.mpr
    intro q hq
    exact beq_false_of_ne fun he => h (he ▸ hr q hq)
  simp [headX?, hn]

theorem headAt_pos {p : Pitch} (h : InReach p) : 0 < headAt p := (headX?_of_inReach h).2

theorem findHead_of_inReach {p : Pitch} (h : InReach p) : findHead p = .ok (headAt p) := by
  simp [findHead, headX?_of_inReach h]

theorem findHead_of_not_inReach {p : Pitch} (h : ¬InReach p) :
    findHead p = .error (.outOfRange p) := by
  simp [findHead, headX?_of_not_inReach h]

def headRow (y : HalfPixel) (d : Duration) (ps : List Pitch) : List Mark :=
  ps.flatMap fun p => headGlyph (headAt p) y d

theorem heads_of_inReach (y : HalfPixel) (d : Duration) {ps : List Pitch}
    (h : ∀ p ∈ ps, InReach p) :
    heads y d ps = (headRow y d ps, .ok (ps.map headAt)) := by
  induction ps with
  | nil => rfl
  | cons p ps ih =>
    have hp := findHead_of_inReach (h p (by simp))
    have ht := ih fun q hq => h q (by simp [hq])
    simp [heads, hp, ht, headRow]

theorem heads_of_find? (y : HalfPixel) (d : Duration) {ps : List Pitch} {p : Pitch}
    (h : (ps.find? fun p => ¬InReach p) = some p) :
    heads y d ps = (headRow y d (ps.takeWhile fun p => InReach p), .error (.outOfRange p)) := by
  induction ps with
  | nil => simp at h
  | cons q ps ih =>
    by_cases hq : InReach q
    · have ht := ih (by simpa [hq] using h)
      simp [heads, findHead_of_inReach hq, ht, hq, headRow]
    · have he : q = p := by simpa [hq] using h
      subst he
      simp [heads, findHead_of_not_inReach hq, hq, headRow]

theorem rightmost_eq_max? {xs : List Int} (hx : xs ≠ []) (h : ∀ x ∈ xs, 0 < x) :
    xs.max? = some (rightmost xs) := by
  induction xs with
  | nil => exact absurd rfl hx
  | cons x xs ih =>
    have hp := h x (by simp)
    cases xs with
    | nil =>
      have : max x 0 = x := by omega
      simp [rightmost, this]
    | cons z xs =>
      have ht := ih (by simp) fun w hw => h w (by simp [hw])
      rw [List.max?_cons, ht]
      rfl

def stemEnd (ps : List Pitch) : Int := (ps.map headAt).max?.getD 0

theorem rightmost_map_headAt {ps : List Pitch} (h : ∀ p ∈ ps, InReach p) :
    rightmost (ps.map headAt) = stemEnd ps := by
  cases ps with
  | nil => rfl
  | cons p ps =>
    have hx : ∀ x ∈ (p :: ps).map headAt, 0 < x := by
      intro x hx
      obtain ⟨q, hq, rfl⟩ := List.mem_map.mp hx
      exact headAt_pos (h q hq)
    rw [stemEnd, rightmost_eq_max? (by simp) hx, Option.getD_some]

/-- The heads of the pitches in their order, then one stem that reaches to the rightmost of them. -/
def soundGlyph (y : HalfPixel) (d : Duration) (ps : List Pitch) : List Mark :=
  headRow y d ps ++ stemGlyph (stemEnd ps) y d.length

def glyph (y : HalfPixel) (s : Symbol) : List Mark :=
  match s.sound with
  | .note p => soundGlyph y s.duration [p]
  | .chord ps => soundGlyph y s.duration ps
  | .rest => restGlyph y s.duration.length
  | .other => []

/-- What a symbol without a glyph leaves behind: the heads of a chord before the first pitch that
has no lane. -/
def brokenGlyph (y : HalfPixel) (s : Symbol) : List Mark :=
  match s.sound with
  | .chord ps => headRow y s.duration (ps.takeWhile fun p => InReach p)
  | _ => []

def isSingleEighth (s : Symbol) : Bool :=
  match s.sound with
  | .note _ => s.duration.length == .eighth
  | _ => false

/-- The taper of an eighth note or eighth chord that no beam joins to another. -/
def flag (y : HalfPixel) (s : Symbol) : List Mark :=
  match s.sound with
  | .note _ | .chord _ => if s.duration.length = .eighth then [taperGlyph y] else []
  | _ => []

theorem flag_of_isSingleEighth {s : Symbol} (h : isSingleEighth s) (y : HalfPixel) :
    flag y s = [taperGlyph y] := by
  rcases s with ⟨d, p | ps | _ | _⟩
  · have hl : d.length = .eighth := by simpa [isSingleEighth] using h
    simp [flag, hl]
  all_goals simp [isSingleEighth] at h

theorem eq_of_mem_flag {c : Mark} {y : HalfPixel} {s : Symbol} (h : c ∈ flag y s) :
    c = taperGlyph y := by
  rcases s with ⟨d, p | ps | _ | _⟩
  · have hc : d.length = .eighth ∧ c = taperGlyph y := by simpa [flag] using h
    exact hc.2
  · have hc : d.length = .eighth ∧ c = taperGlyph y := by simpa [flag] using h
    exact hc.2
  · cases h
  · cases h

theorem eq_of_mem_stemGlyph {c : Mark} {x : Int} {y : HalfPixel} {length : Length}
    (h : c ∈ stemGlyph x y length) :
    c = .line (px stemX) (y - px headRadius) (px x) (y - px headRadius) thinStyle := by
  by_cases hl : length = .whole
  · simp [stemGlyph, hl] at h
  · simpa [stemGlyph, hl] using h

/-- A head row has circles only, of heads at its height and of dots seven pixels above. -/
theorem exists_of_mem_headRow {c : Mark} {y : HalfPixel} {d : Duration} {ps : List Pitch}
    (h : c ∈ headRow y d ps) :
    (∃ x style, c = .circle x y (px headRadius) style) ∨ ∃ x style, c = .circle x (y - px 7)
    (px 2) style := by
  obtain ⟨p, -, hc⟩ := List.mem_flatMap.mp h
  rcases List.mem_cons.mp hc with rfl | hc
  · exact Or.inl ⟨_, _, rfl⟩
  · by_cases hd : d.dotted = true
    · right
      rw [if_pos hd] at hc
      exact ⟨_, _, List.mem_singleton.mp hc⟩
    · rw [if_neg hd] at hc
      cases hc

def tapers (waiting : Option HalfPixel) : List Mark := waiting.toList.map taperGlyph

namespace State

theorem settle_eq (s : State) :
    s.settle = ⟨tapers s.waiting, { s with waiting := none }, none⟩ := by
  rcases s with ⟨_, _, _, _, _, _, _ | y⟩ <;> rfl

theorem place_first {symbol : Symbol} {s : State} (he : isSingleEighth symbol)
    (hd : Drawable symbol)
    (hw : s.waiting = none) :
    s.place symbol = ⟨glyph s.y symbol, { s with waiting := some s.y }, none⟩ := by
  rcases symbol with ⟨d, p | ps | _ | _⟩
  · have hp : InReach p := hd.2 p (by simp [Symbol.pitches])
    have hl : d.length = .eighth := by simpa [isSingleEighth] using he
    simp [place, placeNote, placeHead, hl, findHead_of_inReach hp, hw, glyph, soundGlyph, headRow,
      stemEnd]
  all_goals simp [isSingleEighth] at he

theorem place_second {symbol : Symbol} {s : State} {earlier : HalfPixel}
    (he : isSingleEighth symbol) (hd : Drawable symbol) (hw : s.waiting = some earlier) :
    s.place symbol =
      ⟨glyph s.y symbol ++ [beamGlyph s.y earlier], { s with waiting := none }, none⟩ := by
  rcases symbol with ⟨d, p | ps | _ | _⟩
  · have hp : InReach p := hd.2 p (by simp [Symbol.pitches])
    have hl : d.length = .eighth := by simpa [isSingleEighth] using he
    simp [place, placeNote, placeHead, hl, findHead_of_inReach hp, hw, glyph, soundGlyph, headRow,
      stemEnd]
  all_goals simp [isSingleEighth] at he

theorem place_other {symbol : Symbol} {s : State} (he : isSingleEighth symbol = false)
    (hd : Drawable symbol) :
    s.place symbol =
      ⟨tapers s.waiting ++ (glyph s.y symbol ++ flag s.y symbol), { s with waiting := none },
        none⟩ := by
  obtain ⟨hplay, hr⟩ := hd
  rcases symbol with ⟨d, p | ps | _ | _⟩
  · have hp : InReach p := hr p (by simp [Symbol.pitches])
    have hl : d.length ≠ .eighth := by simpa [isSingleEighth] using he
    simp [place, placeNote, placeHead, hl, findHead_of_inReach hp, settle_eq, Outcome.andThen,
      glyph, soundGlyph, headRow, stemEnd, flag]
  · have hh : heads s.y d ps = (headRow s.y d ps, .ok (ps.map headAt)) := heads_of_inReach s.y d hr
    have hm : rightmost (ps.map headAt) = stemEnd ps := rightmost_map_headAt hr
    cases ps with
    | nil => exact absurd rfl hplay
    | cons p ps =>
      simp [-List.map_cons, place, placeHeads, settle_eq, Outcome.andThen, hh, hm, glyph,
        soundGlyph, flag]
  · simp [place, settle_eq, Outcome.andThen, glyph, flag]
  · exact absurd hplay (by simp [Symbol.Playable])

theorem place_refused {symbol : Symbol} (s : State) (hd : ¬Drawable symbol) :
    ∃ w drawn, s.place symbol = ⟨drawn, { s with waiting := w }, glyphFault? symbol⟩ ∧
      (w = none ∨ w = s.waiting) ∧
        drawn ++ tapers w = tapers s.waiting ++ brokenGlyph s.y symbol := by
  rcases symbol with ⟨d, p | ps | _ | _⟩
  · have hp : ¬InReach p := by simpa [Drawable, Symbol.Playable, Symbol.pitches] using hd
    by_cases hl : d.length = .eighth
    · refine ⟨s.waiting, [], ?_, Or.inr rfl, by simp [brokenGlyph]⟩
      simp [place, placeNote, placeHead, hl, findHead_of_not_inReach hp, glyphFault?,
        Symbol.pitches, hp]
    · refine ⟨none, tapers s.waiting, ?_, Or.inl rfl, by simp [tapers, brokenGlyph]⟩
      simp [place, placeNote, placeHead, hl, findHead_of_not_inReach hp, settle_eq, Outcome.andThen,
        glyphFault?, Symbol.pitches, hp]
  · cases ps with
    | nil =>
      refine ⟨none, tapers s.waiting, ?_, Or.inl rfl, by simp [tapers, brokenGlyph, headRow]⟩
      simp [place, placeHeads, settle_eq, Outcome.andThen, glyphFault?]
    | cons q ps =>
      obtain ⟨p, hp⟩ : ∃ p, ((q :: ps).find? fun p => ¬InReach p) = some p := by
        apply Option.isSome_iff_exists.mp
        rw [List.find?_isSome]
        by_contra hn
        exact hd ⟨by simp [Symbol.Playable], by simpa [Symbol.pitches] using hn⟩
      have hh := heads_of_find? s.y d hp
      refine ⟨none, tapers s.waiting ++ brokenGlyph s.y ⟨d, .chord (q :: ps)⟩, ?_,
        Or.inl rfl, by simp [tapers]⟩
      simp only [place, placeHeads, settle_eq, Outcome.andThen, hh, glyphFault?, Symbol.pitches,
        hp, brokenGlyph, Option.map_some]
  · simp [Drawable, Symbol.Playable, Symbol.pitches] at hd
  · exact ⟨s.waiting, [], by simp [place, glyphFault?], Or.inr rfl, by simp [brokenGlyph]⟩

end State
end Tablature.Engraving
