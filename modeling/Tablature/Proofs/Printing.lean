import Tablature.Proofs.Range
import Tablature.Proofs.Recording

/-!
Which drawings can be written. Every coordinate of a page is whole, or it stands a whole number of
pixels from the height of a symbol and not far below it (`Sheet.explained_of_mem_pageMarks`); whole
ones are printed if the canvas is. So a drawing can be written unless it has too many pages, too
high a canvas, or a symbol on a half pixel too far down (`printable_iff_not_oversized`). -/
namespace Tablature.Drawing

namespace Command
variable {α : Type} {P : α → Prop} {x y x' y' : α} {style : String}

theorem coordinates_map {β : Type} (f : α → β) (c : Command α) :
    (c.map f).coordinates = c.coordinates.map f := by
  cases c <;> rfl

theorem forall_coordinates_start : (∀ n ∈ (start x y).coordinates, P n) ↔ P x ∧ P y := by
  simp [coordinates, places]

theorem forall_coordinates_rect :
    (∀ n ∈ (rect x y x' y' style).coordinates, P n) ↔ P x ∧ P y ∧ P x' ∧ P y' := by
  simp [coordinates, places]

theorem forall_coordinates_line :
    (∀ n ∈ (line x y x' y' style).coordinates, P n) ↔ P x ∧ P y ∧ P x' ∧ P y' := by
  simp [coordinates, places]

theorem forall_coordinates_circle :
    (∀ n ∈ (circle x y x' style).coordinates, P n) ↔ P x ∧ P y ∧ P x' := by
  simp [coordinates, places]

theorem forall_coordinates_text {content : String} :
    (∀ n ∈ (text x y content style).coordinates, P n) ↔ P x ∧ P y := by simp [coordinates, places]

theorem forall_coordinates_openGroup : (∀ n ∈ (openGroup x y).coordinates, P n) ↔ P x ∧ P y := by
  simp [coordinates, places]

end Command

namespace Svg
open Tablature.Number

theorem fields_isOk_iff (as : List (String × Coordinate)) :
    (∃ t, fields as = .ok t) ↔ ∀ a ∈ as, ∃ t, a.2.text = .ok t := by
  induction as with
  | nil => simp [fields]
  | cons a as ih =>
    rw [List.forall_mem_cons, ← ih, fields]
    cases a.2.text with
    | error f => simp
    | ok t => cases fields as <;> simp [Except.map]

theorem element_isOk_iff (c : Instruction) :
    (∃ e, element c = .ok e) ↔ ∀ a ∈ c.coordinates, ∃ t, a.text = .ok t := by
  have hfields : (∃ e, element c = .ok e) ↔ ∃ t, fields c.places = .ok t := by
    cases c with
    | start | rect | line | circle | text =>
      simp only [element, Command.places]
      generalize fields _ = answer
      cases answer <;> simp [Except.map]
    | openGroup dx dy =>
      simp only [element, Command.places, fields]
      cases dx.text with
      | error f => simp
      | ok x => cases dy.text <;> simp [Except.map]
    | finish | closeGroup => simp [element, Command.places, fields]
  rw [hfields, fields_isOk_iff, Command.coordinates, List.forall_mem_map]

def elementNames : List String := ["svg", "g", "rect", "line", "circle", "text"]

def textOf (a : Coordinate) : String := match a.text with
  | .ok t => t
  | .error _ => ""

theorem writes_textOf {a : Coordinate} (h : ∃ t, a.text = .ok t) : Writes a (textOf a) := by
  obtain ⟨t, ht⟩ := h
  have htext : textOf a = t := by rw [textOf, ht]
  exact htext ▸ ⟨ht, Coordinate.all_isDecimalChar_of_text ht⟩

/-- Every element that is written is a piece. -/
theorem exists_piece_of_element {c : Instruction} {e : String} (h : element c = .ok e) :
    ∃ p : Piece, e.toList = p.text ∧ p.name ∈ elementNames ∧ ∀ a ∈ p.attributes, IsName a.1 := by
  have hwrites : ∀ a ∈ c.coordinates, Writes (id a) (textOf a) := fun a ha =>
    writes_textOf ((element_isOk_iff c).mp ⟨e, h⟩ a ha)
  have hpiece := element_map hwrites
  rw [Command.map_id, h] at hpiece
  obtain rfl := Except.ok.inj hpiece
  refine ⟨piece (c.map textOf), String.toList_ofList, ?_, fun a ha => ?_⟩
  · cases c <;> simp only [Command.map, piece, Piece.name] <;> decide
  · exact (plain_or_style (fun b hb => plain_of_decimal (hwrites b hb).decimal) a ha).1

/-- A drawing placed in half pixels has no fault if and only if all its coordinates can be
printed. -/
theorem firstFault?_eq_none_iff (cs : List (Command ℤ)) :
    firstFault? (cs.map fun c => c.map Coordinate.ofHalves) = none ↔
      ∀ c ∈ cs, ∀ n ∈ c.coordinates, Coordinate.Printable n := by
  have hwrite : ∀ c : Instruction, (write c).2 = none ↔ ∃ e, element c = .ok e := by
    intro c
    rw [write]
    cases element c <;> simp
  simp only [firstFault?, writeAll, List.findSome?_eq_none_iff, List.forall_mem_map, id_eq, hwrite,
    element_isOk_iff, Command.coordinates_map, Coordinate.exists_text_iff]

end Svg
end Tablature.Drawing

namespace Tablature.Engraving
open Tablature.Music Tablature.Number Tablature.Drawing Tablature.Text
open Tablature.Drawing.Command

def Whole (c : Mark) : Prop := ∀ n ∈ c.coordinates, n % 2 = 0

/-- A coordinate is whole, or it is whole pixels away from a height and at most so far below it. -/
def StandsAt (y depth n : HalfPixel) : Prop := n % 2 = 0 ∨ (n - y) % 2 = 0 ∧ n ≤ y + depth

def restDepth : Length → HalfPixel
  | .eighth => px headRadius
  | .quarter => 0
  | .half | .whole => -px 2

def depth (s : Symbol) : HalfPixel :=
  match s.sound with
  | .rest => restDepth s.duration.length
  | _ => 0

theorem le_depth (s : Symbol) : -px headRadius ≤ depth s := by
  have hrest : ∀ length, -px headRadius ≤ restDepth length := fun length => by
    cases length <;> decide
  rcases s with ⟨d, p | ps | _ | _⟩
  · exact (by decide : -px headRadius ≤ 0)
  · exact (by decide : -px headRadius ≤ 0)
  · exact hrest d.length
  · exact (by decide : -px headRadius ≤ 0)

theorem depth_mod_two (s : Symbol) : depth s % 2 = 0 := by
  have hrest : ∀ length, restDepth length % 2 = 0 := fun length => by cases length <;> decide
  rcases s with ⟨d, p | ps | _ | _⟩
  · rfl
  · rfl
  · exact hrest d.length
  · rfl

theorem StandsAt.mono {y d d' n : HalfPixel} (h : StandsAt y d n) (hd : d ≤ d') : StandsAt y d' n :=
  h.imp id fun hn => ⟨hn.1, hn.2.trans (by simpa using hd)⟩

theorem depth_of_pitches {s : Symbol} (h : s.pitches ≠ []) : depth s = 0 := by
  rcases s with ⟨d, p | ps | _ | _⟩
  · rfl
  · rfl
  · exact absurd rfl h
  · rfl

section Glyphs
variable {c : Mark} {y : HalfPixel}

theorem whole_pageGlyph {height : Int} (hc : c ∈ pageGlyph height) : Whole c := by
  rcases List.mem_append.mp hc with hc | hc
  · obtain ⟨lane, -, hc⟩ := List.mem_flatMap.mp hc
    simp only [laneGlyph, List.mem_cons, List.not_mem_nil, or_false] at hc
    rcases hc with rfl | rfl
    · simp [Whole, forall_coordinates_rect, px, HalfPixel]
    · simp [Whole, forall_coordinates_text, px, HalfPixel]
  · rw [List.mem_singleton.mp hc]
    simp [Whole, forall_coordinates_line, px, HalfPixel]

theorem whole_barGlyph {measure : Nat} (hy : y % 2 = 0) (hc : c ∈ barGlyph y measure) :
    Whole c := by
  simp only [barGlyph, List.mem_cons, List.not_mem_nil, or_false] at hc
  rcases hc with rfl | rfl
  · simpa [Whole, forall_coordinates_line, px, HalfPixel] using hy
  · simpa [Whole, forall_coordinates_text, px, HalfPixel] using hy

theorem whole_endGlyph (hc : c ∈ endGlyph) : Whole c := by
  simp only [endGlyph, List.mem_cons, List.not_mem_nil, or_false] at hc
  rcases hc with rfl | rfl <;> simp [Whole, forall_coordinates_line, px, HalfPixel]

theorem standsAt_headRow {d : Duration} {ps : List Pitch} (hc : c ∈ headRow y d ps) :
    ∀ n ∈ c.coordinates, StandsAt y 0 n := by
  obtain ⟨p, -, hc⟩ := List.mem_flatMap.mp hc
  rcases List.mem_cons.mp hc with rfl | hc
  · simp only [forall_coordinates_circle, StandsAt, px, HalfPixel, headRadius]
    omega
  · split at hc
    · rw [List.mem_singleton.mp hc]
      simp only [forall_coordinates_circle, StandsAt, px, HalfPixel]
      omega
    · cases hc

theorem standsAt_stemGlyph {x : Int} {length : Length} (hc : c ∈ stemGlyph x y length) :
    ∀ n ∈ c.coordinates, StandsAt y 0 n := by
  rw [eq_of_mem_stemGlyph hc]
  simp only [forall_coordinates_line, StandsAt, px, HalfPixel, headRadius, stemX]
  omega

theorem standsAt_restGlyph {length : Length} (hc : c ∈ restGlyph y length) :
    ∀ n ∈ c.coordinates, StandsAt y (restDepth length) n := by
  cases length <;> simp only [restGlyph, zigzag, List.mem_cons, List.not_mem_nil, or_false] at hc
  · rcases hc with rfl | rfl
    · simp only [forall_coordinates_line, StandsAt, px, HalfPixel, headRadius, restDepth]
      omega
    · simp only [forall_coordinates_circle, StandsAt, px, HalfPixel, headRadius, restDepth]
      omega
  · rcases hc with rfl | rfl | rfl | rfl | rfl <;>
      · simp only [forall_coordinates_line, StandsAt, px, HalfPixel, restDepth]
        omega
  all_goals
    subst hc
    simp only [forall_coordinates_rect, StandsAt, px, HalfPixel, restDepth]
    omega

theorem standsAt_glyph {s : Symbol} (hc : c ∈ glyph y s) :
    ∀ n ∈ c.coordinates, StandsAt y (depth s) n := by
  rcases s with ⟨d, p | ps | _ | _⟩
  · exact (List.mem_append.mp hc).elim standsAt_headRow standsAt_stemGlyph
  · exact (List.mem_append.mp hc).elim standsAt_headRow standsAt_stemGlyph
  · exact standsAt_restGlyph hc
  · cases hc

theorem standsAt_brokenGlyph {s : Symbol} (hc : c ∈ brokenGlyph y s) :
    ∀ n ∈ c.coordinates, StandsAt y 0 n := by
  rcases s with ⟨d, p | ps | _ | _⟩
  · cases hc
  · exact standsAt_headRow hc
  · cases hc
  · cases hc

theorem standsAt_taperGlyph (y : HalfPixel) :
    ∀ n ∈ (taperGlyph y).coordinates, StandsAt y (-px headRadius) n := by
  simp only [taperGlyph, forall_coordinates_line, StandsAt, px, HalfPixel, headRadius,
    stemX, taperWidth]
  omega

theorem standsAt_beamGlyph (y earlier : HalfPixel) :
    ∀ n ∈ (beamGlyph y earlier).coordinates,
      StandsAt y (-px headRadius) n ∨ StandsAt earlier (-px headRadius) n := by
  simp only [beamGlyph, forall_coordinates_line, StandsAt, px, HalfPixel, headRadius, stemX]
  omega

theorem exists_mem_headRow {d : Duration} {ps : List Pitch} (h : ps ≠ []) :
    ∃ c ∈ headRow y d ps, y ∈ c.coordinates := by
  obtain ⟨p, ps, rfl⟩ := List.exists_cons_of_ne_nil h
  exact ⟨_, List.mem_cons_self, by simp [coordinates, places]⟩

theorem exists_mem_restGlyph (length : Length) :
    ∃ c ∈ restGlyph y length, y + restDepth length ∈ c.coordinates := by
  cases length with
  | eighth => exact ⟨_, List.mem_cons_self, by simp [coordinates, places, restDepth]⟩
  | quarter => exact ⟨_, List.mem_cons_self, by simp [coordinates, places, restDepth]⟩
  | half => exact ⟨_, List.mem_cons_self, by simp [coordinates, places, restDepth, sub_eq_add_neg]⟩
  | whole => exact ⟨_, List.mem_cons_self, by simp [coordinates, places, restDepth, sub_eq_add_neg]⟩

theorem exists_mem_glyph {s : Symbol} (h : Drawable s) :
    ∃ c ∈ glyph y s, y + depth s ∈ c.coordinates := by
  obtain ⟨hplay, -⟩ := h
  have hrow : ∀ {d : Duration} {ps : List Pitch}, ps ≠ [] →
      ∃ c ∈ soundGlyph y d ps, y + 0 ∈ c.coordinates := by
    intro d ps hne
    obtain ⟨c, hc, hy⟩ := exists_mem_headRow (y := y) (d := d) hne
    exact ⟨c, List.mem_append_left _ hc, by rwa [add_zero]⟩
  rcases s with ⟨d, p | ps | _ | _⟩
  · exact hrow (List.cons_ne_nil p [])
  · exact hrow hplay
  · exact exists_mem_restGlyph d.length
  · exact hplay.elim

end Glyphs

/-- Something is drawn for the moment: its glyph, or the heads of a chord before a pitch that has no
lane. -/
def Shown (f : PageFormat) (symbols : List Symbol) (m : Moment) : Prop :=
  m ∈ accepted f symbols ∨
    refused? f symbols = some m ∧ m.Fits f ∧ (m.symbol.pitches.takeWhile fun p => InReach p) ≠ []

theorem not_drawable_of_refused {f : PageFormat} {symbols : List Symbol} {m : Moment}
    (h : refused? f symbols = some m) (hfits : m.Fits f) : ¬Drawable m.symbol := by
  have hrefused : ¬m.Accepted f := by simpa using List.find?_some h
  exact fun hdrawable => hrefused ⟨hfits, hdrawable⟩

theorem brokenGlyph_eq_headRow (y : HalfPixel) {s : Symbol} (h : ¬Drawable s) :
    brokenGlyph y s = headRow y s.duration (s.pitches.takeWhile fun p => InReach p) := by
  rcases s with ⟨d, p | ps | _ | _⟩
  · have hp : ¬InReach p := by simpa [Drawable, Symbol.Playable, Symbol.pitches] using h
    simp [brokenGlyph, Symbol.pitches, hp, headRow]
  · rfl
  · rfl
  · rfl

namespace Sheet
variable {sheet : Sheet} {symbols : List Symbol}

variable (sheet) in
theorem cursor_mod_two (t : Nat) : sheet.cursor t % 2 = (sheet.format.sinceBar t : ℤ) % 2 := by
  simp only [cursor, px, beatHeight, HalfPixel]
  omega

variable (sheet symbols) in
/-- A coordinate of a page is whole, or it stands at the height of a moment for which something is
drawn. -/
def Explained (n : HalfPixel) : Prop :=
  n % 2 = 0 ∨ ∃ m, Shown sheet.format symbols m ∧ StandsAt (sheet.cursor m.start) (depth m.symbol) n

theorem whole_of_mem_bar {t : Nat} {c : Mark} (hc : c ∈ sheet.bar t) : Whole c := by
  rw [bar] at hc
  split at hc
  · next hbar =>
    have hparity := sheet.cursor_mod_two t
    refine whole_barGlyph ?_ hc
    simp only [hbar, px, HalfPixel] at hparity ⊢
    omega
  · cases hc

theorem whole_of_mem_turn {t : Nat} {c : Mark} (hc : c ∈ sheet.turn t) : Whole c := by
  rw [turn] at hc
  split at hc
  · rcases List.mem_append.mp hc with hclose | hpage
    · split at hclose
      · cases hclose
      · rw [List.mem_singleton.mp hclose]
        simp [Whole, coordinates, places]
    · rcases List.mem_cons.mp hpage with rfl | hlane
      · simp [Whole, Sheet.origin, forall_coordinates_openGroup, px, HalfPixel]
      · exact whole_pageGlyph hlane
  · cases hc

theorem explained_of_mem_plate {p : Plate} (hp : p ∈ sheet.plates (accepted sheet.format symbols)) :
    ∀ c ∈ p.ink ++ p.tail, ∀ n ∈ c.coordinates, sheet.Explained symbols n := by
  intro c hc n hn
  obtain ⟨m, hm, tail, rfl, htail⟩ := tail_of_mem_plates hp
  rcases List.mem_append.mp hc with hink | hc
  · exact .inr ⟨m, .inl hm, standsAt_glyph hink n hn⟩
  · rcases htail c hc with hflag | ⟨m', hm', -, rfl⟩
    · obtain rfl := eq_of_mem_flag hflag
      exact .inr ⟨m, .inl hm, (standsAt_taperGlyph _ n hn).mono (le_depth _)⟩
    · rcases standsAt_beamGlyph _ _ n hn with h | h
      · exact .inr ⟨m, .inl hm, h.mono (le_depth _)⟩
      · exact .inr ⟨m', .inl hm', h.mono (le_depth _)⟩

theorem explained_of_mem_remnant {m : Moment} (hm : refused? sheet.format symbols = some m) :
    ∀ c ∈ sheet.remnant m, ∀ n ∈ c.coordinates, sheet.Explained symbols n := by
  intro c hc n hn
  by_cases hfits : m.Fits sheet.format
  · have hbroken : c ∈ brokenGlyph (sheet.cursor m.start) m.symbol := by
      simpa [remnant, hfits] using hc
    have hdrawable := not_drawable_of_refused hm hfits
    have hne : (m.symbol.pitches.takeWhile fun p => InReach p) ≠ [] := fun hnil => by
      rw [brokenGlyph_eq_headRow _ hdrawable, hnil] at hbroken
      cases hbroken
    have hpitches : m.symbol.pitches ≠ [] := fun hnil => hne (by rw [hnil]; rfl)
    refine .inr ⟨m, .inr ⟨hm, hfits, hne⟩, ?_⟩
    rw [depth_of_pitches hpitches]
    exact standsAt_brokenGlyph hbroken n hn
  · simp [remnant, hfits] at hc

theorem explained_of_mem_pageMarks :
    ∀ c ∈ sheet.pageMarks symbols, ∀ n ∈ c.coordinates, sheet.Explained symbols n := by
  intro c hc n hn
  rcases List.mem_append.mp hc with hc | hc
  · obtain ⟨p, hp, hc⟩ := List.mem_flatMap.mp hc
    have hmarks : sheet.marks p =
        sheet.turn p.start ++ (sheet.bar p.start ++ (p.ink ++ p.tail)) := by
      simp [marks, frame]
    rw [hmarks] at hc
    rcases List.mem_append.mp hc with hturn | hc
    · exact .inl (whole_of_mem_turn hturn n hn)
    · rcases List.mem_append.mp hc with hbar | hc
      · exact .inl (whole_of_mem_bar hbar n hn)
      · rcases List.mem_append.mp hp with hp | hp
        · exact explained_of_mem_plate hp c hc n hn
        · obtain ⟨m, hm, rfl⟩ := List.mem_map.mp hp
          rw [List.append_nil] at hc
          exact explained_of_mem_remnant (Option.mem_toList.mp hm) c hc n hn
  · split at hc
    · cases hc
    · rcases List.mem_append.mp hc with hend | hclose
      · exact .inl (whole_endGlyph hend n hn)
      · rw [List.mem_singleton.mp hclose] at hn
        cases hn

/-- Sideways coordinates and sizes are small, all others lie on the page. -/
theorem extent_of_onPaper {height : Int} {c : Mark} (hneat : Neat c) (hpaper : OnPaper height c) :
    ∀ n ∈ c.coordinates, Int.natAbs n ≤ 600 ∨ (0 : ℤ) ≤ n ∧ (n : ℤ) ≤ 2 * (height + 50) := by
  obtain ⟨⟨hl, hr⟩, ht, hb⟩ := hpaper
  have hshape := hneat.isShape
  have hsizes := hneat.sizes
  simp only [columnLeft, columnRight, px, stemX, pageWidth, laneWidth, laneCount, laneStep,
    sideLanes, fontSize]
    at hl hr hb
  cases c with
  | start | finish | openGroup | closeGroup => cases hshape
  | rect | line | circle | text =>
    simp only [left, right, top, bottom, sizes, List.forall_mem_cons] at hl hr ht hb hsizes
    simp only [forall_coordinates_rect, forall_coordinates_line, forall_coordinates_circle,
      forall_coordinates_text, HalfPixel]
    omega

theorem pageCount?_eq_none_iff {f : PageFormat} :
    (Sheet.forSymbols f symbols).pageCount? = none ↔
      rangeLimit * f.measuresPerPage ≤ f.measureCount symbols := by
  have hk : (0 : ℚ) < f.measuresPerPage := by exact_mod_cast f.measures_pos
  have hquotient : mkRat (f.measureCount symbols) f.measuresPerPage =
      (f.measureCount symbols : ℚ) / f.measuresPerPage := by
    rw [Rat.mkRat_eq_div]
    rfl
  have hcount : (Sheet.forSymbols f symbols).pageCount? = none ↔
      nearestUnits? (mkRat (f.measureCount symbols) f.measuresPerPage).num.natAbs
        (mkRat (f.measureCount symbols) f.measuresPerPage).den = none := by
    rw [pageCount?, Option.map_eq_none_iff]
    change nearest? (mkRat (f.measureCount symbols) f.measuresPerPage) = none ↔ _
    generalize mkRat (f.measureCount symbols) f.measuresPerPage = q
    cases hunits : nearestUnits? q.num.natAbs q.den <;> simp [nearest?, hunits]
  generalize mkRat (f.measureCount symbols) f.measuresPerPage = q at hquotient hcount
  have hq : 0 ≤ q := by
    rw [hquotient]
    positivity
  rw [hcount, nearestUnits?_eq_none_iff _ q.den_pos]
  obtain ⟨num, hnum⟩ := Int.eq_ofNat_of_zero_le (Rat.num_nonneg.mpr hq)
  have hcross : num * f.measuresPerPage = f.measureCount symbols * q.den := by
    have hden : (q.den : ℚ) ≠ 0 := by exact_mod_cast q.den_ne_zero
    have hdiv := hquotient
    rw [← Rat.num_div_den q, div_eq_div_iff hden hk.ne', hnum] at hdiv
    exact_mod_cast hdiv
  rw [hnum, Int.natAbs_natCast, ← Nat.mul_le_mul_right_iff f.measures_pos, hcross,
    Nat.mul_right_comm, Nat.mul_le_mul_right_iff q.den_pos]

theorem pages_le {pages : Int} (h : sheet.pageCount? = some pages) : pages ≤ (2 ^ 1024 : ℕ) := by
  obtain ⟨r, hr, rfl⟩ := Option.map_eq_some_iff.mp h
  obtain ⟨units, hunits, rfl⟩ := exists_nearestUnits? hr
  have hpos : (0 : ℚ) < unitsPerOne := by exact_mod_cast unitsPerOne_pos
  have hlimit := lt_of_nearestUnits? hunits
  generalize (mkRat sheet.total sheet.format.measuresPerPage).num = num
  generalize unitsPerOne = one at hpos hlimit ⊢
  have hsign : num.sign * (units : ℤ) ≤ 2 ^ 1024 * (one : ℤ) := by
    have hle : num.sign * (units : ℤ) ≤ units := by
      rcases Int.sign_trichotomy num with hs | hs | hs <;> rw [hs] <;> omega
    have hcast : (units : ℤ) < 2 ^ 1024 * one := by exact_mod_cast hlimit
    exact hle.trans hcast.le
  rw [Rat.ceil_le_iff, Rat.mkRat_eq_div, div_le_iff₀ hpos]
  exact_mod_cast hsign

theorem rangeLimit_lt : rangeLimit < 2 ^ 1024 := by decide +kernel

theorem width_lt : 305 * 2 ^ 1024 + 50 < 10 ^ digitLimit := by decide +kernel

variable (hcount : sheet.total < rangeLimit * sheet.format.measuresPerPage)
  (hheight : sheet.height < (10 ^ digitLimit : ℕ))
include hcount hheight

theorem PageMark.natAbs_lt {c : Mark} (h : sheet.PageMark c) :
    ∀ n ∈ c.coordinates, Int.natAbs n < 2 * 10 ^ digitLimit := by
  have hwidth := width_lt
  have hlimit := rangeLimit_lt
  rw [height_eq] at hheight
  cases h with
  | close => exact nofun
  | @origin page h =>
    have hfull := (sheet.heightAfter_bounds page).2
    have hnonneg := sheet.heightAfter_nonneg page
    have hpage : (page : ℤ) < rangeLimit := by
      have hk : (0 : ℤ) < sheet.format.measuresPerPage := by
        exact_mod_cast sheet.format.measures_pos
      rw [remaining] at h
      refine lt_of_mul_lt_mul_left (a := (sheet.format.measuresPerPage : ℤ)) ?_ hk.le
      linarith
    generalize 10 ^ digitLimit = most at *
    generalize 2 ^ 1024 = top at *
    simp only [Sheet.origin, forall_coordinates_openGroup, px, marginX, marginY, pageWidth,
      laneWidth, laneCount]
    omega
  | @shape page _ hneat hpaper =>
    have hfull := (sheet.heightAfter_bounds page).2
    intro n hn
    have hextent := extent_of_onPaper hneat hpaper n hn
    have hsmall : 600 < 10 ^ digitLimit := by decide +kernel
    generalize 10 ^ digitLimit = most at *
    simp only [HalfPixel] at hextent ⊢
    clear hwidth hlimit hcount
    omega

end Sheet

variable {f : PageFormat} {symbols : List Symbol}

/-- Where a score is too large to be written: too many pages, a canvas with too long a height, or a
symbol half a pixel off a whole one and so low on its page that binary64 does not reach there. -/
inductive Oversized (f : PageFormat) (symbols : List Symbol) : Prop
  | pages (h : rangeLimit * f.measuresPerPage ≤ f.measureCount symbols) : Oversized f symbols
  | canvas (h : 10 ^ digitLimit ≤ 15 * ((f.beatsPerMeasure + 1) * f.measuresPerPage) + 85) :
    Oversized f symbols
  | halfPixel {m : Moment} (hshown : Shown f symbols m) (hhalf : f.sinceBar m.start % 2 = 1)
      (h : 2 * (rangeLimit : ℤ) ≤ (Sheet.forSymbols f symbols).cursor m.start + depth m.symbol) :
        Oversized f symbols

namespace Sheet

theorem height_forSymbols :
    (Sheet.forSymbols f symbols).height =
      (15 * ((f.beatsPerMeasure + 1) * f.measuresPerPage) + 85 : ℕ) := by
  rw [height_eq, fullHeight, heightOf, if_pos rfl, beatHeight, forSymbols_format]
  push_cast
  ring

theorem exists_coordinate_of_shown {m : Moment} (h : Shown f symbols m) :
    ∃ c ∈ (Sheet.forSymbols f symbols).pageMarks symbols,
      (Sheet.forSymbols f symbols).cursor m.start + depth m.symbol ∈ c.coordinates := by
  obtain ⟨p, hp, c, hc, hmem⟩ : ∃ p ∈ (Sheet.forSymbols f symbols).picture symbols, ∃ c ∈ p.ink,
      (Sheet.forSymbols f symbols).cursor m.start + depth m.symbol ∈ c.coordinates := by
    rcases h with hm | ⟨hm, hfits, hne⟩
    · obtain ⟨c, hc, hmem⟩ :=
        exists_mem_glyph (y := (Sheet.forSymbols f symbols).cursor m.start) (mem_accepted hm).2.2
      have hink := (Sheet.forSymbols f symbols).plates_map (fun _ ink => ink) (accepted f symbols)
      obtain ⟨p, hp, hglyph⟩ := List.mem_map.mp (hink ▸ List.mem_map_of_mem hm)
      exact ⟨p, List.mem_append_left _ hp, c, hglyph ▸ hc, hmem⟩
    · have hdrawable := not_drawable_of_refused hm hfits
      have hpitches : m.symbol.pitches ≠ [] := fun hnil => hne (by rw [hnil]; rfl)
      obtain ⟨c, hc, hmem⟩ := exists_mem_headRow (y := (Sheet.forSymbols f symbols).cursor m.start)
        (d := m.symbol.duration) hne
      rw [← brokenGlyph_eq_headRow _ hdrawable] at hc
      refine ⟨_, List.mem_append_right _ (List.mem_map_of_mem (Option.mem_toList.mpr hm)), c, ?_,
        ?_⟩
      · simpa [remnant, hfits] using hc
      · rwa [depth_of_pitches hpitches, add_zero]
  exact ⟨c, List.mem_append_left _ (List.mem_flatMap.mpr ⟨p, hp, by simp [marks, hc]⟩), hmem⟩

theorem printable_px {n : ℤ} (h₀ : 0 ≤ n) (h : n < (10 ^ digitLimit : ℕ)) :
    Coordinate.Printable (px n) := by
  rw [Coordinate.printable_of_even (by simp [px])]
  generalize 10 ^ digitLimit = most at *
  simp only [px]
  omega

theorem PageMark.natAbs_le_or_nonneg {sheet : Sheet} {c : Mark} (h : sheet.PageMark c) :
    ∀ n ∈ c.coordinates, n % 2 = 0 ∨ Int.natAbs n ≤ 600 ∨ (0 : ℤ) ≤ n := by
  cases h with
  | close => exact nofun
  | origin => simp [Sheet.origin, forall_coordinates_openGroup, px]
  | shape hneat hpaper =>
    exact fun n hn => .inr ((extent_of_onPaper hneat hpaper n hn).imp_right And.left)

theorem printable_of_mem_pageMarks (h : ¬Oversized f symbols) :
    ∀ c ∈ (Sheet.forSymbols f symbols).pageMarks symbols, ∀ n ∈ c.coordinates,
      Coordinate.Printable n := by
  intro c hc n hn
  have hmark := pageMark_of_mem_pageMarks (forSymbols_holds symbols f) c hc
  rcases Int.emod_two_eq_zero_or_one n with hwhole | hodd
  · have hcount : (Sheet.forSymbols f symbols).total < rangeLimit * f.measuresPerPage := by
      have hlt : f.measureCount symbols < rangeLimit * f.measuresPerPage :=
        Nat.not_le.mp fun hle => h (.pages hle)
      exact (Int.ofNat_lt.mpr hlt).trans_eq (Nat.cast_mul _ _)
    have hheight : (Sheet.forSymbols f symbols).height < (10 ^ digitLimit : ℕ) := by
      rw [height_forSymbols]
      exact Int.ofNat_lt.mpr (Nat.not_le.mp fun hle => h (.canvas hle))
    rw [Coordinate.printable_of_even hwhole]
    exact hmark.natAbs_lt hcount hheight n hn
  · -- No whole pixel: a symbol stands there, and none is too low.
    rcases explained_of_mem_pageMarks c hc n hn with heven | ⟨m, hshown, heven | ⟨hparity, hle⟩⟩
    · exact absurd (hodd.symm.trans heven) (by decide)
    · exact absurd (hodd.symm.trans heven) (by decide)
    · have hcursor := (Sheet.forSymbols f symbols).cursor_mod_two m.start
      have hhalf : f.sinceBar m.start % 2 = 1 := by
        change _ = (f.sinceBar m.start : ℤ) % 2 at hcursor
        simp only [HalfPixel] at hcursor hparity
        omega
      have hlow := not_le.mp fun hlow => h (.halfPixel hshown hhalf hlow)
      have hsmall : 600 < 2 * rangeLimit := by decide +kernel
      have hside := hmark.natAbs_le_or_nonneg n hn
      rw [Coordinate.printable_of_odd hodd]
      generalize rangeLimit = limit at *
      simp only [HalfPixel] at hlow hle hside
      omega

end Sheet

/-- All coordinates of a drawing can be printed unless the score is oversized. -/
theorem printable_iff_not_oversized {pages : Int}
    (hpages : (Sheet.forSymbols f symbols).pageCount? = some pages) :
    (∀ c ∈ ((Sheet.forSymbols f symbols).engrave pages symbols).drawing, ∀ n ∈ c.coordinates,
      Coordinate.Printable n) ↔ ¬Oversized f symbols := by
  have htotal : 0 ≤ (Sheet.forSymbols f symbols).total := Int.natCast_nonneg _
  have hnonneg := Sheet.pages_nonneg hpages htotal
  have hheight : 0 ≤ (Sheet.forSymbols f symbols).height := by
    rw [Sheet.height_forSymbols]
    exact Int.natCast_nonneg _
  rw [engrave_drawing_eq_pageMarks]
  simp only [List.forall_mem_cons, List.cons_append, List.forall_mem_append,
    forall_coordinates_start]
  constructor
  · rintro ⟨⟨-, hprinted⟩, -, hmarks, -⟩ hover
    cases hover with
    | pages h => simp [Sheet.pageCount?_eq_none_iff.mpr h] at hpages
    | canvas h =>
      rw [Coordinate.printable_of_even (by simp [px]), Sheet.height_forSymbols] at hprinted
      generalize 10 ^ digitLimit = most at *
      simp only [px] at hprinted
      omega
    | @halfPixel m hshown hhalf h =>
      obtain ⟨c, hc, hmem⟩ := Sheet.exists_coordinate_of_shown hshown
      have hprinted := hmarks c hc _ hmem
      have hodd : ((Sheet.forSymbols f symbols).cursor m.start + depth m.symbol) % 2 = 1 := by
        have hcursor := (Sheet.forSymbols f symbols).cursor_mod_two m.start
        have hdepth := depth_mod_two m.symbol
        change _ = (f.sinceBar m.start : ℤ) % 2 at hcursor
        simp only [HalfPixel] at hcursor hdepth ⊢
        omega
      rw [Coordinate.printable_of_odd hodd] at hprinted
      generalize rangeLimit = limit at *
      simp only [HalfPixel] at h hprinted
      omega
  · intro hover
    have hwidth : Coordinate.Printable (px (Sheet.width pages)) := by
      have hlt := Sheet.width_lt
      have hle := Sheet.pages_le hpages
      refine Sheet.printable_px ?_ ?_ <;> rw [Sheet.width_eq]
      · omega
      · generalize 10 ^ digitLimit = most at *
        generalize 2 ^ 1024 = top at *
        omega
    have hcanvas : Coordinate.Printable (px (Sheet.forSymbols f symbols).height) := by
      refine Sheet.printable_px hheight ?_
      rw [Sheet.height_forSymbols]
      exact Int.ofNat_lt.mpr (Nat.not_le.mp fun hle => hover (.canvas hle))
    have hzero : Coordinate.Printable 0 :=
      Sheet.printable_px (n := 0) (by decide) (by decide +kernel)
    refine ⟨⟨hwidth, hcanvas⟩, ?_,
      Sheet.printable_of_mem_pageMarks hover, by simp [coordinates, places]⟩
    exact forall_coordinates_rect.mpr ⟨hzero, hzero, hwidth, hcanvas⟩

end Tablature.Engraving
