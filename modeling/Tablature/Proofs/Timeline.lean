import Tablature.Engraving.Outcome
import Tablature.Engraving.PageFormat

/-!
The time line of a score: every symbol with the exact time before it. A moment fits if its symbol
ends in the measure in which it begins; whether a moment is accepted, and with which fault it is
refused otherwise, is read off the moment alone, without running the drawing. Times are counted in
halves of an eighth beat. -/
namespace Tablature.Engraving
open Tablature.Music

/-- A symbol with the halves of an eighth beat that come before it. -/
structure Moment where
  start : Nat
  symbol : Symbol
  deriving DecidableEq, Repr

def timeline : Nat → List Symbol → List Moment
  | _, [] => []
  | t, s :: rest => ⟨t, s⟩ :: timeline (t + s.halves) rest

@[simp] theorem timeline_nil (t : Nat) : timeline t [] = [] := rfl

@[simp] theorem timeline_cons (t : Nat) (s : Symbol) (rest : List Symbol) :
    timeline t (s :: rest) = ⟨t, s⟩ :: timeline (t + s.halves) rest := rfl

@[simp] theorem timeline_map_symbol (t : Nat) (a : List Symbol) :
    (timeline t a).map Moment.symbol = a := by
  induction a generalizing t with
  | nil => rfl
  | cons s a ih => simp [ih]

theorem timeline_length (t : Nat) (a : List Symbol) : (timeline t a).length = a.length := by
  rw [← List.length_map Moment.symbol, timeline_map_symbol]

theorem timeline_getElem? (t : Nat) (a : List Symbol) (i : Nat) :
    (timeline t a)[i]? = a[i]?.map fun s => ⟨t + totalHalves (a.take i), s⟩ := by
  induction a generalizing t i with
  | nil => simp
  | cons s a ih =>
    cases i with
    | zero => simp
    | succ i => simp [ih (t + s.halves) i, Nat.add_assoc]

theorem start_lt_of_mem_timeline {t : Nat} {a : List Symbol} {m : Moment} (h : m ∈ timeline t a) :
    t ≤ m.start ∧ m.start < t + totalHalves a := by
  induction a generalizing t with
  | nil => simp at h
  | cons s a ih =>
    have hs : 0 < s.halves := s.duration.halves_pos
    rcases List.mem_cons.mp h with rfl | h
    · simp
      omega
    · have := ih h
      simp only [totalHalves_cons]
      omega

/-- A symbol ends before the ones behind it begin. -/
theorem timeline_pairwise (t : Nat) (a : List Symbol) :
    (timeline t a).Pairwise fun m m' => m.start + m.symbol.halves ≤ m'.start := by
  induction a generalizing t with
  | nil => exact List.Pairwise.nil
  | cons s a ih =>
    exact List.pairwise_cons.mpr ⟨fun m hm => (start_lt_of_mem_timeline hm).1, ih (t + s.halves)⟩

theorem starts_pairwise (t : Nat) (a : List Symbol) :
    ((timeline t a).map Moment.start).Pairwise (· < ·) := by
  apply List.pairwise_map.mpr
  refine (timeline_pairwise t a).imp ?_
  intro m m' hle
  have hpos : 0 < m.symbol.halves := m.symbol.duration.halves_pos
  omega

section Division
variable {n t d : Nat}

theorem div_add_of_lt (h : t % n + d < n) : (t + d) / n = t / n := by
  have ht := Nat.div_add_mod t n
  rw [show t + d = n * (t / n) + (t % n + d) by omega, Nat.mul_add_div (by omega),
    Nat.div_eq_of_lt h, Nat.add_zero]

theorem mod_add_of_lt (h : t % n + d < n) : (t + d) % n = t % n + d := by
  have ht := Nat.div_add_mod t n
  rw [show t + d = n * (t / n) + (t % n + d) by omega, Nat.mul_add_mod, Nat.mod_eq_of_lt h]

theorem div_add_of_eq (hn : 0 < n) (h : t % n + d = n) : (t + d) / n = t / n + 1 := by
  have ht := Nat.div_add_mod t n
  rw [show t + d = n * (t / n + 1) by rw [Nat.mul_succ]; omega, Nat.mul_div_cancel_left _ hn]

theorem mod_add_of_eq (h : t % n + d = n) : (t + d) % n = 0 := by
  have ht := Nat.div_add_mod t n
  rw [show t + d = n * (t / n + 1) by rw [Nat.mul_succ]; omega, Nat.mul_mod_right]

end Division

namespace PageFormat
variable (f : PageFormat)

/-- How many measures end at or before a time. -/
def measureOf (t : Nat) : Nat := t / f.measureHalves

def pageOf (t : Nat) : Nat := f.measureOf t / f.measuresPerPage

def placeOnPage (t : Nat) : Nat := f.measureOf t % f.measuresPerPage

def sinceBar (t : Nat) : Nat := t % f.measureHalves

@[simp] theorem measureOf_zero : f.measureOf 0 = 0 := Nat.zero_div _

@[simp] theorem pageOf_zero : f.pageOf 0 = 0 := by simp [pageOf]

@[simp] theorem placeOnPage_zero : f.placeOnPage 0 = 0 := by simp [placeOnPage]

@[simp] theorem sinceBar_zero : f.sinceBar 0 = 0 := Nat.zero_mod _

theorem sinceBar_lt (t : Nat) : f.sinceBar t < f.measureHalves := Nat.mod_lt _ f.measureHalves_pos

theorem placeOnPage_lt (t : Nat) : f.placeOnPage t < f.measuresPerPage :=
  Nat.mod_lt _ f.measures_pos

theorem measureOf_sinceBar (t : Nat) : f.measureHalves * f.measureOf t + f.sinceBar t = t :=
  Nat.div_add_mod t f.measureHalves

theorem pageOf_placeOnPage (t : Nat) :
    f.measuresPerPage * f.pageOf t + f.placeOnPage t = f.measureOf t :=
  Nat.div_add_mod (f.measureOf t) f.measuresPerPage

/-- A symbol that ends within the measure leaves its time in that measure, or at the bar behind
it. -/
theorem next_time {t d : Nat} (h : f.sinceBar t + d ≤ f.measureHalves) :
    (f.measureOf (t + d) = f.measureOf t ∧ f.sinceBar (t + d) = f.sinceBar t + d) ∨
      (f.measureOf (t + d) = f.measureOf t + 1 ∧ f.sinceBar (t + d) = 0) := by
  by_cases he : f.sinceBar t + d = f.measureHalves
  · exact Or.inr ⟨div_add_of_eq f.measureHalves_pos he, mod_add_of_eq he⟩
  · have hlt : f.sinceBar t + d < f.measureHalves := by omega
    exact Or.inl ⟨div_add_of_lt hlt, mod_add_of_lt hlt⟩

theorem next_page {t u : Nat} (hm : f.measureOf t = f.measureOf u + 1)
    (h : f.placeOnPage u + 1 = f.measuresPerPage) :
    f.pageOf t = f.pageOf u + 1 ∧ f.placeOnPage t = 0 := by
  unfold pageOf placeOnPage at *
  rw [hm]
  exact ⟨div_add_of_eq f.measures_pos h, mod_add_of_eq h⟩

theorem same_page {t u : Nat} (hm : f.measureOf t = f.measureOf u + 1)
    (h : f.placeOnPage u + 1 ≠ f.measuresPerPage) :
    f.pageOf t = f.pageOf u ∧ f.placeOnPage t = f.placeOnPage u + 1 := by
  have hlt : f.measureOf u % f.measuresPerPage + 1 < f.measuresPerPage := by
    have := f.placeOnPage_lt u
    unfold placeOnPage at *
    omega
  unfold pageOf placeOnPage
  rw [hm]
  exact ⟨div_add_of_lt hlt, mod_add_of_lt hlt⟩

theorem exists_full {t : Nat} (h0 : t ≠ 0) (hs : f.sinceBar t = 0) :
    ∃ u, t = u + 1 ∧ f.sinceBar u + 1 = f.measureHalves ∧ f.measureOf t = f.measureOf u + 1 := by
  obtain ⟨u, rfl⟩ : ∃ u, t = u + 1 := ⟨t - 1, by omega⟩
  have hlt := f.sinceBar_lt u
  by_cases hu : f.sinceBar u + 1 = f.measureHalves
  · exact ⟨u, rfl, hu, div_add_of_eq f.measureHalves_pos hu⟩
  · have hnext : f.sinceBar (u + 1) = f.sinceBar u + 1 :=
      mod_add_of_lt (show f.sinceBar u + 1 < _ by omega)
    omega

theorem measureOf_mono {t t' : Nat} (h : t ≤ t') : f.measureOf t ≤ f.measureOf t' :=
  Nat.div_le_div_right h

end PageFormat

/-- The pitches that have a lane. -/
def InReach (p : Pitch) : Prop := 0 ≤ p ∧ p ≤ 16

instance (p : Pitch) : Decidable (InReach p) := inferInstanceAs (Decidable (_ ∧ _))

def Drawable (s : Symbol) : Prop := s.Playable ∧ ∀ p ∈ s.pitches, InReach p

instance (s : Symbol) : Decidable s.Playable := by
  unfold Symbol.Playable
  split <;> infer_instance

instance (s : Symbol) : Decidable (Drawable s) := inferInstanceAs (Decidable (_ ∧ _))

/-- Why a symbol has no glyph, if it has none; of several pitches without a lane the first one is
named. -/
def glyphFault? (s : Symbol) : Option Fault :=
  match s.sound with
  | .other => some .unknownSymbol
  | .chord [] => some .emptyChord
  | _ => (s.pitches.find? fun p => ¬InReach p).map .outOfRange

theorem glyphFault?_eq_none_iff (s : Symbol) : glyphFault? s = none ↔ Drawable s := by
  rcases s with ⟨d, p | ps | _ | _⟩
  · simp [glyphFault?, Drawable, Symbol.Playable, Symbol.pitches]
  · cases ps <;> simp [glyphFault?, Drawable, Symbol.Playable, Symbol.pitches]
  · simp [glyphFault?, Drawable, Symbol.Playable, Symbol.pitches]
  · simp [glyphFault?, Drawable, Symbol.Playable]

theorem glyphFault?_of_find? {s : Symbol} {p : Pitch} (hs : s.Playable)
    (h : s.pitches.find? (fun p => ¬InReach p) = some p) :
    glyphFault? s = some (.outOfRange p) := by
  rcases s with ⟨d, q | ps | _ | _⟩
  · simp only [glyphFault?, h, Option.map_some]
  · cases ps with
    | nil => exact absurd rfl hs
    | cons q ps => simp only [glyphFault?, h, Option.map_some]
  · simp [Symbol.pitches] at h
  · exact hs.elim

theorem glyphFault?_ne_beyondTotal (s : Symbol) (total : Int) :
    glyphFault? s ≠ some (.beyondTotal total) := by
  rcases s with ⟨d, p | ps | _ | _⟩
  · simp [glyphFault?]
  · cases ps <;> simp [glyphFault?]
  · simp [glyphFault?]
  · simp [glyphFault?]

namespace Moment
variable (f : PageFormat) (m : Moment)

/-- The symbol ends in the measure in which it begins. -/
def Fits : Prop := f.sinceBar m.start + m.symbol.halves ≤ f.measureHalves

instance : Decidable (m.Fits f) := inferInstanceAs (Decidable (_ ≤ _))

/-- The symbol crosses no bar and can be drawn. -/
def Accepted : Prop := m.Fits f ∧ Drawable m.symbol

instance : Decidable (m.Accepted f) := inferInstanceAs (Decidable (_ ∧ _))

/-- Why a moment is refused, if it is; the room in the measure is judged first. -/
def fault? : Option Fault :=
  if m.Fits f then glyphFault? m.symbol
  else some (.overfull f.beatsPerMeasure (f.measureOf m.start + 1) (f.sinceBar m.start +
    m.symbol.halves))

theorem fault?_eq_none_iff : m.fault? f = none ↔ m.Accepted f := by
  by_cases h : m.Fits f <;> simp [fault?, Accepted, h, glyphFault?_eq_none_iff]

theorem fault?_ne_beyondTotal (total : Int) : m.fault? f ≠ some (.beyondTotal total) := by
  by_cases hf : m.Fits f
  · rw [fault?, if_pos hf]
    exact glyphFault?_ne_beyondTotal m.symbol total
  · simp [fault?, hf]

end Moment
end Tablature.Engraving
