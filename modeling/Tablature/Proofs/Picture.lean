import Mathlib.Data.List.SplitBy
import Mathlib.Data.List.TakeWhile
import Tablature.Engraving.Score
import Tablature.Proofs.Adding

/-!
The picture of a score, without running the drawing. The accepted moments are cut into runs of
single eighth notes of one measure; the notes of a run are joined in pairs, and every moment gives a
plate: its time, its glyph and the beam or taper behind it. `engrave_drawing` says that the drawing
is the opening, the plates in order, and the ending. -/
namespace Tablature.Engraving
open Tablature.Music Tablature.Drawing

/-- A beam may join the two: single eighth notes of one measure. -/
def joined (f : PageFormat) (m m' : Moment) : Bool :=
  isSingleEighth m.symbol && isSingleEighth m'.symbol && f.measureOf m.start == f.measureOf m'.start

/-- Longest stretches in which each moment may be joined to the next. A moment that is no single
eighth note stands alone. -/
def runs (f : PageFormat) (ms : List Moment) : List (List Moment) := ms.splitBy (joined f)

/-- The moments before the first refused one. -/
def accepted (f : PageFormat) (symbols : List Symbol) : List Moment :=
  (timeline 0 symbols).takeWhile fun m => m.Accepted f

def refused? (f : PageFormat) (symbols : List Symbol) : Option Moment :=
  (timeline 0 symbols).find? fun m => ¬m.Accepted f

/-- What a moment adds to the picture: at its time a glyph, and behind it what hangs on its stem. -/
structure Plate where
  start : Nat
  ink : List Mark
  tail : List Mark
  deriving DecidableEq, Repr

namespace Sheet
variable (sheet : Sheet)

def plate (m : Moment) (tail : List Mark) : Plate :=
  ⟨m.start, glyph (sheet.cursor m.start) m.symbol, tail⟩

def beam (m m' : Moment) : Mark := beamGlyph (sheet.cursor m'.start) (sheet.cursor m.start)

/-- The plates of a run: the first two notes share a beam, then the next two; a last one alone keeps
its taper. -/
def runPlates : List Moment → List Plate
  | m₁ :: m₂ :: rest => sheet.plate m₁ [] :: sheet.plate m₂ [sheet.beam m₁ m₂] :: runPlates rest
  | [m] => [sheet.plate m (flag (sheet.cursor m.start) m.symbol)]
  | [] => []

def plates (ms : List Moment) : List Plate := (runs sheet.format ms).flatMap sheet.runPlates

def marks (p : Plate) : List Mark := sheet.frame p.start ++ p.ink ++ p.tail

/-- The plates of a score; the last one may be the remnant of a refused moment. -/
def picture (symbols : List Symbol) : List Plate :=
  sheet.plates (accepted sheet.format symbols) ++
    (refused? sheet.format symbols).toList.map fun m => ⟨m.start, sheet.remnant m, []⟩

/-- The symbols that are added before the first that fails. -/
def taken : List Symbol → State → List Symbol
  | [], _ => []
  | s :: rest, st =>
    if (sheet.add s st).fault = none then s :: taken rest (sheet.add s st).state else []

end Sheet

section Runs
variable {α : Type} {r : α → α → Bool}

theorem splitBy_cons_of_not {a : α} {l : List α} (h : ∀ b ∈ l.head?, r a b = false) :
    (a :: l).splitBy r = [a] :: l.splitBy r :=
  List.splitBy_append (l := [a]) (by simpa using h)

theorem splitBy_cons_cons {a b : α} {l : List α} (h : r a b = true) :
    ∃ g gs, (b :: l).splitBy r = (b :: g) :: gs ∧
      (a :: b :: l).splitBy r = (a :: b :: g) :: gs := by
  have hb := List.head_head_splitBy r (List.cons_ne_nil b l)
  rcases hl : (b :: l).splitBy r with _ | ⟨_ | ⟨c, g⟩, gs⟩
  · simp at hl
  · exact absurd (hl ▸ List.mem_cons_self) (List.nil_notMem_splitBy r (b :: l))
  · have hc : c = b := by simpa [hl] using hb
    subst hc
    refine ⟨g, gs, rfl, ?_⟩
    obtain ⟨hf, hn, hc, hg⟩ := List.splitBy_eq_iff.mp hl
    apply List.splitBy_eq_iff.mpr
    refine ⟨by simp [hf], by simpa using hn, ?_, ?_⟩
    · intro m hm
      rcases List.mem_cons.mp hm with rfl | hm
      · exact List.isChain_cons_cons.mpr ⟨h, hc _ (by simp)⟩
      · exact hc _ (by simp [hm])
    · rw [List.isChain_cons] at hg ⊢
      refine ⟨?_, hg.2⟩
      intro y hy
      obtain ⟨h₁, h₂, h₃⟩ := hg.1 y hy
      exact ⟨by simp, h₂, by simpa using h₃⟩

end Runs

namespace Sheet
variable (sheet : Sheet)

@[simp] theorem plates_nil : sheet.plates [] = [] := rfl

@[simp] theorem plates_singleton (m : Moment) :
    sheet.plates [m] = [sheet.plate m (flag (sheet.cursor m.start) m.symbol)] := rfl

theorem plates_cons_of_not {m : Moment} {ms : List Moment}
    (h : ∀ m' ∈ ms.head?, joined sheet.format m m' = false) :
    sheet.plates (m :: ms) =
      sheet.plate m (flag (sheet.cursor m.start) m.symbol) :: sheet.plates ms := by
  simp [plates, runs, splitBy_cons_of_not h, runPlates]

theorem plates_cons_cons {m m' : Moment} {ms : List Moment} (h : joined sheet.format m m' = true) :
    sheet.plates (m :: m' :: ms) =
      sheet.plate m [] :: sheet.plate m' [sheet.beam m m'] :: sheet.plates ms := by
  obtain ⟨g, gs, hb, ha⟩ := splitBy_cons_cons (l := ms) h
  simp only [plates, runs, ha, List.flatMap_cons, runPlates, List.cons_append]
  cases ms with
  | nil =>
    have hg : g = [] ∧ gs = [] := by
      rw [splitBy_cons_of_not (by simp)] at hb
      simpa using hb.symm
    simp [hg.1, hg.2, runPlates]
  | cons m'' ms =>
    by_cases hj : joined sheet.format m' m'' = true
    · obtain ⟨g', gs', hb', ha'⟩ := splitBy_cons_cons (l := ms) hj
      rw [ha'] at hb
      have he : m'' :: g' = g ∧ gs' = gs := by simpa using hb
      rw [hb', ← he.1, ← he.2, List.flatMap_cons]
    · rw [splitBy_cons_of_not (by simpa using hj)] at hb
      have he : [] = g ∧ (m'' :: ms).splitBy (joined sheet.format) = gs := by simpa using hb
      rw [← he.1, ← he.2, runPlates, List.nil_append]

/-- The time of the last half beat placed so far tells whether the next note can be joined to the
one before it. -/
theorem joined_next {f : PageFormat} {m : Moment} (hf : m.Fits f) (he : isSingleEighth m.symbol)
    (s : Symbol) :
    joined f m ⟨m.start + m.symbol.halves, s⟩ =
      (isSingleEighth s && f.sinceBar (m.start + m.symbol.halves) != 0) := by
  have hd : 0 < m.symbol.halves := m.symbol.duration.halves_pos
  rcases f.next_time hf with ⟨hm, hs⟩ | ⟨hm, hs⟩
  · have hne : f.sinceBar (m.start + m.symbol.halves) ≠ 0 := by omega
    simp [joined, he, hm, hne]
  · simp [joined, hm, hs]

/-- Adding the symbols from a time on, perhaps behind a note that waits, draws their plates; only
the taper of a note that still waits at the end is missing. -/
def DrawsPlates (prev : Option Moment) (t : Nat) (a : List Symbol) : Prop :=
  ∃ drawn waiting,
    sheet.addAll a (sheet.stateAt t (prev.map fun m => sheet.cursor m.start)) =
      ⟨drawn, sheet.stateAt (t + totalHalves a) waiting, none⟩ ∧
    prev.toList.flatMap sheet.outline ++ (drawn ++ tapers waiting) =
      (sheet.plates (prev.toList ++ timeline t a)).flatMap sheet.marks

section Steps
variable {sheet} {t : Nat} {s : Symbol} {a : List Symbol}

theorem addAll_cons_of_ok {st st' : State} {drawn drawn' : List Mark} {waiting : Option HalfPixel}
    (hadd : sheet.add s st = ⟨drawn, st', none⟩)
    (hrun : sheet.addAll a st' = ⟨drawn', sheet.stateAt (t + s.halves + totalHalves a) waiting,
      none⟩) :
    sheet.addAll (s :: a) st = ⟨drawn ++ drawn', sheet.stateAt (t + totalHalves (s :: a)) waiting,
      none⟩ := by
  rw [addAll, hadd, Outcome.andThen_of_ok rfl, hrun, totalHalves_cons, Nat.add_assoc]

theorem drawsPlates_nil (prev : Option Moment) (hp : ∀ m ∈ prev, isSingleEighth m.symbol) :
    sheet.DrawsPlates prev t [] := by
  refine ⟨[], prev.map fun m => sheet.cursor m.start, by simp [addAll], ?_⟩
  cases prev with
  | none => rfl
  | some m =>
    have hl := flag_of_isSingleEighth (hp m rfl) (sheet.cursor m.start)
    simp [marks, plate, hl, outline, tapers]

variable (ha : (⟨t, s⟩ : Moment).Accepted sheet.format)
  (ht : (sheet.format.measureOf t : Int) < sheet.total)
include ha ht

theorem drawsPlates_first (he : isSingleEighth s)
    (h : sheet.DrawsPlates (some ⟨t, s⟩) (t + s.halves) a) :
    sheet.DrawsPlates none t (s :: a) := by
  obtain ⟨drawn, waiting, hrun, hdrawn⟩ := h
  have hadd := sheet.add_first ha ht he
  exact ⟨sheet.outline ⟨t, s⟩ ++ drawn, waiting, addAll_cons_of_ok hadd hrun, by simpa using hdrawn⟩

theorem drawsPlates_other (he : isSingleEighth s = false)
    (h : sheet.DrawsPlates none (t + s.halves) a) :
    sheet.DrawsPlates none t (s :: a) := by
  obtain ⟨drawn, waiting, hrun, hdrawn⟩ := h
  have hadd := sheet.add_other ha ht he none
  have hnot : ∀ m ∈ (timeline (t + s.halves) a).head?, joined sheet.format ⟨t, s⟩ m = false := by
    simp [joined, he]
  refine ⟨_, waiting, addAll_cons_of_ok hadd hrun, ?_⟩
  simp only [Option.toList_none, List.flatMap_nil, List.nil_append] at hdrawn ⊢
  rw [timeline_cons, sheet.plates_cons_of_not hnot, List.flatMap_cons, ← hdrawn]
  simp [marks, plate, outline, tapers]

theorem drawsPlates_second {m : Moment} (hm : m.Fits sheet.format) (hem : isSingleEighth m.symbol)
    (hn : t = m.start + m.symbol.halves) (hj : joined sheet.format m ⟨t, s⟩ = true)
    (h : sheet.DrawsPlates none (t + s.halves) a) : sheet.DrawsPlates (some m) t (s :: a) := by
  obtain ⟨drawn, waiting, hrun, hdrawn⟩ := h
  have hs : isSingleEighth s = true ∧ sheet.format.sinceBar t ≠ 0 := by
    subst hn
    simpa [joined_next hm hem s] using hj
  have hadd := sheet.add_second ha ht hs.1 hs.2 (sheet.cursor m.start)
  refine ⟨_, waiting, addAll_cons_of_ok hadd hrun, ?_⟩
  simp only [Option.toList_none, List.flatMap_nil, List.nil_append] at hdrawn
  rw [timeline_cons, Option.toList_some, List.singleton_append, sheet.plates_cons_cons hj]
  simp only [List.flatMap_cons, ← hdrawn]
  simp [marks, plate, outline, beam]

theorem drawsPlates_unjoined {m : Moment} (hm : m.Fits sheet.format) (hem : isSingleEighth m.symbol)
    (hn : t = m.start + m.symbol.halves) (hj : joined sheet.format m ⟨t, s⟩ = false)
    (h : sheet.DrawsPlates none t (s :: a)) : sheet.DrawsPlates (some m) t (s :: a) := by
  obtain ⟨drawn, waiting, hrun, hdrawn⟩ := h
  have hs : sheet.format.sinceBar t = 0 ∨ isSingleEighth s = false := by
    subst hn
    rw [joined_next hm hem s] at hj
    by_cases he : isSingleEighth s = true
    · left
      simpa [he] using hj
    · right
      simpa using he
  have hadd := sheet.add_unjoined ha ht hs (some (sheet.cursor m.start))
  have hl := flag_of_isSingleEighth hem (sheet.cursor m.start)
  refine ⟨tapers (some (sheet.cursor m.start)) ++ drawn, waiting, ?_, ?_⟩
  · simp only [addAll, Option.map_none, Option.map_some] at hrun ⊢
    rw [hadd]
    cases hf : (sheet.add s (sheet.stateAt t none)).fault with
    | some fault =>
      rw [Outcome.andThen_of_fault hf] at hrun
      simp [hrun] at hf
    | none =>
      rw [Outcome.andThen_of_ok hf] at hrun
      rw [Outcome.andThen_of_ok rfl]
      simp only [Outcome.mk.injEq] at hrun ⊢
      exact ⟨by simp [← hrun.1], hrun.2⟩
  · simp only [Option.toList_none, List.flatMap_nil, List.nil_append] at hdrawn
    rw [Option.toList_some, List.singleton_append, sheet.plates_cons_of_not (by simpa using hj)]
    simp only [List.flatMap_cons, ← hdrawn]
    simp [marks, plate, outline, hl, tapers]

end Steps

/-- By induction on the symbols: a single eighth note is handed on as the one that waits, all else
settles. -/
theorem drawsPlates (a : List Symbol) (t : Nat) (prev : Option Moment)
    (hp : ∀ m ∈ prev, m.Fits sheet.format ∧ isSingleEighth m.symbol ∧ t = m.start + m.symbol.halves)
    (ha : ∀ m ∈ timeline t a, m.Accepted sheet.format)
    (ht : ∀ m ∈ timeline t a, (sheet.format.measureOf m.start : Int) < sheet.total) :
    sheet.DrawsPlates prev t a := by
  induction a generalizing t prev with
  | nil => exact drawsPlates_nil prev fun m hm => (hp m hm).2.1
  | cons s a ih =>
    obtain ⟨ha₀, ha⟩ := List.forall_mem_cons.mp ha
    obtain ⟨ht₀, ht⟩ := List.forall_mem_cons.mp ht
    have hrest : ∀ prev, (∀ m ∈ prev, m.Fits sheet.format ∧ isSingleEighth m.symbol ∧
        t + s.halves = m.start + m.symbol.halves) → sheet.DrawsPlates prev (t + s.halves) a :=
      fun prev hp => ih (t + s.halves) prev hp ha ht
    have hsettled : sheet.DrawsPlates none t (s :: a) := by
      by_cases he : isSingleEighth s = true
      · exact drawsPlates_first ha₀ ht₀ he (hrest (some ⟨t, s⟩) (by simpa using ⟨ha₀.1, he⟩))
      · exact drawsPlates_other ha₀ ht₀ (by simpa using he) (hrest none (by simp))
    cases prev with
    | none => exact hsettled
    | some m =>
      obtain ⟨hm, hem, hn⟩ := hp m rfl
      by_cases hj : joined sheet.format m ⟨t, s⟩ = true
      · exact drawsPlates_second ha₀ ht₀ hm hem hn hj (hrest none (by simp))
      · exact drawsPlates_unjoined ha₀ ht₀ hm hem hn (by simpa using hj) hsettled

end Sheet

theorem mem_accepted {f : PageFormat} {symbols : List Symbol} {m : Moment}
    (h : m ∈ accepted f symbols) :
    m ∈ timeline 0 symbols ∧ m.Accepted f := by
  refine ⟨(List.takeWhile_prefix _).subset h, ?_⟩
  simpa using List.all_eq_true.mp List.all_takeWhile m h

theorem accepted_of_refused?_eq_none {f : PageFormat} {symbols : List Symbol}
    (h : refused? f symbols = none) :
    accepted f symbols = timeline 0 symbols := by
  rw [refused?, List.find?_eq_none] at h
  apply List.takeWhile_eq_self_iff.mpr
  intro m hm
  simpa using h m hm

theorem exists_accepted (f : PageFormat) (t : Nat) (symbols : List Symbol) :
    ∃ a b, symbols = a ++ b ∧
      ((timeline t symbols).takeWhile fun m => m.Accepted f) = timeline t a ∧
      ((timeline t symbols).find? fun m => ¬m.Accepted f) =
        b.head?.map (Moment.mk (t + totalHalves a)) := by
  induction symbols generalizing t with
  | nil => exact ⟨[], [], by simp⟩
  | cons s rest ih =>
    by_cases ha : (⟨t, s⟩ : Moment).Accepted f
    · obtain ⟨a, b, hab, htake, hfind⟩ := ih (t + s.halves)
      refine ⟨s :: a, b, by simp [hab], ?_, ?_⟩
      · simpa [ha] using htake
      · simpa [ha, Nat.add_assoc] using hfind
    · exact ⟨[], s :: rest, rfl, by simp [ha], by simp [ha]⟩

namespace Sheet
variable (sheet : Sheet) (symbols : List Symbol)

/-- No symbol begins behind the last measure that was counted. -/
def Holds : Prop := ∀ t < totalHalves symbols, (sheet.format.measureOf t : Int) < sheet.total

@[simp] theorem forSymbols_format (f : PageFormat) : (Sheet.forSymbols f symbols).format = f := rfl

theorem forSymbols_holds (f : PageFormat) : (Sheet.forSymbols f symbols).Holds symbols := by
  intro t ht
  have hM := f.measureHalves_pos
  have hlt : f.measureOf t < f.measureCount symbols := by
    rw [Nat.lt_iff_add_one_le, PageFormat.measureCount, Nat.le_div_iff_mul_le hM, Nat.add_mul,
      Nat.one_mul]
    have := Nat.div_mul_le_self t f.measureHalves
    unfold PageFormat.measureOf
    omega
  exact Int.ofNat_lt.mpr hlt

def endingOf : List Mark := if symbols = [] then [.finish] else ending

variable {sheet symbols}

theorem close_stateAt (waiting : Option HalfPixel) :
    (sheet.stateAt (totalHalves symbols) waiting).close.drawn =
      (if symbols = [] then [] else tapers waiting) ++ endingOf symbols := by
  cases symbols with
  | nil => rfl
  | cons s rest =>
    obtain ⟨t, ht⟩ : ∃ t, totalHalves (s :: rest) = t + 1 :=
      ⟨totalHalves (s :: rest) - 1, by
        have : 0 < s.halves := s.duration.halves_pos
        simp only [totalHalves_cons]
        omega⟩
    rw [ht, State.close_of_pageOpen (by rfl)]
    simp [stateAt, ready, endingOf]

theorem taken_append {a b : List Symbol} {st : State} (h : (sheet.addAll a st).fault = none) :
    sheet.taken (a ++ b) st = a ++ sheet.taken b (sheet.addAll a st).state := by
  induction a generalizing st with
  | nil => rfl
  | cons s a ih =>
    cases hs : (sheet.add s st).fault with
    | some fault =>
      rw [addAll, Outcome.andThen_of_fault hs, hs] at h
      cases h
    | none =>
      rw [addAll, Outcome.andThen_of_ok hs] at h ⊢
      rw [List.cons_append, taken, if_pos hs, ih h, List.cons_append]

variable (sheet symbols) in
theorem taken_isPrefix (st : State) : sheet.taken symbols st <+: symbols := by
  induction symbols generalizing st with
  | nil => exact List.prefix_rfl
  | cons s rest ih =>
    by_cases hs : (sheet.add s st).fault = none
    · rw [taken, if_pos hs]
      exact (List.prefix_cons_inj s).mpr (ih _)
    · rw [taken, if_neg hs]
      exact List.nil_prefix

/-- How far a drawing comes: the symbols before the first refused one are drawn by their plates; the
next one, if there is one, is refused. -/
theorem exists_run (h : sheet.Holds symbols) :
    ∃ a b drawn waiting, symbols = a ++ b ∧ accepted sheet.format symbols = timeline 0 a ∧
      refused? sheet.format symbols = b.head?.map (Moment.mk (totalHalves a)) ∧
      sheet.addAll a {} = ⟨drawn, sheet.stateAt (totalHalves a) waiting, none⟩ ∧
      drawn ++ tapers waiting = (sheet.plates (timeline 0 a)).flatMap sheet.marks ∧
      ∀ s ∈ b.head?, ¬(⟨totalHalves a, s⟩ : Moment).Accepted sheet.format ∧
        (sheet.format.measureOf (totalHalves a) : Int) < sheet.total := by
  obtain ⟨a, b, hab, htake, hfind⟩ := exists_accepted sheet.format 0 symbols
  have hacc : accepted sheet.format symbols = timeline 0 a := htake
  have href : refused? sheet.format symbols = b.head?.map (Moment.mk (totalHalves a)) := by
    simpa [refused?] using hfind
  obtain ⟨drawn, waiting, hrun, hdrawn⟩ := sheet.drawsPlates a 0 none (by simp)
    (fun m hm => (mem_accepted (hacc ▸ hm)).2) fun m hm => h m.start (by
      have hm := (start_lt_of_mem_timeline hm).2
      simp only [hab, totalHalves_append]
      omega)
  have hstart : sheet.stateAt 0 none = {} := rfl
  simp only [Option.map_none, hstart, Nat.zero_add, Option.toList_none, List.flatMap_nil,
    List.nil_append]
    at hrun hdrawn
  refine ⟨a, b, drawn, waiting, hab, hacc, href, hrun, hdrawn, ?_⟩
  intro s hs
  obtain ⟨b', rfl⟩ : ∃ b', b = s :: b' := List.head?_eq_some_iff.mp hs
  refine ⟨?_, h (totalHalves a) ?_⟩
  · simpa using
      List.find?_some (show refused? sheet.format symbols = some ⟨totalHalves a, s⟩ from href)
  · have : 0 < s.halves := s.duration.halves_pos
    simp only [hab, totalHalves_append, totalHalves_cons]
    omega

theorem accepted_eq_timeline_taken (h : sheet.Holds symbols) :
    accepted sheet.format symbols = timeline 0 (sheet.taken symbols {}) := by
  obtain ⟨a, b, drawn, waiting, hab, hacc, -, hrun, -, hnext⟩ := exists_run h
  have htaken : sheet.taken symbols {} =
      a ++ sheet.taken b (sheet.stateAt (totalHalves a) waiting) := by
    rw [hab, taken_append (by rw [hrun]), hrun]
  cases b with
  | nil => rw [htaken, hacc, taken, List.append_nil]
  | cons s b =>
    obtain ⟨hna, hlt⟩ := hnext s rfl
    have hfault : (sheet.add s (sheet.stateAt (totalHalves a) waiting)).fault ≠ none := by
      rw [(sheet.add_refused hna hlt waiting).1]
      exact mt (Moment.fault?_eq_none_iff _ _).mp hna
    rw [htaken, hacc, taken, if_neg hfault, List.append_nil]

/-- The whole course of a drawing: its marks, the fault of the first refused moment, and the state
behind a score that has none. -/
theorem addAll_eq_picture (h : sheet.Holds symbols) :
    (sheet.addAll symbols {}).drawn ++ (sheet.addAll symbols {}).state.close.drawn =
        (sheet.picture symbols).flatMap sheet.marks ++ endingOf symbols ∧
      (sheet.addAll symbols {}).fault =
        (refused? sheet.format symbols).bind (Moment.fault? sheet.format) ∧
      (refused? sheet.format symbols = none →
        ∃ waiting, (sheet.addAll symbols {}).state =
          sheet.stateAt (totalHalves symbols) waiting) := by
  obtain ⟨a, b, drawn, waiting, hab, hacc, href, hrun, hdrawn, hnext⟩ := exists_run h
  rw [picture, hacc, href]
  cases b with
  | nil =>
    rw [List.append_nil] at hab
    subst hab
    rw [hrun, close_stateAt]
    refine ⟨?_, by simp, fun _ => ⟨waiting, rfl⟩⟩
    cases symbols with
    | nil =>
      have hd : drawn = [] := by simpa using (List.append_eq_nil_iff.mp hdrawn).1
      simp [hd]
    | cons s rest =>
      rw [if_neg (List.cons_ne_nil s rest), ← List.append_assoc, hdrawn]
      simp
  | cons s b =>
    obtain ⟨hna, hlt⟩ := hnext s rfl
    obtain ⟨hfault, hend⟩ := sheet.add_refused hna hlt waiting
    obtain ⟨fault, hsome⟩ :=
      Option.ne_none_iff_exists'.mp (mt (Moment.fault?_eq_none_iff _ _).mp hna)
    have hstop : sheet.addAll symbols {} =
      ⟨drawn ++ (sheet.add s (sheet.stateAt (totalHalves a) waiting)).drawn,
        (sheet.add s (sheet.stateAt (totalHalves a) waiting)).state, some fault⟩ := by
      rw [hab, addAll_append, hrun, Outcome.andThen_of_ok rfl, addAll,
        Outcome.andThen_of_fault (hfault.trans hsome), hfault, hsome]
    rw [hstop]
    refine ⟨?_, by simp [hsome], by simp⟩
    have hne : endingOf symbols = ending := if_neg (by simp [hab])
    simp only [List.append_assoc, hend, hne]
    simp [← hdrawn, marks]

end Sheet

/-- A drawing is the opening, the plates of its picture in their order, and the ending. -/
theorem engrave_drawing (f : PageFormat) (symbols : List Symbol) (pages : Int) :
    ((Sheet.forSymbols f symbols).engrave pages symbols).drawing =
      (Sheet.forSymbols f symbols).opening pages ++
        ((Sheet.forSymbols f symbols).picture symbols).flatMap (Sheet.forSymbols f symbols).marks ++
        Sheet.endingOf symbols := by
  have hd := (Sheet.addAll_eq_picture (Sheet.forSymbols_holds symbols f)).1
  simp only [Sheet.engrave, List.append_assoc, hd]

theorem engrave_fault (f : PageFormat) (symbols : List Symbol) (pages : Int) :
    ((Sheet.forSymbols f symbols).engrave pages symbols).fault =
      (refused? f symbols).bind (Moment.fault? f) :=
  (Sheet.addAll_eq_picture (Sheet.forSymbols_holds symbols f)).2.1

theorem engrave_fault_eq_none_iff (f : PageFormat) (symbols : List Symbol) (pages : Int) :
    ((Sheet.forSymbols f symbols).engrave pages symbols).fault = none ↔
      refused? f symbols = none := by
  rw [engrave_fault]
  rcases h : refused? f symbols with _ | m
  · simp
  · have hm : ¬m.Accepted f := by simpa using List.find?_some h
    simpa [Moment.fault?_eq_none_iff] using hm

def Score.moments (score : Score) (symbols : List Symbol) : List Moment :=
  timeline 0 (score.sheet.taken symbols {})

theorem engrave_moments (f : PageFormat) (symbols : List Symbol) (pages : Int) :
    ((Sheet.forSymbols f symbols).engrave pages symbols).moments symbols = accepted f symbols :=
  (Sheet.accepted_eq_timeline_taken (Sheet.forSymbols_holds symbols f)).symm

theorem engrave_taken {f : PageFormat} {symbols : List Symbol} {pages : Int}
    (h : ((Sheet.forSymbols f symbols).engrave pages symbols).fault = none) :
    ((Sheet.forSymbols f symbols).engrave pages symbols).sheet.taken symbols {} = symbols := by
  have hall := accepted_of_refused?_eq_none ((engrave_fault_eq_none_iff f symbols pages).mp h)
  rw [← engrave_moments f symbols pages, Score.moments] at hall
  have hsymbols := congrArg (List.map Moment.symbol) hall
  simpa using hsymbols

end Tablature.Engraving
