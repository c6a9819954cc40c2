import Tablature.Proofs.Heights

/-!
Beams and tapers. The standard grouping cuts the symbols into measures and each measure into its
longest stretches of single eighth notes; the notes of a stretch are joined in pairs. The drawing,
which only remembers the one note that waits, has exactly these beams, and tapers for the notes
without a partner and for the eighth chords. -/
namespace Tablature.Engraving
open Tablature.Music Tablature.Drawing
open Tablature.Drawing.Svg (recorded)

/-- The first and the second, the third and the fourth, and so on. -/
def pairs {α : Type} : List α → List (α × α)
  | a :: b :: rest => (a, b) :: pairs rest
  | _ => []

def lone {α : Type} : List α → Option α
  | _ :: _ :: rest => lone rest
  | [a] => some a
  | [] => none

def sameMeasure (f : PageFormat) (m m' : Moment) : Bool :=
  f.measureOf m.start == f.measureOf m'.start

def bothEighths (m m' : Moment) : Bool := isSingleEighth m.symbol && isSingleEighth m'.symbol

def isEighthRun (g : List Moment) : Bool := g.all fun m => isSingleEighth m.symbol

/-- The longest stretches of single eighth notes in each measure. -/
def eighthRuns (f : PageFormat) (ms : List Moment) : List (List Moment) :=
  ((ms.splitBy (sameMeasure f)).flatMap (List.splitBy bothEighths)).filter isEighthRun

def isEighthChord (s : Symbol) : Bool :=
  match s.sound with
  | .chord _ => s.duration.length == .eighth
  | _ => false

def onPage (f : PageFormat) (page : Nat) (g : List Moment) : Bool :=
  g.all fun m => f.pageOf m.start == page

section Pairs
variable {α : Type}

theorem pairs_append_lone (l : List α) :
    ((pairs l).flatMap fun q => [q.1, q.2]) ++ (lone l).toList = l := by
  fun_induction pairs l with
  | case1 a b rest ih => simpa [lone] using ih
  | case2 l h =>
    rcases l with _ | ⟨a, _ | ⟨b, rest⟩⟩
    · rfl
    · rfl
    · exact absurd rfl (h a b rest)

theorem infix_of_mem_pairs {l : List α} {q : α × α} (h : q ∈ pairs l) : [q.1, q.2] <:+: l := by
  fun_induction pairs l with
  | case1 a b rest ih =>
    rcases List.mem_cons.mp h with rfl | h
    · exact ⟨[], rest, rfl⟩
    · exact (ih h).trans ⟨[a, b], [], by simp⟩
  | case2 => cases h

theorem mem_of_lone {l : List α} {a : α} (h : lone l = some a) : a ∈ l := by
  have hl := pairs_append_lone l
  rw [h] at hl
  rw [← hl]
  simp

theorem mem_iff_paired_or_lone {l : List α} {a : α} :
    a ∈ l ↔ (a ∈ (pairs l).flatMap fun q => [q.1, q.2]) ∨ lone l = some a := by
  conv_lhs => rw [← pairs_append_lone l]
  rw [List.mem_append, Option.mem_toList]

/-- If every piece is kept whole or not at all, to choose elements is to choose pieces. -/
theorem filter_flatMap_of_whole {β : Type} {F : α → List β} {P : β → Bool} {Q : α → Bool}
    {gs : List α} (h : ∀ g ∈ gs, (Q g = true ∧ ∀ b ∈ F g, P b = true) ∨
      (Q g = false ∧ ∀ b ∈ F g, P b = false)) :
    (gs.flatMap F).filter P = (gs.filter Q).flatMap F := by
  induction gs with
  | nil => rfl
  | cons g gs ih =>
    obtain ⟨hg, hgs⟩ := List.forall_mem_cons.mp h
    rw [List.flatMap_cons, List.filter_append, ih hgs]
    rcases hg with ⟨hq, hall⟩ | ⟨hq, hall⟩
    · rw [List.filter_cons_of_pos hq, List.flatMap_cons, List.filter_eq_self.mpr hall]
    · have hnone : (F g).filter P = [] := List.filter_eq_nil_iff.mpr fun b hb => by simp [hall b hb]
      rw [List.filter_cons_of_neg (by simp [hq]), hnone, List.nil_append]

theorem splitBy_and {r s j : α → α → Bool} (hj : ∀ a b, j a b = (s a b && r a b)) (l : List α) :
    l.splitBy j = (l.splitBy r).flatMap (List.splitBy s) := by
  induction l with
  | nil => rfl
  | cons a l ih =>
    cases l with
    | nil => rfl
    | cons b l =>
      by_cases hr : r a b = true
      · obtain ⟨g, gs, hb, ha⟩ := splitBy_cons_cons (l := l) hr
        rw [hb, List.flatMap_cons] at ih
        rw [ha, List.flatMap_cons]
        by_cases hs : s a b = true
        · obtain ⟨g', gs', hb', ha'⟩ := splitBy_cons_cons (l := g) hs
          obtain ⟨h, hs, hb, ha⟩ :=
            splitBy_cons_cons (r := j) (a := a) (b := b) (l := l) (by simp [hj, hr, hs])
          rw [hb', hb, List.cons_append, List.cons.injEq, List.cons.injEq] at ih
          rw [ha', ha, ih.1.2, ih.2, List.cons_append]
        · have hcut : (a :: b :: l).splitBy j = [a] :: (b :: l).splitBy j :=
            splitBy_cons_of_not (by simpa [hj] using fun h => absurd h hs)
          have hcut' : (a :: b :: g).splitBy s = [a] :: (b :: g).splitBy s :=
            splitBy_cons_of_not (by simpa using hs)
          rw [hcut, hcut', ih, List.cons_append]
      · have hcut : (a :: b :: l).splitBy j = [a] :: (b :: l).splitBy j :=
          splitBy_cons_of_not (by simp [hj, hr])
        have hcut' : (a :: b :: l).splitBy r = [a] :: (b :: l).splitBy r :=
          splitBy_cons_of_not (by simpa using hr)
        rw [hcut, hcut', ih, List.flatMap_cons]
        rfl

end Pairs

section Runs
variable (f : PageFormat) (ms : List Moment)

theorem eighthRuns_eq : eighthRuns f ms = (runs f ms).filter isEighthRun := by
  have hj : ∀ a b, joined f a b = (bothEighths a b && sameMeasure f a b) := fun a b => rfl
  rw [eighthRuns, runs, splitBy_and hj]

variable {f ms}

theorem forall_of_isChain {m : Moment} {g : List Moment}
    (h : (m :: g).IsChain fun a b => joined f a b = true) (hm : isSingleEighth m.symbol = true) :
    ∀ m' ∈ m :: g, isSingleEighth m'.symbol = true ∧
      f.measureOf m'.start = f.measureOf m.start := by
  induction g generalizing m with
  | nil => simpa using hm
  | cons b g ih =>
    obtain ⟨hj, hg⟩ := List.isChain_cons_cons.mp h
    have hb : isSingleEighth b.symbol = true ∧ f.measureOf m.start = f.measureOf b.start := by
      simpa [joined, hm] using hj
    intro m' hm'
    rcases List.mem_cons.mp hm' with rfl | hm'
    · exact ⟨hm, rfl⟩
    · obtain ⟨he, hs⟩ := ih hg hb.1 m' hm'
      exact ⟨he, hs.trans hb.2.symm⟩

/-- A run is one moment that is no single eighth note, or has single eighth notes only, all of one
measure. -/
theorem mem_runs {g : List Moment} (h : g ∈ runs f ms) :
    (∃ m, g = [m] ∧ isSingleEighth m.symbol = false) ∨
      ∃ n, ∀ m ∈ g, isSingleEighth m.symbol = true ∧ f.measureOf m.start = n := by
  have hne : g ≠ [] := List.ne_nil_of_mem_splitBy h
  have hchain := List.isChain_of_mem_splitBy h
  obtain ⟨m, g, rfl⟩ := List.exists_cons_of_ne_nil hne
  by_cases hm : isSingleEighth m.symbol = true
  · exact Or.inr ⟨f.measureOf m.start, forall_of_isChain hchain hm⟩
  · cases g with
    | nil => exact Or.inl ⟨m, rfl, by simpa using hm⟩
    | cons b g =>
      have hj := (List.isChain_cons_cons.mp hchain).1
      simp [joined, hm] at hj

theorem runs_flatten : (runs f ms).flatten = ms := List.flatten_splitBy _ _

theorem eighthRuns_flatten :
    (eighthRuns f ms).flatten = ms.filter fun m => isSingleEighth m.symbol := by
  have hflat : (runs f ms).flatMap (fun g => g) = ms := by rw [List.flatMap_id', runs_flatten]
  rw [eighthRuns_eq, ← List.flatMap_id', ← filter_flatMap_of_whole, hflat]
  intro g hg
  rcases mem_runs hg with ⟨m, rfl, hm⟩ | ⟨n, hn⟩
  · exact Or.inr ⟨by simp [isEighthRun, hm], by simpa using hm⟩
  · exact Or.inl ⟨List.all_eq_true.mpr fun m hm => (hn m hm).1, fun m hm => (hn m hm).1⟩

theorem onPage_or_none {g : List Moment} (h : g ∈ runs f ms) (page : Nat) :
    (onPage f page g = true ∧ ∀ m ∈ g, f.pageOf m.start = page) ∨
      (onPage f page g = false ∧ ∀ m ∈ g, f.pageOf m.start ≠ page) := by
  obtain ⟨n, hn⟩ : ∃ n, ∀ m ∈ g, f.pageOf m.start = n := by
    rcases mem_runs h with ⟨m, rfl, -⟩ | ⟨n, hn⟩
    · exact ⟨f.pageOf m.start, by simp⟩
    · exact ⟨n / f.measuresPerPage, fun m hm => by rw [PageFormat.pageOf, (hn m hm).2]⟩
  obtain ⟨m, g', rfl⟩ := List.exists_cons_of_ne_nil (List.ne_nil_of_mem_splitBy h)
  by_cases hp : n = page
  · left
    have hall : ∀ m' ∈ m :: g', f.pageOf m'.start = page := fun m' hm' => (hn m' hm').trans hp
    exact ⟨by simpa [onPage] using hall, hall⟩
  · right
    have hall : ∀ m' ∈ m :: g', f.pageOf m'.start ≠ page := fun m' hm' => by
      rw [hn m' hm']
      exact hp
    exact ⟨by simp [onPage, hall m (by simp)], hall⟩

theorem filter_page (page : Nat) :
    ((runs f ms).filter (onPage f page)).flatten = ms.filter fun m => f.pageOf m.start == page := by
  rw [← List.flatMap_id', ← filter_flatMap_of_whole, List.flatMap_id', runs_flatten]
  intro g hg
  rcases onPage_or_none hg page with ⟨hp, hall⟩ | ⟨hp, hall⟩
  · exact Or.inl ⟨hp, by simpa using hall⟩
  · exact Or.inr ⟨hp, by simpa using hall⟩

theorem mem_eighthRuns_onPage {page : Nat} {m : Moment} :
    m ∈ ((eighthRuns f ms).filter (onPage f page)).flatten ↔
      m ∈ ms ∧ isSingleEighth m.symbol = true ∧ f.pageOf m.start = page := by
  have hruns : m ∈ (eighthRuns f ms).flatten ↔ m ∈ ms ∧ isSingleEighth m.symbol = true := by
    rw [eighthRuns_flatten, List.mem_filter]
  rw [← and_assoc, ← hruns]
  simp only [List.mem_flatten, List.mem_filter]
  constructor
  · rintro ⟨g, ⟨hg, hpage⟩, hm⟩
    exact ⟨⟨g, hg, hm⟩, by simpa using List.all_eq_true.mp hpage m hm⟩
  · rintro ⟨⟨g, hg, hm⟩, hpage⟩
    have hrun : g ∈ runs f ms := by
      rw [eighthRuns_eq] at hg
      exact List.mem_of_mem_filter hg
    rcases onPage_or_none hrun page with ⟨hon, -⟩ | ⟨-, hnone⟩
    · exact ⟨g, ⟨hg, hon⟩, hm⟩
    · exact absurd hpage (hnone m hm)

theorem infix_of_mem_eighthRuns {g : List Moment} (h : g ∈ eighthRuns f ms) : g <:+: ms := by
  rw [eighthRuns_eq] at h
  have hrun := List.infix_of_mem_flatten (List.mem_of_mem_filter h)
  rwa [runs_flatten] at hrun

/-- The two notes of a pair follow each other, in one measure and so on one page. -/
theorem neighbours_of_mem_pairs {g : List Moment} (h : g ∈ eighthRuns f ms) {q : Moment × Moment}
    (hq : q ∈ pairs g) :
    [q.1, q.2] <:+: ms ∧ isSingleEighth q.1.symbol = true ∧ isSingleEighth q.2.symbol = true ∧
      f.measureOf q.1.start = f.measureOf q.2.start ∧ f.pageOf q.1.start = f.pageOf q.2.start := by
  have hpair := infix_of_mem_pairs hq
  refine ⟨hpair.trans (infix_of_mem_eighthRuns h), ?_⟩
  rw [eighthRuns_eq] at h
  rcases mem_runs (List.mem_of_mem_filter h) with ⟨m, rfl, -⟩ | ⟨n, hn⟩
  · cases hq
  · obtain ⟨he, hm⟩ := hn q.1 (hpair.subset (by simp))
    obtain ⟨he', hm'⟩ := hn q.2 (hpair.subset (by simp))
    exact ⟨he, he', hm.trans hm'.symm, by rw [PageFormat.pageOf, PageFormat.pageOf, hm, hm']⟩

end Runs

namespace Sheet
variable (sheet : Sheet)

def beams (g : List Moment) : List Mark := (pairs g).map fun q => sheet.beam q.1 q.2

def taper (m : Moment) : Mark := taperGlyph (sheet.cursor m.start)

/-- Among some marks, the beams are those of some runs; the tapers are one for each note of them
without a partner, and one for each eighth chord of some moments. -/
def Grouped (rs : List (List Moment)) (ms : List Moment) (drawn : List Mark) : Prop :=
  marksOf .beam drawn = rs.flatMap sheet.beams ∧
    (marksOf .taper drawn).Perm
      ((rs.filterMap lone ++ ms.filter fun m => isEighthChord m.symbol).map sheet.taper)

variable {sheet}

theorem runPlates_beams (g : List Moment) :
    ((sheet.runPlates g).flatMap fun p => marksOf .beam p.tail) = sheet.beams g := by
  fun_induction runPlates sheet g with
  | case1 m₁ m₂ rest ih =>
    have hb : marksOf .beam [sheet.beam m₁ m₂] = [sheet.beam m₁ m₂] := rfl
    simp only [List.flatMap_cons, plate, ih, hb]
    rfl
  | case2 m =>
    have hf : marksOf .beam (flag (sheet.cursor m.start) m.symbol) = _ :=
      (allRole_flag _ _).marksOf_eq
    simpa [plate, beams, pairs] using hf
  | case3 => rfl

theorem runPlates_tapers (g : List Moment) :
    ((sheet.runPlates g).flatMap fun p => marksOf .taper p.tail) =
      (lone g).toList.flatMap fun m => flag (sheet.cursor m.start) m.symbol := by
  fun_induction runPlates sheet g with
  | case1 m₁ m₂ rest ih =>
    have hb : marksOf .taper [sheet.beam m₁ m₂] = [] := rfl
    simp only [List.flatMap_cons, plate, ih, hb]
    rfl
  | case2 m =>
    have hf : marksOf .taper (flag (sheet.cursor m.start) m.symbol) = _ :=
      (allRole_flag _ _).marksOf_eq
    simpa [plate, lone] using hf
  | case3 => rfl

theorem filter_plates (ms : List Moment) (page : Nat) :
    ((sheet.plates ms).filter fun p => sheet.format.pageOf p.start == page) =
      ((runs sheet.format ms).filter (onPage sheet.format page)).flatMap sheet.runPlates := by
  apply filter_flatMap_of_whole
  intro g hg
  have hstart : ∀ p ∈ sheet.runPlates g, ∃ m ∈ g, p.start = m.start := by
    intro p hp
    obtain ⟨m, hm, tail, rfl, -⟩ := mem_runPlates hp
    exact ⟨m, hm, rfl⟩
  rcases onPage_or_none hg page with ⟨hp, hall⟩ | ⟨hp, hall⟩
  · refine Or.inl ⟨hp, fun p hpm => ?_⟩
    obtain ⟨m, hm, hs⟩ := hstart p hpm
    simpa [hs] using hall m hm
  · refine Or.inr ⟨hp, fun p hpm => ?_⟩
    obtain ⟨m, hm, hs⟩ := hstart p hpm
    simpa [hs] using hall m hm

theorem flag_of_not_isSingleEighth {s : Symbol} (h : isSingleEighth s = false) (y : HalfPixel) :
    flag y s = if isEighthChord s then [taperGlyph y] else [] := by
  rcases s with ⟨d, p | ps | _ | _⟩
  · have hl : d.length ≠ .eighth := by simpa [isSingleEighth] using h
    simp [flag, hl, isEighthChord]
  · simp [flag, isEighthChord]
  · rfl
  · rfl

section Gathering
variable (sheet) {ms : List Moment} {gs : List (List Moment)}
  (h : ∀ g ∈ gs, g ∈ runs sheet.format ms)
include h

/-- Some runs have the beams of those among them that are single eighth notes. -/
theorem beams_of_runs :
    ((gs.flatMap sheet.runPlates).flatMap fun p => marksOf .beam p.tail) =
      (gs.filter isEighthRun).flatMap sheet.beams := by
  induction gs with
  | nil => rfl
  | cons g gs ih =>
    obtain ⟨hg, hgs⟩ := List.forall_mem_cons.mp h
    rw [List.flatMap_cons, List.flatMap_append, runPlates_beams, ih hgs]
    rcases mem_runs hg with ⟨m, rfl, hm⟩ | ⟨n, hn⟩
    · rw [List.filter_cons_of_neg (by simp [isEighthRun, hm])]
      rfl
    · have hall : isEighthRun g = true := List.all_eq_true.mpr fun m hm => (hn m hm).1
      rw [List.filter_cons_of_pos hall, List.flatMap_cons]

theorem tapers_of_runs :
    ((gs.flatMap sheet.runPlates).flatMap fun p => marksOf .taper p.tail).Perm
      (((gs.filter isEighthRun).filterMap lone ++
        gs.flatten.filter fun m => isEighthChord m.symbol).map sheet.taper) := by
  induction gs with
  | nil => rfl
  | cons g gs ih =>
    obtain ⟨hg, hgs⟩ := List.forall_mem_cons.mp h
    have hrest := ih hgs
    rw [List.flatMap_cons, List.flatMap_append, runPlates_tapers, List.flatten_cons,
      List.filter_append]
    rcases mem_runs hg with ⟨m, rfl, hm⟩ | ⟨n, hn⟩
    · have hflag := flag_of_not_isSingleEighth hm (sheet.cursor m.start)
      rw [List.filter_cons_of_neg (by simp [isEighthRun, hm])]
      by_cases hc : isEighthChord m.symbol = true
      · rw [if_pos hc] at hflag
        simp only [lone, Option.toList_some, List.flatMap_singleton, hflag, List.filter_singleton,
          hc, cond_true, List.singleton_append, List.map_append, List.map_cons] at hrest ⊢
        exact (hrest.cons _).trans List.perm_middle.symm
      · rw [if_neg hc] at hflag
        simpa [lone, hflag, hc] using hrest
    · have hall : isEighthRun g = true := List.all_eq_true.mpr fun m hm => (hn m hm).1
      have hchords : (g.filter fun m => isEighthChord m.symbol) = [] := by
        apply List.filter_eq_nil_iff.mpr
        intro m hm
        have he := (hn m hm).1
        rcases m with ⟨t, d, p | ps | _ | _⟩ <;> simp [isSingleEighth, isEighthChord] at he ⊢
      have hlone : ((lone g).toList.flatMap fun m => flag (sheet.cursor m.start) m.symbol) =
          (lone g).toList.map sheet.taper := by
        cases hl : lone g with
        | none => rfl
        | some m =>
          have hf := flag_of_isSingleEighth (hn m (mem_of_lone hl)).1 (sheet.cursor m.start)
          simp [hf, taper]
      rw [hlone, hchords, List.nil_append, List.filter_cons_of_pos hall,
        List.filterMap_cons]
      cases lone g with
      | none => exact hrest
      | some m => exact hrest.cons _

end Gathering

/-- Beams and tapers of a picture are those of its accepted moments; what is left of a refused one
has none. -/
theorem flatMap_tail {r : Role} (hr : r = .beam ∨ r = .taper) (symbols : List Symbol)
    (P : Plate → Bool) :
    (((sheet.picture symbols).filter P).flatMap fun p => marksOf r (p.ink ++ p.tail)) =
      ((sheet.plates (accepted sheet.format symbols)).filter P).flatMap fun p =>
        marksOf r p.tail := by
  have hsign : ∀ {ms : List Mark}, AllRole .sign ms → marksOf r ms = [] := by
    intro ms hms
    rw [hms.marksOf_eq, if_neg]
    rcases hr with rfl | rfl <;> decide
  rw [picture, List.filter_append, List.flatMap_append]
  have hleft :
    (((refused? sheet.format symbols).toList.map fun m =>
      (⟨m.start, sheet.remnant m, []⟩ : Plate)).filter
      P).flatMap (fun p => marksOf r (p.ink ++ p.tail)) = [] := by
    apply List.flatMap_eq_nil_iff.mpr
    intro p hp
    obtain ⟨m, -, rfl⟩ := List.mem_map.mp (List.mem_of_mem_filter hp)
    rw [List.append_nil]
    exact hsign (allRole_remnant m)
  rw [hleft, List.append_nil]
  apply List.flatMap_congr
  intro p hp
  obtain ⟨m, hm, tail, rfl, -⟩ := mem_plates (List.mem_of_mem_filter hp)
  rw [marksOf_append, plate, hsign (allRole_glyph (mem_accepted hm).2.2 _), List.nil_append]

end Sheet

section Drawings
variable (f : PageFormat) (symbols : List Symbol)

theorem grouped_engrave (pages : Int) :
    (Sheet.forSymbols f symbols).Grouped (eighthRuns f (accepted f symbols)) (accepted f symbols)
      ((Sheet.forSymbols f symbols).engrave pages symbols).drawing := by
  have hplates : ∀ {r : Role}, r = .beam ∨ r = .taper →
      marksOf r ((Sheet.forSymbols f symbols).engrave pages symbols).drawing =
        ((Sheet.forSymbols f symbols).plates (accepted f symbols)).flatMap fun p =>
          marksOf r p.tail := by
    intro r hr
    have htail := @Sheet.flatMap_tail (Sheet.forSymbols f symbols) r hr symbols fun _ => true
    simp only [List.filter_true] at htail
    rw [marksOf_engrave (by rcases hr with rfl | rfl <;> rfl), htail, Sheet.forSymbols_format]
  have hruns : ∀ g ∈ runs f (accepted f symbols), g ∈ runs f (accepted f symbols) := fun g hg => hg
  have hbeams := (Sheet.forSymbols f symbols).beams_of_runs hruns
  have htapers := (Sheet.forSymbols f symbols).tapers_of_runs hruns
  rw [runs_flatten] at htapers
  rw [Sheet.Grouped, hplates (Or.inl rfl), hplates (Or.inr rfl), eighthRuns_eq]
  exact ⟨hbeams, htapers⟩

/-- The same on each page, for the runs that stand on it. -/
theorem grouped_pageGroup (last page : Nat) :
    (Sheet.forSymbols f symbols).Grouped ((eighthRuns f (accepted f symbols)).filter
      (onPage f page)) ((accepted f symbols).filter fun m => f.pageOf m.start == page)
      ((Sheet.forSymbols f symbols).pageGroup ((Sheet.forSymbols f symbols).picture symbols) last
        page).content := by
  have hplates : ∀ {r : Role}, r = .beam ∨ r = .taper →
      marksOf r ((Sheet.forSymbols f symbols).pageGroup
          ((Sheet.forSymbols f symbols).picture symbols) last page).content =
        (((runs f (accepted f symbols)).filter (onPage f page)).flatMap
          (Sheet.forSymbols f symbols).runPlates).flatMap fun p => marksOf r p.tail := by
    intro r hr
    have hpage := (Sheet.forSymbols f symbols).filter_plates (accepted f symbols) page
    rw [Sheet.marksOf_pageGroup (by rcases hr with rfl | rfl <;> rfl), Sheet.flatMap_tail hr,
      Sheet.forSymbols_format]
    rw [Sheet.forSymbols_format] at hpage
    rw [hpage]
  have hruns : ∀ g ∈ (runs f (accepted f symbols)).filter (onPage f page),
      g ∈ runs f (accepted f symbols) :=
    fun g hg => List.mem_of_mem_filter hg
  have hbeams := (Sheet.forSymbols f symbols).beams_of_runs hruns
  have htapers := (Sheet.forSymbols f symbols).tapers_of_runs hruns
  rw [filter_page] at htapers
  rw [Sheet.Grouped, hplates (Or.inl rfl), hplates (Or.inr rfl), eighthRuns_eq, List.filter_comm]
  exact ⟨hbeams, htapers⟩

end Drawings

section Pixels

theorem flag_recorded (c : Mark) :
    (isBeam (recorded c) = true ↔ role c = .beam) ∧
      (isTaper (recorded c) = true ↔ role c = .taper) := by
  cases c with
  | line x y x' y' style =>
    have hstem : ∀ a : ℤ, (a : ℚ) / 2 = -20 ↔ a = px stemX := fun a => half_eq_iff (n := -20)
    have hend : ∀ a : ℤ, (a : ℚ) / 2 = -15 ↔ a = px (stemX + taperWidth) :=
      fun a => half_eq_iff (n := -15)
    have hne : px stemX ≠ px (stemX + taperWidth) := by decide
    simp only [recorded, Command.map, isBeam, isTaper, Bool.and_eq_true, beq_iff_eq, hstem, hend,
      role]
    split_ifs <;> simp_all
  | rect | text =>
    simp only [recorded, Command.map, isBeam, isTaper, role]
    split_ifs <;> simp
  | start | finish | circle | openGroup | closeGroup =>
    simp [recorded, Command.map, isBeam, isTaper, role]

theorem filter_isBeam (drawn : List Mark) :
    (drawn.map recorded).filter isBeam = (marksOf .beam drawn).map recorded := by
  rw [List.filter_map, marksOf]
  refine congrArg _ (List.filter_congr fun c _ => ?_)
  rw [Function.comp_apply, Bool.eq_iff_iff, (flag_recorded c).1, beq_iff_eq]

theorem filter_isTaper (drawn : List Mark) :
    (drawn.map recorded).filter isTaper = (marksOf .taper drawn).map recorded := by
  rw [List.filter_map, marksOf]
  refine congrArg _ (List.filter_congr fun c _ => ?_)
  rw [Function.comp_apply, Bool.eq_iff_iff, (flag_recorded c).2, beq_iff_eq]

/-- Where the heads of a moment are drawn, in pixels on a sheet of so many measures. -/
def PageFormat.headY (f : PageFormat) (total : ℤ) (m : Moment) : ℚ :=
  f.heightAtBeat total ((m.start : ℚ) / 2)

/-- The lines at the ends of the stems are those of some runs and some moments, with their
coordinates: all four pixels above the heads, and the tapers five further up on the right. -/
structure Flagged (f : PageFormat) (total : ℤ) (rs : List (List Moment)) (ms : List Moment)
    (drawn : List (Command ℚ)) : Prop where
  beams : drawn.filter isBeam = rs.flatMap fun g => (pairs g).map fun q =>
    .line (-20) (f.headY total q.2 - 4) (-20) (f.headY total q.1 - 4) "stroke-width:1;stroke:black"
  tapers : (drawn.filter isTaper).Perm
    ((rs.filterMap lone ++ ms.filter fun m => isEighthChord m.symbol).map fun m =>
      .line (-20) (f.headY total m - 4) (-15) (f.headY total m - 9) "stroke-width:1;stroke:black")

theorem Sheet.Grouped.flagged {f : PageFormat} {symbols : List Symbol} {rs : List (List Moment)}
    {ms : List Moment} {drawn : List Mark} (h : (forSymbols f symbols).Grouped rs ms drawn)
    (hrs : ∀ g ∈ rs, ∀ m ∈ g, m ∈ accepted f symbols) (hms : ∀ m ∈ ms, m ∈ accepted f symbols) :
    Flagged f (f.measureCount symbols) rs ms (drawn.map recorded) := by
  have hy : ∀ m ∈ accepted f symbols,
      (((forSymbols f symbols).cursor m.start : ℤ) : ℚ) / 2 = f.headY (f.measureCount symbols) m :=
    fun m hm => (recorded_glyph_of_mem hm).1
  obtain ⟨hbeams, htapers⟩ := h
  constructor
  · rw [filter_isBeam, hbeams, List.map_flatMap]
    refine List.flatMap_congr fun g hg => ?_
    rw [Sheet.beams, List.map_map]
    refine List.map_congr_left fun q hq => ?_
    have hpair := (infix_of_mem_pairs hq).subset
    rw [Function.comp_apply, Sheet.beam, recorded_beamGlyph, hy _ (hrs g hg _ (hpair (by simp))),
      hy _ (hrs g hg _ (hpair (by simp)))]
  · rw [filter_isTaper]
    refine (htapers.map recorded).trans (List.Perm.of_eq ?_)
    rw [List.map_map]
    refine List.map_congr_left fun m hm => ?_
    have hmem : m ∈ accepted f symbols := by
      rcases List.mem_append.mp hm with hm | hm
      · obtain ⟨g, hg, hl⟩ := List.mem_filterMap.mp hm
        exact hrs g hg m (mem_of_lone hl)
      · exact hms m (List.mem_of_mem_filter hm)
    rw [Function.comp_apply, Sheet.taper, recorded_taperGlyph, hy m hmem]

end Pixels

/-- The beams and tapers of any score, also of one that is refused, are those of the standard
grouping of the symbols before the first that fails; each stands on the page of its notes, four
pixels above their heads. Every single eighth note has a beam or a taper and only one of them, and a
beam joins two neighbours of one measure. -/
theorem beams_and_tapers_of_runs {f : PageFormat} {symbols : List Symbol} {score : Score}
    (h : engrave? f symbols = some score) :
    (score.fault = none → score.sheet.taken symbols {} = symbols) ∧
    Flagged f (f.measureCount symbols) (eighthRuns f (score.moments symbols))
      (score.moments symbols) (score.drawing.map recorded) ∧
    (∀ page g, (groups score.drawing)[page]? = some g →
      Flagged f (f.measureCount symbols)
        ((eighthRuns f (score.moments symbols)).filter (onPage f page))
        ((score.moments symbols).filter fun m => f.pageOf m.start == page)
        (g.content.map recorded)) ∧
    (∀ m ∈ score.moments symbols, ∃ g, (groups score.drawing)[f.pageOf m.start]? = some g ∧
      symbolMarks (f.headY (f.measureCount symbols) m) m.symbol <:+: g.content.map recorded) ∧
    (score.moments symbols).Pairwise (fun m m' => m.start < m'.start) ∧
    ((eighthRuns f (score.moments symbols)).flatMap fun g =>
      ((pairs g).flatMap fun q => [q.1, q.2]) ++ (lone g).toList) =
        ((score.moments symbols).filter fun m => isSingleEighth m.symbol) ∧
    ∀ g ∈ eighthRuns f (score.moments symbols), ∀ q ∈ pairs g,
      [q.1, q.2] <:+: score.moments symbols ∧ isSingleEighth q.1.symbol = true ∧
      isSingleEighth q.2.symbol = true ∧
        f.measureOf q.1.start = f.measureOf q.2.start ∧
        f.pageOf q.1.start = f.pageOf q.2.start := by
  obtain ⟨pages, rfl⟩ := engrave_of_engrave? h
  have hmoments := engrave_moments f symbols pages
  rw [hmoments]
  refine ⟨engrave_taken, ?_, ?_, ?_, ?_, ?_, ?_⟩
  · exact (grouped_engrave f symbols pages).flagged
      (fun g hg m hm => (infix_of_mem_eighthRuns hg).subset hm) fun m hm => hm
  · intro page g hg
    rw [group_eq_pageGroup hg]
    exact (grouped_pageGroup f symbols _ page).flagged
      (fun g hg m hm => (infix_of_mem_eighthRuns (List.mem_of_mem_filter hg)).subset hm)
      fun m hm => List.mem_of_mem_filter hm
  · intro m hm
    obtain ⟨g, hg, hinfix⟩ := exists_group hm pages
    refine ⟨g, hg, ?_⟩
    have hmarks := (recorded_glyph_of_mem hm).2
    rw [PageFormat.headY, ← hmarks]
    exact hinfix.map recorded
  · rw [← hmoments]
    refine (timeline_pairwise 0 _).imp ?_
    intro m m' hle
    have := m.symbol.duration.halves_pos
    have hle : m.start + m.symbol.duration.halves ≤ m'.start := hle
    omega
  · simp only [pairs_append_lone, List.flatMap_id']
    exact eighthRuns_flatten
  · exact fun g hg q hq => neighbours_of_mem_pairs hg hq

def threesOfEighths : List Symbol :=
  [⟨⟨.eighth, false⟩, .note 0⟩, ⟨⟨.eighth, false⟩, .note 2⟩, ⟨⟨.eighth, false⟩, .note 4⟩,
    ⟨⟨.eighth, false⟩, .chord [0, 2]⟩, ⟨⟨.eighth, true⟩, .note 1⟩, ⟨⟨.eighth, true⟩, .note 3⟩,
    ⟨⟨.eighth, false⟩, .note 5⟩]

/-- On two pages they have two beams; the last note of each run and the chord between them have
tapers. -/
theorem beams_of_threesOfEighths :
    ∃ score, engrave? { beatsPerMeasure := 4, measuresPerPage := 1 } threesOfEighths = some score ∧
      (score.drawing.map recorded).filter isBeam =
        [.line (-20) 41 (-20) 56 "stroke-width:1;stroke:black",
          .line (-20) (97 / 2) (-20) 71 "stroke-width:1;stroke:black"] ∧
      ((score.drawing.map recorded).filter isTaper).Perm
        [.line (-20) 26 (-15) 21 "stroke-width:1;stroke:black",
          .line (-20) 26 (-15) 21 "stroke-width:1;stroke:black",
          .line (-20) 11 (-15) 6 "stroke-width:1;stroke:black"] := by
  have hcount : PageFormat.measureCount { beatsPerMeasure := 4, measuresPerPage := 1 }
    threesOfEighths ≤ 2 ^ 53 := by
    decide
  obtain ⟨pages, hscore⟩ := engrave?_eq_some hcount
  obtain ⟨-, ⟨hbeams, htapers⟩, -⟩ := beams_and_tapers_of_runs hscore
  refine ⟨_, hscore, ?_, ?_⟩
  · rw [hbeams]
    simp only [Score.moments, Sheet.engrave]
    decide +kernel
  · refine htapers.trans ?_
    simp only [Score.moments, Sheet.engrave]
    decide +kernel

end Tablature.Engraving
