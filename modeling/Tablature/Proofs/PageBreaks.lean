import Tablature.Proofs.Decimals
import Tablature.Proofs.Numbering
import Tablature.Proofs.Translation

/-!
Pages do not depend on each other. Symbols that fill whole pages are followed by others: the pages
of the first do not depend on what follows, and the pages of the others are those that they have as
a score of their own, moved to the right and with higher numbers beside the bars. -/
namespace Tablature.Engraving
open Tablature.Music Tablature.Drawing Tablature.Number

theorem timeline_append (t : Nat) (a b : List Symbol) :
    timeline t (a ++ b) = timeline t a ++ timeline (t + totalHalves a) b := by
  induction a generalizing t with
  | nil => rfl
  | cons s a ih => simp [ih, Nat.add_assoc]

namespace PageFormat
variable (f : PageFormat) (q : Nat)

def pagesTime : Nat := f.measureHalves * (f.measuresPerPage * q)

theorem measureOf_pagesTime_add (t : Nat) :
    f.measureOf (f.pagesTime q + t) = f.measuresPerPage * q + f.measureOf t :=
  Nat.mul_add_div f.measureHalves_pos _ _

theorem sinceBar_pagesTime_add (t : Nat) : f.sinceBar (f.pagesTime q + t) = f.sinceBar t :=
  Nat.mul_add_mod _ _ _

theorem pageOf_pagesTime_add (t : Nat) : f.pageOf (f.pagesTime q + t) = q + f.pageOf t := by
  rw [pageOf, measureOf_pagesTime_add]
  exact Nat.mul_add_div f.measures_pos _ _

theorem placeOnPage_pagesTime_add (t : Nat) :
    f.placeOnPage (f.pagesTime q + t) = f.placeOnPage t := by
  rw [placeOnPage, measureOf_pagesTime_add]
  exact Nat.mul_add_mod _ _ _

theorem pageOf_lt_of_lt {t : Nat} (h : t < f.pagesTime q) : f.pageOf t < q := by
  apply Nat.div_lt_of_lt_mul
  exact Nat.div_lt_of_lt_mul h

theorem measureCount_append {a : List Symbol} (ha : totalHalves a = f.pagesTime q)
    (b : List Symbol) :
    f.measureCount (a ++ b) = f.measuresPerPage * q + f.measureCount b := by
  rw [measureCount, totalHalves_append, ha, Nat.add_assoc, pagesTime,
    Nat.mul_add_div f.measureHalves_pos]
  rfl

theorem pagesFor_add (n : Nat) : f.pagesFor (f.measuresPerPage * q + n) = q + f.pagesFor n := by
  rw [pagesFor, Nat.add_assoc, Nat.mul_add_div f.measures_pos]
  rfl

/-- Exact beats and halves of them agree on what fills whole pages. -/
theorem totalHalves_eq_pagesTime {a : List Symbol}
    (h : totalBeats a = q * f.measuresPerPage * f.beatsPerMeasure) :
    totalHalves a = f.pagesTime q := by
  rw [totalBeats_eq] at h
  have hq : (totalHalves a : ℚ) = (f.pagesTime q : ℕ) := by
    rw [pagesTime, Nat.cast_mul, cast_measureHalves]
    push_cast
    linarith
  exact_mod_cast hq

theorem joined_later (m m' : Moment) :
    joined f (m.later (f.pagesTime q)) (m'.later (f.pagesTime q)) = joined f m m' := by
  simp only [joined, Moment.later, measureOf_pagesTime_add, beq_eq_decide, Nat.add_left_cancel_iff]

theorem accepted_later (m : Moment) : (m.later (f.pagesTime q)).Accepted f ↔ m.Accepted f := by
  simp [Moment.Accepted, Moment.Fits, Moment.later, sinceBar_pagesTime_add]

end PageFormat

section Refused
variable {f : PageFormat} {q : Nat} {a b : List Symbol}

theorem refused?_append_eq_none_iff (ha : totalHalves a = f.pagesTime q) :
    refused? f (a ++ b) = none ↔ refused? f a = none ∧ refused? f b = none := by
  have hb : timeline (totalHalves a) b = (timeline 0 b).map (Moment.later (f.pagesTime q)) := by
    rw [← timeline_later, Nat.add_zero, ha]
  simp only [refused?, timeline_append, Nat.zero_add, hb, List.find?_append, Option.or_eq_none_iff,
    List.find?_map, Option.map_eq_none_iff, Function.comp_def, f.accepted_later q]

end Refused

def labelNumber (label : String) : Nat := (Coordinate.digits? label.toList).getD 0

theorem labelNumber_toString (n : Nat) : labelNumber (toString n) = n := by
  rw [labelNumber, Coordinate.digits?_toString, Option.getD_some]

/-- Raises the number beside a bar. Other texts stay as they are, and so do all shapes. -/
def renumber (n : Nat) : Mark → Mark
  | .text x y label style =>
    if x = px (pageWidth + 2) then .text x y (toString (labelNumber label + n)) style
      else .text x y label style
  | c => c

theorem renumber_of_role_ne {n : Nat} {c : Mark} (h : role c ≠ .number) : renumber n c = c := by
  cases c with
  | text x y label style =>
    have hx : x ≠ px (pageWidth + 2) := fun hx => h (if_pos hx)
    exact if_neg hx
  | start | finish | rect | line | circle | openGroup | closeGroup => rfl

theorem map_renumber_eq_self {n : Nat} {ms : List Mark} (h : ∀ c ∈ ms, role c ≠ .number) :
    ms.map (renumber n) = ms :=
  (List.map_congr_left fun c hc => renumber_of_role_ne (h c hc)).trans (List.map_id' ms)

theorem AllRole.map_renumber {r : Role} {ms : List Mark} (h : AllRole r ms) (hr : r ≠ .number)
    (n : Nat) :
    ms.map (renumber n) = ms :=
  map_renumber_eq_self fun c hc => by rwa [h c hc]

theorem barGlyph_renumber (y : HalfPixel) (measure n : Nat) :
    barGlyph y (measure + n) = (barGlyph y measure).map (renumber n) := by
  simp only [barGlyph, renumber, List.map_cons, List.map_nil, if_true, labelNumber_toString]

/-- A page that stands so many pages further to the right, with numbers that are higher by so
many. -/
def Group.moved (pages measures : Nat) (g : Group) : Group :=
  ⟨g.dx + px (305 * pages), g.dy, g.content.map (renumber measures)⟩

namespace Sheet
variable (sheet : Sheet) (q : Nat)

/-- The sheet of the measures behind so many whole pages. -/
def behindPages : Sheet := ⟨sheet.format, sheet.total - sheet.format.measuresPerPage * q⟩

theorem remaining_behindPages (page : Nat) :
    (sheet.behindPages q).remaining page = sheet.remaining (q + page) := by
  simp only [remaining, behindPages]
  push_cast
  ring

theorem heightAfter_behindPages (page : Nat) :
    (sheet.behindPages q).heightAfter page = sheet.heightAfter (q + page) := by
  simp only [heightAfter, measuresAfter, remaining_behindPages]
  rfl

theorem cursor_behindPages (t : Nat) :
    sheet.cursor (sheet.format.pagesTime q + t) = (sheet.behindPages q).cursor t := by
  simp only [cursor, heightAfter_behindPages, PageFormat.pageOf_pagesTime_add,
    PageFormat.placeOnPage_pagesTime_add, PageFormat.sinceBar_pagesTime_add]
  rfl

theorem bar_behindPages (t : Nat) :
    sheet.bar (sheet.format.pagesTime q + t) =
      ((sheet.behindPages q).bar t).map (renumber (sheet.format.measuresPerPage * q)) := by
  have hformat : (sheet.behindPages q).format = sheet.format := rfl
  have hmeasure : sheet.format.measuresPerPage * q + sheet.format.measureOf t + 1 =
      sheet.format.measureOf t + 1 + sheet.format.measuresPerPage * q := by omega
  rw [bar, bar, PageFormat.sinceBar_pagesTime_add, PageFormat.measureOf_pagesTime_add,
    cursor_behindPages, hformat, hmeasure]
  split
  · exact barGlyph_renumber _ _ _
  · rfl

theorem forSymbols_behindPages {f : PageFormat} {a : List Symbol}
    (ha : totalHalves a = f.pagesTime q)
    (b : List Symbol) : (Sheet.forSymbols f (a ++ b)).behindPages q = Sheet.forSymbols f b := by
  simp only [behindPages, Sheet.forSymbols, f.measureCount_append q ha]
  congr 1
  push_cast
  ring

end Sheet

def Plate.later (time : Nat) (p : Plate) : Plate := ⟨time + p.start, p.ink, p.tail⟩

theorem Plate.moved_zero (time : Nat) : Plate.moved time (fun _ => 0) = Plate.later time := by
  funext p
  simp [moved, later]

def Plate.Unnumbered (p : Plate) : Prop := ∀ c ∈ p.ink ++ p.tail, role c ≠ .number

theorem Plate.unnumbered_of_mem_picture {sheet : Sheet} {symbols : List Symbol} {p : Plate}
    (h : p ∈ sheet.picture symbols) : p.Unnumbered := by
  obtain ⟨hink, htail⟩ := Sheet.roles_of_mem_picture h
  intro c hc
  rcases List.mem_append.mp hc with hc | hc
  · simp [hink c hc]
  · rcases htail c hc with hr | hr <;> simp [hr]

namespace Sheet

section Later
variable (sheet : Sheet) (q : Nat)

theorem body_later {p : Plate} (hp : p.Unnumbered) :
    sheet.body (p.later (sheet.format.pagesTime q)) =
      ((sheet.behindPages q).body p).map (renumber (sheet.format.measuresPerPage * q)) := by
  have hs := map_renumber_eq_self (n := sheet.format.measuresPerPage * q) hp
  have hbar := sheet.bar_behindPages q p.start
  simp only [body, Plate.later, List.append_assoc, List.map_append] at hs hbar ⊢
  rw [hbar, hs]

/-- A page of the plates behind whole pages is the page of the sheet that begins there, moved. -/
theorem pageGroup_later {ps : List Plate} (hps : ∀ p ∈ ps, p.Unnumbered) (last page : Nat) :
    sheet.pageGroup (ps.map (Plate.later (sheet.format.pagesTime q))) (q + last) (q + page) =
      ((sheet.behindPages q).pageGroup ps last page).moved q
        (sheet.format.measuresPerPage * q) := by
  have hplates : (ps.map (Plate.later (sheet.format.pagesTime q))).filter
        (fun p => sheet.format.pageOf p.start == q + page) =
      (ps.filter fun p => sheet.format.pageOf p.start == page).map
        (Plate.later (sheet.format.pagesTime q)) := by
    rw [List.filter_map]
    congr 1
    apply List.filter_congr
    intro p _
    simp only [Function.comp_apply, Plate.later, PageFormat.pageOf_pagesTime_add, beq_eq_decide,
      Nat.add_left_cancel_iff]
  have hbodies : ((ps.filter fun p => sheet.format.pageOf p.start == page).map
        (Plate.later (sheet.format.pagesTime q))).flatMap sheet.body =
      ((ps.filter fun p => sheet.format.pageOf p.start == page).flatMap
        (sheet.behindPages q).body).map
        (renumber (sheet.format.measuresPerPage * q)) := by
    rw [List.flatMap_map, List.map_flatMap]
    exact List.flatMap_congr fun p hp => sheet.body_later q (hps p (List.mem_of_mem_filter hp))
  have hend : (if q + page = q + last then endGlyph else []) =
      (if page = last then endGlyph else []).map (renumber (sheet.format.measuresPerPage * q)) := by
    by_cases hl : page = last
    · simp [hl, allRole_endGlyph.map_renumber]
    · simp [hl]
  have hdx : px (((q + page : Nat) + 1) * marginX + (q + page : Nat) * pageWidth) =
      px ((page + 1) * marginX + page * pageWidth) + px (305 * q) := by
    simp only [px, marginX, pageWidth, laneWidth, laneCount]
    push_cast
    ring
  have hpage := (allRole_pageGlyph (sheet.heightAfter (q + page))).map_renumber (by decide)
    (sheet.format.measuresPerPage * q)
  rw [pageGroup, hplates, hbodies, hend, hdx, ← hpage, Group.moved, pageGroup,
    heightAfter_behindPages]
  simp only [List.map_append]
  rfl

end Later

section Cut
variable {sheet : Sheet} {ps ps' : List Plate} {last page : Nat}

theorem pageGroup_append_left (h : ∀ p ∈ ps', sheet.format.pageOf p.start ≠ page) :
    sheet.pageGroup (ps ++ ps') last page = sheet.pageGroup ps last page := by
  have hnone : (ps'.filter fun p => sheet.format.pageOf p.start == page) = [] :=
    List.filter_eq_nil_iff.mpr fun p hp => by simpa using h p hp
  simp [pageGroup, hnone]

theorem pageGroup_append_right (h : ∀ p ∈ ps, sheet.format.pageOf p.start ≠ page) :
    sheet.pageGroup (ps ++ ps') last page = sheet.pageGroup ps' last page := by
  have hnone : (ps.filter fun p => sheet.format.pageOf p.start == page) = [] :=
    List.filter_eq_nil_iff.mpr fun p hp => by simpa using h p hp
  simp [pageGroup, hnone]

/-- Between notes that may not be joined the plates fall apart. -/
theorem plates_append {ms ms' : List Moment}
    (h : ∀ m ∈ ms.getLast?, ∀ m' ∈ ms'.head?, joined sheet.format m m' = false) :
    sheet.plates (ms ++ ms') = sheet.plates ms ++ sheet.plates ms' := by
  rw [plates, runs, List.splitBy_append h, List.flatMap_append]
  rfl

end Cut

section FullPages
variable {f : PageFormat} {total total' : Int} {page : Nat}

theorem heightAfter_of_lt (h : f.measuresPerPage * (page + 1 : Int) < total) :
    (⟨f, total⟩ : Sheet).heightAfter page =
      (f.beatsPerMeasure + 1) * f.measuresPerPage * beatHeight := by
  have hr : ¬(⟨f, total⟩ : Sheet).remaining page ≤ f.measuresPerPage := by
    simp only [remaining]
    linarith
  simp only [heightAfter, measuresAfter, heightOf, hr, if_false, decide_false, Bool.false_eq_true,
    add_zero]

variable {q : Nat} (h : (f.measuresPerPage * q : Int) < total)
  (h' : (f.measuresPerPage * q : Int) < total')
include h h'

theorem heightAfter_congr (hp : page < q) :
    (⟨f, total⟩ : Sheet).heightAfter page = (⟨f, total'⟩ : Sheet).heightAfter page := by
  have hle : (f.measuresPerPage : Int) * (page + 1) ≤ f.measuresPerPage * q := by
    exact_mod_cast Nat.mul_le_mul_left f.measuresPerPage hp
  rw [heightAfter_of_lt (by omega), heightAfter_of_lt (by omega)]

theorem cursor_congr {t : Nat} (ht : f.pageOf t < q) :
    (⟨f, total⟩ : Sheet).cursor t = (⟨f, total'⟩ : Sheet).cursor t := by
  simp only [cursor, heightAfter_congr h h' ht]

theorem body_congr {p : Plate} (hp : f.pageOf p.start < q) :
    (⟨f, total⟩ : Sheet).body p = (⟨f, total'⟩ : Sheet).body p := by
  simp only [body, bar, cursor_congr h h' hp]

theorem pageGroup_congr {last last' : Nat} (hp : page < q) (hl : q ≤ last) (hl' : q ≤ last')
    (ps : List Plate) :
    (⟨f, total⟩ : Sheet).pageGroup ps last page =
      (⟨f, total'⟩ : Sheet).pageGroup ps last' page := by
  have hbodies : (ps.filter fun p => f.pageOf p.start == page).flatMap (⟨f, total⟩ : Sheet).body =
      (ps.filter fun p => f.pageOf p.start == page).flatMap (⟨f, total'⟩ : Sheet).body := by
    apply List.flatMap_congr
    intro p hmem
    have hpage : f.pageOf p.start = page := by simpa using (List.mem_filter.mp hmem).2
    exact body_congr h h' (hpage ▸ hp)
  have hfull : (⟨f, total⟩ : Sheet).fullHeight = (⟨f, total'⟩ : Sheet).fullHeight := rfl
  simp only [pageGroup, hbodies, heightAfter_congr h h' hp, hfull,
    if_neg (show page ≠ last by omega), if_neg (show page ≠ last' by omega)]

theorem plates_congr {ms : List Moment} (hms : ∀ m ∈ ms, f.pageOf m.start < q) :
    (⟨f, total⟩ : Sheet).plates ms = (⟨f, total'⟩ : Sheet).plates ms := by
  have hmoved := plates_moved ⟨f, total⟩ ⟨f, total'⟩ 0 (fun _ => 0) ms
    (fun m m' => by simp) (fun _ _ _ => rfl)
    (fun m hm => by rw [Nat.zero_add, add_zero]; exact cursor_congr h h' (hms m hm))
  have hplate : Plate.later 0 = id := by
    funext p
    simp [Plate.later]
  rwa [Plate.moved_zero, Moment.later_zero, hplate, List.map_id, List.map_id] at hmoved

end FullPages

/-- The pages of symbols that fill them, in front of others. -/
def fullPages (f : PageFormat) (q : Nat) (a : List Symbol) : List Group :=
  (List.range q).map
    ((⟨f, f.measuresPerPage * q + 1⟩ : Sheet).pageGroup
      ((⟨f, f.measuresPerPage * q + 1⟩ : Sheet).plates (timeline 0 a)) q)

section Broken
variable {f : PageFormat} {q : Nat} {a b : List Symbol} (ha : totalHalves a = f.pagesTime q)
include ha

theorem timeline_of_pages :
    timeline 0 (a ++ b) = timeline 0 a ++ (timeline 0 b).map (Moment.later (f.pagesTime q)) := by
  rw [timeline_append, ← timeline_later, Nat.zero_add, Nat.add_zero, ha]

theorem pageOf_lt_of_mem {m : Moment} (hm : m ∈ timeline 0 a) : f.pageOf m.start < q := by
  apply f.pageOf_lt_of_lt
  simpa [ha] using (start_lt_of_mem_timeline hm).2

/-- At the end of a page no note is joined to the next one, so that the picture falls into the two
parts. -/
theorem plates_of_pages :
    (Sheet.forSymbols f (a ++ b)).plates (timeline 0 (a ++ b)) =
      (Sheet.forSymbols f (a ++ b)).plates (timeline 0 a) ++
        ((Sheet.forSymbols f b).plates (timeline 0 b)).map (Plate.later (f.pagesTime q)) := by
  have hlater := plates_moved (forSymbols f (a ++ b)) (forSymbols f b) (f.pagesTime q) (fun _ => 0)
    (timeline 0 b) (f.joined_later q) (fun _ _ _ => rfl) fun m _ => by
      rw [add_zero, ← forSymbols_behindPages q ha b]
      exact cursor_behindPages _ q m.start
  rw [timeline_of_pages ha, plates_append, hlater, Plate.moved_zero]
  intro m hm m' hm'
  have hpage := pageOf_lt_of_mem ha (List.mem_of_mem_getLast? hm)
  obtain ⟨n, -, rfl⟩ := List.mem_map.mp (List.mem_of_mem_head? hm')
  have hpage' : f.pageOf (n.later (f.pagesTime q)).start = q + f.pageOf n.start :=
    f.pageOf_pagesTime_add q n.start
  have hmeasure : f.measureOf m.start ≠ f.measureOf (n.later (f.pagesTime q)).start := by
    intro hm
    have : f.pageOf m.start = f.pageOf (n.later (f.pagesTime q)).start := by
      rw [PageFormat.pageOf, hm]
      rfl
    omega
  simp [joined, hmeasure]

theorem pagesBegun_of_pages (h : refused? f (a ++ b) = none) :
    (Sheet.forSymbols f (a ++ b)).pagesBegun (a ++ b) =
      q + (Sheet.forSymbols f b).pagesBegun b := by
  have hb := ((refused?_append_eq_none_iff ha).mp h).2
  rw [pagesBegun_eq (by exact h), pagesBegun_eq (by exact hb), forSymbols_format, forSymbols_format,
    f.measureCount_append q ha, f.pagesFor_add]

theorem lastPage_of_pages (h : refused? f (a ++ b) = none) (hb : b ≠ []) :
    (Sheet.forSymbols f (a ++ b)).lastPage (a ++ b) = q + (Sheet.forSymbols f b).lastPage b := by
  have hbegun := pagesBegun_of_pages ha h
  rw [pagesBegun, pagesBegun, if_neg hb, if_neg (by simp [hb])] at hbegun
  omega

theorem groups_of_pages (h : refused? f (a ++ b) = none) (hb : b ≠ []) (pages pages' : Int) :
    groups ((Sheet.forSymbols f (a ++ b)).engrave pages (a ++ b)).drawing =
      fullPages f q a ++
        (groups ((Sheet.forSymbols f b).engrave pages' b).drawing).map
          (Group.moved q (f.measuresPerPage * q)) := by
  have hrefused := ((refused?_append_eq_none_iff ha).mp h).2
  have hpicture : (Sheet.forSymbols f (a ++ b)).picture (a ++ b) = _ :=
    (picture_of_refused?_eq_none h).trans (plates_of_pages ha)
  have hpicture' : (Sheet.forSymbols f b).picture b = _ := picture_of_refused?_eq_none hrefused
  have hlater : ∀ p ∈ ((Sheet.forSymbols f b).plates (timeline 0 b)).map
    (Plate.later (f.pagesTime q)),
      q ≤ f.pageOf p.start := by
    intro p hp
    obtain ⟨p', -, rfl⟩ := List.mem_map.mp hp
    exact (f.pageOf_pagesTime_add q p'.start).symm ▸ Nat.le_add_right q _
  have hfirst : ∀ p ∈ (Sheet.forSymbols f (a ++ b)).plates (timeline 0 a),
      f.pageOf p.start < q := by
    intro p hp
    obtain ⟨m, hm, tail, rfl, -⟩ := mem_plates hp
    exact pageOf_lt_of_mem ha hm
  have hcount : (f.measuresPerPage * q : Int) < (Sheet.forSymbols f (a ++ b)).total := by
    have hpos : 0 < totalHalves b := by
      obtain ⟨s, rest, rfl⟩ := List.exists_cons_of_ne_nil hb
      exact Nat.lt_of_lt_of_le s.duration.halves_pos (Nat.le_add_right _ _)
    have hM := f.measureHalves_pos
    have hmeasures : 0 < f.measureCount b := Nat.div_pos (by omega) hM
    have hsum := f.measureCount_append q ha b
    simp only [forSymbols]
    exact_mod_cast (by omega : f.measuresPerPage * q < f.measureCount (a ++ b))
  rw [groups_engrave, groups_engrave, pagesBegun_of_pages ha h, lastPage_of_pages ha h hb, hpicture,
    List.range_add, List.map_append, fullPages, List.map_map, List.map_map]
  refine congrArg₂ (· ++ ·) ?_ ?_
  · apply List.map_congr_left
    intro page hpage
    have hlt := List.mem_range.mp hpage
    rw [pageGroup_append_left fun p hp => by
      have hle := hlater p hp
      rw [forSymbols_format]
      omega]
    have hnext : (f.measuresPerPage * q : Int) < f.measuresPerPage * q + 1 := by omega
    have hplates := plates_congr hcount hnext fun m hm => pageOf_lt_of_mem ha hm
    have hgroup :=
      pageGroup_congr hcount hnext hlt (Nat.le_add_right q ((Sheet.forSymbols f b).lastPage b))
        le_rfl
      ((⟨f, f.measuresPerPage * q + 1⟩ : Sheet).plates (timeline 0 a))
    rw [← hgroup, ← hplates]
    rfl
  · apply List.map_congr_left
    intro page hpage
    have hunnumbered : ∀ p ∈ (Sheet.forSymbols f b).plates (timeline 0 b), p.Unnumbered :=
      fun p hp =>
      Plate.unnumbered_of_mem_picture (hpicture' ▸ hp)
    have hmoved :=
      (forSymbols f (a ++ b)).pageGroup_later q hunnumbered ((Sheet.forSymbols f b).lastPage b) page
    rw [forSymbols_behindPages q ha] at hmoved
    rw [Function.comp_apply, Function.comp_apply, pageGroup_append_right fun p hp => by
      have hlt := hfirst p hp
      rw [forSymbols_format]
      omega, hpicture']
    exact hmoved

end Broken
end Sheet

/-- Pages are independent of each other. Where some symbols fill whole pages, these pages are the
same whatever symbols follow; and those that follow have the pages of a score of their own, to the
right of the first and with numbers that go on from there. -/
theorem pages_independent (f : PageFormat) (q : Nat) (a : List Symbol)
    (ha : totalBeats a = q * f.measuresPerPage * f.beatsPerMeasure) :
    ∃ first : List Group, first.length = q ∧
      ∀ b, b ≠ [] → f.measureCount (a ++ b) ≤ 2 ^ 53 →
        ∀ score, engrave? f (a ++ b) = some score → score.fault = none →
          ∃ score', engrave? f b = some score' ∧ score'.fault = none ∧
            groups score.drawing =
              first ++ (groups score'.drawing).map (Group.moved q (q * f.measuresPerPage)) := by
  have hhalves := f.totalHalves_eq_pagesTime q ha
  refine ⟨Sheet.fullPages f q a, by simp [Sheet.fullPages], ?_⟩
  intro b hb hcount score hscore hfault
  obtain ⟨pages, rfl⟩ := engrave_of_engrave? hscore
  have hrefused := (engrave_fault_eq_none_iff f (a ++ b) pages).mp hfault
  have hcount' : f.measureCount b ≤ 2 ^ 53 := by
    have := f.measureCount_append q hhalves b
    omega
  obtain ⟨pages', hscore'⟩ := engrave?_eq_some hcount'
  refine ⟨_, hscore', ?_, ?_⟩
  · exact (engrave_fault_eq_none_iff f b pages').mpr
      ((refused?_append_eq_none_iff hhalves).mp hrefused).2
  · rw [Nat.mul_comm q]
    exact Sheet.groups_of_pages hhalves hrefused hb pages pages'

/-- At the break between two pages of one measure an eighth note waits; another begins the second
page. -/
theorem pages_of_parted_eighths :
    totalBeats [⟨⟨.quarter, false⟩, .note 4⟩, ⟨⟨.eighth, false⟩, .note 7⟩] =
      (1 : Nat) * (1 : Nat) * (3 : Nat) ∧
      ∃ first score score', first.length = 1 ∧ score.fault = none ∧
        engrave? { beatsPerMeasure := 3, measuresPerPage := 1 }
          [⟨⟨.quarter, false⟩, .note 4⟩, ⟨⟨.eighth, false⟩, .note 7⟩,
            ⟨⟨.eighth, false⟩, .note 2⟩] = some score ∧
        engrave? { beatsPerMeasure := 3, measuresPerPage := 1 }
          [⟨⟨.eighth, false⟩, .note 2⟩] = some score' ∧
        groups score.drawing = first ++ (groups score'.drawing).map (Group.moved 1 1) := by
  have hbeats : totalBeats [⟨⟨.quarter, false⟩, .note 4⟩, ⟨⟨.eighth, false⟩, .note 7⟩] =
      (1 : Nat) * (1 : Nat) * (3 : Nat) := by
    decide +kernel
  obtain ⟨first, hlength, hpages⟩ :=
    pages_independent { beatsPerMeasure := 3, measuresPerPage := 1 } 1
      [⟨⟨.quarter, false⟩, .note 4⟩, ⟨⟨.eighth, false⟩, .note 7⟩] hbeats
  have hcount : PageFormat.measureCount { beatsPerMeasure := 3, measuresPerPage := 1 }
      [⟨⟨.quarter, false⟩, .note 4⟩, ⟨⟨.eighth, false⟩, .note 7⟩,
        ⟨⟨.eighth, false⟩, .note 2⟩] ≤ 2 ^ 53 := by
    decide
  obtain ⟨pages, hscore⟩ := engrave?_eq_some hcount
  have hfault := (engrave_fault_eq_none_iff { beatsPerMeasure := 3, measuresPerPage := 1 }
    [⟨⟨.quarter, false⟩, .note 4⟩, ⟨⟨.eighth, false⟩, .note 7⟩, ⟨⟨.eighth, false⟩, .note 2⟩]
    pages).mpr (by decide)
  obtain ⟨score', hscore', -, hgroups⟩ :=
    hpages [⟨⟨.eighth, false⟩, .note 2⟩] (List.cons_ne_nil _ _) hcount _ hscore
    hfault
  exact ⟨hbeats, first, _, score', hlength, hfault, hscore, hscore', hgroups⟩

end Tablature.Engraving
