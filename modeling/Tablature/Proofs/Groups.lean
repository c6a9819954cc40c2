import Tablature.Proofs.Role

/-!
Pages as groups of a drawing. `groups` reads the groups off any drawing; `groups_engrave` says that
those of a score are its pages from the first to the last that is reached, each with its lanes and
with what the plates of that page add, and the last one with the end lines. -/
namespace Tablature.Engraving
open Tablature.Music Tablature.Drawing

/-- A group of a drawing: how far it is moved, and what is drawn in it. -/
structure Group where
  dx : HalfPixel
  dy : HalfPixel
  content : List Mark
  deriving DecidableEq, Repr

def leading (ms : List Mark) : List Mark := ms.takeWhile fun c => role c != .group

def groups : List Mark → List Group
  | [] => []
  | .openGroup dx dy :: rest => ⟨dx, dy, leading rest⟩ :: groups rest
  | _ :: rest => groups rest

def Plain (ms : List Mark) : Prop := ∀ c ∈ ms, role c ≠ .group

theorem Plain.append {a b : List Mark} (ha : Plain a) (hb : Plain b) : Plain (a ++ b) := by
  intro c hc
  rcases List.mem_append.mp hc with hc | hc
  · exact ha c hc
  · exact hb c hc

theorem AllRole.plain {r : Role} {ms : List Mark} (h : AllRole r ms) (hr : r ≠ .group) :
    Plain ms := by
  intro c hc
  rw [h c hc]
  exact hr

theorem leading_append {a : List Mark} (h : Plain a) (b : List Mark) :
    leading (a ++ b) = a ++ leading b :=
  List.takeWhile_append_of_pos fun c hc => by simpa using h c hc

theorem groups_append {a : List Mark} (h : Plain a) (b : List Mark) :
    groups (a ++ b) = groups b := by
  induction a with
  | nil => rfl
  | cons c a ih =>
    have ha : Plain a := fun c' hc => h c' (by simp [hc])
    have hc := h c (by simp)
    cases c with
    | openGroup dx dy => exact absurd rfl hc
    | _ => simpa [groups] using ih ha

theorem leading_ending : leading ending = endGlyph := by
  rw [ending, leading_append (allRole_endGlyph.plain (by decide))]
  exact List.append_nil _

theorem groups_ending : groups ending = [] := by
  rw [ending, groups_append (allRole_endGlyph.plain (by decide))]
  rfl

namespace Sheet
variable (sheet : Sheet)

def body (p : Plate) : List Mark := sheet.bar p.start ++ p.ink ++ p.tail

/-- A page of the sheet, the last one with the end lines, with those of some plates that stand on
it. -/
def pageGroup (ps : List Plate) (last page : Nat) : Group where
  dx := px ((page + 1) * marginX + page * pageWidth)
  dy := px (marginY + sheet.fullHeight - sheet.heightAfter page)
  content := pageGlyph (sheet.heightAfter page) ++
    ((ps.filter fun p => sheet.format.pageOf p.start == page).flatMap sheet.body ++
      if page = last then endGlyph else [])

section Symbols
variable {sheet} {r : Role} (hr : r.ofSymbol)
include hr

theorem marksOf_marks (p : Plate) : marksOf r (sheet.marks p) = marksOf r (p.ink ++ p.tail) := by
  simp [marks, marksOf_frame hr]

theorem marksOf_body (p : Plate) : marksOf r (sheet.body p) = marksOf r (p.ink ++ p.tail) := by
  simp [body, marksOf_bar hr]

theorem marksOf_pageGroup (ps : List Plate) (last page : Nat) :
    marksOf r (sheet.pageGroup ps last page).content =
      (ps.filter fun p => sheet.format.pageOf p.start == page).flatMap fun p =>
        marksOf r (p.ink ++ p.tail) := by
  have hend : marksOf r (if page = last then endGlyph else []) = [] := by
    split
    · exact marksOf_endGlyph hr
    · rfl
  rw [pageGroup, marksOf_append, marksOf_append, marksOf_pageGlyph hr, hend, marksOf_flatMap]
  simp only [marksOf_body hr, List.nil_append, List.append_nil]

end Symbols

/-- A time that comes next behind a symbol that fits. -/
def Follows (f : PageFormat) (t t' : Nat) : Prop :=
  ∃ d, 0 < d ∧ f.sinceBar t + d ≤ f.measureHalves ∧ t' = t + d

theorem Follows.page {sheet : Sheet} {t t' : Nat} (h : Follows sheet.format t t') :
    (sheet.format.pageOf t' = sheet.format.pageOf t ∧ ¬sheet.Turns t') ∨
      (sheet.format.pageOf t' = sheet.format.pageOf t + 1 ∧ sheet.Turns t' ∧ t' ≠ 0) := by
  obtain ⟨d, hd, hfit, rfl⟩ := h
  rcases sheet.format.next_time hfit with ⟨hm, hs⟩ | ⟨hm, hs⟩
  · left
    refine ⟨by simp only [PageFormat.pageOf, hm], fun ht => ?_⟩
    have := ht.1
    omega
  · by_cases hk : sheet.format.placeOnPage t + 1 = sheet.format.measuresPerPage
    · obtain ⟨hp, hj⟩ := sheet.format.next_page hm hk
      exact Or.inr ⟨hp, ⟨hs, hj⟩, by omega⟩
    · obtain ⟨hp, hj⟩ := sheet.format.same_page hm hk
      refine Or.inl ⟨hp, fun ht => ?_⟩
      have := ht.2
      omega

section Reading
variable {sheet} {p : Plate} (hp : Plain (sheet.body p)) (rest : List Mark)
include hp

theorem leading_marks (ht : ¬sheet.Turns p.start) :
    leading (sheet.marks p ++ rest) = sheet.body p ++ leading rest := by
  have hm : sheet.marks p = sheet.body p := by simp [marks, frame, turn, ht, body]
  rw [hm, leading_append hp]

theorem groups_marks (ht : ¬sheet.Turns p.start) :
    groups (sheet.marks p ++ rest) = groups rest := by
  have hm : sheet.marks p = sheet.body p := by simp [marks, frame, turn, ht, body]
  rw [hm, groups_append hp]

theorem groups_marks_of_turns (ht : sheet.Turns p.start) :
    groups (sheet.marks p ++ rest) =
      ⟨px ((sheet.format.pageOf p.start + 1) * marginX + sheet.format.pageOf p.start * pageWidth),
        px (marginY + sheet.fullHeight - sheet.heightAfter (sheet.format.pageOf p.start)),
        pageGlyph (sheet.heightAfter (sheet.format.pageOf p.start)) ++
          (sheet.body p ++ leading rest)⟩ ::
        groups rest := by
  have hg := (allRole_pageGlyph (sheet.heightAfter (sheet.format.pageOf p.start))).plain (by decide)
  have hm : sheet.marks p = (if p.start = 0 then [] else [.closeGroup]) ++
      sheet.origin (sheet.format.pageOf p.start) ::
        (pageGlyph (sheet.heightAfter (sheet.format.pageOf p.start)) ++ sheet.body p) := by
    simp [marks, frame, turn, ht, body]
  have ho : groups ((if p.start = 0 then [] else [.closeGroup]) ++
      (sheet.origin (sheet.format.pageOf p.start) ::
        (pageGlyph (sheet.heightAfter (sheet.format.pageOf p.start)) ++ sheet.body p) ++ rest)) =
      groups (sheet.origin (sheet.format.pageOf p.start) ::
        (pageGlyph (sheet.heightAfter (sheet.format.pageOf p.start)) ++ sheet.body p) ++ rest) := by
    split <;> rfl
  rw [hm, List.append_assoc, ho]
  simp only [origin, groups, List.cons_append, List.append_assoc, leading_append hg,
    leading_append hp, groups_append hg, groups_append hp]

end Reading

theorem leading_marks_of_turns {p : Plate} (ht : sheet.Turns p.start) (h0 : p.start ≠ 0)
    (rest : List Mark) :
    leading (sheet.marks p ++ rest) = [] := by
  simp [marks, frame, turn, ht, h0, leading, role]

def lastStart : Nat → List Plate → Nat
  | t, [] => t
  | _, p :: ps => lastStart p.start ps

/-- The times of some plates follow one another, the first of them a given time. -/
def InOrder (t : Nat) (ps : List Plate) : Prop :=
  (t :: ps.map Plate.start).IsChain (Follows sheet.format)

variable {sheet}

theorem InOrder.cons {t : Nat} {p : Plate} {ps : List Plate} (h : sheet.InOrder t (p :: ps)) :
    Follows sheet.format t p.start ∧ sheet.InOrder p.start ps :=
  List.isChain_cons_cons.mp h

theorem InOrder.page_le {t : Nat} {ps : List Plate} (h : sheet.InOrder t ps) :
    sheet.format.pageOf t ≤ sheet.format.pageOf (lastStart t ps) ∧
      ∀ p ∈ ps, sheet.format.pageOf t ≤ sheet.format.pageOf p.start := by
  induction ps generalizing t with
  | nil => simp [lastStart]
  | cons p ps ih =>
    obtain ⟨hf, hrest⟩ := h.cons
    obtain ⟨hl, hall⟩ := ih hrest
    have hpage : sheet.format.pageOf t ≤ sheet.format.pageOf p.start := by
      rcases hf.page with ⟨hp, -⟩ | ⟨hp, -⟩ <;> omega
    refine ⟨hpage.trans hl, ?_⟩
    intro q hq
    rcases List.mem_cons.mp hq with rfl | hq
    · exact hpage
    · exact hpage.trans (hall q hq)

theorem InOrder.page_le_last {t : Nat} {ps : List Plate} (h : sheet.InOrder t ps) :
    ∀ p ∈ ps, sheet.format.pageOf p.start ≤ sheet.format.pageOf (lastStart t ps) := by
  induction ps generalizing t with
  | nil => simp
  | cons p ps ih =>
    obtain ⟨-, hrest⟩ := h.cons
    intro q hq
    rcases List.mem_cons.mp hq with rfl | hq
    · exact hrest.page_le.1
    · exact ih hrest q hq

theorem pageGroup_cons_of_ne {p : Plate} {ps : List Plate} {last page : Nat}
    (h : sheet.format.pageOf p.start ≠ page) :
    sheet.pageGroup (p :: ps) last page = sheet.pageGroup ps last page := by
  simp [pageGroup, h]

/-- With the page of a time open: the plates of that page come before the next group, and every
later page is one. -/
theorem InOrder.reading {t : Nat} {ps : List Plate} (h : sheet.InOrder t ps)
    (hp : ∀ p ∈ ps, Plain (sheet.body p)) :
    leading (ps.flatMap sheet.marks ++ ending) =
        (ps.filter fun p =>
            sheet.format.pageOf p.start == sheet.format.pageOf t).flatMap sheet.body ++
          (if sheet.format.pageOf t = sheet.format.pageOf (lastStart t ps) then endGlyph else []) ∧
      groups (ps.flatMap sheet.marks ++ ending) =
        (List.range' (sheet.format.pageOf t + 1)
          (sheet.format.pageOf (lastStart t ps) - sheet.format.pageOf t)).map
          (sheet.pageGroup ps (sheet.format.pageOf (lastStart t ps))) := by
  induction ps generalizing t with
  | nil => simp [lastStart, leading_ending, groups_ending]
  | cons p ps ih =>
    obtain ⟨hf, hrest⟩ := h.cons
    obtain ⟨hlead, hgroups⟩ := ih hrest fun q hq => hp q (by simp [hq])
    obtain ⟨hlast, hall⟩ := hrest.page_le
    have hplain := hp p (by simp)
    rw [List.flatMap_cons, List.append_assoc]
    simp only [lastStart]
    rcases hf.page with ⟨hpage, ht⟩ | ⟨hpage, ht, h0⟩
    · rw [leading_marks hplain _ ht, groups_marks hplain _ ht, hlead, hgroups]
      simp only [hpage, List.filter_cons, beq_self_eq_true, if_true, List.flatMap_cons,
        List.append_assoc]
      refine ⟨rfl, ?_⟩
      apply List.map_congr_left
      intro q hq
      have hq := (List.mem_range'_1.mp hq).1
      exact (pageGroup_cons_of_ne (by omega)).symm
    · have hnone :
          (ps.filter fun q => sheet.format.pageOf q.start == sheet.format.pageOf t) = [] := by
        apply List.filter_eq_nil_iff.mpr
        intro q hq
        have := hall q hq
        simp only [beq_iff_eq]
        omega
      have hne : sheet.format.pageOf t ≠ sheet.format.pageOf (lastStart p.start ps) := by omega
      have hcount : sheet.format.pageOf (lastStart p.start ps) - sheet.format.pageOf t =
          sheet.format.pageOf (lastStart p.start ps) - sheet.format.pageOf p.start + 1 := by omega
      rw [sheet.leading_marks_of_turns ht h0, groups_marks_of_turns hplain _ ht, hlead, hgroups,
        hcount, List.range'_succ, List.map_cons]
      refine ⟨by simp [hpage, hnone, hne], ?_⟩
      refine congrArg₂ List.cons ?_ ?_
      · simp [pageGroup, hpage]
      · rw [hpage]
        apply List.map_congr_left
        intro q hq
        have hq := (List.mem_range'_1.mp hq).1
        exact (pageGroup_cons_of_ne (by omega)).symm

theorem runPlates_map {α : Type} (F : Nat → List Mark → α) (ms : List Moment) :
    ((sheet.runPlates ms).map fun p => F p.start p.ink) =
      ms.map fun m => F m.start (glyph (sheet.cursor m.start) m.symbol) := by
  fun_induction runPlates sheet ms with
  | case1 m₁ m₂ rest ih => simp [plate, ih]
  | case2 m => rfl
  | case3 => rfl

theorem plates_map {α : Type} (F : Nat → List Mark → α) (ms : List Moment) :
    ((sheet.plates ms).map fun p => F p.start p.ink) =
      ms.map fun m => F m.start (glyph (sheet.cursor m.start) m.symbol) := by
  have hflat := congrArg (List.map fun m => F m.start (glyph (sheet.cursor m.start) m.symbol))
    (List.flatten_splitBy (joined sheet.format) ms)
  rw [← hflat, List.map_flatten, plates, List.map_flatMap, runs, List.flatMap_def]
  congr 2
  funext g
  exact runPlates_map F g

theorem plates_map_start (ms : List Moment) :
    (sheet.plates ms).map Plate.start = ms.map Moment.start :=
  plates_map (fun t _ => t) ms

theorem head?_timeline_start (t : Nat) (a : List Symbol) :
    ((timeline t a).map Moment.start ++ [t + totalHalves a]).head? = some t := by
  cases a <;> simp

theorem timeline_chain {f : PageFormat} {t : Nat} {a : List Symbol}
    (h : ∀ m ∈ timeline t a, m.Fits f) :
    ((timeline t a).map Moment.start ++ [t + totalHalves a]).IsChain (Follows f) := by
  induction a generalizing t with
  | nil => simp
  | cons s a ih =>
    obtain ⟨hs, ha⟩ := List.forall_mem_cons.mp h
    have hrest := ih ha
    have hhead := head?_timeline_start (t + s.halves) a
    rw [timeline_cons, totalHalves_cons, ← Nat.add_assoc, List.map_cons, List.cons_append,
      List.isChain_cons]
    refine ⟨?_, hrest⟩
    intro u hu
    have hu : u = t + s.halves := by simpa [hhead, eq_comm] using hu
    exact ⟨s.halves, s.duration.halves_pos, hs, hu⟩

/-- The plates of a score follow one another from the beginning. -/
theorem picture_inOrder {symbols : List Symbol} (hne : symbols ≠ []) :
    ∃ p ps, sheet.picture symbols = p :: ps ∧ p.start = 0 ∧ sheet.InOrder 0 ps := by
  obtain ⟨a, b, hab, htake, hfind⟩ := exists_accepted sheet.format 0 symbols
  have hacc : accepted sheet.format symbols = timeline 0 a := htake
  have href : refused? sheet.format symbols = b.head?.map (Moment.mk (totalHalves a)) := by
    simpa [refused?] using hfind
  have hchain := timeline_chain fun m (hm : m ∈ timeline 0 a) => (mem_accepted (hacc ▸ hm)).2.1
  have hhead := head?_timeline_start 0 a
  rw [Nat.zero_add] at hchain hhead
  have hstarts : ((sheet.picture symbols).map Plate.start).IsChain (Follows sheet.format) ∧
      ((sheet.picture symbols).map Plate.start).head? = some 0 := by
    rw [picture, List.map_append, plates_map_start, hacc, href]
    cases b with
    | nil =>
      have ha : a ≠ [] := by simpa [hab] using hne
      refine ⟨by simpa using hchain.left_of_append, ?_⟩
      cases a with
      | nil => exact absurd rfl ha
      | cons s a => rfl
    | cons s b => exact ⟨by simpa using hchain, by simpa using hhead⟩
  rcases hp : sheet.picture symbols with _ | ⟨p, ps⟩
  · simp [hp] at hstarts
  · rw [hp] at hstarts
    have h0 : p.start = 0 := by simpa using hstarts.2
    refine ⟨p, ps, rfl, h0, ?_⟩
    rw [InOrder, ← h0]
    exact hstarts.1

theorem plain_body_of_mem_picture {symbols : List Symbol} {p : Plate}
    (h : p ∈ sheet.picture symbols) :
    Plain (sheet.body p) := by
  obtain ⟨hink, htail⟩ := roles_of_mem_picture h
  have hbar : Plain (sheet.bar p.start) := by
    intro c hc
    rcases role_of_mem_bar hc with hr | hr <;> simp [hr]
  refine (hbar.append (hink.plain (by decide))).append ?_
  intro c hc
  rcases htail c hc with hr | hr <;> simp [hr]

def lastPage (sheet : Sheet) (symbols : List Symbol) : Nat :=
  sheet.format.pageOf (lastStart 0 (sheet.picture symbols))

def pagesBegun (sheet : Sheet) (symbols : List Symbol) : Nat :=
  if symbols = [] then 0 else sheet.lastPage symbols + 1

theorem page_lt_pagesBegun {symbols : List Symbol} {p : Plate} (h : p ∈ sheet.picture symbols) :
    sheet.format.pageOf p.start < sheet.pagesBegun symbols := by
  by_cases hne : symbols = []
  · subst hne
    simp [picture, accepted, refused?, timeline] at h
  · obtain ⟨q, qs, hpicture, h0, hin⟩ := sheet.picture_inOrder hne
    have hlast : lastStart 0 (sheet.picture symbols) = lastStart 0 qs := by
      rw [hpicture, lastStart, h0]
    rw [pagesBegun, if_neg hne, lastPage, hlast, Nat.lt_succ_iff]
    rcases List.mem_cons.mp (hpicture ▸ h) with rfl | hp
    · rw [h0]
      exact hin.page_le.1
    · exact hin.page_le_last p hp

end Sheet

/-- The groups of a drawing are the pages that are begun, each with the plates that stand on it. -/
theorem groups_engrave (f : PageFormat) (symbols : List Symbol) (pages : Int) :
    groups ((Sheet.forSymbols f symbols).engrave pages symbols).drawing =
      (List.range ((Sheet.forSymbols f symbols).pagesBegun symbols)).map
        ((Sheet.forSymbols f symbols).pageGroup ((Sheet.forSymbols f symbols).picture symbols)
          ((Sheet.forSymbols f symbols).lastPage symbols)) := by
  have hopen : Plain ((Sheet.forSymbols f symbols).opening pages) := by
    intro c hc
    rcases Sheet.role_of_mem_opening hc with hr | hr <;> simp [hr]
  rw [engrave_drawing, List.append_assoc, groups_append hopen]
  generalize Sheet.forSymbols f symbols = sheet
  by_cases hne : symbols = []
  · subst hne
    rfl
  · obtain ⟨p, ps, hp, h0, hin⟩ := sheet.picture_inOrder hne
    have hplain : ∀ q ∈ p :: ps, Plain (sheet.body q) :=
      fun q hq => Sheet.plain_body_of_mem_picture (hp ▸ hq)
    obtain ⟨hlead, hgroups⟩ := hin.reading fun q hq => hplain q (by simp [hq])
    have hturns : sheet.Turns p.start := by simp [h0, Sheet.Turns]
    have hend : Sheet.endingOf symbols = ending := if_neg hne
    have hlast : sheet.lastPage symbols = sheet.format.pageOf (Sheet.lastStart 0 ps) := by
      rw [Sheet.lastPage, hp, Sheet.lastStart, h0]
    rw [hp, hend, List.flatMap_cons, List.append_assoc,
      Sheet.groups_marks_of_turns (hplain p (by simp)) _ hturns, hlead, hgroups, Sheet.pagesBegun,
      if_neg hne, hlast, List.range_eq_range', List.range'_succ, List.map_cons, h0,
      PageFormat.pageOf_zero]
    refine congrArg₂ List.cons ?_ ?_
    · simp [Sheet.pageGroup, h0]
    · apply List.map_congr_left
      intro q hq
      have hq := (List.mem_range'_1.mp hq).1
      exact (Sheet.pageGroup_cons_of_ne (by rw [h0, PageFormat.pageOf_zero]; omega)).symm

theorem group_eq_pageGroup {f : PageFormat} {symbols : List Symbol} {pages : Int} {page : Nat}
    {g : Group}
    (h : (groups ((Sheet.forSymbols f symbols).engrave pages symbols).drawing)[page]? = some g) :
    g = (Sheet.forSymbols f symbols).pageGroup ((Sheet.forSymbols f symbols).picture symbols)
      ((Sheet.forSymbols f symbols).lastPage symbols) page := by
  rw [groups_engrave, List.getElem?_map] at h
  obtain ⟨q, hq, rfl⟩ := Option.map_eq_some_iff.mp h
  obtain ⟨hlt, hget⟩ := List.getElem?_eq_some_iff.mp hq
  rw [List.getElem_range] at hget
  rw [hget]

theorem exists_group {f : PageFormat} {symbols : List Symbol} {m : Moment}
    (h : m ∈ accepted f symbols) (pages : Int) :
    ∃ g,
      (groups ((Sheet.forSymbols f symbols).engrave pages symbols).drawing)[f.pageOf m.start]? =
        some g ∧
      glyph ((Sheet.forSymbols f symbols).cursor m.start) m.symbol <:+: g.content := by
  have hmap := (Sheet.forSymbols f symbols).plates_map Prod.mk (accepted f symbols)
  have hm : (m.start, glyph ((Sheet.forSymbols f symbols).cursor m.start) m.symbol) ∈
      ((Sheet.forSymbols f symbols).plates (accepted f symbols)).map fun p => (p.start, p.ink) := by
    rw [hmap]
    exact List.mem_map_of_mem h
  obtain ⟨p, hp, he⟩ := List.mem_map.mp hm
  obtain ⟨hstart, hink⟩ := Prod.mk.inj he
  have hpicture : p ∈ (Sheet.forSymbols f symbols).picture symbols := List.mem_append_left _ hp
  have hlt := Sheet.page_lt_pagesBegun hpicture
  rw [hstart, Sheet.forSymbols_format] at hlt
  refine ⟨_, by rw [groups_engrave, List.getElem?_map, List.getElem?_range hlt]; rfl, ?_⟩
  have hon : p ∈ ((Sheet.forSymbols f symbols).picture symbols).filter fun p => f.pageOf p.start ==
      f.pageOf m.start :=
    List.mem_filter.mpr ⟨hpicture, by simp [hstart]⟩
  have hbody : glyph ((Sheet.forSymbols f symbols).cursor m.start) m.symbol <:+:
      (Sheet.forSymbols f symbols).body p := ⟨_, _, by rw [← hink]; rfl⟩
  refine hbody.trans ((List.infix_of_mem_flatten (List.mem_map_of_mem hon)).trans ?_)
  rw [← List.flatMap_def]
  exact ⟨_, _, List.append_assoc _ _ _⟩

theorem marksOf_engrave {r : Role} (hr : r.ofSymbol) (f : PageFormat) (symbols : List Symbol)
    (pages : Int) :
    marksOf r ((Sheet.forSymbols f symbols).engrave pages symbols).drawing =
      ((Sheet.forSymbols f symbols).picture symbols).flatMap fun p =>
        marksOf r (p.ink ++ p.tail) := by
  rw [engrave_drawing, marksOf_append, marksOf_append, Sheet.marksOf_opening hr,
    Sheet.marksOf_endingOf hr, marksOf_flatMap]
  simp only [Sheet.marksOf_marks hr, List.nil_append, List.append_nil]

end Tablature.Engraving
