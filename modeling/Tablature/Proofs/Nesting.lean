import Tablature.Proofs.Invariant

/-!
Pages begin and end in turn. `walk` reads the marks of any drawing and tells whether a page is open
behind them, or that the order is broken. `in_turn_iff` says for which runs of a sheet it is kept: a
symbol beyond the measures that were counted ends the page and leaves it marked as open, so that it
is ended once more. -/
namespace Tablature.Engraving
open Tablature.Music

/-- One mark more, on an open page or not. Pages do not overlap, no page ends that is not open, and
shapes and texts are drawn on a page only. -/
def pass? : Bool → Mark → Option Bool
  | pageOpen, .start _ _ => some pageOpen
  | pageOpen, .finish => some pageOpen
  | false, .openGroup _ _ => some true
  | true, .closeGroup => some false
  | true, .rect _ _ _ _ _ => some true
  | true, .line _ _ _ _ _ => some true
  | true, .circle _ _ _ _ => some true
  | true, .text _ _ _ _ => some true
  | _, _ => none

/-- Whether a page is open behind some marks; nothing if their order is broken. -/
def walk (pageOpen : Bool) (ms : List Mark) : Option Bool := ms.foldlM pass? pageOpen

@[simp] theorem walk_nil (pageOpen : Bool) : walk pageOpen [] = some pageOpen := rfl

theorem walk_cons (pageOpen : Bool) (c : Mark) (ms : List Mark) :
    walk pageOpen (c :: ms) = (pass? pageOpen c).bind fun pageOpen => walk pageOpen ms := rfl

theorem walk_append (pageOpen : Bool) (a b : List Mark) :
    walk pageOpen (a ++ b) = (walk pageOpen a).bind fun pageOpen => walk pageOpen b :=
  List.foldlM_append

theorem pass?_of_onPage {c : Mark} (h : role c ≠ .canvas ∧ role c ≠ .group) :
    pass? true c = some true := by
  cases c with
  | start | finish => exact absurd rfl h.1
  | openGroup | closeGroup => exact absurd rfl h.2
  | rect | line | circle | text => rfl

theorem pass?_false_of_onPage {c : Mark} (h : role c ≠ .canvas ∧ role c ≠ .group) :
    pass? false c = none := by
  cases c with
  | start | finish => exact absurd rfl h.1
  | openGroup | closeGroup => exact absurd rfl h.2
  | rect | line | circle | text => rfl

theorem walk_of_onPage {ms : List Mark} (h : OnPage ms) : walk true ms = some true := by
  induction ms with
  | nil => rfl
  | cons c ms ih =>
    rw [walk_cons, pass?_of_onPage (h c List.mem_cons_self), Option.bind_some]
    exact ih fun c' hc => h c' (List.mem_cons_of_mem c hc)

theorem walk_onPage_append {a : List Mark} (h : OnPage a) (b : List Mark) :
    walk true (a ++ b) = walk true b := by
  rw [walk_append, walk_of_onPage h, Option.bind_some]

theorem walk_false_onPage_append {a : List Mark} (h : OnPage a) {b : List Mark}
    (hb : walk false b = none) :
    walk false (a ++ b) = none := by
  cases a with
  | nil => exact hb
  | cons c a =>
    rw [List.cons_append, walk_cons, pass?_false_of_onPage (h c List.mem_cons_self)]
    rfl

theorem onPage_pageGlyph (height : Int) : OnPage (pageGlyph height) :=
  (allRole_pageGlyph height).onPage (by decide)

theorem onPage_endGlyph : OnPage endGlyph := allRole_endGlyph.onPage (by decide)

/-- A symbol has failed for want of a measure. -/
def Outcome.IsBeyond (o : Outcome) : Prop := ∃ total, o.fault = some (.beyondTotal total)

namespace Sheet
variable (sheet : Sheet)

/-- What some calls draw, whichever of them fail. -/
def drawnBy (s : State) (calls : List Call) : List Mark :=
  (sheet.outcomes s calls).flatMap Outcome.drawn

theorem drawnBy_cons (s : State) (call : Call) (rest : List Call) :
    sheet.drawnBy s (call :: rest) =
      (sheet.perform s call).drawn ++ sheet.drawnBy (sheet.perform s call).state rest :=
  List.flatMap_cons

def addingAndClose (symbols : List Symbol) : List Call := symbols.map .add ++ [.close]

theorem addingAndClose_cons (symbol : Symbol) (symbols : List Symbol) :
    addingAndClose (symbol :: symbols) = .add symbol :: addingAndClose symbols := rfl

variable {sheet} {s : State} {last : Option HalfPixel}

section Sound
variable (h : sheet.Sound s last) (hopen : s.measure ≠ 0 → s.pageOpen = true)
include h hopen

theorem tapers_of_not_pageOpen (ho : s.pageOpen = false) : tapers s.waiting = [] := by
  cases hw : s.waiting with
  | none => rfl
  | some y =>
    have hp := hopen (h.waits y hw).1
    rw [ho] at hp
    cases hp

theorem walk_page (rest : List Mark) :
    walk s.pageOpen (tapers s.waiting ++ (s.closing ++ sheet.origin s.page :: rest)) =
      walk true rest := by
  cases ho : s.pageOpen with
  | true =>
    rw [walk_onPage_append (onPage_tapers _)]
    simp [State.closing, ho, walk_cons, pass?, origin]
  | false =>
    rw [tapers_of_not_pageOpen h hopen ho]
    simp [State.closing, ho, walk_cons, pass?, origin]

/-- What comes before a symbol leaves a page open, unless all measures are used up. -/
theorem walk_boundary (hf : (sheet.boundary s).fault = none) :
    walk s.pageOpen (sheet.boundary s).drawn = some true ∧
    (sheet.boundary s).state.pageOpen = true := by
  have hc := sheet.crossing s
  generalize sheet.boundary s = o at hc hf ⊢
  cases hc with
  | none hb =>
    have ho := hopen fun hm => hb (Or.inl hm)
    exact ⟨congrArg some ho, ho⟩
  | measure hb hl =>
    have ho : s.pageOpen = true := hopen fun hm => by
      have hcounted := h.counted
      rw [hm, h.page_eq_zero hm] at hcounted
      omega
    rw [ho]
    exact ⟨walk_of_onPage ((onPage_tapers _).append (onPage_barGlyph _ _)), ho⟩
  | page hb hl hr =>
    refine ⟨?_, rfl⟩
    simp only [List.append_assoc, List.cons_append]
    rw [walk_page h hopen, walk_of_onPage ((onPage_pageGlyph _).append (onPage_barGlyph _ _))]
  | beyond hb hl hr => cases hf

end Sound

variable (sheet) in
theorem fit_onPage (symbol : Symbol) (s : State) :
    OnPage (sheet.fit symbol s).drawn ∧ (sheet.fit symbol s).state.pageOpen = s.pageOpen ∧
      ¬(sheet.fit symbol s).IsBeyond := by
  have hc := sheet.fitting symbol s
  generalize sheet.fit symbol s = o at hc ⊢
  cases hc with
  | overfull => exact ⟨nofun, rfl, by simp [Outcome.IsBeyond]⟩
  | refused drawn w fault hw hon hf =>
    refine ⟨hon, rfl, ?_⟩
    rintro ⟨total, ht⟩
    exact glyphFault?_ne_beyondTotal symbol total (hf.trans ht)
  | placed drawn w hroom hon hw => exact ⟨hon, rfl, by simp [Outcome.IsBeyond]⟩

variable (sheet) in
theorem isBeyond_add_iff (symbol : Symbol) (s : State) :
    (sheet.add symbol s).IsBeyond ↔ (sheet.boundary s).fault ≠ none := by
  cases hf : (sheet.boundary s).fault with
  | none =>
    have hn := (sheet.fit_onPage symbol (sheet.boundary s).state).2.2
    simpa [add, Outcome.andThen_of_ok hf, Outcome.IsBeyond] using hn
  | some fault =>
    have hc := sheet.crossing s
    rw [add, Outcome.andThen_of_fault hf]
    generalize sheet.boundary s = o at hc hf ⊢
    cases hc with
    | none | measure | page => cases hf
    | beyond hb hl hr => simp [Outcome.IsBeyond]

variable (sheet) in
/-- All measures are used up, and the state takes its ended page for an open one. -/
structure Exhausted (s : State) : Prop where
  atBar : sheet.AtBar s
  left : s.measuresLeft = 0
  remains : sheet.remaining s.page ≤ 0
  pageOpen : s.pageOpen = true

/-- Whatever is called next, it ends the page a second time or draws the end lines outside of it. -/
theorem Exhausted.walk_eq_none (h : sheet.Exhausted s) (symbols : List Symbol) :
    walk false (sheet.drawnBy s (addingAndClose symbols)) = none := by
  cases symbols with
  | nil =>
    have hclose : sheet.drawnBy s (addingAndClose []) =
        tapers s.waiting ++ (endGlyph ++ [.closeGroup, .finish]) := by
      simp [addingAndClose, drawnBy, outcomes, perform, State.close_of_pageOpen h.pageOpen, ending]
    rw [hclose]
    exact walk_false_onPage_append (onPage_tapers _) rfl
  | cons symbol symbols =>
    have hadd : (sheet.add symbol s).drawn = tapers s.waiting ++ [.closeGroup] := by
      rw [add, boundary_of_beyond h.atBar h.left h.remains, Outcome.andThen_of_fault rfl]
      simp [State.closing, h.pageOpen]
    rw [addingAndClose_cons, drawnBy_cons, perform, hadd, List.append_assoc]
    exact walk_false_onPage_append (onPage_tapers _) rfl

section Sound
variable (h : sheet.Sound s last) (hopen : s.measure ≠ 0 → s.pageOpen = true)
include h hopen

theorem walk_add {symbol : Symbol} (hf : ¬(sheet.add symbol s).IsBeyond) :
    walk s.pageOpen (sheet.add symbol s).drawn = some true ∧
    (sheet.add symbol s).state.pageOpen = true := by
  have hn : (sheet.boundary s).fault = none := by
    by_contra hb
    exact hf ((sheet.isBeyond_add_iff symbol s).mpr hb)
  obtain ⟨hw, ho⟩ := walk_boundary h hopen hn
  obtain ⟨hon, hkeep, -⟩ := sheet.fit_onPage symbol (sheet.boundary s).state
  rw [add, Outcome.andThen_of_ok hn]
  refine ⟨?_, hkeep.trans ho⟩
  rw [walk_append, hw, Option.bind_some, walk_of_onPage hon]

theorem walk_add_beyond (htotal : 0 < sheet.total) {symbol : Symbol}
    (hf : (sheet.add symbol s).IsBeyond) :
    walk s.pageOpen (sheet.add symbol s).drawn = some false ∧
    sheet.Exhausted (sheet.add symbol s).state := by
  obtain ⟨fault, hfault⟩ := Option.ne_none_iff_exists'.mp ((sheet.isBeyond_add_iff symbol s).mp hf)
  rw [add, Outcome.andThen_of_fault hfault]
  have hc := sheet.crossing s
  generalize sheet.boundary s = o at hc hfault ⊢
  cases hc with
  | none | measure | page => cases hfault
  | beyond hb hl hr =>
    have ho : s.pageOpen = true := hopen fun hm => by
      rw [h.page_eq_zero hm, remaining] at hr
      simp at hr
      omega
    refine ⟨?_, hb, hl, hr, ho⟩
    rw [ho, walk_onPage_append (onPage_tapers _)]
    simp [State.closing, ho, walk_cons, pass?]

end Sound

theorem walk_close (s : State) : walk s.pageOpen s.close.drawn = some false := by
  cases ho : s.pageOpen with
  | true =>
    rw [State.close_of_pageOpen ho, walk_onPage_append (onPage_tapers _), ending,
      walk_onPage_append onPage_endGlyph]
    rfl
  | false =>
    rw [State.close_of_not_pageOpen ho]
    rfl

/-- By induction on the symbols: as long as each finds a measure the marks keep their order, and the
first that does not breaks it for good. -/
theorem walk_addingAndClose (h : sheet.Sound s last) (hopen : s.measure ≠ 0 → s.pageOpen = true)
    (htotal : 0 < sheet.total) (symbols : List Symbol) :
    walk s.pageOpen (sheet.drawnBy s (addingAndClose symbols)) = some false ↔
      ∀ o ∈ sheet.outcomes s (symbols.map .add), ¬o.IsBeyond := by
  induction symbols generalizing s last with
  | nil =>
    have hclose : sheet.drawnBy s (addingAndClose []) = s.close.drawn := List.append_nil _
    rw [hclose, walk_close]
    simp [outcomes]
  | cons symbol symbols ih =>
    rw [addingAndClose_cons, drawnBy_cons, walk_append, List.map_cons, outcomes,
      List.forall_mem_cons, perform]
    by_cases hf : (sheet.add symbol s).IsBeyond
    · obtain ⟨hw, he⟩ := walk_add_beyond h hopen htotal hf
      rw [hw, Option.bind_some, he.walk_eq_none]
      simp [hf]
    · obtain ⟨hw, ho⟩ := walk_add h hopen hf
      have hrest : walk (sheet.add symbol s).state.pageOpen
            (sheet.drawnBy (sheet.add symbol s).state (addingAndClose symbols)) = some false ↔
          ∀ o ∈ sheet.outcomes (sheet.add symbol s).state (symbols.map .add), ¬o.IsBeyond :=
        ih (h.add symbol) fun _ => ho
      rw [hw, Option.bind_some, ← ho, hrest]
      simp [hf]

variable (sheet) in
theorem drawnBy_of_total_le (htotal : sheet.total ≤ 0) (symbols : List Symbol) :
    sheet.drawnBy {} (addingAndClose symbols) = [.finish] := by
  induction symbols with
  | nil => rfl
  | cons symbol symbols ih =>
    have hr : sheet.remaining ({} : State).page ≤ 0 := by simpa [remaining] using htotal
    have hadd : sheet.add symbol {} = ⟨[], {}, some (.beyondTotal sheet.total)⟩ := by
      rw [add, boundary_of_beyond (Or.inl rfl) rfl hr, Outcome.andThen_of_fault rfl]
      rfl
    rw [addingAndClose_cons, drawnBy_cons, perform, hadd, ih]
    rfl

end Sheet

/-- Symbols are added, whichever of them fail, and the sheet is closed: pages begin and end in turn,
with all shapes and texts on them, if and only if no symbol comes behind the last measure that was
counted, or none was counted. -/
theorem pages_in_turn_iff (sheet : Sheet) (symbols : List Symbol) :
    walk false (sheet.drawnBy {} (Sheet.addingAndClose symbols)) = some false ↔
      sheet.total ≤ 0 ∨ ∀ o ∈ sheet.outcomes {} (symbols.map .add), ¬o.IsBeyond := by
  by_cases htotal : sheet.total ≤ 0
  · rw [sheet.drawnBy_of_total_le htotal]
    simp [htotal, walk_cons, pass?]
  · have hpos : 0 < sheet.total := Int.not_le.mp htotal
    have h :=
      Sheet.walk_addingAndClose (Sheet.Sound.start hpos.le) (fun hm => absurd rfl hm) hpos symbols
    simpa [htotal] using h

/-- Two eighth rests for one measure of one beat: the page is ended by the second rest and once more
by the close. -/
theorem pages_of_two_rests :
    walk false (Sheet.drawnBy ⟨{ beatsPerMeasure := 1, measuresPerPage := 1 }, 1⟩ {}
      (Sheet.addingAndClose [⟨⟨.eighth, false⟩, .rest⟩, ⟨⟨.eighth, false⟩, .rest⟩])) ≠
        some false := by
  decide +kernel

end Tablature.Engraving
