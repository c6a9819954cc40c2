import Tablature.Midi.Melody
import Tablature.Proofs.Timeline

/-!
The order of events. The events of a symbol begin and end pitch by pitch; sorted, all of them begin
before the first ends, and no event of one symbol comes behind an event of the next. Sorting is
stable, so within a symbol the pitches keep their order. -/
namespace Tablature.Midi
open Tablature.Music Tablature.Engraving

/-- One element more in front of a sorted list goes behind those that have to come first. -/
theorem mergeSort_cons_of_split {α : Type} {le : α → α → Bool}
    (trans : ∀ a b c, le a b → le b c → le a c) (total : ∀ a b, le a b || le b a)
    {a : α} {l before after : List α} (h : l.mergeSort le = before ++ after)
    (hbefore : ∀ b ∈ before, le a b = false) (hafter : ∀ b ∈ after, le a b = true) :
    (a :: l).mergeSort le = before ++ a :: after := by
  obtain ⟨front, back, hsort, hparts, hfront⟩ := List.mergeSort_cons trans total a l
  have hsorted := List.pairwise_mergeSort trans total (a :: l)
  rw [hsort] at hsorted ⊢
  rw [h] at hparts
  cases List.append_eq_append_iff.mp hparts with
  | inl hlonger =>
    obtain ⟨between, rfl, rfl⟩ := hlonger
    cases between with
    | nil => simp
    | cons b between =>
      have hle := hafter b (by simp)
      have hnot := hfront b (by simp)
      simp [hle] at hnot
  | inr hshorter =>
    obtain ⟨between, rfl, rfl⟩ := hshorter
    cases between with
    | nil => simp
    | cons b between =>
      have hle : le a b = true :=
        List.rel_of_pairwise_cons (List.pairwise_append.mp hsorted).2.1 (by simp)
      have hnot := hbefore b (by simp)
      simp [hle] at hnot

namespace Event

theorem notAfter_iff (a b : Event) :
    notAfter a b = true ↔ a.tick < b.tick ∨
      a.tick = b.tick ∧ (a.sounding = true → b.sounding = true) := by
  cases ha : a.sounding <;> cases hb : b.sounding <;> simp [notAfter, ha, hb]

theorem notAfter_trans (a b c : Event) (hab : notAfter a b = true) (hbc : notAfter b c = true) :
    notAfter a c = true := by
  rw [notAfter_iff] at *
  grind

theorem notAfter_total (a b : Event) : (notAfter a b || notAfter b a) = true := by
  cases ha : a.sounding <;> cases hb : b.sounding <;> simp [notAfter, ha, hb] <;> omega

def begins (time : Nat) (ps : List Pitch) : List Event :=
  ps.map fun p => ⟨ticksPerHalf * time, true, p.key⟩

def ends (time : Nat) (ps : List Pitch) : List Event :=
  ps.map fun p => ⟨ticksPerHalf * time, false, p.key⟩

theorem eq_of_mem_begins {time : Nat} {ps : List Pitch} {e : Event} (h : e ∈ begins time ps) :
    e.tick = ticksPerHalf * time ∧ e.sounding = true := by
  obtain ⟨p, -, rfl⟩ := List.mem_map.mp h
  exact ⟨rfl, rfl⟩

theorem eq_of_mem_ends {time : Nat} {ps : List Pitch} {e : Event} (h : e ∈ ends time ps) :
    e.tick = ticksPerHalf * time ∧ e.sounding = false := by
  obtain ⟨p, -, rfl⟩ := List.mem_map.mp h
  exact ⟨rfl, rfl⟩

/-- An event that has to come behind all events of what ends at a time. -/
def Follows (time : Nat) (e : Event) : Prop :=
  ticksPerHalf * time ≤ e.tick ∧ (e.tick = ticksPerHalf * time → e.sounding = true)

theorem follows_of_mem_ofSymbols {start : Nat} {symbols : List Symbol} {e : Event}
    (h : e ∈ ofSymbols start symbols) :
    Follows start e := by
  induction symbols generalizing start with
  | nil => cases h
  | cons s rest ih =>
    have hpos : 0 < s.halves := s.duration.halves_pos
    cases List.mem_append.mp h with
    | inl hsymbol =>
      obtain ⟨p, -, hp⟩ := List.mem_flatMap.mp hsymbol
      simp only [ofPitch, List.mem_cons, List.not_mem_nil, or_false] at hp
      cases hp with
      | inl hbegin => simp [hbegin, Follows]
      | inr hend =>
        simp only [hend, Follows, ticksPerHalf]
        omega
    | inr hrest =>
      have hfollows := ih hrest
      simp only [Follows, ticksPerHalf] at hfollows ⊢
      omega

theorem Follows.notAfter {time : Nat} {e : Event} (h : Follows time e) (key : Int) :
    notAfter ⟨ticksPerHalf * time, false, key⟩ e = true := by
  have hle := h.1
  rw [notAfter_iff]
  simp only [Bool.false_eq_true, false_implies, and_true]
  omega

theorem notAfter_begin {start time : Nat} (h : start < time) (key : Int) {e : Event}
    (he : ticksPerHalf * time ≤ e.tick) : notAfter ⟨ticksPerHalf * start, true, key⟩ e = true := by
  rw [notAfter_iff]
  simp only [ticksPerHalf] at *
  omega

theorem not_notAfter_end {start time : Nat} (h : start < time) (key : Int) {e : Event}
    (he : e.tick = ticksPerHalf * start) :
    notAfter ⟨ticksPerHalf * time, false, key⟩ e = false := by
  rw [Bool.eq_false_iff, Ne, notAfter_iff]
  simp only [ticksPerHalf] at *
  omega

theorem mergeSort_ofPitches_append {start time : Nat} (h : start < time) (ps : List Pitch)
    {events : List Event} (hevents : ∀ e ∈ events, Follows time e) :
    (ps.flatMap (ofPitch start (time - start)) ++ events).mergeSort notAfter =
      begins start ps ++ (ends time ps ++ events.mergeSort notAfter) := by
  have hlater : ∀ e ∈ events.mergeSort notAfter, Follows time e :=
    fun e he => hevents e (List.mem_mergeSort.mp he)
  have htime : start + (time - start) = time := by omega
  induction ps with
  | nil => rfl
  | cons p ps ih =>
    -- The end of the first pitch goes behind the begins of all the others, and its begin in front
    -- of everything.
    have hend : (⟨ticksPerHalf * time, false, p.key⟩ ::
        (ps.flatMap (ofPitch start (time - start)) ++ events)).mergeSort notAfter =
          begins start ps ++ ⟨ticksPerHalf * time, false, p.key⟩ ::
            (ends time ps ++ events.mergeSort notAfter) := by
      refine mergeSort_cons_of_split notAfter_trans notAfter_total ih ?_ ?_
      · intro e he
        exact not_notAfter_end h p.key (eq_of_mem_begins he).1
      · intro e he
        cases List.mem_append.mp he with
        | inl he => simp [notAfter_iff, (eq_of_mem_ends he).1]
        | inr he => exact (hlater e he).notAfter p.key
    simp only [List.flatMap_cons, ofPitch, htime, List.cons_append, List.nil_append]
    refine mergeSort_cons_of_split notAfter_trans notAfter_total
      (hend.trans (List.nil_append _).symm) nofun ?_
    intro e he
    cases List.mem_append.mp he with
    | inl he => simp [notAfter_iff, eq_of_mem_begins he]
    | inr he =>
      cases List.mem_cons.mp he with
      | inl he => exact notAfter_begin h p.key (he ▸ Nat.le_refl _)
      | inr he =>
        cases List.mem_append.mp he with
        | inl he => exact notAfter_begin h p.key (Nat.le_of_eq (eq_of_mem_ends he).1.symm)
        | inr he => exact notAfter_begin h p.key (hlater e he).1

/-- Sorted, the events of a score stand symbol by symbol, all begins of a symbol in front of its
ends. -/
theorem mergeSort_ofSymbols (start : Nat) (symbols : List Symbol) :
    (ofSymbols start symbols).mergeSort notAfter = (timeline start symbols).flatMap fun m =>
      begins m.start m.symbol.pitches ++ ends (m.start + m.symbol.halves) m.symbol.pitches := by
  induction symbols generalizing start with
  | nil => simp [ofSymbols]
  | cons s rest ih =>
    have hpos : start < start + s.halves := Nat.lt_add_of_pos_right s.duration.halves_pos
    have hrest : ∀ e ∈ ofSymbols (start + s.halves) rest, Follows (start + s.halves) e :=
      fun _ he =>
      follows_of_mem_ofSymbols he
    have hsort := mergeSort_ofPitches_append hpos s.pitches hrest
    rw [Nat.add_sub_cancel_left] at hsort
    rw [ofSymbols, ofSymbol, hsort, ih, timeline_cons, List.flatMap_cons, List.append_assoc]

end Event
end Tablature.Midi
