import Tablature.Proofs.Beats
import Tablature.Proofs.PageCount
import Tablature.Proofs.Picture

/-!
Which scores are accepted. A score is drawn without a fault if and only if no symbol crosses a bar
line, judged by the exact beats before it, and every pitch has a lane; else the first symbol for
which this fails decides the fault and its message. -/
namespace Tablature.Engraving
open Tablature.Music

/-- The symbol of a number ends in the measure in which it begins. -/
def StaysInMeasure (f : PageFormat) (symbols : List Symbol) (i : Nat) (s : Symbol) : Prop :=
  f.beatInMeasure (startBeat symbols i) + s.beats ≤ f.beatsPerMeasure

instance (f : PageFormat) (symbols : List Symbol) (i : Nat) (s : Symbol) :
    Decidable (StaysInMeasure f symbols i s) :=
  inferInstanceAs (Decidable (_ ≤ _))

/-- All symbols before a number cross no bar line and are in reach. -/
def SoundBefore (f : PageFormat) (symbols : List Symbol) (i : Nat) : Prop :=
  ∀ j < i, ∀ s, symbols[j]? = some s → StaysInMeasure f symbols j s ∧ ∀ p ∈ s.pitches, InReach p

def momentAt (symbols : List Symbol) (i : Nat) (s : Symbol) : Moment :=
  ⟨totalHalves (symbols.take i), s⟩

theorem staysInMeasure_iff_fits (f : PageFormat) (symbols : List Symbol) (i : Nat) (s : Symbol) :
    StaysInMeasure f symbols i s ↔ (momentAt symbols i s).Fits f := by
  rw [StaysInMeasure, startBeat_eq, f.beatInMeasure_eq, beats_eq, Moment.Fits,
    ← Nat.cast_le (α := ℚ), Nat.cast_add, f.cast_measureHalves]
  change _ ↔ (f.sinceBar (totalHalves (symbols.take i)) : ℚ) + (s.halves : ℚ) ≤ _
  constructor <;> intro h <;> linarith

theorem accepted_momentAt_iff {f : PageFormat} {symbols : List Symbol} {i : Nat} {s : Symbol}
    (hs : s.Playable) :
    (momentAt symbols i s).Accepted f ↔
      StaysInMeasure f symbols i s ∧ ∀ p ∈ s.pitches, InReach p := by
  rw [staysInMeasure_iff_fits]
  exact and_congr_right fun _ => and_iff_right hs

theorem timeline_getElem?_eq (symbols : List Symbol) (i : Nat) :
    (timeline 0 symbols)[i]? = symbols[i]?.map (momentAt symbols i) := by
  simp only [timeline_getElem?, Nat.zero_add]
  rfl

theorem refused?_eq_none_iff (f : PageFormat) (symbols : List Symbol) :
    refused? f symbols = none ↔ ∀ i s, symbols[i]? = some s →
      (momentAt symbols i s).Accepted f := by
  rw [refused?, List.find?_eq_none]
  constructor
  · intro h i s hs
    have hm : (timeline 0 symbols)[i]? = some (momentAt symbols i s) := by
      rw [timeline_getElem?_eq, hs]
      rfl
    simpa using h _ (List.mem_of_getElem? hm)
  · intro h m hm
    obtain ⟨i, hi⟩ := List.mem_iff_getElem?.mp hm
    rw [timeline_getElem?_eq] at hi
    obtain ⟨s, hs, rfl⟩ := Option.map_eq_some_iff.mp hi
    simpa using h i s hs

theorem refused?_eq_some {f : PageFormat} {symbols : List Symbol} {i : Nat} {s : Symbol}
    (hs : symbols[i]? = some s) (hn : ¬(momentAt symbols i s).Accepted f)
    (hb : ∀ j < i, ∀ u, symbols[j]? = some u → (momentAt symbols j u).Accepted f) :
    refused? f symbols = some (momentAt symbols i s) := by
  have hm : (timeline 0 symbols)[i]? = some (momentAt symbols i s) := by
    rw [timeline_getElem?_eq, hs]
    rfl
  obtain ⟨hi, hget⟩ := List.getElem?_eq_some_iff.mp hm
  rw [refused?, List.find?_eq_some_iff_getElem]
  refine ⟨by simpa using hn, i, hi, hget, ?_⟩
  intro j hj
  have hlen : j < (timeline 0 symbols).length := by omega
  have hju := List.getElem?_eq_getElem hlen
  rw [timeline_getElem?_eq] at hju
  obtain ⟨u, hu, he⟩ := Option.map_eq_some_iff.mp hju
  rw [← he]
  simpa using hb j hj u hu

theorem addAll_take_fault (f : PageFormat) (symbols : List Symbol) (n : Nat) :
    ((Sheet.forSymbols f symbols).addAll (symbols.take n) {}).fault =
      (refused? f (symbols.take n)).bind (Moment.fault? f) := by
  have hle : totalHalves (symbols.take n) ≤ totalHalves symbols := by
    have h := congrArg totalHalves (List.take_append_drop n symbols)
    rw [totalHalves_append] at h
    omega
  have hh : (Sheet.forSymbols f symbols).Holds (symbols.take n) := fun t ht =>
    Sheet.forSymbols_holds symbols f t (by omega)
  exact (Sheet.addAll_eq_picture hh).2.1

theorem soundBefore_iff {f : PageFormat} {symbols : List Symbol} (hp : ∀ s ∈ symbols, s.Playable)
    (i : Nat) :
    SoundBefore f symbols i ↔ ∀ j < i, ∀ s, symbols[j]? = some s →
      (momentAt symbols j s).Accepted f := by
  have hs : ∀ (j : Nat) (s : Symbol), symbols[j]? = some s → s.Playable :=
    fun j s h => hp s (List.mem_of_getElem? h)
  constructor
  · intro h j hj s hget
    exact (accepted_momentAt_iff (hs j s hget)).mpr (h j hj s hget)
  · intro h j hj s hget
    exact (accepted_momentAt_iff (hs j s hget)).mp (h j hj s hget)

/-- Before the first refused symbol all are added without a fault, and that symbol has the fault of
the score. -/
theorem addAll_take_of_first {f : PageFormat} {symbols : List Symbol} {i : Nat} {s : Symbol}
    (hs : symbols[i]? = some s) (hn : ¬(momentAt symbols i s).Accepted f)
    (hb : ∀ j < i, ∀ u, symbols[j]? = some u → (momentAt symbols j u).Accepted f) (pages : Int) :
    ((Sheet.forSymbols f symbols).addAll (symbols.take i) {}).fault = none ∧
      ((Sheet.forSymbols f symbols).addAll (symbols.take (i + 1)) {}).fault =
        (momentAt symbols i s).fault? f ∧
      ((Sheet.forSymbols f symbols).engrave pages symbols).fault =
        (momentAt symbols i s).fault? f := by
  have htake : ∀ n j, j < n → (symbols.take n)[j]? = symbols[j]? :=
    fun n j hj => List.getElem?_take_of_lt hj
  have hmoment : ∀ n j u, j ≤ n → momentAt (symbols.take n) j u = momentAt symbols j u := by
    intro n j u hj
    rw [momentAt, List.take_take, Nat.min_eq_left hj]
    rfl
  have hbefore : ∀ n, i ≤ n → ∀ j < i, ∀ u, (symbols.take n)[j]? = some u →
      (momentAt (symbols.take n) j u).Accepted f := by
    intro n hn j hj u hu
    rw [htake n j (by omega)] at hu
    rw [hmoment n j u (by omega)]
    exact hb j hj u hu
  refine ⟨?_, ?_, ?_⟩
  · have hnone : refused? f (symbols.take i) = none := by
      rw [refused?_eq_none_iff]
      intro j u hu
      have hj : j < i := by
        obtain ⟨hlt, -⟩ := List.getElem?_eq_some_iff.mp hu
        rw [List.length_take] at hlt
        omega
      exact hbefore i (Nat.le_refl i) j hj u hu
    rw [addAll_take_fault, hnone]
    rfl
  · have hfirst := refused?_eq_some ((htake (i + 1) i (by omega)).trans hs)
      (by rw [hmoment (i + 1) i s (by omega)]; exact hn) (hbefore (i + 1) (by omega))
    rw [addAll_take_fault, hfirst, hmoment (i + 1) i s (by omega)]
    rfl
  · rw [engrave_fault, refused?_eq_some hs hn hb]
    rfl

/-- A score is accepted if and only if every symbol stays in its measure and in reach. Else the
first symbol for which this fails is the one that is refused: for crossing a bar line, with the
beats that its measure would hold, and otherwise for its first pitch without a lane. -/
theorem accepted_iff_sound_and_first_fault (f : PageFormat) (symbols : List Symbol)
    (hplay : ∀ s ∈ symbols, s.Playable) (hcount : f.measureCount symbols ≤ 2 ^ 53) :
    ∃ score, engrave? f symbols = some score ∧
      (score.fault = none ↔
        ∀ i s, symbols[i]? = some s → StaysInMeasure f symbols i s ∧ ∀ p ∈ s.pitches, InReach p) ∧
      ∀ i s, symbols[i]? = some s → SoundBefore f symbols i →
        ¬(StaysInMeasure f symbols i s ∧ ∀ p ∈ s.pitches, InReach p) →
        (score.sheet.addAll (symbols.take i) {}).fault = none ∧
        (score.sheet.addAll (symbols.take (i + 1)) {}).fault = score.fault ∧
        (¬StaysInMeasure f symbols i s →
          ∃ measure received, score.fault = some (.overfull f.beatsPerMeasure measure received) ∧
            (Fault.overfull f.beatsPerMeasure measure received).message =
              "Expected " ++ toString f.beatsPerMeasure ++ " beats in measure " ++
                toString (f.measureOfBeat (startBeat symbols i) + 1) ++ ", received " ++
                fractionText (f.beatInMeasure (startBeat symbols i) + s.beats) ++ ".") ∧
        (StaysInMeasure f symbols i s →
          ∃ p, s.pitches.find? (fun p => ¬InReach p) = some p ∧ score.fault = some (.outOfRange p) ∧
            (Fault.outOfRange p).message = "Pitch " ++ toString p ++ " out of range.") := by
  obtain ⟨pages, hscore⟩ := engrave?_eq_some hcount
  have hs : ∀ (i : Nat) (s : Symbol), symbols[i]? = some s → s.Playable :=
    fun i s h => hplay s (List.mem_of_getElem? h)
  refine ⟨_, hscore, ?_, ?_⟩
  · rw [engrave_fault_eq_none_iff, refused?_eq_none_iff]
    exact forall_congr' fun i => forall_congr' fun s => imp_congr_right fun h =>
      accepted_momentAt_iff (hs i s h)
  · intro i s hget hbefore hviolates
    have hn : ¬(momentAt symbols i s).Accepted f :=
      mt (accepted_momentAt_iff (hs i s hget)).mp hviolates
    obtain ⟨htake, hnext, hfault⟩ :=
      addAll_take_of_first hget hn ((soundBefore_iff hplay i).mp hbefore) pages
    refine ⟨htake, hnext.trans hfault.symm, ?_, ?_⟩
    · intro hcross
      have hfit : ¬(momentAt symbols i s).Fits f :=
        mt (staysInMeasure_iff_fits f symbols i s).mpr hcross
      refine ⟨_, _, by rw [hfault, Moment.fault?, if_neg hfit], ?_⟩
      have hb : f.beatInMeasure (startBeat symbols i) + s.beats =
          ((f.sinceBar (totalHalves (symbols.take i)) + s.halves : Nat) : ℚ) / 2 := by
        rw [startBeat_eq, f.beatInMeasure_eq, beats_eq]
        push_cast
        ring
      rw [hb, ← beatsText_eq, startBeat_eq, f.measureOfBeat_eq]
      rfl
    · intro hstays
      have hfit : (momentAt symbols i s).Fits f := (staysInMeasure_iff_fits f symbols i s).mp hstays
      have hreach : ¬∀ p ∈ s.pitches, InReach p := fun h => hviolates ⟨hstays, h⟩
      obtain ⟨p, hp⟩ : ∃ p, s.pitches.find? (fun p => ¬InReach p) = some p := by
        apply Option.isSome_iff_exists.mp
        rw [List.find?_isSome]
        by_contra h
        exact hreach (by simpa using h)
      refine ⟨p, hp, ?_, rfl⟩
      rw [hfault, Moment.fault?, if_pos hfit]
      exact glyphFault?_of_find? (hs i s hget) hp

def overfullSymbols : List Symbol := [⟨⟨.eighth, true⟩, .note 2⟩, ⟨⟨.whole, false⟩, .chord [4, 17]⟩]

/-- The chord has too little room, and its pitches are not looked at. -/
theorem fault_of_overfullSymbols :
    ∃ score, engrave? {} overfullSymbols = some score ∧
      score.fault.map Fault.message = some "Expected 8 beats in measure 1, received 19/2." := by
  obtain ⟨score, hscore, -, hfirst⟩ :=
    accepted_iff_sound_and_first_fault {} overfullSymbols (by decide)
    (by decide +kernel)
  have hbefore : SoundBefore {} overfullSymbols 1 := by
    intro j hj s hs
    obtain rfl : j = 0 := by omega
    obtain rfl : _ = s := Option.some.inj hs
    decide +kernel
  have hcross : ¬StaysInMeasure {} overfullSymbols 1 ⟨⟨.whole, false⟩, .chord [4, 17]⟩ := by
    decide +kernel
  obtain ⟨-, -, hfault, -⟩ := hfirst 1 _ rfl hbefore fun h => hcross h.1
  obtain ⟨measure, received, hf, hmessage⟩ := hfault hcross
  refine ⟨score, hscore, ?_⟩
  rw [hf, Option.map_some, hmessage]
  decide +kernel

end Tablature.Engraving
