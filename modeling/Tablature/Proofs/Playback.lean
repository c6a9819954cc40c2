import Tablature.Proofs.Beats
import Tablature.Proofs.Decoding
import Tablature.Proofs.EventOrder

/-!
What a file plays. The bytes of a melody, read back by a reader that knows the format only, are
three tracks; the third plays the score, every symbol at the exact beat at which it starts and for
the beats that it takes. -/
namespace Tablature.Midi
open Tablature.Music Tablature.Number Tablature.Engraving

/-- What a score plays, in ticks from its start: symbol by symbol, all pitches begin, and then all
end. -/
def soundings (force : Int) (symbols : List Symbol) : List (ℚ × Message) :=
  symbols.zipIdx.flatMap fun (s, i) =>
    s.pitches.map (fun p => (480 * startBeat symbols i, .noteOn p.key force)) ++
      s.pitches.map (fun p => (480 * (startBeat symbols i + s.beats), .noteOff p.key force))

def Event.message (force : Int) (e : Event) : Message :=
  if e.sounding then .noteOn e.key force else .noteOff e.key force

theorem Event.message_ne_endMessage (force : Int) (e : Event) : e.message force ≠ endMessage := by
  cases h : e.sounding <;> simp [Event.message, h, endMessage]

theorem toNat_of_byte? {n : Int} {b : UInt8} (h : byte? n = some b) : (b.toNat : Int) = n := by
  unfold byte? at h
  split at h
  · next hn =>
    cases h
    rw [byte_toNat (by omega)]
    omega
  · cases h

theorem readEvent_of_bytes? {force : Int} {since : Nat} {e : Event} {bytes : List UInt8}
    (h : e.bytes? force since = some bytes) (rest : List UInt8) :
    readEvent (bytes ++ rest) = some ((e.tick - since, e.message force), rest) := by
  unfold Event.bytes? at h
  split at h
  · next key strength hkey hforce =>
    cases h
    rw [readEvent, List.append_assoc, readQuantity_quantity]
    cases hs : e.sounding <;>
      simp [readMessage, Event.message, hs, toNat_of_byte? hkey, toNat_of_byte? hforce]
  · cases h

/-- The events of a track are read back, and the ticks between them add up. -/
theorem readEvents_of_eventBytes? {force : Int} {since : Nat} {events : List Event}
    {bytes : List UInt8} (h : eventBytes? force since events = some bytes)
    (hsince : ∀ e ∈ events, since ≤ e.tick)
    (hsorted : events.Pairwise fun e e' => e.tick ≤ e'.tick) :
    ∃ notes, readEvents (bytes ++ trackEnd) = some (notes ++ [(0, endMessage)]) ∧
      atTicks since notes = events.map fun e => (e.tick, e.message force) := by
  induction events generalizing since bytes with
  | nil =>
    cases h
    exact ⟨[], readEvents_trackEnd, rfl⟩
  | cons e events ih =>
    rw [eventBytes?] at h
    split at h
    · next first others hfirst hothers =>
      cases h
      have hsorted := List.pairwise_cons.mp hsorted
      obtain ⟨notes, hread, hticks⟩ := ih hothers hsorted.1 hsorted.2
      refine ⟨(e.tick - since, e.message force) :: notes, ?_, ?_⟩
      · rw [List.append_assoc, readEvents_cons (readEvent_of_bytes? hfirst _)
          (e.message_ne_endMessage force), hread]
        rfl
      · have htick : since + (e.tick - since) = e.tick :=
          Nat.add_sub_cancel' (hsince e List.mem_cons_self)
        rw [atTicks, htick, hticks, List.map_cons]
    · cases h

theorem readTracks_cons {content track : List UInt8} {events : List (Nat × Message)}
    (htrack : track? content = some track)
    (hevents : readEvents (content ++ trackEnd) = some events) (n : Nat) (rest : List UInt8) :
    readTracks (n + 1) (track ++ rest) = (readTracks n rest).map (events :: ·) := by
  unfold track? at htrack
  split at htrack
  · next hlength =>
    cases htrack
    have hmark : trackMark.length = 4 := rfl
    have hchunk := readChunk_append hmark hlength rest
    rw [← List.append_assoc] at hchunk
    rw [readTracks, ← trackMark, hchunk]
    simp only [hevents]
    cases readTracks n rest <;> rfl
  · cases htrack

theorem readFile_header (rest : List UInt8) :
    readFile (header ++ rest) = (readTracks 3 rest).map (⟨1, 960, ·⟩) := by
  have hmark : [(0x4D : UInt8), 0x54, 0x68, 0x64].length = 4 := rfl
  have hlength : [(0 : UInt8), 1, 0, 3, 0x03, 0xC0].length < wordLimit := by decide
  have hchunk : readChunk [0x4D, 0x54, 0x68, 0x64] (header ++ rest) =
      some ([0, 1, 0, 3, 0x03, 0xC0], rest) :=
    readChunk_append hmark hlength rest
  rw [readFile, hchunk]
  rfl

theorem readEvents_tempo {beatLength : Int} {bytes : List UInt8}
    (h : tempoEvent? beatLength = some bytes) :
    readEvents (bytes ++ trackEnd) = some [(0, .info 0x51 ((word beatLength.toNat).drop 1)),
      (0, endMessage)] := by
  unfold tempoEvent? at h
  split at h
  · cases h
    have hread : readEvent ([0, 0xFF, 0x51, 3] ++ (word beatLength.toNat).drop 1 ++ trackEnd) =
        some ((0, .info 0x51 ((word beatLength.toNat).drop 1)), trackEnd) := by
      simp [readEvent, readQuantity, readMessage, word]
    rw [readEvents_cons hread (by simp [endMessage]), readEvents_trackEnd]
    rfl
  · cases h

theorem readEvents_name (rest : List UInt8) :
    readEvents (nameEvent ++ rest) =
      (readEvents rest).map ((0, .info 0x03 [0x4D, 0x65, 0x6C, 0x6F, 0x64, 0x79]) :: ·) := by
  have hread : readEvent (nameEvent ++ rest) =
      some ((0, .info 0x03 [0x4D, 0x65, 0x6C, 0x6F, 0x64, 0x79]), rest) := by
    simp [readEvent, readQuantity, readMessage, nameEvent]
  exact readEvents_cons hread (by decide)

theorem timeline_eq_zipIdx (start : Nat) (symbols : List Symbol) :
    timeline start symbols =
      symbols.zipIdx.map fun (s, i) => ⟨start + totalHalves (symbols.take i), s⟩ := by
  refine List.ext_getElem? fun i => ?_
  rw [timeline_getElem?, List.getElem?_map, List.getElem?_zipIdx]
  cases symbols[i]? with
  | none => rfl
  | some s => simp

theorem cast_ticks (time : Nat) : ((ticksPerHalf * time : Nat) : ℚ) = 480 * ((time : ℚ) / 2) := by
  rw [ticksPerHalf]
  push_cast
  ring

theorem map_begins (force : Int) (time : Nat) (ps : List Pitch) :
    (Event.begins time ps).map (fun e => ((e.tick : ℚ), e.message force)) =
      ps.map fun p => (480 * ((time : ℚ) / 2), .noteOn p.key force) := by
  rw [Event.begins, List.map_map, ← cast_ticks]
  rfl

theorem map_ends (force : Int) (time : Nat) (ps : List Pitch) :
    (Event.ends time ps).map (fun e => ((e.tick : ℚ), e.message force)) =
      ps.map fun p => (480 * ((time : ℚ) / 2), .noteOff p.key force) := by
  rw [Event.ends, List.map_map, ← cast_ticks]
  rfl

theorem soundings_eq (force : Int) (symbols : List Symbol) :
    ((Event.ofSymbols 0 symbols).mergeSort Event.notAfter).map
      (fun e => ((e.tick : ℚ), e.message force)) =
      soundings force symbols := by
  rw [Event.mergeSort_ofSymbols, timeline_eq_zipIdx, List.flatMap_map, List.map_flatMap, soundings]
  refine List.flatMap_congr fun (s, i) _ => ?_
  have hbeats : (((totalHalves (symbols.take i) + s.halves : Nat)) : ℚ) / 2 =
      startBeat symbols i + s.beats := by
    rw [startBeat_eq, beats_eq]
    push_cast
    ring
  simp only [Nat.zero_add]
  rw [List.map_append, map_begins, map_ends, hbeats, startBeat_eq]

theorem pairwise_tick_of_mergeSort (events : List Event) :
    (events.mergeSort Event.notAfter).Pairwise fun e e' => e.tick ≤ e'.tick := by
  refine (List.pairwise_mergeSort Event.notAfter_trans Event.notAfter_total events).imp
    fun {e e'} h => ?_
  have h := (Event.notAfter_iff e e').mp h
  omega

/-- The beat in the first track, nothing in the second, and notes under the name of the melody in
the third. -/
def threeTracks (beat : List UInt8) (notes : List (Nat × Message)) : File where
  format := 1
  division := 960
  tracks :=
    [[(0, .info 0x51 beat), (0, endMessage)],
      [(0, endMessage)],
      (0, .info 0x03 [0x4D, 0x65, 0x6C, 0x6F, 0x64, 0x79]) :: notes ++ [(0, endMessage)]]

theorem tracks?_eq_some {m : Melody} {tracks : List UInt8} (h : m.tracks? = some tracks) :
    ∃ tempo events first second third, tempoEvent? m.beatLength = some tempo ∧
      eventBytes? m.velocity 0 m.events = some events ∧ track? tempo = some first ∧
      track? [] = some second ∧
      track? (nameEvent ++ events) = some third ∧ tracks = first ++ (second ++ (third ++ [])) := by
  unfold Melody.tracks? at h
  split at h
  · next tempo events htempo hevents =>
    simp only [List.mapM_cons, List.mapM_nil, Option.bind_eq_bind, Option.map_eq_some_iff,
      Option.bind_eq_some_iff, Option.pure_def, Option.some.injEq] at h
    obtain ⟨_, ⟨first, hfirst, _,
      ⟨second, hsecond, _, ⟨third, hthird, _, rfl, rfl⟩, rfl⟩, rfl⟩, rfl⟩ := h
    exact ⟨tempo, events, first, second, third, htempo, hevents, hfirst, hsecond, hthird, rfl⟩
  · cases h

/-- The file of a melody whose events stand in the order of time. -/
theorem readFile_bytes {m : Melody} {bytes : List UInt8} (h : m.bytes = .ok bytes)
    (hsorted : m.events.Pairwise fun e e' => e.tick ≤ e'.tick) :
    ∃ (beat : List UInt8) (notes : List (Nat × Message)), readFile bytes =
      some (threeTracks beat notes) ∧
      atTicks 0 notes = m.events.map fun e => (e.tick, e.message m.velocity) := by
  unfold Melody.bytes at h
  split at h
  · next tracks htracks =>
    cases h
    obtain ⟨tempo, events, first, second, third, htempo, hevents, hfirst, hsecond, hthird, rfl⟩ :=
      tracks?_eq_some htracks
    have hsince : ∀ e ∈ m.events, 0 ≤ e.tick := fun e _ => Nat.zero_le _
    obtain ⟨notes, hread, hticks⟩ := readEvents_of_eventBytes? hevents hsince hsorted
    have hmelody : readEvents (nameEvent ++ events ++ trackEnd) =
        some ((0, .info 0x03 [0x4D, 0x65, 0x6C, 0x6F, 0x64, 0x79]) :: notes ++
          [(0, endMessage)]) := by
      rw [List.append_assoc, readEvents_name, hread]
      rfl
    refine ⟨(word m.beatLength.toNat).drop 1, notes, ?_, hticks⟩
    rw [readFile_header, readTracks_cons hfirst (readEvents_tempo htempo),
      readTracks_cons hsecond readEvents_trackEnd, readTracks_cons hthird hmelody]
    rfl
  · cases h

theorem velocity_and_events_of_ofSymbols {tempo : Extended} {force : Int} {symbols : List Symbol}
    {m : Melody} (h : Melody.ofSymbols tempo force symbols = .ok m) :
    m.velocity = force ∧ m.events = (Event.ofSymbols 0 symbols).mergeSort Event.notAfter := by
  unfold Melody.ofSymbols at h
  split at h
  · cases h
  · split at h
    · cases h
    · cases h
      exact ⟨rfl, rfl⟩

/-- Whatever can be written is read back. Every chunk is as long as it declares, three tracks use up
the file, and the third plays the score. -/
theorem plays_as_written {tempo : Extended} {force : Int} {symbols : List Symbol}
    {bytes : List UInt8}
    (h : (Melody.ofSymbols tempo force symbols).bind Melody.bytes = .ok bytes) :
    ∃ (beat : List UInt8) (notes : List (Nat × Message)),
      readFile bytes = some (threeTracks beat notes) ∧
      (atTicks 0 notes).map (fun e => ((e.1 : ℚ), e.2)) = soundings force symbols := by
  cases hm : Melody.ofSymbols tempo force symbols with
  | error f =>
    rw [hm] at h
    cases h
  | ok m =>
    rw [hm] at h
    have hmelody := velocity_and_events_of_ofSymbols hm
    have hsorted : m.events.Pairwise fun e e' => e.tick ≤ e'.tick := by
      rw [hmelody.2]
      exact pairwise_tick_of_mergeSort _
    obtain ⟨beat, notes, hfile, hticks⟩ := readFile_bytes h hsorted
    refine ⟨beat, notes, hfile, ?_⟩
    rw [hticks, hmelody.1, hmelody.2, ← soundings_eq, List.map_map]
    rfl

def repeatedPitch : List Symbol :=
  [⟨⟨.eighth, true⟩, .chord [0, 0]⟩, ⟨⟨.quarter, false⟩, .note 0⟩, ⟨⟨.whole, true⟩, .rest⟩,
    ⟨⟨.eighth, false⟩, .note 0⟩]

theorem plays_repeatedPitch :
    ∃ bytes beat notes,
      (Melody.ofSymbols (.exact 80) 80 repeatedPitch).bind Melody.bytes = .ok bytes ∧
      readFile bytes = some (threeTracks beat notes) ∧
      (atTicks 0 notes).map (fun e => ((e.1 : ℚ), e.2)) =
        [(0, .noteOn 60 80), (0, .noteOn 60 80), (720, .noteOff 60 80), (720, .noteOff 60 80),
          (720, .noteOn 60 80), (1680, .noteOff 60 80), (7440, .noteOn 60 80),
            (7920, .noteOff 60 80)] := by
  have hbeat : beatLength (.exact 80) = .ok 750000 := by decide +kernel
  have hmelody : Melody.ofSymbols (.exact 80) 80 repeatedPitch = .ok ⟨750000, 80,
      [⟨0, true, 60⟩, ⟨0, true, 60⟩, ⟨720, false, 60⟩, ⟨720, false, 60⟩,
        ⟨720, true, 60⟩, ⟨1680, false, 60⟩, ⟨7440, true, 60⟩, ⟨7920, false, 60⟩]⟩ := by
    rw [Melody.ofSymbols, hbeat, Event.mergeSort_ofSymbols]
    decide +kernel
  have hok : ((Melody.ofSymbols (.exact 80) 80 repeatedPitch).bind Melody.bytes).isOk = true := by
    rw [hmelody]
    decide +kernel
  cases hbytes : (Melody.ofSymbols (.exact 80) 80 repeatedPitch).bind Melody.bytes with
  | error f =>
    rw [hbytes] at hok
    cases hok
  | ok bytes =>
    obtain ⟨beat, notes, hfile, hticks⟩ := plays_as_written hbytes
    have hsoundings : soundings 80 repeatedPitch =
        [(0, .noteOn 60 80), (0, .noteOn 60 80), (720, .noteOff 60 80), (720, .noteOff 60 80),
          (720, .noteOn 60 80), (1680, .noteOff 60 80), (7440, .noteOn 60 80),
          (7920, .noteOff 60 80)] := by
      decide +kernel
    exact ⟨bytes, beat, notes, rfl, hfile, hticks.trans hsoundings⟩

end Tablature.Midi
