import Mathlib.Data.Nat.Cast.Order.Field
import Tablature.Proofs.PageQuotient
import Tablature.Proofs.Playback

/-!
What can be encoded. Keys are written as one byte and the length of a track as one word, and nothing
else can fail at the tempi that are offered: a score can be written if and only if its keys are
bytes and its track is no longer than a word says (`bytes_ok_iff`). -/
namespace Tablature.Number

theorem nearest?_le {q r : ℚ} (h₀ : 0 ≤ q) (h : nearest? q = some r) : r ≤ 2 * q + 1 := by
  obtain ⟨units, hunits, rfl⟩ := exists_nearestUnits? h
  have hd : (0 : ℚ) < q.den := by exact_mod_cast q.den_pos
  have hu : (0 : ℚ) < unitsPerOne := by exact_mod_cast unitsPerOne_pos
  have hone : (1 : ℚ) ≤ unitsPerOne := by exact_mod_cast unitsPerOne_pos
  have hnum : (q.num.natAbs : ℚ) = q.num := by
    rw [← Int.cast_natCast, Int.natAbs_of_nonneg (Rat.num_nonneg.mpr h₀)]
  have hq : (q.num : ℚ) = q * q.den := (Rat.mul_den_eq_num q).symm
  have hkeep : units ≤ 2 * (q.num.natAbs * unitsPerOne / q.den) + 1 :=
    eq_keepDigits hunits ▸ keepDigits_le _ _
  have hdiv : ((q.num.natAbs * unitsPerOne / q.den : ℕ) : ℚ) ≤ q * unitsPerOne := by
    refine Nat.cast_div_le.trans ?_
    rw [div_le_iff₀ hd]
    push_cast
    rw [hnum, hq]
    exact le_of_eq (by ring)
  have hle : (units : ℚ) ≤ 2 * (q * unitsPerOne) + 1 := by
    have hcast : (units : ℚ) ≤ 2 * ((q.num.natAbs * unitsPerOne / q.den : ℕ) : ℚ) + 1 := by
      exact_mod_cast hkeep
    linarith
  have hsign : ((q.num.sign * units : ℤ) : ℚ) ≤ units := by
    have hle : q.num.sign * (units : ℤ) ≤ units := by
      rcases Int.sign_trichotomy q.num with hs | hs | hs <;> simp [hs]
    exact_mod_cast hle
  rw [Rat.mkRat_eq_div, div_le_iff₀ hu]
  linarith

end Tablature.Number

namespace Tablature.Midi
open Tablature.Music Tablature.Number

/-- A beat at any tempo that is offered, and at any other from one up, has a length that can be
written. -/
theorem exists_tempoEvent {tempo : Nat} (h : 0 < tempo) :
    ∃ length event, beatLength (.exact tempo) = .ok length ∧ tempoEvent? length = some event := by
  have htempo : (1 : ℚ) ≤ tempo := by exact_mod_cast h
  have hq₀ : (0 : ℚ) ≤ 60000000 / tempo := by positivity
  have hq : (60000000 : ℚ) / tempo ≤ 60000000 := div_le_self (by norm_num) htempo
  obtain ⟨r, hr⟩ := Option.isSome_iff_exists.mp (nearest?_isSome hq₀ (hq.trans (by norm_num)))
  have hr₀ := nearest?_nonneg hq₀ hr
  have hle := nearest?_le hq₀ hr
  have hfloor : r.num.tdiv r.den = ⌊r⌋ := by
    rw [Int.tdiv_eq_ediv_of_nonneg (Rat.num_nonneg.mpr hr₀), ← Rat.floor_intCast_div_natCast,
      Rat.num_div_den]
  have hpos : 0 ≤ ⌊r⌋ := Int.floor_nonneg.mpr hr₀
  have hlimit : ⌊r⌋ < wordLimit := by
    apply Int.floor_lt.mpr
    have hword : ((wordLimit : ℤ) : ℚ) = 4294967296 := rfl
    rw [hword]
    linarith
  have hne : (tempo : ℚ) ≠ 0 := by positivity
  refine ⟨⌊r⌋, [0, 0xFF, 0x51, 3] ++ (word ⌊r⌋.toNat).drop 1, ?_, if_pos ⟨hpos, hlimit⟩⟩
  simp only [beatLength, if_neg hne, hr, hfloor]

theorem byte?_eq_some_iff {n : Int} : (∃ b, byte? n = some b) ↔ 0 ≤ n ∧ n < 256 := by
  unfold byte?
  split
  · next h => simp [h]
  · next h => simp [h]

/-- The bytes that events take behind one at a tick: the ticks between, the kind of the event, its
key and its force. -/
def noteBytes : Nat → List Event → Nat
  | _, [] => 0
  | since, e :: rest => (quantity (e.tick - since)).length + 3 + noteBytes e.tick rest

/-- By induction on the events: they can be written one by one, whatever their times. -/
theorem eventBytes?_of_bytes {force : Int} (hforce : 0 ≤ force ∧ force < 256) {events : List Event}
    (h : ∀ e ∈ events, 0 ≤ e.key ∧ e.key < 256) (since : Nat) :
    ∃ bytes, eventBytes? force since events = some bytes ∧
      bytes.length = noteBytes since events := by
  induction events generalizing since with
  | nil => exact ⟨[], rfl, rfl⟩
  | cons e rest ih =>
    obtain ⟨he, hrest⟩ := List.forall_mem_cons.mp h
    obtain ⟨key, hkey⟩ := byte?_eq_some_iff.mpr he
    obtain ⟨strength, hstrength⟩ := byte?_eq_some_iff.mpr hforce
    obtain ⟨others, hothers, hlength⟩ := ih hrest e.tick
    exact ⟨quantity (e.tick - since) ++ [if e.sounding then 0x90 else 0x80, key, strength] ++
      others, by simp only [eventBytes?, Event.bytes?, hkey, hstrength, hothers], by
        simp [noteBytes, hlength]
        omega⟩

theorem bytes_of_eventBytes? {force : Int} {since : Nat} {events : List Event} {bytes : List UInt8}
    (h : eventBytes? force since events = some bytes) :
    (∀ e ∈ events, 0 ≤ e.key ∧ e.key < 256) ∧ bytes.length = noteBytes since events := by
  induction events generalizing since bytes with
  | nil =>
    cases h
    exact ⟨by simp, rfl⟩
  | cons e rest ih =>
    rw [eventBytes?] at h
    split at h
    · next first others hfirst hothers =>
      cases h
      obtain ⟨hkeys, hlength⟩ := ih hothers
      unfold Event.bytes? at hfirst
      split at hfirst
      · next key strength hkey hstrength =>
        cases hfirst
        refine ⟨List.forall_mem_cons.mpr ⟨byte?_eq_some_iff.mp ⟨key, hkey⟩, hkeys⟩, ?_⟩
        simp [noteBytes, hlength]
        omega
      · cases hfirst
    · cases h

section Keys

theorem key_eq {octave step : Int} (hlow : 0 ≤ step) (hup : step < 7) :
    Pitch.key (7 * octave + step) = 60 + octave * 12 + semitones.getD step.toNat 0 := by
  have hdiv : (7 * octave + step) / 7 = octave := by omega
  have hmod : (7 * octave + step) % 7 = step := by omega
  have hkey : Pitch.key (7 * octave + step) =
      60 + (7 * octave + step) / 7 * 12 + semitones.getD ((7 * octave + step) % 7).toNat 0 := rfl
  rw [hkey, hdiv, hmod]

/-- The keys of the pitches that can be written down: none lies below middle C, and the greatest
data byte and the greatest byte bound them. -/
theorem key_bounds {p : Int} (h : 0 ≤ p) :
    60 ≤ Pitch.key p ∧ (Pitch.key p < 128 ↔ p ≤ 39) ∧ (Pitch.key p < 256 ↔ p ≤ 113) := by
  obtain ⟨octave, step, rfl, hlow, hup⟩ :
      ∃ octave step : Int, p = 7 * octave + step ∧ 0 ≤ step ∧ step < 7 :=
    ⟨p / 7, p % 7, by omega, by omega, by omega⟩
  have hsteps : step = 0 ∨ step = 1 ∨ step = 2 ∨ step = 3 ∨ step = 4 ∨ step = 5 ∨ step = 6 := by
    omega
  rw [key_eq hlow hup]
  rcases hsteps with rfl | rfl | rfl | rfl | rfl | rfl | rfl <;> simp [semitones] <;> omega

theorem forall_key_iff (q : Int → Prop) (start : Nat) (symbols : List Symbol) :
    (∀ e ∈ Event.ofSymbols start symbols, q e.key) ↔ ∀ s ∈ symbols, ∀ p ∈ s.pitches, q p.key := by
  have hpitch : ∀ begin halves (p : Pitch),
      (∀ e ∈ Event.ofPitch begin halves p, q e.key) ↔ q p.key := by
    intro begin halves p
    simp [Event.ofPitch]
  induction symbols generalizing start with
  | nil => simp [Event.ofSymbols]
  | cons s rest ih =>
    have hfirst : (∀ e ∈ Event.ofSymbol start s, q e.key) ↔ ∀ p ∈ s.pitches, q p.key := by
      simp only [Event.ofSymbol, List.forall_mem_flatMap, hpitch]
    rw [Event.ofSymbols, List.forall_mem_append, List.forall_mem_cons]
    exact and_congr hfirst (ih (start + s.halves))

end Keys

theorem track?_of_length (events : List UInt8) (h : (events ++ trackEnd).length < wordLimit) :
    ∃ track, track? events = some track := ⟨_, if_pos h⟩

theorem length_of_tempoEvent? {length : Int} {event : List UInt8}
    (h : tempoEvent? length = some event) :
    event.length = 7 := by
  unfold tempoEvent? at h
  split at h
  · cases h
    rfl
  · cases h

def notesLength (events : List Event) : Nat :=
  nameEvent.length + noteBytes 0 events + trackEnd.length

/-- A melody whose tempo can be written can be written if and only if its keys are bytes and its
track is not too long. -/
theorem Melody.bytes_ok_iff {length : Int} {tempoBytes : List UInt8}
    (hevent : tempoEvent? length = some tempoBytes) (events : List Event) :
    (∃ bytes, Melody.bytes ⟨length, 80, events⟩ = .ok bytes) ↔
      (∀ e ∈ events, 0 ≤ e.key ∧ e.key < 256) ∧ notesLength events < wordLimit := by
  constructor
  · rintro ⟨bytes, hbytes⟩
    unfold Melody.bytes at hbytes
    split at hbytes
    · next tracks htracks =>
      obtain ⟨_, notes, _, _, third, -, hnotes, -, -, hthird, -⟩ := tracks?_eq_some htracks
      obtain ⟨hkeys, hcount⟩ := bytes_of_eventBytes? hnotes
      refine ⟨hkeys, ?_⟩
      unfold track? at hthird
      split at hthird
      · next hlt => simpa [notesLength, hcount, Nat.add_assoc] using hlt
      · cases hthird
    · cases hbytes
  · rintro ⟨hkeys, hlimit⟩
    have hforce : (0 : Int) ≤ 80 ∧ (80 : Int) < 256 := by decide
    obtain ⟨notes, hnotes, hcount⟩ := eventBytes?_of_bytes hforce hkeys 0
    obtain ⟨first, hfirst⟩ := track?_of_length tempoBytes (by
      rw [List.length_append, length_of_tempoEvent? hevent]
      decide)
    obtain ⟨second, hsecond⟩ := track?_of_length [] (by decide)
    obtain ⟨third, hthird⟩ := track?_of_length (nameEvent ++ notes)
      (by simpa [notesLength, hcount, Nat.add_assoc] using hlimit)
    refine ⟨header ++ (first ++ (second ++ (third ++ []))), ?_⟩
    simp [Melody.bytes, Melody.tracks?, hevent, hnotes, hfirst, hsecond, hthird]

def trackLength (symbols : List Symbol) : Nat :=
  notesLength ((Event.ofSymbols 0 symbols).mergeSort Event.notAfter)

theorem bytes_ok_iff {tempo : Nat} (htempo : 0 < tempo) {symbols : List Symbol}
    (hknown : ∀ s ∈ symbols, s.sound ≠ .other) :
    (∃ bytes, (Melody.ofSymbols (.exact tempo) 80 symbols).bind Melody.bytes = .ok bytes) ↔
      (∀ s ∈ symbols, ∀ p ∈ s.pitches, 0 ≤ p.key ∧ p.key < 256) ∧
        trackLength symbols < wordLimit := by
  obtain ⟨length, tempoBytes, hlength, hevent⟩ := exists_tempoEvent htempo
  have hany : symbols.any (·.sound == .other) = false := by simpa using hknown
  have hmelody : Melody.ofSymbols (.exact tempo) 80 symbols =
      .ok ⟨length, 80, (Event.ofSymbols 0 symbols).mergeSort Event.notAfter⟩ := by
    simp [Melody.ofSymbols, hlength, hany]
  rw [hmelody, ← forall_key_iff (fun key => 0 ≤ key ∧ key < 256) 0]
  have hsorted := Melody.bytes_ok_iff hevent ((Event.ofSymbols 0 symbols).mergeSort Event.notAfter)
  simp only [List.mem_mergeSort] at hsorted
  exact hsorted

/-- Keys and forces are data bytes: the high bit is for what begins a message. -/
def Message.IsData : Message → Prop
  | .info _ _ => True
  | .noteOn key force | .noteOff key force => (0 ≤ key ∧ key < 128) ∧ 0 ≤ force ∧ force < 128

theorem atTicks_map_snd (now : Nat) (notes : List (Nat × Message)) :
    (atTicks now notes).map Prod.snd = notes.map Prod.snd := by
  induction notes generalizing now with
  | nil => rfl
  | cons note notes ih => simp [atTicks, ih]

/-- Whatever is encoded is a whole file, and its notes are data bytes if and only if the keys of the
score are. -/
theorem exists_file {tempo : Extended} {symbols : List Symbol} {bytes : List UInt8}
    (h : (Melody.ofSymbols tempo 80 symbols).bind Melody.bytes = .ok bytes) :
    ∃ file, readFile bytes = some file ∧
      ((∀ track ∈ file.tracks, ∀ e ∈ track, e.2.IsData) ↔
        ∀ s ∈ symbols, ∀ p ∈ s.pitches, 0 ≤ p.key ∧ p.key < 128) := by
  cases hmelody : Melody.ofSymbols tempo 80 symbols with
  | error f =>
    rw [hmelody] at h
    cases h
  | ok m =>
    rw [hmelody] at h
    obtain ⟨hforce, hevents⟩ := velocity_and_events_of_ofSymbols hmelody
    obtain ⟨beat, notes, hfile, hticks⟩ := readFile_bytes h (hevents ▸ pairwise_tick_of_mergeSort _)
    have hmessages : notes.map Prod.snd = m.events.map (Event.message 80) := by
      rw [← atTicks_map_snd 0, hticks, hforce, List.map_map]
      rfl
    refine ⟨_, hfile, ?_⟩
    have hnotes : (∀ track ∈ (threeTracks beat notes).tracks, ∀ e ∈ track, e.2.IsData) ↔
        ∀ message ∈ notes.map Prod.snd, message.IsData := by
      have hinfo : ∀ kind content, (Message.info kind content).IsData := fun _ _ => trivial
      simp only [threeTracks, endMessage, List.cons_append, List.forall_mem_cons,
        List.forall_mem_append, List.forall_mem_map, List.not_mem_nil, false_implies, implies_true,
        hinfo, true_and, and_true]
    have hevent : ∀ e : Event, (e.message 80).IsData ↔ 0 ≤ e.key ∧ e.key < 128 := by
      intro e
      cases hs : e.sounding <;> simp [Event.message, hs, Message.IsData]
    rw [hnotes, hmessages, List.forall_mem_map]
    simp only [hevent, hevents, List.mem_mergeSort]
    exact forall_key_iff (fun key => 0 ≤ key ∧ key < 128) 0 symbols

end Tablature.Midi
