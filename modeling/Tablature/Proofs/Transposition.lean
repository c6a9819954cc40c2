import Tablature.Engraving.PageFormat
import Tablature.Midi.Melody
import Tablature.Proofs.Letters
import Tablature.Proofs.Relocation

/-!
Transposition. A shift up in front of a melody stands before every item of it, so each item is read
one octave higher and in the same duration (`meaningBehind_octaveUp_cons`). An octave is seven steps
and twelve keys; time does not depend on pitch, so the measures and the ticks of all events stay
what they are (`octave_transposes`). -/
namespace Tablature.Music

def Sound.transpose (steps : Int) : Sound → Sound
  | .note p => .note (p + steps)
  | .chord ps => .chord (ps.map (· + steps))
  | .rest => .rest
  | .other => .other

def Symbol.transpose (steps : Int) (s : Symbol) : Symbol := ⟨s.duration, s.sound.transpose steps⟩

@[simp] theorem Symbol.halves_transpose (steps : Int) (s : Symbol) :
    (s.transpose steps).halves = s.halves := rfl

@[simp] theorem Symbol.pitches_transpose (steps : Int) (s : Symbol) :
    (s.transpose steps).pitches = s.pitches.map (· + steps) := by
  rcases s with ⟨d, p | ps | _ | _⟩ <;> rfl

theorem totalHalves_transpose (steps : Int) (symbols : List Symbol) :
    totalHalves (symbols.map (Symbol.transpose steps)) = totalHalves symbols := by
  induction symbols with
  | nil => rfl
  | cons s rest ih =>
    rw [List.map_cons, totalHalves_cons, totalHalves_cons, ih, Symbol.halves_transpose]

/-- The step of the octave stays, and the octave is the next one. -/
theorem Pitch.key_octave (p : Pitch) : Pitch.key (p + 7) = Pitch.key p + 12 := by
  have hstep : (p + 7 : Int) % stepsPerOctave = p % stepsPerOctave := Int.add_emod_right p 7
  have hoctave : (p + 7 : Int) / stepsPerOctave = p / stepsPerOctave + 1 :=
    Int.add_ediv_of_dvd_right (Int.dvd_refl 7)
  rw [Pitch.key, Pitch.key, hstep, hoctave, Int.add_mul, Int.one_mul]
  simp only [semitonesPerOctave]
  omega

end Tablature.Music

namespace Tablature.Midi
open Tablature.Music Tablature.Number

def Event.raise (semitones : Int) (e : Event) : Event := { e with key := e.key + semitones }

def Melody.raise (semitones : Int) (m : Melody) : Melody :=
  { m with events := m.events.map (Event.raise semitones) }

theorem ofSymbols_octave (start : Nat) (symbols : List Symbol) :
    Event.ofSymbols start (symbols.map (Symbol.transpose 7)) =
      (Event.ofSymbols start symbols).map (Event.raise 12) := by
  have hpitch : ∀ begin halves (p : Pitch),
      Event.ofPitch begin halves (p + 7) = (Event.ofPitch begin halves p).map (Event.raise 12) := by
    intro begin halves p
    simp [Event.ofPitch, Event.raise, Pitch.key_octave]
  induction symbols generalizing start with
  | nil => rfl
  | cons s rest ih =>
    rw [List.map_cons, Event.ofSymbols, Event.ofSymbols, List.map_append, Symbol.halves_transpose,
      ih, Event.ofSymbol, Event.ofSymbol, Symbol.pitches_transpose, Symbol.halves_transpose,
      List.flatMap_map, List.map_flatMap]
    simp only [hpitch]

/-- Sorting looks at the time of an event and not at its key. -/
theorem mergeSort_raise (semitones : Int) (events : List Event) :
    (events.map (Event.raise semitones)).mergeSort Event.notAfter =
      (events.mergeSort Event.notAfter).map (Event.raise semitones) :=
  (List.map_mergeSort (f := Event.raise semitones) fun _ _ _ _ => rfl).symm

theorem any_other_transpose (steps : Int) (symbols : List Symbol) :
    (symbols.map (Symbol.transpose steps)).any (·.sound == .other) =
      symbols.any (·.sound == .other) := by
  rw [List.any_map]
  refine congrArg symbols.any (funext fun s => ?_)
  rcases s with ⟨d, p | ps | _ | _⟩ <;> rfl

theorem melody_octave (tempo : Extended) (force : Int) (symbols : List Symbol) :
    Melody.ofSymbols tempo force (symbols.map (Symbol.transpose 7)) =
      (Melody.ofSymbols tempo force symbols).map (Melody.raise 12) := by
  rw [Melody.ofSymbols, Melody.ofSymbols, any_other_transpose, ofSymbols_octave, mergeSort_raise]
  cases beatLength tempo with
  | error f => rfl
  | ok length => cases symbols.any (·.sound == .other) <;> rfl

end Tablature.Midi

namespace Tablature.Notation
open Tablature.Text Tablature.Number Tablature.Music Tablature.Engraving Tablature.Midi

section Meaning
variable (before : List Item)

theorem octaveBehind_octaveUp_cons :
    octaveBehind (.octaveUp :: before) = octaveBehind before + 1 := by
  have hup : (Item.octaveUp :: before).count .octaveUp = before.count .octaveUp + 1 :=
    List.count_cons_self
  have hdown : (Item.octaveUp :: before).count .octaveDown = before.count .octaveDown :=
    List.count_cons_of_ne (by decide)
  rw [octaveBehind, octaveBehind, hup, hdown]
  omega

theorem durationBehind_octaveUp_cons :
    durationBehind (.octaveUp :: before) = durationBehind before := rfl

theorem pitch_next_octave (octave : Int) (n : WrittenNote) :
    n.pitch (octave + 1) = n.pitch octave + 7 := by
  simp only [WrittenNote.pitch, Pitch]
  omega

theorem sound?_next_octave (octave : Int) (item : Item) :
    item.sound? (octave + 1) = (item.sound? octave).map (Sound.transpose 7) := by
  cases item with
  | octaveUp | octaveDown | length | rest => rfl
  | note n => simp [Sound.transpose, pitch_next_octave]
  | chord first others => simp [Sound.transpose, pitch_next_octave, Function.comp_def]

theorem symbol?_octaveUp_cons (item : Item) :
    item.symbol? (.octaveUp :: before) = (item.symbol? before).map (Symbol.transpose 7) := by
  rw [Item.symbol?, Item.symbol?, octaveBehind_octaveUp_cons, durationBehind_octaveUp_cons,
    sound?_next_octave, Option.map_map, Option.map_map]
  rfl

/-- Behind one more shift up everything means the same, an octave higher. -/
theorem meaningBehind_octaveUp_cons (items : List Item) :
    meaningBehind (.octaveUp :: before) items =
      (meaningBehind before items).map (Symbol.transpose 7) := by
  induction items generalizing before with
  | nil => rfl
  | cons item rest ih =>
    rw [meaningBehind_cons, meaningBehind_cons, List.map_append, symbol?_octaveUp_cons,
      List.cons_append, ih]
    cases item.symbol? before <;> rfl

theorem meaning_octaveUp_cons (items : List Item) :
    meaning (.octaveUp :: items) = (meaning items).map (Symbol.transpose 7) := by
  rw [← meaningBehind_nil_left, meaningBehind_cons]
  exact meaningBehind_octaveUp_cons [] items

theorem Balanced.octaveUp_cons {items : List Item} (h : Balanced items) :
    Balanced (.octaveUp :: items) := by
  refine (balanced_iff _).mpr fun before hb => ?_
  cases before with
  | nil => exact Int.le_refl 0
  | cons item before =>
    obtain ⟨rfl, hrest⟩ := List.cons_prefix_cons.mp hb
    have hnonneg := (balanced_iff items).mp h before hrest
    rw [octaveBehind_octaveUp_cons]
    omega

end Meaning

/-- Where a text begins does not change what is read in it. -/
theorem map_move_scan (inComment : Bool) (line column line' column' : Nat) (s : List Char) :
    (Cursor.scan inComment line column s).map (moveReading fun _ => {}) =
      (Cursor.scan inComment line' column' s).map (moveReading fun _ => {}) := by
  have hreading : ∀ c place place', moveReading (fun _ => {}) (reading c place) =
      moveReading (fun _ => {}) (reading c place') := by
    intro c place place'
    rw [reading, reading]
    cases Kind.ofChar? c <;> rfl
  induction s generalizing inComment line column line' column' with
  | nil => rfl
  | cons c rest ih =>
    rw [Cursor.scan, Cursor.scan]
    split
    · exact ih ..
    · split
      · exact ih ..
      · split
        · exact ih ..
        · split
          · exact ih ..
          · rw [List.map_cons, List.map_cons, hreading, ih]

theorem eq_map_ok_of_map_move {feed : List Reading} {ts : List Token}
    (h : feed.map (moveReading fun _ => {}) = (ts.map .ok).map (moveReading fun _ => {})) :
    ∃ us : List Token, feed = us.map .ok ∧ us.map Token.content = ts.map Token.content := by
  induction ts generalizing feed with
  | nil => exact ⟨[], List.map_eq_nil_iff.mp h, rfl⟩
  | cons t ts ih =>
    obtain ⟨r, feed, rfl, hr, hfeed⟩ := List.map_eq_cons_iff.mp h
    obtain ⟨us, rfl, hus⟩ := ih hfeed
    cases r with
    | error e => cases hr
    | ok u =>
      have hmove : u.move (fun _ => {}) = t.move (fun _ => {}) := Except.ok.inj hr
      have hcontent : (u.move fun _ => {}).content = (t.move fun _ => {}).content :=
        congrArg Token.content hmove
      exact ⟨u :: us, rfl, congrArg₂ List.cons hcontent hus⟩

theorem tokens_octaveUp_append {text : String} {ts : List Token} (h : tokens text = .ok ts) :
    ∃ us, tokens (">" ++ text) = .ok us ∧
      us.map Token.content = (.octaveUp, ">") :: ts.map Token.content := by
  have hscan : readings (">" ++ text) =
      .ok ⟨.octaveUp, String.singleton '>', .known 1 1⟩ :: Cursor.scan false 1 1 text.toList := by
    rw [← Cursor.scan_visible (by decide : Kind.ofChar? '>' = some .octaveUp)]
    rw [readings, Cursor.readings, Cursor.ofText, String.toList_append]
    rfl
  have hmoved := map_move_scan false 1 1 1 0 text.toList
  have htext : Cursor.scan false 1 0 text.toList = ts.map .ok := readings_of_tokens h
  rw [htext] at hmoved
  obtain ⟨us, hus, hcontent⟩ := eq_map_ok_of_map_move hmoved
  refine ⟨⟨.octaveUp, String.singleton '>', .known 1 1⟩ :: us, tokens_of_readings ?_, ?_⟩
  · rw [hscan, hus, List.map_cons]
  · rw [List.map_cons, hcontent]
    rfl

theorem symbols_of_items {text : String} {ts : List Token} {items : List Item}
    (h : tokens text = .ok ts) (hitems : written items = ts.map Token.content)
    (hbalanced : Balanced items) :
    symbols text = .ok (meaning items) := by
  have hall : (readerBehind [] ts).all = .ok (meaning items) := all_of_written hbalanced hitems.symm
  exact (symbols_of_tokens h).trans hall

/-- With a shift up in front, a text that is read is read again: as the same symbols in the same
durations, every pitch seven steps and every key twelve higher. The measures stay as many, and of
the melody nothing changes but the keys. -/
theorem octave_transposes {text : String} {result : List Symbol} (h : symbols text = .ok result) :
    symbols (">" ++ text) = .ok (result.map (Symbol.transpose 7)) ∧
    (∀ s ∈ result, (s.transpose 7).pitches.map Pitch.key = s.pitches.map fun p =>
      Pitch.key p + 12) ∧
    (∀ format : PageFormat, format.measureCount (result.map (Symbol.transpose 7)) =
      format.measureCount result) ∧
    ∀ tempo force, Melody.ofSymbols tempo force (result.map (Symbol.transpose 7)) =
      (Melody.ofSymbols tempo force result).map (Melody.raise 12) := by
  obtain ⟨ts, hts⟩ := tokens_of_symbols h
  obtain ⟨items, hitems, hbalanced, rfl⟩ := items_of_symbols hts h
  obtain ⟨us, hus, hcontent⟩ := tokens_octaveUp_append hts
  have hshifted : written (.octaveUp :: items) = us.map Token.content := by
    rw [hcontent, ← hitems]
    rfl
  refine ⟨?_, fun s _ => ?_, fun format => ?_, fun tempo force => melody_octave tempo force _⟩
  · rw [symbols_of_items hus hshifted hbalanced.octaveUp_cons, meaning_octaveUp_cons]
  · rw [Symbol.pitches_transpose, List.map_map]
    exact List.map_congr_left fun p _ => Pitch.key_octave p
  · rw [PageFormat.measureCount, PageFormat.measureCount, totalHalves_transpose]

/-- A dotted chord, a shift up to a half note and back down to a rest, all of them an octave
higher. -/
theorem symbols_of_raisedChord :
    symbols "1. (C c' C) > 4 e < r" =
        .ok [⟨⟨.eighth, true⟩, .chord [0, 7, 0]⟩, ⟨⟨.half, false⟩, .note 9⟩,
          ⟨⟨.half, false⟩, .rest⟩] ∧
      symbols ">1. (C c' C) > 4 e < r" =
        .ok [⟨⟨.eighth, true⟩, .chord [7, 14, 7]⟩, ⟨⟨.half, false⟩, .note 16⟩,
          ⟨⟨.half, false⟩, .rest⟩] := by
  have h : symbols "1. (C c' C) > 4 e < r" =
      .ok [⟨⟨.eighth, true⟩, .chord [0, 7, 0]⟩, ⟨⟨.half, false⟩, .note 9⟩,
        ⟨⟨.half, false⟩, .rest⟩] := by
    decide +kernel
  exact ⟨h, (octave_transposes h).1⟩

end Tablature.Notation
