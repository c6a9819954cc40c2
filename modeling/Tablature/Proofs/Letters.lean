import Tablature.Proofs.Lines
import Tablature.Proofs.Melodies
import Tablature.Proofs.Pulling

/-!
Letters and pitches. A shift or a raise mark moves a pitch by whole octaves, so its step still tells
the letter that was typed. The names of all pitches that a text stands for are its note letters in
capitals, one for one and in their order, those of chords among them (`names_of_symbols`). -/
namespace Tablature.Notation
open Tablature.Music

/-- The name of the step of a pitch, in capitals. -/
def pitchName (p : Pitch) : String :=
  String.singleton (stepNames.getD (p % stepsPerOctave).toNat 'c').toUpper

/-- A note letter in capitals. -/
def typedName? (content : Kind × String) : Option String :=
  if content.1 = .noteLetter then some content.2.toUpper else none

theorem WrittenNote.pitch_emod (octave : Int) (n : WrittenNote) :
    n.pitch octave % stepsPerOctave = stepNames.idxOf n.letter.toLower := by
  have hstep : stepNames.idxOf n.letter.toLower < 7 := List.idxOf_lt_length_iff.mpr n.letter_mem
  simp only [WrittenNote.pitch, stepsPerOctave, Pitch]
  split <;> omega

theorem pitchName_pitch (octave : Int) (n : WrittenNote) :
    pitchName (n.pitch octave) = (String.singleton n.letter).toUpper := by
  have hall : Kind.noteLetter.characters.all (fun c =>
      String.singleton (stepNames.getD (stepNames.idxOf c.toLower) 'c').toUpper =
      (String.singleton c).toUpper) := by
    decide +kernel
  rw [pitchName, n.pitch_emod, Int.toNat_natCast]
  exact of_decide_eq_true (List.all_eq_true.mp hall n.letter
    (Kind.mem_characters_of_toLower n.letter_mem))

theorem WrittenNote.typedNames (octave : Int) (n : WrittenNote) :
    n.contents.filterMap typedName? = [pitchName (n.pitch octave)] := by
  rw [pitchName_pitch]
  cases hraised : n.raised <;> simp [WrittenNote.contents, optional, hraised, typedName?]

theorem WrittenNote.typedNames_flatMap (octave : Int) (notes : List WrittenNote) :
    (notes.flatMap WrittenNote.contents).filterMap typedName? =
      (notes.map (WrittenNote.pitch octave)).map pitchName := by
  induction notes with
  | nil => rfl
  | cons n notes ih =>
    rw [List.flatMap_cons, List.filterMap_append, ih, n.typedNames octave]
    rfl

/-- The letters of an item name the pitches of its symbol, whatever stands before it. -/
theorem Item.typedNames (before : List Item) (item : Item) :
    item.contents.filterMap typedName? = (item.symbol? before).toList.flatMap fun s =>
      s.pitches.map pitchName := by
  cases item with
  | octaveUp | octaveDown | rest => rfl
  | length base dotted => cases dotted <;> rfl
  | note n =>
    rw [Item.contents, n.typedNames (octaveBehind before)]
    rfl
  | chord first others =>
    have hnotes := WrittenNote.typedNames_flatMap (octaveBehind before) (first :: others)
    have hchord : (Item.chord first others).contents.filterMap typedName? =
        ((first :: others).flatMap WrittenNote.contents).filterMap typedName? := by
      simp [Item.contents, typedName?]
    rw [hchord, hnotes]
    simp [Item.symbol?, Symbol.pitches]

theorem names_of_meaningBehind (before items : List Item) :
    ((meaningBehind before items).flatMap fun s => s.pitches.map pitchName) =
      (written items).filterMap typedName? := by
  induction items generalizing before with
  | nil => rfl
  | cons item rest ih =>
    have hwritten : written (item :: rest) = item.contents ++ written rest := rfl
    rw [meaningBehind_cons, List.flatMap_append, ih, hwritten, List.filterMap_append,
      item.typedNames before]

section Text
variable {text : String} {symbols : List Symbol}

theorem tokens_of_symbols (h : Notation.symbols text = .ok symbols) :
    ∃ ts, tokens text = .ok ts := by
  cases hts : untilError (readings text) with
  | mk ts error =>
    cases error with
    | none => exact ⟨ts, by rw [tokens, hts]⟩
    | some e =>
      rcases refused_or_scan hts with ⟨cause, place, -, -, herror⟩ | ⟨-, herror⟩
      · cases h.symm.trans herror
      · cases h.symm.trans herror

theorem items_of_symbols {ts : List Token} (hts : tokens text = .ok ts)
    (h : Notation.symbols text = .ok symbols) :
    ∃ items, written items = ts.map Token.content ∧ Balanced items ∧ symbols = meaning items := by
  have hall : (readerBehind [] ts).all = .ok symbols := (symbols_of_tokens hts).symm.trans h
  obtain ⟨items, hitems, hbalanced⟩ := written_of_all balanced_nil (scanned_of_tokens hts) hall
  exact ⟨items, hitems, hbalanced,
    Except.ok.inj (hall.symm.trans (all_of_written hbalanced hitems.symm))⟩

theorem names_of_symbols {ts : List Token} (hts : tokens text = .ok ts)
    (h : Notation.symbols text = .ok symbols) :
    (symbols.flatMap fun s => s.pitches.map pitchName) =
      (ts.filter fun t => t.kind = .noteLetter).map fun t => t.text.toUpper := by
  obtain ⟨items, hitems, -, rfl⟩ := items_of_symbols hts h
  rw [← meaningBehind_nil_left, names_of_meaningBehind, hitems, List.filterMap_map,
    ← List.filterMap_eq_map, List.filterMap_filter]
  refine List.filterMap_congr fun t _ => ?_
  by_cases hkind : t.kind = .noteLetter <;> simp [typedName?, Token.content, hkind]

end Text
end Tablature.Notation
