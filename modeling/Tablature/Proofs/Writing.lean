import Tablature.Proofs.Joining
import Tablature.Proofs.Melodies

/-!
Writing symbols down. What the notation can say is a note from the lowest octave upwards, a chord
whose pitches lie in the two octaves from some octave on, and a rest. The reader answers nothing
else, whatever the tokens are; and `notate` writes any list of such symbols, setting the length and
the octave before each of them, so that it is read back (`read_iff_writable`). -/
namespace Tablature.Notation
open Tablature.Text Tablature.Music

/-- The pitch has a letter in the octave, raised or not. -/
def Within (octave : Nat) (p : Pitch) : Prop := 7 * (octave : Int) ≤ p ∧ p ≤ 7 * octave + 13

/-- What the notation can say. -/
def Writable (s : Symbol) : Prop :=
  match s.sound with
  | .note p => 0 ≤ p
  | .chord ps => ps ≠ [] ∧ ∃ octave, ∀ p ∈ ps, Within octave p
  | .rest => True
  | .other => False

section Reading

theorem stepOf?_lt {text : String} {n : Nat} (h : stepOf? text = some n) : n < stepsPerOctave := by
  unfold stepOf? at h
  split at h
  · exact step?_lt h
  · cases h

theorem readPitch_within {octave : Nat} {t : Token} {feed rest : List Reading} {p : Pitch}
    (h : readPitch octave t feed = (.ok p, rest)) : Within octave p := by
  unfold readPitch at h
  split at h
  · cases h
  · next step hstep =>
    have hlt := stepOf?_lt hstep
    split at h
    · cases h
    · next raised rest' htake =>
      cases h
      simp only [Within, stepsPerOctave, Pitch] at hlt ⊢
      split <;> omega

theorem readChord_within {octave : Nat} {opening : Token} {found ps : List Pitch}
    {feed rest : List Reading} (hfound : ∀ p ∈ found, Within octave p)
    (h : readChord octave opening found feed = (.ok ps, rest)) :
    ps ≠ [] ∧ ∀ p ∈ ps, Within octave p := by
  fun_induction readChord octave opening found feed with
  | case1 | case2 | case3 | case5 | case7 => cases h
  | case4 found t rest' hclose hnotes =>
    cases h
    exact ⟨by simpa using hnotes, hfound⟩
  | case6 found t rest' hclose hletter pitch rest'' hpitch ih =>
    refine ih ?_ h
    intro p hp
    cases List.mem_append.mp hp with
    | inl hp => exact hfound p hp
    | inr hp => exact List.mem_singleton.mp hp ▸ readPitch_within hpitch

theorem writable_of_handle {r r' : Reader} {t : Token} {s : Symbol}
    (h : r.handle t = (.symbol s, r')) :
    Writable s := by
  unfold Reader.handle at h
  split at h
  · split at h
    · next pitch rest hpitch =>
      cases h
      have hwithin := readPitch_within hpitch
      simp only [Writable, Within, Pitch] at hwithin ⊢
      omega
    · cases h
  · split at h
    · next pitches rest hchord =>
      cases h
      obtain ⟨hne, hall⟩ := readChord_within (by simp) hchord
      exact ⟨hne, r.octave, hall⟩
    · cases h
  · cases h
    trivial
  · split at h <;> cases h
  · cases h
  · split at h <;> cases h
  · cases h

theorem writable_of_next {r r' : Reader} {s : Symbol} (h : r.next = (.ok (some s), r')) :
    Writable s := by
  fun_induction Reader.next r with
  | case1 | case2 | case4 => cases h
  | case3 r t rest hfeed s' r'' hhandle =>
    cases h
    exact writable_of_handle hhandle
  | case5 r t rest hfeed r'' hhandle ih => exact ih h

theorem writable_of_all {r : Reader} {a : List Symbol} (h : r.all = .ok a) :
    ∀ s ∈ a, Writable s := by
  fun_induction Reader.all r generalizing a with
  | case1 | case3 => cases h
  | case2 =>
    cases h
    exact nofun
  | case4 r s r' hnext symbols hall ih =>
    cases h
    exact List.forall_mem_cons.mpr ⟨writable_of_next hnext, ih hall⟩

end Reading

def writtenIn (octave : Nat) (p : Pitch) : WrittenNote where
  letter := stepNames.getD ((p - 7 * octave).toNat % 7) 'c'
  raised := decide (7 * (octave : Int) + 7 ≤ p)
  letter_mem := by
    have hall : ∀ i < 7, (stepNames.getD i 'c').toLower ∈ stepNames := by decide
    exact hall _ (Nat.mod_lt _ (by decide))

theorem pitch_writtenIn {octave : Nat} {p : Pitch} (h : Within octave p) :
    (writtenIn octave p).pitch octave = p := by
  have hall : ∀ i < 7, stepNames.idxOf (stepNames.getD i 'c').toLower = i := by decide
  have hidx := hall ((p - 7 * octave).toNat % 7) (Nat.mod_lt _ (by decide))
  simp only [WrittenNote.pitch, writtenIn, hidx]
  simp only [Within, Pitch] at *
  by_cases hraised : 7 * (octave : Int) + 7 ≤ p
  · simp only [hraised, decide_true, if_true]
    omega
  · simp only [hraised, decide_false, Bool.false_eq_true, if_false]
    omega

/-- The octave in which a symbol is written: that of its lowest pitch, or the one in force. -/
def octaveOf (current : Nat) (s : Symbol) : Nat :=
  match s.pitches.min? with
  | some lowest => (lowest / 7).toNat
  | none => current

theorem within_octaveOf {s : Symbol} (h : Writable s) (current : Nat) :
    ∀ p ∈ s.pitches, Within (octaveOf current s) p := by
  obtain ⟨d, sound⟩ := s
  cases sound with
  | note p =>
    have hp : 0 ≤ p := h
    have hoctave : octaveOf current ⟨d, .note p⟩ = (p / 7).toNat := rfl
    intro q hq
    cases List.mem_singleton.mp hq
    simp only [Within, hoctave, Pitch] at hp ⊢
    omega
  | chord ps =>
    obtain ⟨hne, octave, hall⟩ := h
    obtain ⟨lowest, hlowest⟩ : ∃ lowest, ps.min? = some lowest :=
      Option.ne_none_iff_exists'.mp (by simpa using hne)
    obtain ⟨hmem, hle⟩ := List.min?_eq_some_iff.mp hlowest
    have hoctave : octaveOf current ⟨d, .chord ps⟩ = (lowest / 7).toNat := by
      simp [octaveOf, Symbol.pitches, hlowest]
    intro p hp
    have hle := hle p hp
    have hp := hall p hp
    have hl := hall lowest hmem
    simp only [Within, hoctave, Pitch] at hle hp hl ⊢
    omega
  | rest | other => exact nofun

def shifts (current target : Nat) : List Item :=
  List.replicate (target - current) .octaveUp ++ List.replicate (current - target) .octaveDown

def soundItem (octave : Nat) (s : Symbol) : List Item :=
  match s.sound with
  | .note p => [.note (writtenIn octave p)]
  | .chord (p :: ps) => [.chord (writtenIn octave p) (ps.map (writtenIn octave))]
  | .rest => [.rest]
  | _ => []

/-- Symbols as items: each behind its length and the shifts to its octave. -/
def spell : Nat → List Symbol → List Item
  | _, [] => []
  | current, s :: rest =>
    .length s.duration.length s.duration.dotted ::
      (shifts current (octaveOf current s) ++ soundItem (octaveOf current s) s) ++
        spell (octaveOf current s) rest

def notate (a : List Symbol) : String :=
  Token.join ((written (spell 0 a)).map fun content => ⟨content.1, content.2, {}⟩)

theorem meaningBehind_append (before a b : List Item) :
    meaningBehind before (a ++ b) = meaningBehind before a ++ meaningBehind (before ++ a) b := by
  induction a generalizing before with
  | nil => simp [meaningBehind]
  | cons item a ih => simp [meaningBehind_cons, ih]

theorem meaning_append_singleton (items : List Item) (item : Item) :
    meaning (items ++ [item]) = meaning items ++ (item.symbol? items).toList := by
  have happend := meaningBehind_append [] items [item]
  rw [List.nil_append, meaningBehind_cons] at happend
  exact happend.trans (by simp [meaningBehind, meaning])

/-- Some items mean some symbols and leave an octave and a duration in force. -/
structure Says (items : List Item) (a : List Symbol) (octave : Nat) (duration : Duration) :
    Prop where
  balanced : Balanced items
  meaning : meaning items = a
  octave : octaveBehind items = octave
  duration : durationBehind items = duration

theorem says_nil : Says [] [] 0 ⟨.quarter, false⟩ := ⟨balanced_nil, rfl, rfl, rfl⟩

namespace Says
variable {items : List Item} {a : List Symbol} {octave : Nat} {duration : Duration}

theorem append (h : Says items a octave duration) (item : Item) (octave' : Nat)
    (hoctave : (octave : Int) + item.shift = octave') :
    Says (items ++ [item]) (a ++ ((item.sound? octave).map (Symbol.mk duration)).toList) octave'
      (item.duration?.getD duration) := by
  have hbehind : octaveBehind (items ++ [item]) = octave' := by
    rw [octaveBehind_append, h.octave, hoctave]
  refine ⟨h.balanced.append (by omega), ?_, hbehind, ?_⟩
  · rw [meaning_append_singleton, h.meaning, Item.symbol?, h.octave, h.duration]
  · rw [durationBehind_append, h.duration]

theorem append_ups (h : Says items a octave duration) (n : Nat) :
    Says (items ++ List.replicate n .octaveUp) a (octave + n) duration := by
  induction n with
  | zero => simpa using h
  | succ n ih =>
    have hup := ih.append .octaveUp (octave + (n + 1)) (by simp; omega)
    simpa [List.replicate_succ'] using hup

theorem append_downs (h : Says items a octave duration) (n : Nat) (hn : n ≤ octave) :
    Says (items ++ List.replicate n .octaveDown) a (octave - n) duration := by
  induction n with
  | zero => simpa using h
  | succ n ih =>
    have hdown := (ih (by omega)).append .octaveDown (octave - (n + 1)) (by simp; omega)
    simpa [List.replicate_succ'] using hdown

theorem append_shifts (h : Says items a octave duration) (target : Nat) :
    Says (items ++ shifts octave target) a target duration := by
  have hups := h.append_ups (target - octave)
  have hdowns := hups.append_downs (octave - target) (by omega)
  have htarget : octave + (target - octave) - (octave - target) = target := by omega
  rw [htarget, List.append_assoc] at hdowns
  exact hdowns

theorem append_soundItem (h : Says items a octave duration) {s : Symbol} (hs : Writable s)
    (hwithin : ∀ p ∈ s.pitches, Within octave p) (hduration : s.duration = duration) :
    Says (items ++ soundItem octave s) (a ++ [s]) octave duration := by
  obtain ⟨d, sound⟩ := s
  subst hduration
  cases sound with
  | note p =>
    have hpitch := pitch_writtenIn (hwithin p (by simp [Symbol.pitches]))
    have hnote := h.append (.note (writtenIn octave p)) octave (by simp)
    simpa [soundItem, hpitch] using hnote
  | chord ps =>
    cases ps with
    | nil => exact absurd rfl hs.1
    | cons p ps =>
      have hpitches : (writtenIn octave p :: ps.map (writtenIn octave)).map
          (WrittenNote.pitch octave) = p :: ps := by
        have hall : ∀ q ∈ p :: ps, (writtenIn octave q).pitch octave = q :=
          fun q hq => pitch_writtenIn (hwithin q hq)
        have hmap := List.map_congr_left hall
        simpa [Function.comp_def] using hmap
      have hchord :=
        h.append (.chord (writtenIn octave p) (ps.map (writtenIn octave))) octave (by simp)
      rw [Item.sound?, hpitches] at hchord
      exact hchord
  | rest =>
    have hrest := h.append .rest octave (by simp)
    simpa [soundItem] using hrest
  | other => exact hs.elim

/-- By induction on the symbols: behind what has been said, the next symbol is said in its own
length and octave. -/
theorem append_spell (h : Says items a octave duration) {b : List Symbol}
    (hb : ∀ s ∈ b, Writable s) :
    ∃ octave' duration', Says (items ++ spell octave b) (a ++ b) octave' duration' := by
  induction b generalizing items a octave duration with
  | nil => exact ⟨octave, duration, by simpa [spell] using h⟩
  | cons s b ih =>
    obtain ⟨hs, hb⟩ := List.forall_mem_cons.mp hb
    have hlength := h.append (.length s.duration.length s.duration.dotted) octave (by simp)
    have hshifts := hlength.append_shifts (octaveOf octave s)
    have hsound := hshifts.append_soundItem hs (within_octaveOf hs octave) rfl
    obtain ⟨octave', duration', hrest⟩ := ih hsound hb
    exact ⟨octave', duration', by simpa [spell] using hrest⟩

end Says

theorem genuine_of_mem_contents {n : WrittenNote} {content : Kind × String}
    (h : content ∈ n.contents) (place : Place) :
    Token.Genuine ⟨content.1, content.2, place⟩ := by
  rcases List.mem_cons.mp h with rfl | h
  · exact ⟨n.letter, rfl, Kind.ofChar?_of_mem (Kind.mem_characters_of_toLower n.letter_mem)⟩
  · cases hr : n.raised with
    | true =>
      rw [hr] at h
      cases List.mem_singleton.mp h
      exact ⟨'\'', rfl, rfl⟩
    | false =>
      rw [hr] at h
      cases h

theorem genuine_of_mem_written {items : List Item} {content : Kind × String}
    (h : content ∈ written items)
    (place : Place) : Token.Genuine ⟨content.1, content.2, place⟩ := by
  obtain ⟨item, -, h⟩ := List.mem_flatMap.mp h
  cases item with
  | octaveUp =>
    cases List.mem_singleton.mp h
    exact ⟨'>', rfl, rfl⟩
  | octaveDown =>
    cases List.mem_singleton.mp h
    exact ⟨'<', rfl, rfl⟩
  | rest =>
    cases List.mem_singleton.mp h
    exact ⟨'r', rfl, rfl⟩
  | length base dotted =>
    rcases List.mem_cons.mp h with rfl | h
    · cases base
      · exact ⟨'1', rfl, rfl⟩
      · exact ⟨'2', rfl, rfl⟩
      · exact ⟨'4', rfl, rfl⟩
      · exact ⟨'8', rfl, rfl⟩
    · cases dotted with
      | true =>
        cases List.mem_singleton.mp h
        exact ⟨'.', rfl, rfl⟩
      | false => cases h
  | note n => exact genuine_of_mem_contents h place
  | chord first others =>
    rcases List.mem_cons.mp h with rfl | h
    · exact ⟨'(', rfl, rfl⟩
    · cases List.mem_append.mp h with
      | inl h =>
        obtain ⟨n, -, h⟩ := List.mem_flatMap.mp h
        exact genuine_of_mem_contents h place
      | inr h =>
        cases List.mem_singleton.mp h
        exact ⟨')', rfl, rfl⟩

/-- A melody of the grammar, written as a text, is read as what it means. -/
theorem symbols_join_written {items : List Item} (h : Balanced items) :
    symbols (Token.join ((written items).map fun content => ⟨content.1, content.2, {}⟩)) =
      .ok (meaning items) := by
  have hgenuine : ∀ t ∈ (written items).map fun content => (⟨content.1, content.2, {}⟩ : Token),
      t.Genuine := by
    intro t ht
    obtain ⟨content, hcontent, rfl⟩ := List.mem_map.mp ht
    exact genuine_of_mem_written hcontent _
  obtain ⟨again, hagain, hcontent⟩ := tokens_join hgenuine
  have hwritten : again.map Token.content = written items := by
    simpa [Function.comp_def, Token.content] using hcontent
  rw [symbols_of_tokens hagain, ← meaningBehind_nil_left]
  exact @all_of_written [] items again h hwritten

theorem symbols_notate {a : List Symbol} (h : ∀ s ∈ a, Writable s) :
    symbols (notate a) = .ok a := by
  obtain ⟨octave, duration, hsays⟩ := says_nil.append_spell h
  rw [List.nil_append, List.nil_append] at hsays
  rw [notate, symbols_join_written hsays.balanced, hsays.meaning]

example : notate [⟨⟨.quarter, true⟩, .chord [9, 4, 9]⟩, ⟨⟨.eighth, false⟩, .note 15⟩,
    ⟨⟨.eighth, false⟩, .rest⟩] =
    "2 . ( e ' g e ' ) 1 > > d 1 r" := by decide +kernel

/-- Some symbols are read from a text if and only if each of them is a note from the lowest octave
upwards, a chord in the two octaves from some octave on, or a rest. -/
theorem read_iff_writable (a : List Symbol) :
    (∃ text, symbols text = .ok a) ↔ ∀ s ∈ a, Writable s := by
  constructor
  · rintro ⟨text, h⟩
    exact writable_of_all h
  · intro h
    exact ⟨notate a, symbols_notate h⟩

end Tablature.Notation
