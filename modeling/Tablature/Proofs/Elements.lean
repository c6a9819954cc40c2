import Tablature.Proofs.Grammar

/-!
Reading the elements of an item. For each of them there are two statements. What is written is read:
a note, a chord or a length in front of anything that cannot belong to it is taken off as a whole.
What is read was written: on tokens of a text, an element that does not fail has taken off a note, a
chord or a length of the grammar. -/
namespace Tablature.Notation
open Tablature.Text Tablature.Music

/-- A mark that may be left out is taken if it is there, and nothing else is taken in its place. -/
theorem takeKind_optional {kind : Kind} {text : String} {present : Bool} {ts : List Token}
    {after : List (Kind × String)}
    (h : ts.map Token.content = optional present (kind, text) ++ after)
    (hafter : ∀ c ∈ after.head?, c.1 ≠ kind) :
    ∃ rest : List Token, rest.map Token.content = after ∧
      takeKind kind (ts.map .ok) = (.ok present, rest.map .ok) := by
  cases present with
  | true =>
    obtain ⟨t, rest, rfl, ht, hrest⟩ := List.map_eq_cons_iff.mp h
    have hkind : t.kind = kind := congrArg Prod.fst ht
    exact ⟨rest, hrest, by simp [takeKind, hkind]⟩
  | false =>
    refine ⟨ts, h, ?_⟩
    cases ts with
    | nil => rfl
    | cons t ts =>
      have hkind : t.kind ≠ kind := hafter t.content (by rw [← show _ = after from h]; rfl)
      simp [takeKind, hkind]

theorem takeKind_scanned {kind : Kind} {text : String} {ts : List Token} (hts : ∀ t ∈ ts, Scanned t)
    (hkind : ∀ t, Scanned t → t.kind = kind → t.text = text) :
    ∃ (present : Bool) (rest : List Token), (∀ t ∈ rest, Scanned t) ∧
      ts.map Token.content = optional present (kind, text) ++ rest.map Token.content ∧
      takeKind kind (ts.map .ok) = (.ok present, rest.map .ok) := by
  cases ts with
  | nil => exact ⟨false, [], hts, rfl, rfl⟩
  | cons t rest =>
    by_cases h : t.kind = kind
    · have htext := hkind t (hts t List.mem_cons_self) h
      refine ⟨true, rest, fun t' ht' => hts t' (List.mem_cons_of_mem t ht'),
        ?_, by simp [takeKind, h]⟩
      simp [optional, Token.content, h, htext]
    · exact ⟨false, t :: rest, hts, rfl, by simp [takeKind, h]⟩

theorem readPitch_of_take (octave : Nat) {n : WrittenNote} {t : Token} {feed feed' : List Reading}
    (htext : t.text = String.singleton n.letter)
    (htake : takeKind .raiseMark feed = (.ok n.raised, feed')) :
    readPitch octave t feed = (.ok (n.pitch octave), feed') := by
  have hstep : stepOf? t.text = some (stepNames.idxOf n.letter.toLower) := by
    simp [htext, stepOf?, step?_eq n.letter_mem]
  cases hr : n.raised <;> simp [readPitch, hstep, htake, WrittenNote.pitch, stepsPerOctave,
    hr, Int.mul_comm]

theorem readPitch_written (octave : Nat) {n : WrittenNote} {t : Token} {ts : List Token}
    {after : List (Kind × String)} (h : (t :: ts).map Token.content = n.contents ++ after)
    (hafter : ∀ c ∈ after.head?, c.1 ≠ .raiseMark) :
    ∃ rest : List Token, rest.map Token.content = after ∧
      readPitch octave t (ts.map .ok) = (.ok (n.pitch octave), rest.map .ok) := by
  have htext : t.text = String.singleton n.letter := congrArg Prod.snd (List.cons.inj h).1
  obtain ⟨rest, hrest, htake⟩ := takeKind_optional (List.cons.inj h).2 hafter
  exact ⟨rest, hrest, readPitch_of_take octave htext htake⟩

theorem readPitch_scanned (octave : Nat) {c : Char} (hc : c.toLower ∈ stepNames) (place : Place)
    {ts : List Token} (hts : ∀ t ∈ ts, Scanned t) :
    ∃ (n : WrittenNote) (rest : List Token), (∀ t ∈ rest, Scanned t) ∧
      (.noteLetter, String.singleton c) :: ts.map Token.content =
        n.contents ++ rest.map Token.content ∧
      readPitch octave ⟨.noteLetter, String.singleton c, place⟩ (ts.map .ok) =
        (.ok (n.pitch octave), rest.map .ok) := by
  obtain ⟨raised, rest, hrest, hcontents, htake⟩ :=
    takeKind_scanned hts fun t ht => ht.text_of_raiseMark
  refine ⟨⟨c, raised, hc⟩, rest, hrest, ?_, readPitch_of_take octave rfl htake⟩
  rw [hcontents]
  rfl

theorem readChord_letter {octave : Nat} {opening t : Token} {found : List Pitch}
    {feed feed' : List Reading} {pitch : Pitch} (hkind : t.kind = .noteLetter)
    (hpitch : readPitch octave t feed = (.ok pitch, feed')) :
    readChord octave opening found (.ok t :: feed) =
      readChord octave opening (found ++ [pitch]) feed' := by
  rw [readChord]
  simp only [hkind, reduceCtorEq, if_false, if_true]
  split
  · next e rest heq =>
    rw [hpitch] at heq
    cases heq
  · next p rest heq =>
    rw [hpitch] at heq
    cases heq
    rfl

theorem readChord_other {octave : Nat} {opening t : Token} {found : List Pitch}
    {feed : List Reading} (hclose : t.kind ≠ .chordClose) (hletter : t.kind ≠ .noteLetter) :
    readChord octave opening found (.ok t :: feed) =
      (.error (.refused (.insideChord t.text) t.place), feed) := by
  rw [readChord]
  simp [hclose, hletter]

theorem readChord_written (octave : Nat) (opening : Token) {notes : List WrittenNote}
    {found : List Pitch} {ts : List Token} {after : List (Kind × String)}
    (h : ts.map Token.content = notes.flatMap WrittenNote.contents ++ (.chordClose, ")") :: after)
    (hfound : found ≠ [] ∨ notes ≠ []) :
    ∃ rest : List Token, rest.map Token.content = after ∧
      readChord octave opening found (ts.map .ok) =
        (.ok (found ++ notes.map (WrittenNote.pitch octave)), rest.map .ok) := by
  induction notes generalizing found ts with
  | nil =>
    obtain ⟨t, rest, rfl, ht, hrest⟩ := List.map_eq_cons_iff.mp h
    have hkind : t.kind = .chordClose := congrArg Prod.fst ht
    have hfound : found ≠ [] := hfound.resolve_right (fun h => h rfl)
    refine ⟨rest, hrest, ?_⟩
    rw [List.map_cons, readChord]
    simp [hkind, hfound]
  | cons n notes ih =>
    rw [List.flatMap_cons, List.append_assoc] at h
    obtain ⟨t, rest, rfl, ht, -⟩ := List.map_eq_cons_iff.mp h
    have hkind : t.kind = .noteLetter := congrArg Prod.fst ht
    have hafter : ∀ c ∈ (notes.flatMap WrittenNote.contents ++ (.chordClose, ")") :: after).head?,
        c.1 ≠ .raiseMark := by
      intro c hc
      cases notes with
      | nil =>
        cases hc
        simp
      | cons n' notes =>
        cases hc
        simp
    obtain ⟨rest', hrest', hpitch⟩ := readPitch_written octave h hafter
    have hne : found ++ [n.pitch octave] ≠ [] := by simp
    obtain ⟨rest'', hrest'', hchord⟩ := ih hrest' (Or.inl hne)
    refine ⟨rest'', hrest'', ?_⟩
    rw [List.map_cons, readChord_letter hkind hpitch, hchord]
    simp

theorem readChord_scanned (octave : Nat) (opening : Token) (found : List Pitch) {ts : List Token}
    (hts : ∀ t ∈ ts, Scanned t) :
    (∃ e feed, readChord octave opening found (ts.map .ok) = (.error e, feed)) ∨
    ∃ (notes : List WrittenNote) (rest : List Token), (∀ t ∈ rest, Scanned t) ∧
      (found ≠ [] ∨ notes ≠ []) ∧
      ts.map Token.content =
        notes.flatMap WrittenNote.contents ++ (.chordClose, ")") :: rest.map Token.content ∧
      readChord octave opening found (ts.map .ok) =
        (.ok (found ++ notes.map (WrittenNote.pitch octave)), rest.map .ok) := by
  -- A raised letter takes two tokens at once, so the induction is on their number.
  generalize hlength : ts.length = n
  induction n using Nat.strongRecOn generalizing ts found with
  | _ n ih =>
    cases ts with
    | nil =>
      refine Or.inl ⟨.refused .unclosedChord opening.place, [], ?_⟩
      rw [List.map_nil, readChord]
    | cons t ts =>
      have hrest : ∀ t' ∈ ts, Scanned t' := fun t' ht' => hts t' (List.mem_cons_of_mem t ht')
      cases hts t List.mem_cons_self with
      | letter place hc =>
        obtain ⟨note, rest, hrest, hcontents, hpitch⟩ := readPitch_scanned octave hc place hrest
        have hshorter : rest.length < n := by
          have := congrArg List.length hcontents
          simp [WrittenNote.contents] at this hlength
          omega
        rw [List.map_cons, readChord_letter rfl hpitch]
        cases ih rest.length hshorter (found ++ [note.pitch octave]) hrest rfl with
        | inl herror => exact Or.inl herror
        | inr hnotes =>
          obtain ⟨notes, rest', hrest', -, hcontents', hchord⟩ := hnotes
          refine Or.inr ⟨note :: notes, rest', hrest', Or.inr (List.cons_ne_nil note notes),
            ?_, by simp [hchord]⟩
          rw [List.flatMap_cons, List.append_assoc, ← hcontents', ← hcontents]
          rfl
      | chordClose place =>
        rw [List.map_cons, readChord]
        cases found with
        | nil => exact Or.inl ⟨_, _, rfl⟩
        | cons p found =>
          exact Or.inr ⟨[], ts, hrest, Or.inl (List.cons_ne_nil p found), rfl, by simp⟩
      | digit | chordOpen | octaveUp | octaveDown | raiseMark | dot | restMark =>
        exact Or.inl ⟨_, _, readChord_other (by simp) (by simp)⟩

theorem digit?_of_isDigit {c : Char} (h : c.isDigit) : digit? c = some (c.toNat - 48) := by
  have hc : 48 ≤ c.toNat ∧ c.toNat ≤ 57 := Char.isDigit_iff_toNat.mp h
  have hfind : zeros.find? (fun z => decide (z ≤ c.toNat) && decide (c.toNat < z + 10)) =
      some 48 := by
    rw [zeros, List.find?_cons_of_pos]
    simp
    omega
  rw [digit?, hfind]
  rfl

theorem isDigits_of_isDigit {c : Char} (h : c.isDigit) : isDigits [c] = true := by
  simp [isDigits, digit?_of_isDigit h]

theorem decimal?_of_isDigit {c : Char} (h : c.isDigit) : decimal? [c] = some (c.toNat - 48) := by
  simp [decimal?, digitLimit, digit?_of_isDigit h]

theorem singleton_of_eighths {c : Char} (hc : c.isDigit) {base : Length}
    (h : base.eighths = c.toNat - 48) :
    String.singleton c = toString base.eighths := by
  have hc : 48 ≤ c.toNat ∧ c.toNat ≤ 57 := Char.isDigit_iff_toNat.mp hc
  have hnat : c.toNat = base.eighths + 48 := by omega
  have hofNat : c = Char.ofNat (base.eighths + 48) := by rw [← hnat, Char.ofNat_toNat]
  rw [hofNat]
  cases base <;> decide +kernel

theorem readLength_written {base : Length} {dotted : Bool} {t : Token} {ts : List Token}
    {after : List (Kind × String)}
    (h : (t :: ts).map Token.content = (Item.length base dotted).contents ++ after)
    (hafter : ∀ c ∈ after.head?, c.1 ≠ .dot) :
    ∃ rest : List Token, rest.map Token.content = after ∧
      readLength t (ts.map .ok) = (.ok ⟨base, dotted⟩, rest.map .ok) := by
  have htext : t.text = toString base.eighths := congrArg Prod.snd (List.cons.inj h).1
  obtain ⟨rest, hrest, htake⟩ := takeKind_optional (List.cons.inj h).2 hafter
  refine ⟨rest, hrest, ?_⟩
  have hdigits : isDigits t.text.toList = true := by rw [htext]; cases base <;> decide +kernel
  have hdecimal : decimal? t.text.toList = some base.eighths := by
    rw [htext]
    cases base <;> decide +kernel
  simp [readLength, hdigits, hdecimal, Length.ofNat?_eighths, htake]

theorem readLength_scanned {c : Char} (hc : c.isDigit) (place : Place) {ts : List Token}
    (hts : ∀ t ∈ ts, Scanned t) :
    (∃ e feed, readLength ⟨.digit, String.singleton c, place⟩ (ts.map .ok) = (.error e, feed)) ∨
    ∃ (base : Length) (dotted : Bool) (rest : List Token), (∀ t ∈ rest, Scanned t) ∧
      (.digit, String.singleton c) :: ts.map Token.content =
        (Item.length base dotted).contents ++ rest.map Token.content ∧
      readLength ⟨.digit, String.singleton c, place⟩ (ts.map .ok) =
        (.ok ⟨base, dotted⟩, rest.map .ok) := by
  obtain ⟨dotted, rest, hrest, hcontents, htake⟩ := takeKind_scanned hts fun t ht => ht.text_of_dot
  cases hbase : Length.ofNat? (c.toNat - 48) with
  | none =>
    refine Or.inl ⟨.refused (.badLength (String.singleton c)) place, ts.map .ok, ?_⟩
    simp [readLength, isDigits_of_isDigit hc, decimal?_of_isDigit hc, hbase]
  | some base =>
    refine Or.inr ⟨base, dotted, rest, hrest, ?_, ?_⟩
    · rw [hcontents, singleton_of_eighths hc (Length.eighths_of_ofNat? hbase)]
      rfl
    · simp [readLength, isDigits_of_isDigit hc, decimal?_of_isDigit hc, hbase, htake]

end Tablature.Notation
