import Tablature.Proofs.Relocation

/-!
Tokens pulled on demand. The reader in front of a text scans no further than it must: a buffer holds
at most one token that was looked at, and the rest is still to be scanned. Whatever is pulled from,
such a reader answers call by call what `Reader` answers on the readings still ahead (`next_ahead`);
so scanning and reading in turn and scanning first come to the same. Where a text holds a refused
character, the reader reports that character or a token in front of it, whichever it meets first
(`pulled_eq_two_stages`). -/
namespace Tablature.Notation
open Tablature.Text Tablature.Music

/-- What readings are pulled from one at a time, with the list of those that it has still to
give. -/
structure Source (σ : Type) where
  next? : σ → Option (Reading × σ)
  readings : σ → List Reading
  readings_eq : ∀ s, readings s = match next? s with
    | none => []
    | some (r, s') => r :: readings s'

def Source.scanning : Source Cursor where
  next? := Cursor.next?
  readings := Cursor.readings
  readings_eq cursor := by
    rw [Cursor.readings_eq]
    cases cursor.next? <;> rfl

def Source.scanned : Source (List Token) where
  next?
    | [] => none
    | t :: ts => some (.ok t, ts)
  readings ts := ts.map .ok
  readings_eq ts := by cases ts <;> rfl

/-- What is pulled from, behind a token that was looked at and not taken yet. -/
structure Buffer (σ : Type) where
  source : σ
  peeked : Option Token := none
  deriving Repr

namespace Buffer
variable {σ : Type} (src : Source σ)

def ahead (b : Buffer σ) : List Reading := b.peeked.toList.map .ok ++ src.readings b.source

def pull (b : Buffer σ) : Option (Reading × Buffer σ) :=
  match b.peeked with
  | some t => some (.ok t, { b with peeked := none })
  | none => (src.next? b.source).map fun found => (found.1, { b with source := found.2 })

/-- Looks at the next token. A refused character is used up by that. -/
def peek (b : Buffer σ) : Except ScanError (Option Token) × Buffer σ :=
  match b.peeked with
  | some t => (.ok (some t), b)
  | none => match src.next? b.source with
    | none => (.ok none, b)
    | some (.error e, s) => (.error e, { b with source := s })
    | some (.ok t, s) => (.ok (some t), ⟨s, some t⟩)

def pullKind (kind : Kind) (b : Buffer σ) : Except ScanError Bool × Buffer σ :=
  match b.peek src with
  | (.error e, b') => (.error e, b')
  | (.ok none, b') => (.ok false, b')
  | (.ok (some t), b') =>
    if t.kind = kind then (.ok true, { b' with peeked := none }) else (.ok false, b')

theorem ahead_eq_pull (b : Buffer σ) :
    b.ahead src = match b.pull src with
      | none => []
      | some (r, b') => r :: b'.ahead src := by
  obtain ⟨s, peeked⟩ := b
  cases peeked with
  | some t => rfl
  | none =>
    have hs : ahead src ⟨s, none⟩ = src.readings s := rfl
    rw [hs, src.readings_eq, pull]
    cases src.next? s <;> rfl

theorem takeKind_ahead (kind : Kind) (b : Buffer σ) :
    takeKind kind (b.ahead src) = ((b.pullKind src kind).1, (b.pullKind src kind).2.ahead src) := by
  obtain ⟨s, peeked⟩ := b
  cases peeked with
  | some t =>
    by_cases hkind : t.kind = kind
    · simp [takeKind, ahead, pullKind, peek, hkind]
    · simp [takeKind, ahead, pullKind, peek, hkind]
  | none =>
    have hs : ahead src ⟨s, none⟩ = src.readings s := rfl
    rw [hs, src.readings_eq, pullKind, peek]
    rcases hnext : src.next? s with _ | ⟨e | t, s'⟩
    · simp [takeKind, ahead, src.readings_eq s, hnext]
    · simp [takeKind, ahead]
    · by_cases hkind : t.kind = kind
      · simp [takeKind, ahead, hkind]
      · simp [takeKind, ahead, hkind]

/-- The pitch of a note letter, looking for the raise mark once the letter is known. -/
def pullPitch (octave : Nat) (letter : Token) (b : Buffer σ) : Except ReadError Pitch × Buffer σ :=
  match stepOf? letter.text with
  | none => (.error (.refused (.unknownNote letter.text) letter.place), b)
  | some step => match b.pullKind src .raiseMark with
    | (.error e, b') => (.error (.scan e), b')
    | (.ok raised, b') =>
      (.ok ((step + octave * stepsPerOctave + if raised then stepsPerOctave else 0 : Nat) : Int),
        b')

theorem readPitch_ahead (octave : Nat) (t : Token) (b : Buffer σ) :
    readPitch octave t (b.ahead src) =
      ((b.pullPitch src octave t).1, (b.pullPitch src octave t).2.ahead src) := by
  rw [readPitch, pullPitch, takeKind_ahead]
  cases stepOf? t.text with
  | none => rfl
  | some step =>
    rcases b.pullKind src .raiseMark with ⟨_ | raised, b'⟩
    · rfl
    · rfl

theorem ahead_of_pull {b b' : Buffer σ} {r : Reading} (h : b.pull src = some (r, b')) :
    b.ahead src = r :: b'.ahead src := by
  rw [ahead_eq_pull, h]

theorem pullPitch_length (octave : Nat) (t : Token) (b : Buffer σ) :
    ((b.pullPitch src octave t).2.ahead src).length ≤ (b.ahead src).length := by
  have hlength := readPitch_length octave t (b.ahead src)
  rwa [readPitch_ahead] at hlength

def pullChord (octave : Nat) (opening : Token) (found : List Pitch) (b : Buffer σ) :
    Except ReadError (List Pitch) × Buffer σ :=
  match _pull : b.pull src with
  | none => (.error (.refused .unclosedChord opening.place), b)
  | some (.error e, b') => (.error (.scan e), b')
  | some (.ok t, b') =>
    if t.kind = .chordClose then
      if found.isEmpty then (.error (.refused .emptyChord opening.place), b') else (.ok found, b')
    else if t.kind = .noteLetter then
      match _pitch : b'.pullPitch src octave t with
      | (.error e, b'') => (.error e, b'')
      | (.ok pitch, b'') => pullChord octave opening (found ++ [pitch]) b''
    else (.error (.refused (.insideChord t.text) t.place), b')
  termination_by (b.ahead src).length
  decreasing_by
    have hlength := pullPitch_length src octave t b'
    rw [_pitch] at hlength
    rw [ahead_of_pull src _pull]
    exact Nat.lt_succ_of_le hlength

theorem readChord_ahead (octave : Nat) (opening : Token) (found : List Pitch) (b : Buffer σ) :
    readChord octave opening found (b.ahead src) =
      ((b.pullChord src octave opening found).1,
        (b.pullChord src octave opening found).2.ahead src) := by
  -- A pull from the buffer is one reading off the list, so both readers have the same cases.
  fun_induction pullChord src octave opening found b with
  | case1 found b hpull =>
    have hnil : b.ahead src = [] := by rw [ahead_eq_pull, hpull]
    rw [hnil, readChord]
  | case2 found b e b' hpull => rw [ahead_of_pull src hpull, readChord]
  | case3 found b t b' hpull hclose hempty =>
    rw [ahead_of_pull src hpull, readChord, if_pos hclose, if_pos hempty]
  | case4 found b t b' hpull hclose hnotes =>
    rw [ahead_of_pull src hpull, readChord, if_pos hclose, if_neg hnotes]
  | case5 found b t b' hpull hclose hletter e b'' hpitch =>
    have hread := readPitch_ahead src octave t b'
    rw [hpitch] at hread
    rw [ahead_of_pull src hpull, readChord_letter_error hletter hread]
  | case6 found b t b' hpull hclose hletter pitch b'' hpitch ih =>
    have hread := readPitch_ahead src octave t b'
    rw [hpitch] at hread
    rw [ahead_of_pull src hpull, readChord_letter hletter hread, ih]
  | case7 found b t b' hpull hclose hletter =>
    rw [ahead_of_pull src hpull, readChord_other hclose hletter]

/-- The duration that a digit sets, looking for the dot once the digit is known to name a length. -/
def pullLength (digit : Token) (b : Buffer σ) : Except ReadError Duration × Buffer σ :=
  if isDigits digit.text.toList then
    match decimal? digit.text.toList with
    | none => (.error (.notNumeral digit.text), b)
    | some n => match Length.ofNat? n with
      | none => (.error (.refused (.badLength digit.text) digit.place), b)
      | some length => match b.pullKind src .dot with
        | (.error e, b') => (.error (.scan e), b')
        | (.ok dotted, b') => (.ok ⟨length, dotted⟩, b')
  else (.error (.refused (.badLength digit.text) digit.place), b)

theorem readLength_ahead (t : Token) (b : Buffer σ) :
    readLength t (b.ahead src) = ((b.pullLength src t).1, (b.pullLength src t).2.ahead src) := by
  rw [readLength, pullLength, takeKind_ahead]
  by_cases hdigits : isDigits t.text.toList = true
  · simp only [hdigits, if_true]
    cases decimal? t.text.toList with
    | none => rfl
    | some n =>
      dsimp only
      cases Length.ofNat? n with
      | none => rfl
      | some length =>
        rcases b.pullKind src .dot with ⟨_ | dotted, b'⟩
        · rfl
        · rfl
  · simp only [hdigits, if_false, Bool.false_eq_true]

end Buffer

/-- The answers of so many calls for the next symbol, errors included, each with the duration and
the octave behind it. -/
def Reader.answers (n : Nat) (r : Reader) :
    List (Except ReadError (Option Symbol) × Duration × Nat) :=
  (r.calls n).map fun call => (call.1, call.2.duration, call.2.octave)

structure Puller (σ : Type) where
  buffer : Buffer σ
  duration : Duration := {}
  octave : Nat := 0
  deriving Repr

namespace Puller
variable {σ : Type} (src : Source σ)

def ahead (p : Puller σ) : Reader := ⟨p.buffer.ahead src, p.duration, p.octave⟩

def handle (p : Puller σ) (t : Token) : Verdict × Puller σ :=
  match t.kind with
  | .noteLetter => match p.buffer.pullPitch src p.octave t with
    | (.ok pitch, b) => (.symbol ⟨p.duration, .note pitch⟩, { p with buffer := b })
    | (.error e, b) => (.failed e, { p with buffer := b })
  | .chordOpen => match p.buffer.pullChord src p.octave t [] with
    | (.ok pitches, b) => (.symbol ⟨p.duration, .chord pitches⟩, { p with buffer := b })
    | (.error e, b) => (.failed e, { p with buffer := b })
  | .restMark => (.symbol ⟨p.duration, .rest⟩, p)
  | .digit => match p.buffer.pullLength src t with
    | (.ok duration, b) => (.onward, { p with buffer := b, duration := duration })
    | (.error e, b) => (.failed e, { p with buffer := b })
  | .octaveUp => (.onward, { p with octave := p.octave + 1 })
  | .octaveDown => match p.octave with
    | 0 => (.failed (.refused (.lowestOctave t.text) t.place), p)
    | lower + 1 => (.onward, { p with octave := lower })
  | _ => (.failed (.refused (.misplaced t.text) t.place), p)

theorem handle_ahead (p : Puller σ) (t : Token) :
    (p.ahead src).handle t = ((p.handle src t).1, (p.handle src t).2.ahead src) := by
  obtain ⟨b, duration, octave⟩ := p
  rw [Reader.handle, handle]
  cases t.kind with
  | noteLetter =>
    simp only [ahead, Buffer.readPitch_ahead]
    rcases b.pullPitch src octave t with ⟨_ | pitch, b'⟩
    · rfl
    · rfl
  | chordOpen =>
    simp only [ahead, Buffer.readChord_ahead]
    rcases b.pullChord src octave t [] with ⟨_ | pitches, b'⟩
    · rfl
    · rfl
  | digit =>
    simp only [ahead, Buffer.readLength_ahead]
    rcases b.pullLength src t with ⟨_ | length, b'⟩
    · rfl
    · rfl
  | octaveDown =>
    cases octave with
    | zero => rfl
    | succ lower => rfl
  | restMark | octaveUp | chordClose | raiseMark | dot => rfl

theorem handle_length (p : Puller σ) (t : Token) :
    ((p.handle src t).2.buffer.ahead src).length ≤ (p.buffer.ahead src).length := by
  have hlength := Reader.handle_length (p.ahead src) t
  rwa [handle_ahead] at hlength

/-- The next symbol, nothing once nothing can be pulled, or an error; with the puller that goes on
from there. -/
def next (p : Puller σ) : Except ReadError (Option Symbol) × Puller σ :=
  match _pull : p.buffer.pull src with
  | none => (.ok none, p)
  | some (.error e, b) => (.error (.scan e), { p with buffer := b })
  | some (.ok t, b) =>
    match _handle : handle src { p with buffer := b } t with
    | (.symbol s, p') => (.ok (some s), p')
    | (.failed e, p') => (.error e, p')
    | (.onward, p') => p'.next
  termination_by (p.buffer.ahead src).length
  decreasing_by
    have hlength := handle_length src { p with buffer := b } t
    rw [_handle] at hlength
    rw [Buffer.ahead_of_pull src _pull]
    exact Nat.lt_succ_of_le hlength

/-- The reader of the readings ahead takes the token that is pulled. -/
theorem next_of_pull {p : Puller σ} {t : Token} {b : Buffer σ}
    (h : p.buffer.pull src = some (.ok t, b)) :
    (p.ahead src).next = match handle src { p with buffer := b } t with
      | (.symbol s, p') => (.ok (some s), p'.ahead src)
      | (.failed e, p') => (.error e, p'.ahead src)
      | (.onward, p') => (p'.ahead src).next := by
  have hread : Reader.handle ⟨b.ahead src, p.duration, p.octave⟩ t = _ :=
    handle_ahead src { p with buffer := b } t
  rw [ahead, Buffer.ahead_of_pull src h, Reader.next_cons ⟨b.ahead src, p.duration, p.octave⟩,
    hread]
  rcases handle src { p with buffer := b } t with ⟨_ | _ | _, p'⟩ <;> rfl

theorem next_ahead (p : Puller σ) :
    (p.ahead src).next = ((p.next src).1, (p.next src).2.ahead src) := by
  fun_induction next src p with
  | case1 p hpull =>
    have hnil : p.ahead src = ⟨[], p.duration, p.octave⟩ := by
      rw [ahead, Buffer.ahead_eq_pull, hpull]
    rw [hnil, Reader.next]
  | case2 p e b hpull =>
    have herror : p.ahead src = ⟨.error e :: b.ahead src, p.duration, p.octave⟩ := by
      rw [ahead, Buffer.ahead_of_pull src hpull]
    rw [herror, Reader.next]
    rfl
  | case3 p t b hpull s p' hhandle => rw [next_of_pull src hpull, hhandle]
  | case4 p t b hpull e p' hhandle => rw [next_of_pull src hpull, hhandle]
  | case5 p t b hpull p' hhandle ih =>
    rw [next_of_pull src hpull, hhandle]
    exact ih

def all (p : Puller σ) : Except ReadError (List Symbol) :=
  match _next : p.next src with
  | (.error e, _) => .error e
  | (.ok none, _) => .ok []
  | (.ok (some s), p') => (p'.all).map (s :: ·)
  termination_by (p.buffer.ahead src).length
  decreasing_by
    have hread := next_ahead src p
    rw [_next] at hread
    exact Reader.next_symbol_length hread

theorem all_ahead (p : Puller σ) : (p.ahead src).all = p.all src := by
  fun_induction all src p with
  | case1 p e p' hnext => rw [Reader.all_eq, next_ahead, hnext]
  | case2 p p' hnext => rw [Reader.all_eq, next_ahead, hnext]
  | case3 p s p' hnext ih =>
    rw [Reader.all_eq, next_ahead, hnext, ← ih]

def answers : Nat → Puller σ → List (Except ReadError (Option Symbol) × Duration × Nat)
  | 0, _ => []
  | n + 1, p =>
    let (answer, p') := p.next src
    (answer, p'.duration, p'.octave) :: answers n p'

theorem answers_ahead (n : Nat) (p : Puller σ) : (p.ahead src).answers n = p.answers src n := by
  induction n generalizing p with
  | zero => rfl
  | succ n ih =>
    rw [Reader.answers, Reader.calls, List.map_cons, next_ahead]
    exact congrArg _ (ih _)

end Puller

def Puller.ofText (text : String) : Puller Cursor := { buffer := { source := Cursor.ofText text } }

def Puller.ofTokens (ts : List Token) : Puller (List Token) := { buffer := { source := ts } }

theorem Puller.ahead_ofText (text : String) : (ofText text).ahead .scanning = Reader.ofText text :=
  rfl

theorem Puller.ahead_ofTokens (ts : List Token) :
    (ofTokens ts).ahead .scanned = Reader.ofTokens ts := rfl

theorem exists_of_untilError {rs : List Reading} {ts : List Token} {e : ScanError}
    (h : untilError rs = (ts, some e)) :
    ∃ after, rs = ts.map .ok ++ .error e :: after := by
  induction rs generalizing ts with
  | nil => cases h
  | cons r rs ih =>
    cases r with
    | error e' =>
      cases h
      exact ⟨rs, rfl⟩
    | ok t =>
      rcases hrest : untilError rs with ⟨found, error⟩
      rw [untilError, hrest] at h
      cases h
      obtain ⟨after, rfl⟩ := ih hrest
      exact ⟨after, rfl⟩

theorem scanned_of_untilError {text : String} {ts : List Token} {e : ScanError}
    (h : untilError (readings text) = (ts, some e)) : ∀ t ∈ ts, Scanned t := by
  intro t ht
  obtain ⟨after, hreadings⟩ := exists_of_untilError h
  apply scanned_of_mem_readings
  rw [hreadings]
  exact List.mem_append_left _ (List.mem_map_of_mem ht)

/-- A text with a refused character. Either a token in front of it is refused already, then both the
text and the tokens are refused there; or all these tokens are taken, and the text is refused at the
character. -/
theorem refused_or_scan {text : String} {ts : List Token} {e : ScanError}
    (h : untilError (readings text) = (ts, some e)) :
    (∃ cause place, (Reader.ofTokens ts).all = .error (.refused cause place) ∧
      cause ≠ .unclosedChord ∧
      symbols text = .error (.refused cause place)) ∨
    (((∃ result, (Reader.ofTokens ts).all = .ok result) ∨
        ∃ place, (Reader.ofTokens ts).all = .error (.refused .unclosedChord place)) ∧
      symbols text = .error (.scan e)) := by
  have hts := scanned_of_untilError h
  obtain ⟨after, hreadings⟩ := exists_of_untilError h
  -- Which error is met first depends on whether all tokens in front of the character are taken.
  cases hrun : Progress.run ⟨0, .between⟩ (ts.map .ok) with
  | error e' =>
    obtain ⟨cause, place, rfl, hcause⟩ := Progress.refused_of_run hts hrun
    refine Or.inl ⟨cause, place, ?_, hcause, ?_⟩
    · apply Progress.all_eq_error_iff.mpr
      rw [Progress.fault?, Reader.ofTokens, hrun]
    · apply Progress.symbols_eq_error_iff.mpr
      rw [hreadings, Progress.fault?, Progress.run_append, hrun]
      rfl
  | ok p =>
    refine Or.inr ⟨?_, ?_⟩
    · have hfault : Progress.fault? ⟨0, .between⟩ (ts.map .ok) = p.endFault? := by
        rw [Progress.fault?, hrun]
      cases hend : p.endFault? with
      | none => exact Or.inl (Progress.all_eq_ok_iff.mpr (hfault.trans hend))
      | some e' =>
        obtain ⟨place, rfl⟩ := Progress.endFault?_refused hend
        exact Or.inr ⟨place, Progress.all_eq_error_iff.mpr (hfault.trans hend)⟩
    · apply Progress.symbols_eq_error_iff.mpr
      rw [hreadings, Progress.fault?_append hrun]
      rfl

theorem head?_append {a : String} {c : Char} (h : a.toList.head? = some c) (b : String) :
    (a ++ b).toList.head? = some c := by
  simp [String.toList_append, List.head?_append, h]

theorem Cause.message_ne {cause : Cause} (h : cause ≠ .unclosedChord) :
    cause.message ≠ "Chord opened but never closed." := by
  intro heq
  have hhead : cause.message.toList.head? = some 'C' := by
    rw [heq]
    rfl
  have hnote : "Note '".toList.head? = some 'N' := rfl
  have hunexpected : "Unexpected '".toList.head? = some 'U' := rfl
  have hinvalid : "Invalid note length ".toList.head? = some 'I' := rfl
  unfold message at hhead
  split at hhead
  · rw [head?_append (head?_append hnote _)] at hhead
    cases hhead
  · exact h rfl
  · cases hhead
  · rw [head?_append (head?_append hunexpected _)] at hhead
    cases hhead
  · rw [head?_append (head?_append hinvalid _)] at hhead
    cases hhead
  · rw [head?_append (head?_append hunexpected _)] at hhead
    cases hhead
  · rw [head?_append (head?_append hunexpected _)] at hhead
    cases hhead

/-- Reading a text while it is scanned comes to the same as scanning it first. If no character is
refused, any number of calls, also behind errors, has the same answers and leaves the same duration
and octave, whether tokens are pulled from the text or from the list of its tokens. If a character
is refused, a token in front of it that is refused by itself is reported; and that character is, if
these tokens are read or end inside a chord. -/
theorem pulled_eq_two_stages (text : String) :
    ((Puller.ofText text).all .scanning = symbols text ∧
      ∀ n, (Puller.ofText text).answers .scanning n = (Reader.ofText text).answers n) ∧
    (∀ ts, tokens text = .ok ts → ∀ n,
      (Puller.ofText text).answers .scanning n = (Puller.ofTokens ts).answers .scanned n) ∧
    ∀ ts e, untilError (readings text) = (ts, some e) →
      (∃ cause place, (Puller.ofTokens ts).all .scanned = .error (.refused cause place) ∧
        cause.message ≠ "Chord opened but never closed." ∧
        symbols text = .error (.refused cause place)) ∨
      (((∃ result, (Puller.ofTokens ts).all .scanned = .ok result) ∨
          ∃ cause place, (Puller.ofTokens ts).all .scanned = .error (.refused cause place) ∧
            cause.message = "Chord opened but never closed.") ∧
        symbols text = .error (.scan e)) := by
  refine ⟨⟨(Puller.all_ahead .scanning _).symm, fun n => (Puller.answers_ahead .scanning n _).symm⟩,
    ?_, ?_⟩
  · intro ts hts n
    have hfeed : Reader.ofText text = Reader.ofTokens ts := by
      rw [Reader.ofText, readings_of_tokens hts]
      rfl
    rw [← Puller.answers_ahead, ← Puller.answers_ahead, Puller.ahead_ofText, Puller.ahead_ofTokens,
      hfeed]
  · intro ts e h
    rw [← Puller.all_ahead, Puller.ahead_ofTokens]
    cases refused_or_scan h with
    | inl hrefused =>
      obtain ⟨cause, place, htokens, hcause, htext⟩ := hrefused
      exact Or.inl ⟨cause, place, htokens, Cause.message_ne hcause, htext⟩
    | inr hscan =>
      obtain ⟨htokens, htext⟩ := hscan
      refine Or.inr ⟨htokens.imp id ?_, htext⟩
      rintro ⟨place, htokens⟩
      exact ⟨.unclosedChord, place, htokens, rfl⟩

def sunkenNote : String := "8. c' < d"

def strayText : String := "c' (d >\n!"

theorem two_stages_of_sunkenNote_of_strayText :
    (∃ ts, tokens sunkenNote = .ok ts ∧
      (Puller.ofText sunkenNote).answers .scanning 4 = (Puller.ofTokens ts).answers .scanned 4) ∧
    ∃ ts e, untilError (readings strayText) = (ts, some e) ∧ e.char = '!' ∧
      symbols strayText = .error (.refused (.insideChord ">") (.known 1 7)) ∧
      ∃ cause place, (Puller.ofTokens ts).all .scanned = .error (.refused cause place) ∧
        cause.message ≠ "Chord opened but never closed." := by
  constructor
  · have hok : (tokens sunkenNote).toBool = true := by decide +kernel
    cases htokens : tokens sunkenNote with
    | error e =>
      rw [htokens] at hok
      cases hok
    | ok ts => exact ⟨ts, rfl, (pulled_eq_two_stages sunkenNote).2.1 ts htokens 4⟩
  · have hsymbols : symbols strayText = .error (.refused (.insideChord ">") (.known 1 7)) :=
      Progress.symbols_eq_error_iff.mpr (by decide +kernel)
    have herror : (untilError (readings strayText)).2 = some ⟨'!', .known 2 1⟩ := by decide +kernel
    rcases hsplit : untilError (readings strayText) with ⟨ts, error⟩
    rw [hsplit] at herror
    cases herror
    refine ⟨ts, _, rfl, rfl, hsymbols, ?_⟩
    cases (pulled_eq_two_stages strayText).2.2 ts _ hsplit with
    | inl hrefused =>
      obtain ⟨cause, place, htokens, hcause, -⟩ := hrefused
      exact ⟨cause, place, htokens, hcause⟩
    | inr hscan =>
      obtain ⟨-, hscan⟩ := hscan
      rw [hsymbols] at hscan
      cases hscan

end Tablature.Notation
