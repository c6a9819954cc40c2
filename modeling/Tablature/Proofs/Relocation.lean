import Tablature.Proofs.Joining
import Tablature.Proofs.Stages

/-!
Places go through the reader untouched. If every place is replaced by a function of it, the symbols
that are read stay the same, and an error stays the same but for its place (`all_move`). So a text
whose tokens are written out again is read as before, or refused for the same cause
(`join_scans_back`). -/
namespace Tablature.Notation
open Tablature.Text Tablature.Music

theorem readChord_letter_error {octave : Nat} {opening t : Token} {found : List Pitch}
    {feed feed' : List Reading} {e : ReadError} (hkind : t.kind = .noteLetter)
    (hpitch : readPitch octave t feed = (.error e, feed')) :
    readChord octave opening found (.ok t :: feed) = (.error e, feed') := by
  rw [readChord]
  simp only [hkind, reduceCtorEq, if_false, if_true]
  split
  · next e' rest heq =>
    rw [hpitch] at heq
    cases heq
    rfl
  · next p rest heq =>
    rw [hpitch] at heq
    cases heq

section Move
variable (f : Place → Place)

def Token.move (t : Token) : Token := { t with place := f t.place }

def ScanError.move (e : ScanError) : ScanError := { e with place := f e.place }

def moveReading : Reading → Reading
  | .ok t => .ok (t.move f)
  | .error e => .error (e.move f)

def ReadError.move : ReadError → ReadError
  | .scan e => .scan (e.move f)
  | .refused cause place => .refused cause (f place)
  | .notNumeral text => .notNumeral text

def Verdict.move : Verdict → Verdict
  | .symbol s => .symbol s
  | .failed e => .failed (e.move f)
  | .onward => .onward

def Reader.move (r : Reader) : Reader := { r with feed := r.feed.map (moveReading f) }

theorem takeKind_move (kind : Kind) (feed : List Reading) :
    takeKind kind (feed.map (moveReading f)) =
      ((takeKind kind feed).1.mapError (ScanError.move f),
        (takeKind kind feed).2.map (moveReading f)) := by
  cases feed with
  | nil => rfl
  | cons r rest =>
    cases r with
    | error e => rfl
    | ok t =>
      by_cases h : t.kind = kind
      · simp [takeKind, moveReading, Token.move, h, Except.mapError]
      · simp [takeKind, moveReading, Token.move, h, Except.mapError]

theorem readPitch_move (octave : Nat) (t : Token) (feed : List Reading) :
    readPitch octave (t.move f) (feed.map (moveReading f)) =
      ((readPitch octave t feed).1.mapError (ReadError.move f),
        (readPitch octave t feed).2.map (moveReading f)) := by
  have htext : (t.move f).text = t.text := rfl
  rw [readPitch, readPitch, htext, takeKind_move]
  cases stepOf? t.text with
  | none => rfl
  | some step =>
    rcases takeKind .raiseMark feed with ⟨_ | raised, rest⟩
    · rfl
    · rfl

theorem readLength_move (t : Token) (feed : List Reading) :
    readLength (t.move f) (feed.map (moveReading f)) =
      ((readLength t feed).1.mapError (ReadError.move f),
        (readLength t feed).2.map (moveReading f)) := by
  have htext : (t.move f).text = t.text := rfl
  rw [readLength, readLength, htext, takeKind_move]
  by_cases hdigits : isDigits t.text.toList = true
  · simp only [hdigits, if_true]
    cases decimal? t.text.toList with
    | none => rfl
    | some n =>
      dsimp only
      cases Length.ofNat? n with
      | none => rfl
      | some length =>
        rcases takeKind .dot feed with ⟨_ | dotted, rest⟩
        · rfl
        · rfl
  · simp only [hdigits, if_false, Bool.false_eq_true]
    rfl

theorem readChord_move (octave : Nat) (opening : Token) (found : List Pitch) (feed : List Reading) :
    readChord octave (opening.move f) found (feed.map (moveReading f)) =
      ((readChord octave opening found feed).1.mapError (ReadError.move f),
        (readChord octave opening found feed).2.map (moveReading f)) := by
  fun_induction readChord octave opening found feed with
  | case1 found =>
    rw [List.map_nil, readChord]
    rfl
  | case2 found e rest =>
    rw [List.map_cons, moveReading, readChord]
    rfl
  | case3 found t rest hclose hempty =>
    have hclose : (t.move f).kind = .chordClose := hclose
    rw [List.map_cons, moveReading, readChord, if_pos hclose, if_pos hempty]
    rfl
  | case4 found t rest hclose hnotes =>
    have hclose : (t.move f).kind = .chordClose := hclose
    rw [List.map_cons, moveReading, readChord, if_pos hclose, if_neg hnotes]
    rfl
  | case5 found t rest hclose hletter e rest' hpitch =>
    have hletter : (t.move f).kind = .noteLetter := hletter
    have hmove := readPitch_move f octave t rest
    rw [hpitch] at hmove
    rw [List.map_cons, moveReading, readChord_letter_error hletter hmove]
    rfl
  | case6 found t rest hclose hletter pitch rest' hpitch ih =>
    have hletter : (t.move f).kind = .noteLetter := hletter
    have hmove := readPitch_move f octave t rest
    rw [hpitch] at hmove
    rw [List.map_cons, moveReading, readChord_letter hletter hmove, ih]
  | case7 found t rest hclose hletter =>
    have hclose : (t.move f).kind ≠ .chordClose := hclose
    have hletter : (t.move f).kind ≠ .noteLetter := hletter
    rw [List.map_cons, moveReading, readChord_other hclose hletter]
    rfl

theorem handle_move (r : Reader) (t : Token) :
    (r.move f).handle (t.move f) = ((r.handle t).1.move f, (r.handle t).2.move f) := by
  obtain ⟨feed, duration, octave⟩ := r
  have hkind : (t.move f).kind = t.kind := rfl
  rw [Reader.handle, Reader.handle, hkind]
  cases t.kind with
  | noteLetter =>
    simp only [Reader.move, readPitch_move]
    rcases readPitch octave t feed with ⟨_ | pitch, rest⟩
    · rfl
    · rfl
  | chordOpen =>
    simp only [Reader.move, readChord_move]
    rcases readChord octave t [] feed with ⟨_ | pitches, rest⟩
    · rfl
    · rfl
  | digit =>
    simp only [Reader.move, readLength_move]
    rcases readLength t feed with ⟨_ | length, rest⟩
    · rfl
    · rfl
  | octaveDown => cases octave <;> rfl
  | restMark | octaveUp | chordClose | raiseMark | dot => rfl

theorem all_move (r : Reader) : (r.move f).all = r.all.mapError (ReadError.move f) := by
  induction r using Reader.handle_induction with
  | nil duration octave =>
    rw [Reader.all_nil]
    exact Reader.all_nil duration octave
  | error e feed duration octave =>
    rw [Reader.all_error]
    exact Reader.all_error (e.move f) (feed.map (moveReading f)) duration octave
  | token t feed duration octave ih =>
    have hcons :=
      Reader.all_cons (Reader.move f ⟨feed, duration, octave⟩) (t.move f) (feed.map (moveReading f))
    have hmove := handle_move f ⟨feed, duration, octave⟩ t
    rw [Reader.all_cons ⟨feed, duration, octave⟩ t feed]
    refine hcons.trans ?_
    simp only [Reader.move] at hmove ih ⊢
    rw [hmove]
    generalize Reader.handle ⟨feed, duration, octave⟩ t = answer at ih ⊢
    obtain ⟨verdict, r'⟩ := answer
    cases verdict with
    | failed e => rfl
    | onward => exact ih
    | symbol s =>
      simp only [Verdict.move, ih]
      cases r'.all <;> rfl

end Move

/-- Tokens that differ in their places only are read as the same symbols, or refused with errors
that differ in their places only. -/
theorem all_of_map_content {ts ts' : List Token}
    (h : ts.map Token.content = ts'.map Token.content) :
    (Reader.ofTokens ts).all.mapError (ReadError.move fun _ => {}) =
      (Reader.ofTokens ts').all.mapError (ReadError.move fun _ => {}) := by
  have hmove : ∀ us : List Token, (Reader.ofTokens us).move (fun _ => {}) =
      { feed := (us.map Token.content).map fun content => .ok ⟨content.1, content.2, {}⟩ } := by
    intro us
    simp [Reader.ofTokens, Reader.move, Function.comp_def, moveReading, Token.move, Token.content]
  rw [← all_move, ← all_move, hmove, hmove, h]

theorem same_answer {ts ts' : List Token} (h : ts.map Token.content = ts'.map Token.content)
    (hts : ∀ t ∈ ts, t.Genuine) :
    (∃ result, (Reader.ofTokens ts).all = .ok result ∧ (Reader.ofTokens ts').all = .ok result) ∨
      ∃ cause place place', (Reader.ofTokens ts).all = .error (.refused cause place) ∧
        (Reader.ofTokens ts').all = .error (.refused cause place') := by
  have hsame := all_of_map_content h
  have hts' := genuine_of_map_content h hts
  cases hall : (Reader.ofTokens ts).all with
  | ok result =>
    cases hall' : (Reader.ofTokens ts').all with
    | ok result' =>
      rw [hall, hall'] at hsame
      cases hsame
      exact Or.inl ⟨result, rfl, rfl⟩
    | error e =>
      rw [hall, hall'] at hsame
      cases hsame
  | error e =>
    cases hall' : (Reader.ofTokens ts').all with
    | ok result' =>
      rw [hall, hall'] at hsame
      cases hsame
    | error e' =>
      obtain ⟨cause, place, rfl⟩ := Progress.refused_of_all (fun t ht => (hts t ht).scanned) hall
      obtain ⟨cause', place', rfl⟩ :=
        Progress.refused_of_all (fun t ht => (hts' t ht).scanned) hall'
      rw [hall, hall'] at hsame
      cases hsame
      exact Or.inr ⟨cause, place, place', rfl, rfl⟩

/-- Tokens that are written out and scanned again come back, their places left out, exactly if each
of them is one character of its kind. So the tokens of a text come back, and what they are written
to is read as the same symbols as the text, or refused for the same cause. -/
theorem join_scans_back :
    (∀ ts : List Token,
      (∃ again, tokens (Token.join ts) = .ok again ∧
        again.map Token.content = ts.map Token.content) ↔
        ∀ t ∈ ts, ∃ c, t.text = String.singleton c ∧ Kind.ofChar? c = some t.kind) ∧
    ∀ text ts, tokens text = .ok ts →
      (∃ again, tokens (Token.join ts) = .ok again ∧
        again.map Token.content = ts.map Token.content) ∧
      ((∃ result, symbols text = .ok result ∧ symbols (Token.join ts) = .ok result) ∨
        ∃ cause place place', symbols text = .error (.refused cause place) ∧
          symbols (Token.join ts) = .error (.refused cause place')) := by
  refine ⟨fun ts => ⟨?_, tokens_join⟩, ?_⟩
  · rintro ⟨again, hagain, hcontent⟩
    exact genuine_of_map_content hcontent (genuine_of_tokens hagain)
  · intro text ts hts
    obtain ⟨again, hagain, hcontent⟩ := tokens_join (genuine_of_tokens hts)
    refine ⟨⟨again, hagain, hcontent⟩, ?_⟩
    rw [symbols_of_tokens hts, symbols_of_tokens hagain]
    exact same_answer hcontent.symm (genuine_of_tokens hts)

def sunkenText : String := "4. (c e') # up\n <"

theorem join_of_sunkenText :
    ∃ ts, tokens sunkenText = .ok ts ∧ Token.join ts = "4 . ( c e ' ) <" ∧
      symbols sunkenText = .error (.refused (.lowestOctave "<") (.known 2 2)) ∧
      ∃ place, symbols "4 . ( c e ' ) <" = .error (.refused (.lowestOctave "<") place) := by
  have hsymbols : symbols sunkenText = .error (.refused (.lowestOctave "<") (.known 2 2)) :=
    Progress.symbols_eq_error_iff.mpr (by decide +kernel)
  have hjoin : (tokens sunkenText).map Token.join = .ok "4 . ( c e ' ) <" := by decide +kernel
  cases htokens : tokens sunkenText with
  | error e =>
    rw [htokens] at hjoin
    cases hjoin
  | ok ts =>
    rw [htokens] at hjoin
    have hjoin : Token.join ts = "4 . ( c e ' ) <" := Except.ok.inj hjoin
    refine ⟨ts, rfl, hjoin, hsymbols, ?_⟩
    cases (join_scans_back.2 sunkenText ts htokens).2 with
    | inl hread =>
      obtain ⟨result, hresult, -⟩ := hread
      rw [hsymbols] at hresult
      cases hresult
    | inr hrefused =>
      obtain ⟨cause, place, place', hcause, hagain⟩ := hrefused
      rw [hsymbols] at hcause
      cases hcause
      exact ⟨place', hjoin ▸ hagain⟩

end Tablature.Notation
