import Mathlib.Algebra.Ring.Int.Defs
import Tablature.Proofs.Failures
import Tablature.Proofs.Writing

/-!
The registers of a reader: the duration and the octave in force. They can be told from the tokens
alone, counted over the integers: a shift that is not refused is one octave up or down, and a length
that is not refused stands until the next one. A reader that is called again and again, errors or
not in between, keeps exactly these registers (`Reaches`). So they stay in range and tell how each
symbol was read, and no token that is refused and none that is met inside a chord changes them
(`registers_legal`). -/
namespace Tablature.Notation
open Tablature.Text Tablature.Music

/-- The symbol is read in the duration and in the octave of the reader. -/
def Reader.Explains (r : Reader) (s : Symbol) : Prop :=
  s.duration = r.duration ∧ match s.sound with
    | .note p => Within r.octave p
    | .chord ps => ps ≠ [] ∧ ∀ p ∈ ps, Within r.octave p
    | .rest => True
    | .other => False

def dotAhead : List Reading → Bool
  | .ok t :: _ => t.kind = .dot
  | _ => false

namespace Handled

/-- What a token adds to the octave. -/
def shift (met : Handled) : Int :=
  match met.token.kind, met.verdict with
  | .octaveUp, .onward => 1
  | .octaveDown, .onward => -1
  | _, _ => 0

def duration? (met : Handled) : Option Duration :=
  match met.token.kind, lengthOf? met.token.text with
  | .digit, some length => some ⟨length, dotAhead met.before.feed⟩
  | _, _ => none

/-- All that handling a token can do to the registers. -/
structure Keeps (met : Handled) : Prop where
  octave : (met.behind.octave : Int) = met.before.octave + met.shift
  duration : met.behind.duration = met.duration?.getD met.before.duration
  symbol : ∀ s, met.verdict = .symbol s → met.behind.Explains s
  chord : met.token.kind = .chordOpen → ∃ inside : List Token,
    met.before.feed = inside.map .ok ++ met.behind.feed ∧
      met.behind = ⟨met.behind.feed, met.before.duration, met.before.octave⟩

theorem Keeps.still {t : Token} {feed rest : List Reading} {duration : Duration} {octave : Nat}
    {verdict : Verdict} (hkind : t.kind ∉ [.octaveUp, .octaveDown, .digit])
    (hsymbol : ∀ s, verdict = .symbol s → Reader.Explains ⟨rest, duration, octave⟩ s)
    (hchord : t.kind = .chordOpen → ∃ inside : List Token, feed = inside.map .ok ++ rest) :
    Keeps ⟨t, ⟨feed, duration, octave⟩, verdict, ⟨rest, duration, octave⟩⟩ where
  octave := by
    simp only [List.mem_cons, List.not_mem_nil, or_false, not_or] at hkind
    simp [shift, hkind]
  duration := by
    simp only [List.mem_cons, List.not_mem_nil, or_false, not_or] at hkind
    simp [duration?, hkind]
  symbol := hsymbol
  chord h := by
    obtain ⟨inside, hinside⟩ := hchord h
    exact ⟨inside, hinside, rfl⟩

end Handled

theorem takeKind_dot (feed : List Reading) {dotted : Bool} {rest : List Reading}
    (h : takeKind .dot feed = (.ok dotted, rest)) : dotted = dotAhead feed := by
  unfold takeKind at h
  split at h
  · cases h
    rfl
  · cases h
  · next t ts =>
    by_cases hkind : t.kind = .dot
    · rw [if_pos hkind] at h
      cases h
      simp [dotAhead, hkind]
    · rw [if_neg hkind] at h
      cases h
      simp [dotAhead, hkind]

theorem readLength_dotted {t : Token} {feed rest : List Reading} {length : Length} {dotted : Bool}
    (h : readLength t feed = (.ok ⟨length, dotted⟩, rest)) : dotted = dotAhead feed := by
  unfold readLength at h
  split at h
  · split at h
    · cases h
    · split at h
      · cases h
      · split at h
        · cases h
        · next htake =>
          cases h
          exact takeKind_dot feed htake
  · cases h

namespace Reader

theorem handle_keeps (t : Token) (ts : List Token) (duration : Duration) (octave : Nat) :
    Handled.Keeps ⟨t, ⟨ts.map .ok, duration, octave⟩, (handle ⟨ts.map .ok, duration, octave⟩ t).1,
      (handle ⟨ts.map .ok, duration, octave⟩ t).2⟩ := by
  cases hkind : t.kind with
  | noteLetter =>
    rcases hread : readPitch octave t (ts.map .ok) with ⟨e | pitch, rest⟩
    · simp only [handle, hkind, hread]
      exact .still (by simp [hkind]) (by simp) (by simp [hkind])
    · simp only [handle, hkind, hread]
      refine .still (by simp [hkind]) ?_ (by simp [hkind])
      rintro _ ⟨⟩
      exact ⟨rfl, readPitch_within hread⟩
  | chordOpen =>
    obtain ⟨answer, behind, hread, ⟨inside, rfl, -⟩, -⟩ := readChord_tokens octave t ts []
    have hinside : (inside ++ behind).map Except.ok =
        inside.map .ok ++ behind.map (Except.ok (ε := ScanError)) :=
      List.map_append
    cases answer with
    | ok pitches =>
      simp only [handle, hkind, hread]
      refine .still (by simp [hkind]) ?_ fun _ => ⟨inside, hinside⟩
      rintro _ ⟨⟩
      exact ⟨rfl, readChord_within (by simp) hread⟩
    | error e =>
      simp only [handle, hkind, hread]
      exact .still (by simp [hkind]) (by simp) fun _ => ⟨inside, hinside⟩
  | digit =>
    cases hlength : lengthOf? t.text with
    | none =>
      simp only [handle, hkind, readLength_of_none t hlength]
      exact ⟨by simp [Handled.shift, hkind], by simp [Handled.duration?, hkind, hlength], by
        simp, by simp [hkind]⟩
    | some length =>
      obtain ⟨dotted, behind, hread, -⟩ := readLength_of_some t ts hlength
      have hdotted := readLength_dotted hread
      simp only [handle, hkind, hread]
      exact ⟨by simp [Handled.shift, hkind], by simp [Handled.duration?, hkind, hlength,
        hdotted], by simp, by simp [hkind]⟩
  | restMark =>
    simp only [handle, hkind]
    refine .still (by simp [hkind]) ?_ (by simp [hkind])
    rintro _ ⟨⟩
    exact ⟨rfl, trivial⟩
  | octaveUp =>
    simp only [handle, hkind]
    exact ⟨by simp [Handled.shift, hkind], by simp [Handled.duration?, hkind], by simp, by
      simp [hkind]⟩
  | octaveDown =>
    cases octave with
    | zero =>
      simp only [handle, hkind]
      exact ⟨by simp [Handled.shift, hkind], by simp [Handled.duration?, hkind], by simp, by
        simp [hkind]⟩
    | succ lower =>
      simp only [handle, hkind]
      refine ⟨?_, by simp [Handled.duration?, hkind], by simp, by simp [hkind]⟩
      simp only [Handled.shift, hkind]
      omega
  | chordClose | raiseMark | dot =>
    simp only [handle, hkind]
    exact .still (by simp [hkind]) (by simp) (by simp [hkind])

end Reader

/-- The duration that stands behind some tokens. -/
def durationAfter (duration : Duration) (past : List Handled) : Duration :=
  (past.filterMap Handled.duration?).getLast?.getD duration

theorem durationAfter_nil (duration : Duration) : durationAfter duration [] = duration := rfl

theorem durationAfter_append (duration : Duration) (past later : List Handled) :
    durationAfter duration (past ++ later) = durationAfter (durationAfter duration past) later := by
  simp only [durationAfter, List.filterMap_append, List.getLast?_append]
  cases (later.filterMap Handled.duration?).getLast? <;> simp

theorem durationAfter_singleton (duration : Duration) (met : Handled) :
    durationAfter duration [met] = met.duration?.getD duration := by
  cases h : met.duration? <;> simp [durationAfter, h]

/-- Some tokens are handled on the way from one reader to another, and account for its registers. -/
structure Reaches (r r' : Reader) (past : List Handled) : Prop where
  handled : r.handled = past ++ r'.handled
  octave : (r'.octave : Int) = r.octave + (past.map Handled.shift).sum
  duration : r'.duration = durationAfter r.duration past
  overTokens : r'.OverTokens

namespace Reaches
variable {r r' r'' : Reader} {past later : List Handled}

theorem refl (h : r.OverTokens) : Reaches r r [] := ⟨rfl, by simp, durationAfter_nil _, h⟩

theorem trans (h : Reaches r r' past) (h' : Reaches r' r'' later) :
    Reaches r r'' (past ++ later) where
  handled := by rw [h.handled, h'.handled, List.append_assoc]
  octave := by
    rw [h'.octave, h.octave, List.map_append, List.sum_append]
    omega
  duration := by rw [h'.duration, h.duration, durationAfter_append]
  overTokens := h'.overTokens

theorem single (t : Token) (ts : List Token) (duration : Duration) (octave : Nat) :
    ∃ met, Reaches ⟨.ok t :: ts.map .ok, duration, octave⟩
      (Reader.handle ⟨ts.map .ok, duration, octave⟩ t).2
      [met] := by
  have hkeeps := Reader.handle_keeps t ts duration octave
  refine ⟨_, Reader.handled_cons, ?_, ?_, .behind (Reader.handle_tokens t ts duration octave)⟩
  · rw [List.map_singleton, List.sum_singleton]
    exact hkeeps.octave
  · rw [durationAfter_singleton]
    exact hkeeps.duration

theorem next (h : r.OverTokens) :
    ∃ past, Reaches r r.next.2 past ∧ ∀ s, r.next.1 = .ok (some s) → r.next.2.Explains s := by
  induction h using Reader.OverTokens.induction with
  | nil duration octave =>
    have hnext : Reader.next ⟨[], duration, octave⟩ = (.ok none, ⟨[], duration, octave⟩) := by
      simp [Reader.next]
    rw [hnext]
    exact ⟨[], .refl ⟨[], rfl⟩, by simp⟩
  | token t ts duration octave hhandles ih =>
    obtain ⟨met, hmet⟩ := single t ts duration octave
    have hsymbol := (Reader.handle_keeps t ts duration octave).symbol
    have hnext := Reader.next_cons ⟨ts.map .ok, duration, octave⟩ t (ts.map .ok)
    rcases hhandle : Reader.handle ⟨ts.map .ok, duration, octave⟩ t with ⟨verdict, behind⟩
    rw [hhandle] at hnext hmet ih hsymbol
    cases verdict with
    | symbol s =>
      have hcall : Reader.next ⟨.ok t :: ts.map .ok, duration, octave⟩ = (.ok (some s), behind) :=
        hnext
      rw [hcall]
      refine ⟨[met], hmet, ?_⟩
      rintro _ ⟨⟩
      exact hsymbol s rfl
    | failed e =>
      have hcall : Reader.next ⟨.ok t :: ts.map .ok, duration, octave⟩ = (.error e, behind) := hnext
      rw [hcall]
      exact ⟨[met], hmet, by simp⟩
    | onward =>
      have hcall : Reader.next ⟨.ok t :: ts.map .ok, duration, octave⟩ = behind.next := hnext
      obtain ⟨later, hlater, hexplains⟩ := ih
      rw [hcall]
      exact ⟨met :: later, hmet.trans hlater, hexplains⟩

/-- By induction on the calls, from one to the next. -/
theorem calls (h : r.OverTokens) {n : Nat} {answer : Except ReadError (Option Symbol) × Reader}
    (hanswer : answer ∈ r.calls n) :
    ∃ past, Reaches r answer.2 past ∧ ∀ s, answer.1 = .ok (some s) → answer.2.Explains s := by
  induction n generalizing r with
  | zero => simp [Reader.calls] at hanswer
  | succ n ih =>
    obtain ⟨past, hpast, hexplains⟩ := next h
    rcases List.mem_cons.mp hanswer with rfl | hlater
    · exact ⟨past, hpast, hexplains⟩
    · obtain ⟨later, hreaches, hexplains'⟩ := ih hpast.overTokens hlater
      exact ⟨past ++ later, hpast.trans hreaches, hexplains'⟩

end Reaches

theorem eighths_mem (l : Length) : l.eighths ∈ [1, 2, 4, 8] := by cases l <;> decide

namespace Reader

theorem keeps_of_mem {r : Reader} (h : r.OverTokens) {met : Handled} (hmet : met ∈ r.handled) :
    met.Keeps := by
  induction h using OverTokens.induction with
  | nil duration octave => simp [handled_nil] at hmet
  | token t ts duration octave hhandles ih =>
    rw [handled_cons] at hmet
    rcases List.mem_cons.mp hmet with rfl | hlater
    · exact handle_keeps t ts duration octave
    · exact ih hlater

/-- A call that fails ends with a token that leaves the registers as they were before it. -/
theorem failed_of_calls {r : Reader} (h : r.OverTokens) {n : Nat} {e : ReadError} {r' : Reader}
    (hanswer : (.error e, r') ∈ r.calls n) :
    ∃ met ∈ r.handled, met.verdict = .failed e ∧ r' = met.behind ∧
      r'.duration = met.before.duration ∧ r'.octave = met.before.octave := by
  rcases mem_calls h hanswer with hnone | hsaid
  · cases hnone
  · obtain ⟨met, hmet, hmade⟩ := List.mem_filterMap.mp hsaid
    obtain ⟨_, -, hfails, -⟩ := handles_of_mem h hmet
    cases hverdict : met.verdict with
    | symbol s => simp [Handled.answer?, hverdict] at hmade
    | onward => simp [Handled.answer?, hverdict] at hmade
    | failed e' =>
      obtain ⟨rfl, rfl⟩ : e' = e ∧ met.behind = r' := by
        simpa [Handled.answer?, hverdict] using hmade
      obtain ⟨hduration, hoctave, -⟩ := hfails _ hverdict
      exact ⟨met, hmet, hverdict, rfl, hduration, hoctave⟩

end Reader

/-- Over any tokens, after each of the calls of a reader, errors or not in between: the octave is
the number of shifts up less the number of shifts down that were handled and not refused so far, and
is not negative; the duration is that of the last length not refused, of one, two, four or eight
eighths; a symbol is explained by these registers; and a call that fails leaves them as they were
before the token that it handled last. No token that is refused changes them, and neither does one
that is used up from the opening of a chord on, whatever the chord comes to. -/
theorem registers_legal (ts : List Token) :
    (∀ n, ∀ answer ∈ (Reader.ofTokens ts).calls n,
      (∃ past, (Reader.ofTokens ts).handled = past ++ answer.2.handled ∧
        (answer.2.octave : Int) = (past.map Handled.shift).sum ∧ 0 ≤ (past.map Handled.shift).sum ∧
        answer.2.duration = durationAfter {} past ∧
        answer.2.duration.length.eighths ∈ [1, 2, 4, 8]) ∧
      (∀ s, answer.1 = .ok (some s) → answer.2.Explains s) ∧
      ∀ e, answer.1 = .error e → ∃ met ∈ (Reader.ofTokens ts).handled, met.verdict = .failed e ∧
        answer.2 = met.behind ∧ answer.2.duration = met.before.duration ∧
        answer.2.octave = met.before.octave) ∧
    ∀ met ∈ (Reader.ofTokens ts).handled,
      (∀ e, met.verdict = .failed e →
        met.behind.duration = met.before.duration ∧ met.behind.octave = met.before.octave) ∧
      (met.token.kind = .chordOpen → ∃ inside : List Token,
        met.before.feed = inside.map .ok ++ met.behind.feed ∧
          met.behind = ⟨met.behind.feed, met.before.duration, met.before.octave⟩) := by
  have hover := overTokens_ofTokens ts
  refine ⟨fun n answer hanswer => ⟨?_, ?_, ?_⟩, fun met hmet => ⟨fun e he => ?_, fun hkind => ?_⟩⟩
  · obtain ⟨past, hreaches, -⟩ := Reaches.calls hover hanswer
    have hoctave : (answer.2.octave : Int) = (past.map Handled.shift).sum := by
      simpa [Reader.ofTokens] using hreaches.octave
    exact ⟨past, hreaches.handled, hoctave, hoctave ▸ Int.natCast_nonneg _, hreaches.duration,
      eighths_mem _⟩
  · obtain ⟨_, -, hexplains⟩ := Reaches.calls hover hanswer
    exact hexplains
  · rintro e he
    obtain ⟨result, r'⟩ := answer
    subst he
    exact Reader.failed_of_calls hover hanswer
  · obtain ⟨_, -, hfails, -⟩ := Reader.handles_of_mem hover hmet
    obtain ⟨hduration, hoctave, -⟩ := hfails e he
    exact ⟨hduration, hoctave⟩
  · exact (Reader.keeps_of_mem hover hmet).chord hkind

end Tablature.Notation
