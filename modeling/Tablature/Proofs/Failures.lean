import Tablature.Proofs.Melodies

/-!
How reading fails. A reader over given tokens is called again and again, also behind errors.
`Reader.handled` lists the tokens that it comes to, each with the readers before and behind it, and
the answers of the calls are read off that list. Whatever the tokens are, a call answers a symbol,
nothing or a refusal, except where it comes to a length whose text is made of digits and is no
numeral (`fails_as_documented_iff`). -/
namespace Tablature.Notation
open Tablature.Text Tablature.Music

/-- The length that the text of a digit denotes. -/
def lengthOf? (text : String) : Option Length :=
  if isDigits text.toList then (decimal? text.toList).bind Length.ofNat? else none

/-- Digits that are no numeral: one of them only looks like a digit, or they are too many. -/
def Unreadable (text : String) : Prop := isDigits text.toList = true ∧ decimal? text.toList = none

instance (text : String) : Decidable (Unreadable text) := inferInstanceAs (Decidable (_ ∧ _))

def lengthError (t : Token) : ReadError :=
  if Unreadable t.text then .notNumeral t.text else .refused (.badLength t.text) t.place

def Refusal (e : ReadError) : Prop := ∃ cause place, e = .refused cause place

/-- A symbol, nothing, or the refusal of a token. -/
def Documented : Except ReadError (Option Symbol) → Prop
  | .ok _ => True
  | .error e => Refusal e

/-- Some tokens are used up, so that others are left; what holds of the digits among them is
given. -/
def UsesUp (ts behind : List Token) (p : Token → Prop) : Prop :=
  ∃ used, ts = used ++ behind ∧ ∀ t ∈ used, t.kind = .digit → p t

namespace UsesUp
variable {t : Token} {ts behind last : List Token} {p : Token → Prop}

theorem nothing : UsesUp ts ts p := ⟨[], rfl, by simp⟩

theorem cons (ht : t.kind = .digit → p t) (h : UsesUp ts behind p) : UsesUp (t :: ts) behind p := by
  obtain ⟨used, rfl, hused⟩ := h
  exact ⟨t :: used, rfl, List.forall_mem_cons.mpr ⟨ht, hused⟩⟩

theorem of_false {q : Token → Prop} (h : UsesUp ts behind fun _ => False) : UsesUp ts behind q := by
  obtain ⟨used, hts, hused⟩ := h
  exact ⟨used, hts, fun t ht hd => (hused t ht hd).elim⟩

theorem trans (h : UsesUp ts behind p) (h' : UsesUp behind last p) : UsesUp ts last p := by
  obtain ⟨used, rfl, hused⟩ := h
  obtain ⟨used', rfl, hused'⟩ := h'
  exact ⟨used ++ used', (List.append_assoc _ _ _).symm, List.forall_mem_append.mpr ⟨hused, hused'⟩⟩

end UsesUp

section Elements
variable (octave : Nat) (t : Token) (ts : List Token)

theorem takeKind_tokens (kind : Kind) (hkind : kind ≠ .digit) :
    ∃ (present : Bool) (behind : List Token), takeKind kind (ts.map .ok) =
      (.ok present, behind.map .ok) ∧
      UsesUp ts behind fun _ => False := by
  cases ts with
  | nil => exact ⟨false, [], rfl, .nothing⟩
  | cons t ts =>
    by_cases h : t.kind = kind
    · exact ⟨true, ts, by simp [takeKind, h],
        .cons (fun hd => absurd (h.symm.trans hd) hkind) .nothing⟩
    · exact ⟨false, t :: ts, by simp [takeKind, h], .nothing⟩

theorem readPitch_tokens :
    ∃ answer, ∃ behind : List Token, readPitch octave t (ts.map .ok) = (answer, behind.map .ok) ∧
      (UsesUp ts behind fun _ => False) ∧ ∀ e, answer = .error e → Refusal e := by
  cases hstep : stepOf? t.text with
  | none =>
    refine ⟨.error (.refused (.unknownNote t.text) t.place),
      ts, by simp [readPitch, hstep], .nothing, ?_⟩
    rintro e ⟨⟩
    exact ⟨_, _, rfl⟩
  | some step =>
    obtain ⟨raised, behind, htake, huses⟩ := takeKind_tokens ts .raiseMark (by decide)
    refine ⟨.ok (step + octave * stepsPerOctave + if raised then stepsPerOctave else 0 : Nat),
      behind, ?_, huses, fun _ h => by cases h⟩
    simp only [readPitch, hstep, htake]

/-- By the recursion of the reader. A digit is no part of a chord: the chord fails there. -/
theorem readChord_tokens (found : List Pitch) :
    ∃ answer, ∃ behind : List Token, readChord octave t found (ts.map .ok) =
      (answer, behind.map .ok) ∧
      UsesUp ts behind (fun u => answer = .error (.refused (.insideChord u.text) u.place)) ∧
      ∀ e, answer = .error e → Refusal e := by
  generalize hfeed : ts.map Except.ok = feed
  fun_induction readChord octave t found feed generalizing ts with
  | case1 found =>
    have hts : ts = [] := by simpa using hfeed
    subst hts
    refine ⟨_, [], rfl, .nothing, ?_⟩
    rintro e ⟨⟩
    exact ⟨_, _, rfl⟩
  | case2 found e rest => cases ts <;> simp at hfeed
  | case3 found u rest hclose hempty =>
    obtain ⟨_, behind, rfl, ⟨⟩, rfl⟩ := List.map_eq_cons_iff.mp hfeed
    refine ⟨_, behind, rfl, .cons (fun hd => absurd (hclose.symm.trans hd) (by decide)) .nothing,
      ?_⟩
    rintro e ⟨⟩
    exact ⟨_, _, rfl⟩
  | case4 found u rest hclose hnotes =>
    obtain ⟨_, behind, rfl, ⟨⟩, rfl⟩ := List.map_eq_cons_iff.mp hfeed
    exact ⟨_, behind, rfl, .cons (fun hd => absurd (hclose.symm.trans hd) (by decide)) .nothing,
      fun _ h => by cases h⟩
  | case5 found u rest hclose hletter e rest' hpitch =>
    obtain ⟨_, behind, rfl, ⟨⟩, rfl⟩ := List.map_eq_cons_iff.mp hfeed
    obtain ⟨answer, behind', hread, huses, hrefusal⟩ := readPitch_tokens octave u behind
    obtain ⟨rfl, rfl⟩ := Prod.mk.inj (hpitch.symm.trans hread)
    have he := hrefusal e rfl
    refine ⟨.error e, behind', rfl,
      .cons (fun hd => absurd (hletter.symm.trans hd) (by decide)) huses.of_false, ?_⟩
    rintro e ⟨⟩
    exact he
  | case6 found u rest hclose hletter pitch rest' hpitch ih =>
    obtain ⟨_, behind, rfl, ⟨⟩, rfl⟩ := List.map_eq_cons_iff.mp hfeed
    obtain ⟨_, behind', hread, huses, -⟩ := readPitch_tokens octave u behind
    obtain ⟨rfl, rfl⟩ := Prod.mk.inj (hpitch.symm.trans hread)
    obtain ⟨answer, last, hchord, huses', hrefusal⟩ := ih behind' rfl
    exact ⟨answer, last, hchord,
      .cons (fun hd => absurd (hletter.symm.trans hd) (by decide)) (huses.of_false.trans huses'),
      hrefusal⟩
  | case7 found u rest hclose hletter =>
    obtain ⟨_, behind, rfl, ⟨⟩, rfl⟩ := List.map_eq_cons_iff.mp hfeed
    refine ⟨_, behind, rfl, .cons (fun _ => rfl) .nothing, ?_⟩
    rintro e ⟨⟩
    exact ⟨_, _, rfl⟩

theorem readLength_of_none (h : lengthOf? t.text = none) (feed : List Reading) :
    readLength t feed = (.error (lengthError t), feed) := by
  unfold lengthOf? at h
  by_cases hd : isDigits t.text.toList = true
  · rcases hn : decimal? t.text.toList with _ | n
    · simp [readLength, lengthError, Unreadable, hd, hn]
    · have hl : Length.ofNat? n = none := by simpa [hd, hn] using h
      simp [readLength, lengthError, Unreadable, hd, hn, hl]
  · simp [readLength, lengthError, Unreadable, hd]

theorem readLength_of_some {length : Length} (h : lengthOf? t.text = some length) :
    ∃ (dotted : Bool) (behind : List Token), readLength t (ts.map .ok) = (.ok ⟨length, dotted⟩,
      behind.map .ok) ∧
      UsesUp ts behind fun _ => False := by
  obtain ⟨dotted, behind, htake, huses⟩ := takeKind_tokens ts .dot (by decide)
  unfold lengthOf? at h
  split at h
  · next hd =>
    obtain ⟨n, hn, hl⟩ := Option.bind_eq_some_iff.mp h
    exact ⟨dotted, behind, by simp only [readLength, hd, if_true, hn, hl, htake], huses⟩
  · cases h

end Elements

/-- All that handling a token can come to, on tokens ahead. -/
structure Handles (t : Token) (ts : List Token) (r r' : Reader) (verdict : Verdict) : Prop where
  uses : ∃ behind : List Token, r'.feed = behind.map .ok ∧
    UsesUp ts behind fun u => verdict = .failed (.refused (.insideChord u.text) u.place)
  fails : ∀ e, verdict = .failed e → r'.duration = r.duration ∧ r'.octave = r.octave ∧
    (Refusal e ∨ t.kind = .digit ∧ Unreadable t.text ∧ e = .notNumeral t.text)
  length : t.kind = .digit → lengthOf? t.text = none → verdict = .failed (lengthError t)

namespace Handles
variable {t : Token} {ts behind : List Token} {r r' : Reader}

theorem of_failed {e : ReadError} (hkind : t.kind ≠ .digit) (he : Refusal e)
    (huses : UsesUp ts behind fun u => e = .refused (.insideChord u.text) u.place) :
    Handles t ts r { r with feed := behind.map .ok } (.failed e) where
  uses := ⟨behind, rfl, by simpa using huses⟩
  fails := by
    rintro _ ⟨⟩
    exact ⟨rfl, rfl, .inl he⟩
  length h := absurd h hkind

theorem of_symbol {s : Symbol} (hkind : t.kind ≠ .digit) (hfeed : r'.feed = behind.map .ok)
    (huses : UsesUp ts behind fun _ => False) : Handles t ts r r' (.symbol s) :=
  ⟨⟨behind, hfeed, huses.of_false⟩, nofun, fun h => absurd h hkind⟩

theorem of_onward (hlength : t.kind = .digit → lengthOf? t.text ≠ none)
    (hfeed : r'.feed = behind.map .ok)
    (huses : UsesUp ts behind fun _ => False) : Handles t ts r r' .onward :=
  ⟨⟨behind, hfeed, huses.of_false⟩, nofun, fun h hnone => absurd hnone (hlength h)⟩

end Handles

namespace Reader

theorem handle_tokens (t : Token) (ts : List Token) (duration : Duration) (octave : Nat) :
    Handles t ts ⟨ts.map .ok, duration, octave⟩ (handle ⟨ts.map .ok, duration, octave⟩ t).2
      (handle ⟨ts.map .ok, duration, octave⟩ t).1 := by
  cases hkind : t.kind with
  | noteLetter =>
    obtain ⟨answer, behind, hread, huses, hrefusal⟩ := readPitch_tokens octave t ts
    cases answer with
    | ok pitch =>
      simp only [handle, hkind, hread]
      exact .of_symbol (by simp [hkind]) rfl huses
    | error e =>
      simp only [handle, hkind, hread]
      exact .of_failed (by simp [hkind]) (hrefusal e rfl) huses.of_false
  | chordOpen =>
    obtain ⟨answer, behind, hread, huses, hrefusal⟩ := readChord_tokens octave t ts []
    cases answer with
    | ok pitches =>
      simp only [handle, hkind, hread]
      exact .of_symbol (by simp [hkind]) rfl (by simpa using huses)
    | error e =>
      simp only [handle, hkind, hread]
      exact .of_failed (by simp [hkind]) (hrefusal e rfl) (by simpa using huses)
  | digit =>
    cases hlength : lengthOf? t.text with
    | none =>
      simp only [handle, hkind, readLength_of_none t hlength]
      refine ⟨⟨ts, rfl, .nothing⟩, ?_, fun _ _ => rfl⟩
      rintro _ ⟨⟩
      refine ⟨rfl, rfl, ?_⟩
      by_cases hu : Unreadable t.text
      · exact .inr ⟨hkind, hu, if_pos hu⟩
      · exact .inl ⟨_, _, if_neg hu⟩
    | some length =>
      obtain ⟨dotted, behind, hread, huses⟩ := readLength_of_some t ts hlength
      simp only [handle, hkind, hread]
      exact .of_onward (by simp [hlength]) rfl huses
  | restMark =>
    simp only [handle, hkind]
    exact .of_symbol (by simp [hkind]) rfl .nothing
  | octaveUp =>
    simp only [handle, hkind]
    exact .of_onward (by simp [hkind]) rfl .nothing
  | octaveDown =>
    cases octave with
    | zero =>
      simp only [handle, hkind]
      exact .of_failed (by simp [hkind]) ⟨_, _, rfl⟩ .nothing
    | succ lower =>
      simp only [handle, hkind]
      exact .of_onward (by simp [hkind]) rfl .nothing
  | chordClose | raiseMark | dot =>
    simp only [handle, hkind]
    exact .of_failed (by simp [hkind]) ⟨_, _, rfl⟩ .nothing

end Reader

/-- A token with the readers before and behind it and what it came to. -/
structure Handled where
  token : Token
  before : Reader
  verdict : Verdict
  behind : Reader
  deriving Repr

def Handled.answer? (h : Handled) : Option (Except ReadError (Option Symbol) × Reader) :=
  match h.verdict with
  | .symbol s => some (.ok (some s), h.behind)
  | .failed e => some (.error e, h.behind)
  | .onward => none

namespace Reader

/-- The tokens that are handled up to the end of the feed, whatever they come to. -/
def handled (r : Reader) : List Handled :=
  match _feed : r.feed with
  | [] => []
  | .error _ :: rest => handled { r with feed := rest }
  | .ok t :: rest =>
    ⟨t, { r with feed := rest }, (handle { r with feed := rest } t).1,
      (handle { r with feed := rest } t).2⟩ ::
      handled (handle { r with feed := rest } t).2
  termination_by r.feed.length
  decreasing_by
    · simp [_feed]
    · have : (handle { r with feed := rest } t).2.feed.length ≤ rest.length :=
        handle_length { r with feed := rest } t
      simp only [_feed, List.length_cons]
      omega

def said (r : Reader) : List (Except ReadError (Option Symbol) × Reader) :=
  r.handled.filterMap Handled.answer?

def OverTokens (r : Reader) : Prop := ∃ ts : List Token, r.feed = ts.map .ok

section OverTokens
variable {t : Token} {feed : List Reading} {duration : Duration} {octave : Nat}

theorem handled_nil : handled ⟨[], duration, octave⟩ = [] := by rw [handled]

theorem handled_cons :
    handled ⟨.ok t :: feed, duration, octave⟩ =
      ⟨t, ⟨feed, duration, octave⟩, (handle ⟨feed, duration, octave⟩ t).1,
        (handle ⟨feed, duration, octave⟩ t).2⟩ ::
        (handle ⟨feed, duration, octave⟩ t).2.handled := by rw [handled]

theorem OverTokens.behind {ts : List Token} {verdict : Verdict} {r r' : Reader}
    (h : Handles t ts r r' verdict) :
    r'.OverTokens := by
  obtain ⟨behind, hbehind, -⟩ := h.uses
  exact ⟨behind, hbehind⟩

/-- What holds at the end of the tokens, and of a reader before a token if it holds behind it. -/
@[elab_as_elim]
theorem OverTokens.induction {motive : ∀ r : Reader, r.OverTokens → Prop}
    (nil : ∀ duration octave, motive ⟨[], duration, octave⟩ ⟨[], rfl⟩)
    (token : ∀ t (ts : List Token) duration octave
      (hhandles : Handles t ts ⟨ts.map .ok, duration, octave⟩
        (handle ⟨ts.map .ok, duration, octave⟩ t).2
        (handle ⟨ts.map .ok, duration, octave⟩ t).1),
      motive (handle ⟨ts.map .ok, duration, octave⟩ t).2 (.behind hhandles) →
        motive ⟨.ok t :: ts.map .ok, duration, octave⟩ ⟨t :: ts, rfl⟩)
    {r : Reader} (h : r.OverTokens) : motive r h := by
  induction r using handle_induction with
  | nil duration octave => exact nil duration octave
  | error e feed duration octave =>
    obtain ⟨ts, hfeed⟩ := h
    cases ts <;> simp at hfeed
  | token t feed duration octave ih =>
    obtain ⟨ts, hfeed⟩ := h
    obtain ⟨_, rest, rfl, ⟨⟩, rfl⟩ := List.map_eq_cons_iff.mp hfeed.symm
    have hhandles := handle_tokens t rest duration octave
    exact token t rest duration octave hhandles (ih _)

end OverTokens

/-- The next call gives the first answer that is left, or nothing at the end of the tokens. -/
theorem next_said {r : Reader} (h : r.OverTokens) :
    match r.said with
    | [] => r.next.1 = .ok none ∧ r.next.2.feed = []
    | answer :: rest => r.next = answer ∧ answer.2.said = rest ∧ answer.2.OverTokens := by
  induction h using OverTokens.induction with
  | nil duration octave => simp [said, handled_nil, next]
  | token t ts duration octave hhandles ih =>
    have hbehind := OverTokens.behind hhandles
    have hnext := next_cons ⟨ts.map .ok, duration, octave⟩ t (ts.map .ok)
    rcases hhandle : handle ⟨ts.map .ok, duration, octave⟩ t with ⟨verdict, r'⟩
    rw [hhandle] at hnext hbehind ih
    have hsaid : said ⟨.ok t :: ts.map .ok, duration, octave⟩ =
        (Handled.answer? ⟨t, ⟨ts.map .ok, duration, octave⟩, verdict, r'⟩).toList ++ r'.said := by
      rw [said, handled_cons, hhandle, List.filterMap_cons]
      cases verdict <;> rfl
    rw [hsaid]
    cases verdict with
    | symbol s => exact ⟨hnext, rfl, hbehind⟩
    | failed e => exact ⟨hnext, rfl, hbehind⟩
    | onward =>
      have hsame : next ⟨.ok t :: ts.map .ok, duration, octave⟩ = r'.next := hnext
      rw [hsame]
      exact ih

theorem calls_of_nil {r : Reader} (h : r.feed = []) (n : Nat) :
    ∀ answer ∈ r.calls n, answer.1 = .ok none := by
  have hnext : r.next = (.ok none, r) := by
    rw [next]
    split
    · rfl
    · next heq => simp [h] at heq
    · next heq => simp [h] at heq
  induction n with
  | zero => simp [calls]
  | succ n ih =>
    rw [calls, hnext]
    exact List.forall_mem_cons.mpr ⟨rfl, ih⟩

theorem mem_calls {r : Reader} (h : r.OverTokens) {n : Nat}
    {answer : Except ReadError (Option Symbol) × Reader}
    (hanswer : answer ∈ r.calls n) : answer.1 = .ok none ∨ answer ∈ r.said := by
  induction n generalizing r with
  | zero => simp [calls] at hanswer
  | succ n ih =>
    have hnext := next_said h
    rw [calls] at hanswer
    cases hsaid : r.said with
    | nil =>
      rw [hsaid] at hnext
      rcases List.mem_cons.mp hanswer with rfl | hrest
      · exact .inl hnext.1
      · exact .inl (calls_of_nil hnext.2 n _ hrest)
    | cons first rest =>
      rw [hsaid] at hnext
      obtain ⟨hfirst, hrest, hover⟩ := hnext
      rw [hfirst] at hanswer
      rcases List.mem_cons.mp hanswer with rfl | hlater
      · exact .inr List.mem_cons_self
      · rw [← hrest]
        exact (ih hover hlater).imp_right (List.mem_cons_of_mem first)

theorem exists_mem_calls {r : Reader} (h : r.OverTokens)
    {answer : Except ReadError (Option Symbol) × Reader}
    (hanswer : answer ∈ r.said) : ∃ n, answer ∈ r.calls n := by
  generalize hsaid : r.said = said at hanswer
  induction said generalizing r with
  | nil => simp at hanswer
  | cons first rest ih =>
    have hnext := next_said h
    rw [hsaid] at hnext
    obtain ⟨hfirst, hrest, hover⟩ := hnext
    rcases List.mem_cons.mp hanswer with rfl | hlater
    · exact ⟨1, by simp [calls, hfirst]⟩
    · obtain ⟨n, hn⟩ := ih hover hrest hlater
      refine ⟨n + 1, ?_⟩
      rw [calls, hfirst]
      exact List.mem_cons_of_mem first hn

theorem handles_of_mem {r : Reader} (h : r.OverTokens) {met : Handled} (hmet : met ∈ r.handled) :
    ∃ ts, Handles met.token ts met.before met.behind met.verdict := by
  induction h using OverTokens.induction with
  | nil duration octave => simp [handled_nil] at hmet
  | token t ts duration octave hhandles ih =>
    rw [handled_cons] at hmet
    rcases List.mem_cons.mp hmet with rfl | hlater
    · exact ⟨ts, hhandles⟩
    · exact ih hlater

theorem exists_handled {r : Reader} (h : r.OverTokens) {t : Token} (ht : .ok t ∈ r.feed)
    (hkind : t.kind = .digit) :
    ∃ met ∈ r.handled, met.token = t ∨
      met.verdict = .failed (.refused (.insideChord t.text) t.place) := by
  induction h using OverTokens.induction with
  | nil duration octave => simp at ht
  | token t₀ ts duration octave hhandles ih =>
    obtain ⟨behind, hbehind, used, rfl, hdigits⟩ := hhandles.uses
    rw [handled_cons]
    simp only [List.mem_cons, Except.ok.injEq, List.map_append, List.mem_append, List.mem_map,
      exists_eq_right] at ht
    rcases ht with rfl | ht | ht
    · exact ⟨_, List.mem_cons_self, .inl rfl⟩
    · exact ⟨_, List.mem_cons_self, .inr (hdigits t ht hkind)⟩
    · obtain ⟨met, hmet, hcase⟩ := ih (hbehind ▸ List.mem_map_of_mem ht)
      exact ⟨met, List.mem_cons_of_mem _ hmet, hcase⟩

end Reader

theorem lengthOf?_of_unreadable {text : String} (h : Unreadable text) : lengthOf? text = none := by
  simp [lengthOf?, h.1, h.2]

theorem not_refusal_notNumeral (text : String) : ¬Refusal (.notNumeral text) := by
  rintro ⟨cause, place, h⟩
  cases h

section Tokens
variable {ts : List Token}

theorem overTokens_ofTokens (ts : List Token) : (Reader.ofTokens ts).OverTokens := ⟨ts, rfl⟩

theorem mem_calls_of_failed {met : Handled} (hmet : met ∈ (Reader.ofTokens ts).handled)
    {e : ReadError}
    (he : met.verdict = .failed e) :
    ∃ n, (.error e, met.behind) ∈ (Reader.ofTokens ts).calls n := by
  apply Reader.exists_mem_calls (overTokens_ofTokens ts)
  exact List.mem_filterMap.mpr ⟨met, hmet, by simp [Handled.answer?, he]⟩

/-- A call is as documented, or it comes to a digit that is no numeral. -/
theorem documented_or_unreadable {n : Nat} {answer : Except ReadError (Option Symbol) × Reader}
    (h : answer ∈ (Reader.ofTokens ts).calls n) :
    Documented answer.1 ∨ ∃ met ∈ (Reader.ofTokens ts).handled, met.token.kind = .digit ∧
      Unreadable met.token.text ∧
      answer = (.error (.notNumeral met.token.text), met.behind) := by
  rcases Reader.mem_calls (overTokens_ofTokens ts) h with hnone | hsaid
  · rw [hnone]
    exact .inl trivial
  · obtain ⟨met, hmet, hanswer⟩ := List.mem_filterMap.mp hsaid
    obtain ⟨_, -, hfails, -⟩ := Reader.handles_of_mem (overTokens_ofTokens ts) hmet
    cases hverdict : met.verdict with
    | symbol s =>
      obtain rfl : (.ok (some s), met.behind) = answer := by
        simpa [Handled.answer?, hverdict] using hanswer
      exact .inl trivial
    | failed e =>
      obtain rfl : (.error e, met.behind) = answer := by
        simpa [Handled.answer?, hverdict] using hanswer
      obtain ⟨-, -, hrefusal | ⟨hkind, hunreadable, rfl⟩⟩ := hfails e hverdict
      · exact .inl hrefusal
      · exact .inr ⟨met, hmet, hkind, hunreadable, rfl⟩
    | onward => simp [Handled.answer?, hverdict] at hanswer

theorem failed_of_digit {t : Token} (ht : t ∈ ts) (hkind : t.kind = .digit)
    (hlength : lengthOf? t.text = none) :
    ∃ met ∈ (Reader.ofTokens ts).handled, ∃ e n, (.error e, met.behind) ∈
      (Reader.ofTokens ts).calls n ∧
      met.behind.duration = met.before.duration ∧ met.behind.octave = met.before.octave ∧
      (met.token = t ∧ e = lengthError t ∨ e = .refused (.insideChord t.text) t.place) := by
  obtain ⟨met, hmet, htoken | hchord⟩ :=
    Reader.exists_handled (overTokens_ofTokens ts) (List.mem_map_of_mem ht) hkind
  · obtain ⟨_, -, hfails, hlengths⟩ := Reader.handles_of_mem (overTokens_ofTokens ts) hmet
    have hverdict := hlengths (htoken ▸ hkind) (htoken ▸ hlength)
    rw [htoken] at hverdict
    obtain ⟨n, hn⟩ := mem_calls_of_failed hmet hverdict
    obtain ⟨hduration, hoctave, -⟩ := hfails _ hverdict
    exact ⟨met, hmet, _, n, hn, hduration, hoctave, .inl ⟨htoken, rfl⟩⟩
  · obtain ⟨_, -, hfails, -⟩ := Reader.handles_of_mem (overTokens_ofTokens ts) hmet
    obtain ⟨n, hn⟩ := mem_calls_of_failed hmet hchord
    obtain ⟨hduration, hoctave, -⟩ := hfails _ hchord
    exact ⟨met, hmet, _, n, hn, hduration, hoctave, .inr rfl⟩

end Tokens

/-- Over any tokens, the calls of a reader, errors or not in between, fail as documented exactly if
no digit that is handled is made of digits and yet no numeral; and it is only there that one fails
in another way. A digit that denotes no length always makes a call fail, and duration and octave
stay as they were before that token or its chord. -/
theorem fails_as_documented_iff (ts : List Token) :
    ((∀ n, ∀ answer ∈ (Reader.ofTokens ts).calls n, Documented answer.1) ↔
      ∀ met ∈ (Reader.ofTokens ts).handled, met.token.kind = .digit → ¬Unreadable met.token.text) ∧
    (∀ n, ∀ answer ∈ (Reader.ofTokens ts).calls n,
      Documented answer.1 ∨ ∃ met ∈ (Reader.ofTokens ts).handled, met.token.kind = .digit ∧
        Unreadable met.token.text ∧ answer = (.error (.notNumeral met.token.text), met.behind)) ∧
    ∀ t ∈ ts, t.kind = .digit → lengthOf? t.text = none →
      ∃ met ∈ (Reader.ofTokens ts).handled, ∃ e n, (.error e, met.behind) ∈
        (Reader.ofTokens ts).calls n ∧
        met.behind.duration = met.before.duration ∧ met.behind.octave = met.before.octave ∧
        (met.token = t ∧ e = lengthError t ∨ e = .refused (.insideChord t.text) t.place) := by
  refine ⟨⟨?_, ?_⟩, fun _ _ => documented_or_unreadable, fun t => failed_of_digit⟩
  · intro h met hmet hkind hunreadable
    obtain ⟨_, -, -, hlengths⟩ := Reader.handles_of_mem (overTokens_ofTokens ts) hmet
    have hverdict := hlengths hkind (lengthOf?_of_unreadable hunreadable)
    rw [lengthError, if_pos hunreadable] at hverdict
    obtain ⟨n, hn⟩ := mem_calls_of_failed hmet hverdict
    exact not_refusal_notNumeral _ (h n _ hn)
  · intro h n answer hanswer
    rcases documented_or_unreadable hanswer with hdocumented | ⟨met, hmet, hkind, hunreadable, -⟩
    · exact hdocumented
    · exact absurd hunreadable (h met hmet hkind)

/-- A superscript two is a digit and no numeral. -/
theorem superscript_not_documented :
    ((Reader.ofTokens [⟨.digit, "²", {}⟩]).calls 1).map Prod.fst = [.error (.notNumeral "²")] ∧
      ¬Documented (.error (.notNumeral "²")) := by
  have hunreadable : Unreadable "²" := by decide +kernel
  have hlength := readLength_of_none ⟨.digit, "²", {}⟩ (lengthOf?_of_unreadable hunreadable) []
  rw [lengthError, if_pos hunreadable] at hlength
  have hnext := Reader.next_cons ⟨[], {}, 0⟩ ⟨.digit, "²", {}⟩ []
  simp only [Reader.handle, hlength] at hnext
  have hcall : (Reader.ofTokens [⟨.digit, "²", {}⟩]).next.1 = .error (.notNumeral "²") :=
    congrArg Prod.fst hnext
  exact ⟨by simp [Reader.calls, hcall], not_refusal_notNumeral "²"⟩

end Tablature.Notation
