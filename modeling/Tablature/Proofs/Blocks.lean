import Tablature.Proofs.Pulling

/-!
Every reading is used once. A call for the next symbol takes a block of readings off the front of
what is ahead, and nothing behind the block tells on it: wherever the feed is cut behind the block,
the call answers the same and leaves what is left. `Takes` says this of any step, and it is carried
from the elements of an item through the tokens of a call (`Reader.next_takes`). So the blocks of
calls that go on after errors lie one behind the other from the start of the feed, and a token that
was looked at and not taken is the first of the next block. A call that answers something has a
block that is not empty, so that no more calls do than there are readings (`readings_used_once`). -/
namespace Tablature.Notation
open Tablature.Text Tablature.Music

/-- A step takes some readings off the front of a feed, and those behind them do not matter to it:
it answers the same wherever they are cut off. -/
structure Takes {α : Type} (step : List Reading → α × List Reading) (feed used : List Reading) :
    Prop where
  split : feed = used ++ (step feed).2
  cut : ∀ part, part <+: (step feed).2 → step (used ++ part) = ((step feed).1, part)

namespace Takes
variable {α β : Type} {step : List Reading → α × List Reading}
  {step' : List Reading → β × List Reading}
  {feed used used' : List Reading}

theorem skip {answer : α} (h : ∀ feed, step feed = (answer, feed)) : Takes step feed [] where
  split := by rw [h, List.nil_append]
  cut part _ := by rw [h, h, List.nil_append]

theorem nil {answer : α} (h : step [] = (answer, [])) : Takes step [] [] where
  split := by rw [h, List.nil_append]
  cut part hpart := by
    rw [h] at hpart ⊢
    rw [List.prefix_nil.mp hpart, List.nil_append, h]

theorem one {answer : α} {r : Reading} (h : ∀ feed, step (r :: feed) = (answer, feed)) :
    Takes step (r :: feed) [r] where
  split := by rw [h, List.singleton_append]
  cut part _ := by rw [List.singleton_append, h, h]

theorem map (f : α → β) (h : Takes step feed used)
    (hstep : ∀ feed, step' feed = (f (step feed).1, (step feed).2)) :
    Takes step' feed used where
  split := by
    rw [hstep]
    exact h.split
  cut part hpart := by
    rw [hstep feed] at hpart ⊢
    rw [hstep, h.cut part hpart]

theorem cons {r : Reading} (h : Takes step' feed used) {step : List Reading → β × List Reading}
    (hstep : ∀ feed, step (r :: feed) = step' feed) : Takes step (r :: feed) (r :: used) where
  split := by rw [hstep, List.cons_append, ← h.split]
  cut part hpart := by
    rw [hstep] at hpart ⊢
    rw [List.cons_append, hstep, h.cut part hpart]

/-- One step behind another. What the first leaves is cut, so that the second begins on its own
block and the part. -/
theorem bind {onward : α → List Reading → β × List Reading} (h : Takes step feed used)
    (honward : Takes (onward (step feed).1) (step feed).2 used') :
    Takes (fun feed => onward (step feed).1 (step feed).2) feed (used ++ used') where
  split := by rw [List.append_assoc, ← honward.split, ← h.split]
  cut part hpart := by
    have hprefix : used' ++ part <+: (step feed).2 := by
      conv_rhs => rw [honward.split]
      exact (List.prefix_append_right_inj used').mpr hpart
    simp only [List.append_assoc, h.cut _ hprefix, honward.cut part hpart]

theorem eq_take (h : Takes step feed used) :
    feed.take (feed.length - (step feed).2.length) = used := by
  have hlength := congrArg List.length h.split
  rw [List.length_append] at hlength
  have hused : feed.length - (step feed).2.length = used.length := by omega
  rw [hused]
  conv_lhs => rw [h.split]
  exact List.take_left

end Takes

section Elements
variable (octave : Nat) (t : Token) (feed : List Reading)

theorem takeKind_takes (kind : Kind) : ∃ used, Takes (takeKind kind) feed used := by
  rcases feed with _ | ⟨e | u, rest⟩
  · exact ⟨[], .nil rfl⟩
  · exact ⟨[.error e], .one fun _ => rfl⟩
  · by_cases hkind : u.kind = kind
    · exact ⟨[.ok u], .one fun _ => if_pos hkind⟩
    · have htake : ∀ rest, takeKind kind (.ok u :: rest) = (.ok false, .ok u :: rest) :=
        fun _ => if_neg hkind
      refine ⟨[], by rw [htake, List.nil_append], fun part hpart => ?_⟩
      rw [htake] at hpart ⊢
      -- The other token may be cut off with the rest; the end of the feed answers the same.
      rcases List.prefix_cons_iff.mp hpart with rfl | ⟨part, rfl, -⟩
      · rfl
      · exact htake part

theorem readPitch_takes : ∃ used, Takes (readPitch octave t) feed used := by
  cases hstep : stepOf? t.text with
  | none => exact ⟨[], .skip fun _ => by rw [readPitch, hstep]⟩
  | some n =>
    obtain ⟨used, hused⟩ := takeKind_takes feed .raiseMark
    refine ⟨used, hused.map (fun raised => (raised.mapError ReadError.scan).map fun raised =>
      ((n + octave * stepsPerOctave + if raised then stepsPerOctave else 0 : Nat) : Int)) ?_⟩
    intro feed
    simp only [readPitch, hstep]
    rcases takeKind .raiseMark feed with ⟨_ | raised, rest⟩
    · rfl
    · rfl

theorem readLength_takes : ∃ used, Takes (readLength t) feed used := by
  by_cases hdigits : isDigits t.text.toList = true
  · cases hdecimal : decimal? t.text.toList with
    | none => exact ⟨[], .skip fun _ => by rw [readLength, if_pos hdigits, hdecimal]⟩
    | some n =>
      cases hlength : Length.ofNat? n with
      | none =>
        exact ⟨[], .skip fun _ => by
          simp only [readLength, hdigits, if_true, hdecimal, hlength]
          rfl⟩
      | some length =>
        obtain ⟨used, hused⟩ := takeKind_takes feed .dot
        refine ⟨used,
          hused.map (fun dotted => (dotted.mapError ReadError.scan).map (Duration.mk length)) ?_⟩
        intro feed
        simp only [readLength, hdigits, if_true, hdecimal, hlength]
        rcases takeKind .dot feed with ⟨_ | dotted, rest⟩
        · rfl
        · rfl
  · exact ⟨[], .skip fun _ => by rw [readLength, if_neg hdigits]⟩

def chordBehind (opening : Token) (found : List Pitch) :
    Except ReadError Pitch → List Reading → Except ReadError (List Pitch) × List Reading
  | .error e, feed => (.error e, feed)
  | .ok pitch, feed => readChord octave opening (found ++ [pitch]) feed

theorem readChord_onward {opening : Token} {found : List Pitch} (hletter : t.kind = .noteLetter) :
    readChord octave opening found (.ok t :: feed) =
      chordBehind octave opening found (readPitch octave t feed).1 (readPitch octave t feed).2 := by
  rcases hpitch : readPitch octave t feed with ⟨e | pitch, rest⟩
  · exact readChord_letter_error hletter hpitch
  · exact readChord_letter hletter hpitch

theorem readChord_takes (found : List Pitch) :
    ∃ used, Takes (readChord octave t found) feed used := by
  fun_induction readChord octave t found feed with
  | case1 found => exact ⟨[], .nil (by rw [readChord])⟩
  | case2 found e rest => exact ⟨[.error e], .one fun _ => by rw [readChord]⟩
  | case3 found u rest hclose hempty =>
    exact ⟨[.ok u], .one fun _ => by rw [readChord, if_pos hclose, if_pos hempty]⟩
  | case4 found u rest hclose hnotes =>
    exact ⟨[.ok u], .one fun _ => by rw [readChord, if_pos hclose, if_neg hnotes]⟩
  | case5 found u rest hclose hletter e rest' hpitch =>
    obtain ⟨used, hused⟩ := readPitch_takes octave u rest
    have honward : Takes (chordBehind octave t found (readPitch octave u rest).1)
        (readPitch octave u rest).2 [] := by
      rw [hpitch]
      exact .skip fun _ => rfl
    exact ⟨_, (hused.bind honward).cons fun feed => readChord_onward octave u feed hletter⟩
  | case6 found u rest hclose hletter pitch rest' hpitch ih =>
    obtain ⟨used, hused⟩ := readPitch_takes octave u rest
    obtain ⟨used', hused'⟩ := ih
    have honward : Takes (chordBehind octave t found (readPitch octave u rest).1)
        (readPitch octave u rest).2 used' := by
      rw [hpitch]
      exact hused'
    exact ⟨_, (hused.bind honward).cons fun feed => readChord_onward octave u feed hletter⟩
  | case7 found u rest hclose hletter =>
    exact ⟨[.ok u], .one fun _ => readChord_other hclose hletter⟩

end Elements

namespace Reader
variable (t : Token) (duration : Duration) (octave : Nat) (feed : List Reading)

/-- What a step answers and leaves in force, apart from the feed behind it. -/
def tell {α : Type} (x : α × Reader) : (α × Duration × Nat) × List Reading :=
  ((x.1, x.2.duration, x.2.octave), x.2.feed)

def soundVerdict {α : Type} (sound : α → Sound) : Except ReadError α → Verdict × Duration × Nat
  | .error e => (.failed e, duration, octave)
  | .ok a => (.symbol ⟨duration, sound a⟩, duration, octave)

def lengthVerdict : Except ReadError Duration → Verdict × Duration × Nat
  | .error e => (.failed e, duration, octave)
  | .ok duration' => (.onward, duration', octave)

theorem handle_takes :
    ∃ used, Takes (fun feed => tell (handle ⟨feed, duration, octave⟩ t)) feed used := by
  cases hkind : t.kind with
  | noteLetter =>
    obtain ⟨used, hused⟩ := readPitch_takes octave t feed
    refine ⟨used, hused.map (soundVerdict duration octave .note) ?_⟩
    intro feed
    simp only [handle, hkind]
    rcases readPitch octave t feed with ⟨_ | pitch, rest⟩
    · rfl
    · rfl
  | chordOpen =>
    obtain ⟨used, hused⟩ := readChord_takes octave t feed []
    refine ⟨used, hused.map (soundVerdict duration octave .chord) ?_⟩
    intro feed
    simp only [handle, hkind]
    rcases readChord octave t [] feed with ⟨_ | pitches, rest⟩
    · rfl
    · rfl
  | digit =>
    obtain ⟨used, hused⟩ := readLength_takes t feed
    refine ⟨used, hused.map (lengthVerdict duration octave) ?_⟩
    intro feed
    simp only [handle, hkind]
    rcases readLength t feed with ⟨_ | duration, rest⟩
    · rfl
    · rfl
  | octaveDown =>
    cases octave with
    | zero => exact ⟨[], .skip fun _ => by simp only [handle, hkind, tell]; rfl⟩
    | succ lower => exact ⟨[], .skip fun _ => by simp only [handle, hkind, tell]; rfl⟩
  | restMark | octaveUp | chordClose | raiseMark | dot =>
    exact ⟨[], .skip fun _ => by simp only [handle, hkind, tell]; rfl⟩

theorem next_nil : next ⟨[], duration, octave⟩ = (.ok none, ⟨[], duration, octave⟩) := by rw [next]

theorem next_error (e : ScanError) :
    next ⟨.error e :: feed, duration, octave⟩ = (.error (.scan e), ⟨feed, duration, octave⟩) := by
  rw [next]

/-- The call behind a token that has been handled: it is over, or it goes on. -/
def callBehind : Verdict × Duration × Nat → List Reading →
    (Except ReadError (Option Symbol) × Duration × Nat) × List Reading
  | (.symbol s, inForce), feed => ((.ok (some s), inForce), feed)
  | (.failed e, inForce), feed => ((.error e, inForce), feed)
  | (.onward, duration, octave), feed => tell (next ⟨feed, duration, octave⟩)

theorem next_onward : tell (next ⟨.ok t :: feed, duration, octave⟩) =
    callBehind (tell (handle ⟨feed, duration, octave⟩ t)).1
      (tell (handle ⟨feed, duration, octave⟩ t)).2 := by
  rw [next_cons ⟨feed, duration, octave⟩]
  rcases handle ⟨feed, duration, octave⟩ t with ⟨_ | _ | _, r⟩ <;> rfl

theorem next_takes (r : Reader) :
    ∃ used, Takes (fun feed => tell (next ⟨feed, r.duration, r.octave⟩)) r.feed used := by
  induction r using handle_induction with
  | nil duration octave => exact ⟨[], .nil (congrArg tell (next_nil duration octave))⟩
  | error e feed duration octave =>
    exact ⟨[.error e], .one fun _ => by simp only [next_error, tell]; rfl⟩
  | token t feed duration octave ih =>
    obtain ⟨used, hused⟩ := handle_takes t duration octave feed
    have honward : ∃ used', Takes (callBehind (tell (handle ⟨feed, duration, octave⟩ t)).1)
        (tell (handle ⟨feed, duration, octave⟩ t)).2 used' := by
      rcases hhandle : handle ⟨feed, duration, octave⟩ t with ⟨s | e | _, r⟩
      · exact ⟨[], .skip fun _ => rfl⟩
      · exact ⟨[], .skip fun _ => rfl⟩
      · rw [hhandle] at ih
        exact ih
    obtain ⟨used', honward⟩ := honward
    exact ⟨_, (hused.bind honward).cons fun feed => next_onward t duration octave feed⟩

/-- The readings that the next call takes. -/
def used (r : Reader) : List Reading := r.feed.take (r.feed.length - r.next.2.feed.length)

theorem used_takes (r : Reader) :
    Takes (fun feed => tell (next ⟨feed, r.duration, r.octave⟩)) r.feed r.used := by
  obtain ⟨used, hused⟩ := next_takes r
  have heq : r.used = used := hused.eq_take
  rwa [heq]

theorem used_append (r : Reader) : r.used ++ r.next.2.feed = r.feed := r.used_takes.split.symm

/-- A call with the readings behind its block cut off. -/
theorem next_cut (r : Reader) {part : List Reading} (hpart : part <+: r.next.2.feed) :
    next ⟨r.used ++ part, r.duration, r.octave⟩ =
      (r.next.1, ⟨part, r.next.2.duration, r.next.2.octave⟩) := by
  have hcut := r.used_takes.cut part hpart
  rcases hnext : next ⟨r.used ++ part, r.duration, r.octave⟩ with ⟨answer, feed, duration, octave⟩
  rw [hnext] at hcut
  cases hcut
  rfl

theorem feed_of_next_none {r : Reader} (h : r.next.1 = .ok none) : r.next.2.feed = [] := by
  induction r using handle_induction with
  | nil duration octave => rw [next_nil]
  | error e feed duration octave =>
    rw [next_error] at h
    cases h
  | token t feed duration octave ih =>
    rw [next_cons ⟨feed, duration, octave⟩] at h ⊢
    generalize handle ⟨feed, duration, octave⟩ t = handled at h ih ⊢
    obtain ⟨verdict, r⟩ := handled
    cases verdict with
    | symbol s => cases h
    | failed e => cases h
    | onward => exact ih h

theorem next_of_feed_nil {r : Reader} (h : r.feed = []) : r.next = (.ok none, r) := by
  obtain ⟨feed, duration, octave⟩ := r
  cases h
  exact next_nil duration octave

theorem used_ne_nil {r : Reader} (h : r.feed ≠ []) : r.used ≠ [] := by
  intro hused
  have hfeed := r.used_append
  rw [hused, List.nil_append] at hfeed
  -- With all of the feed cut off, the call answers that nothing is there; so it answered that
  -- already.
  have hcut := r.next_cut List.nil_prefix
  rw [hused, List.append_nil, next_nil] at hcut
  exact h (hfeed.symm.trans (feed_of_next_none (congrArg Prod.fst hcut).symm))

end Reader

namespace Puller
variable {σ : Type} (src : Source σ) (p : Puller σ)

/-- The puller behind so many calls for the next symbol, whatever they answer. -/
def behind : Nat → Puller σ
  | 0 => p
  | n + 1 => ((behind n).next src).2

/-- What a call answers, the calls being counted from nought. -/
def answer (n : Nat) : Except ReadError (Option Symbol) := ((p.behind src n).next src).1

/-- The readings that are still to be taken behind so many calls. -/
def left (n : Nat) : List Reading := (p.behind src n).buffer.ahead src

def block (n : Nat) : List Reading :=
  (p.left src n).take ((p.left src n).length - (p.left src (n + 1)).length)

/-- Any number of calls use each reading of a feed once. -/
structure UsesEachOnce (feed : List Reading) : Prop where
  /-- The blocks lie one behind the other, and what they leave of the feed is still to be taken. -/
  consecutive : ∀ n, feed = (List.range n).flatMap (p.block src) ++ p.left src n
  progress : ∀ n, p.answer src n ≠ .ok none → p.block src n ≠ []
  /-- A token that was looked at is taken by the next call. -/
  peeked : ∀ n t, (p.behind src n).buffer.peeked = some t → (p.block src n).head? = some (.ok t)
  /-- What lies behind the block of a call does not matter to it. -/
  alone : ∀ n part, part <+: p.left src (n + 1) →
    Reader.next ⟨p.block src n ++ part, (p.behind src n).duration, (p.behind src n).octave⟩ =
      (p.answer src n, ⟨part, (p.behind src (n + 1)).duration, (p.behind src (n + 1)).octave⟩)
  bounded : ∀ n, p.answer src n ≠ .ok none → n < feed.length
  finished : ∀ n m, n ≤ m → p.answer src n = .ok none → p.answer src m = .ok none

section Calls
variable (n : Nat)

theorem next_behind :
    ((p.behind src n).ahead src).next = (p.answer src n, (p.behind src (n + 1)).ahead src) :=
  next_ahead src (p.behind src n)

theorem used_behind : ((p.behind src n).ahead src).used = p.block src n := by
  rw [Reader.used, next_behind]
  rfl

theorem left_eq : p.left src n = p.block src n ++ p.left src (n + 1) := by
  have happend := ((p.behind src n).ahead src).used_append
  rw [next_behind, used_behind] at happend
  exact happend.symm

theorem block_ne_nil (h : p.left src n ≠ []) : p.block src n ≠ [] := by
  rw [← used_behind]
  exact Reader.used_ne_nil h

variable {src p n}

theorem left_ne_nil (h : p.answer src n ≠ .ok none) : p.left src n ≠ [] := by
  intro hnil
  have hnext := Reader.next_of_feed_nil (r := (p.behind src n).ahead src) hnil
  rw [next_behind] at hnext
  exact h (congrArg Prod.fst hnext)

theorem left_succ_of_none (h : p.answer src n = .ok none) : p.left src (n + 1) = [] := by
  have hfeed := Reader.feed_of_next_none (r := (p.behind src n).ahead src) (by rw [next_behind, h])
  rw [next_behind] at hfeed
  exact hfeed

theorem answer_succ_of_none (h : p.answer src n = .ok none) : p.answer src (n + 1) = .ok none := by
  by_contra hne
  exact left_ne_nil hne (left_succ_of_none h)

theorem left_length_of_answer (h : p.answer src n ≠ .ok none) :
    (p.left src n).length + n ≤ (p.left src 0).length := by
  induction n with
  | zero => exact Nat.le_refl _
  | succ n ih =>
    have hanswer : p.answer src n ≠ .ok none := fun hnone => h (answer_succ_of_none hnone)
    have hblock := List.length_pos_of_ne_nil (block_ne_nil src p n (left_ne_nil hanswer))
    have hlength := congrArg List.length (left_eq src p n)
    rw [List.length_append] at hlength
    have hbefore := ih hanswer
    omega

end Calls

theorem usesEachOnce : p.UsesEachOnce src (p.left src 0) where
  consecutive n := by
    induction n with
    | zero => rfl
    | succ n ih =>
      rw [List.range_succ, List.flatMap_append, List.flatMap_singleton, List.append_assoc,
        ← left_eq]
      exact ih
  progress n h := block_ne_nil src p n (left_ne_nil h)
  peeked n t h := by
    have hleft : p.left src n = .ok t :: src.readings (p.behind src n).buffer.source := by
      rw [left, Buffer.ahead, h]
      rfl
    have hblock := block_ne_nil src p n (by rw [hleft]; exact List.cons_ne_nil _ _)
    rw [left_eq] at hleft
    -- The block is not empty, so that its first reading is the first one ahead.
    have hhead := congrArg List.head? hleft
    rwa [List.head?_append_of_ne_nil _ hblock] at hhead
  alone n part hpart := by
    have hleft : part <+: ((p.behind src n).ahead src).next.2.feed := by
      rw [next_behind]
      exact hpart
    have hcut := Reader.next_cut _ hleft
    rw [next_behind, used_behind] at hcut
    exact hcut
  bounded n h := by
    have hlength := left_length_of_answer h
    have hpos := List.length_pos_of_ne_nil (left_ne_nil h)
    omega
  finished n m hle h := by
    induction hle with
    | refl => exact h
    | step _ ih => exact answer_succ_of_none ih

end Puller

theorem readings_length (text : String) : (readings text).length ≤ text.length := by
  have hscan : ∀ (inComment : Bool) (line column : Nat) (s : List Char),
      (Cursor.scan inComment line column s).length ≤ s.length := by
    intro inComment line column s
    fun_induction Cursor.scan inComment line column s <;> simp_all <;> omega
  rw [← String.length_toList]
  exact hscan false 1 0 text.toList

/-- Reading makes progress and uses everything once, errors included. With the tokens given
beforehand, no more calls have an answer than there are tokens; and on a text that is scanned
meanwhile, no more than it has characters. -/
theorem readings_used_once :
    (∀ ts : List Token, (Puller.ofTokens ts).UsesEachOnce .scanned (ts.map .ok) ∧
      ∀ n, (Puller.ofTokens ts).answer .scanned n ≠ .ok none → n < ts.length) ∧
    ∀ text : String, (Puller.ofText text).UsesEachOnce .scanning (readings text) ∧
      ∀ n, (Puller.ofText text).answer .scanning n ≠ .ok none → n < text.length := by
  constructor
  · intro ts
    have huses : (Puller.ofTokens ts).UsesEachOnce .scanned (ts.map .ok) :=
      Puller.usesEachOnce .scanned _
    refine ⟨huses, fun n h => ?_⟩
    have hbounded := huses.bounded n h
    rwa [List.length_map] at hbounded
  · intro text
    have huses : (Puller.ofText text).UsesEachOnce .scanning (readings text) :=
      Puller.usesEachOnce .scanning _
    exact ⟨huses, fun n h => Nat.lt_of_lt_of_le (huses.bounded n h) (readings_length text)⟩

end Tablature.Notation
