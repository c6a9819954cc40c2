import Tablature.Notation.Element

/-!
Reading symbols. A length and an octave shift hold for every symbol behind them until they change
again; the reader keeps both beside the readings ahead. An error uses up what it blames and leaves a
reader that can go on. -/
namespace Tablature.Notation
open Tablature.Music

/-- The readings ahead with the duration and the octave in force. -/
structure Reader where
  feed : List Reading
  duration : Duration := {}
  octave : Nat := 0
  deriving Repr

/-- What handling one token comes to. -/
inductive Verdict where
  | symbol (symbol : Symbol)
  | failed (error : ReadError)
  | onward
  deriving DecidableEq, Repr

namespace Reader

def ofText (text : String) : Reader := { feed := readings text }

def ofTokens (tokens : List Token) : Reader := { feed := tokens.map .ok }

/-- Handles a token that has been taken off the feed. -/
def handle (r : Reader) (t : Token) : Verdict × Reader :=
  match t.kind with
  | .noteLetter => match readPitch r.octave t r.feed with
    | (.ok pitch, rest) => (.symbol ⟨r.duration, .note pitch⟩, { r with feed := rest })
    | (.error e, rest) => (.failed e, { r with feed := rest })
  | .chordOpen => match readChord r.octave t [] r.feed with
    | (.ok pitches, rest) => (.symbol ⟨r.duration, .chord pitches⟩, { r with feed := rest })
    | (.error e, rest) => (.failed e, { r with feed := rest })
  | .restMark => (.symbol ⟨r.duration, .rest⟩, r)
  | .digit => match readLength t r.feed with
    | (.ok duration, rest) => (.onward, { r with feed := rest, duration := duration })
    | (.error e, rest) => (.failed e, { r with feed := rest })
  | .octaveUp => (.onward, { r with octave := r.octave + 1 })
  | .octaveDown => match r.octave with
    | 0 => (.failed (.refused (.lowestOctave t.text) t.place), r)
    | lower + 1 => (.onward, { r with octave := lower })
  | _ => (.failed (.refused (.misplaced t.text) t.place), r)

theorem handle_length (r : Reader) (t : Token) : (r.handle t).2.feed.length ≤ r.feed.length := by
  unfold handle
  split
  · have := readPitch_length r.octave t r.feed
    split <;> simp_all
  · have := readChord_length r.octave t [] r.feed
    split <;> simp_all
  · simp
  · have := readLength_length t r.feed
    split <;> simp_all
  · simp
  · split <;> simp
  · simp

/-- The next symbol, nothing at the end of the feed, or an error; with the reader that goes on from
there. -/
def next (r : Reader) : Except ReadError (Option Symbol) × Reader :=
  match _feed : r.feed with
  | [] => (.ok none, r)
  | .error e :: rest => (.error (.scan e), { r with feed := rest })
  | .ok t :: rest =>
    match _h : handle { r with feed := rest } t with
    | (.symbol s, r') => (.ok (some s), r')
    | (.failed e, r') => (.error e, r')
    | (.onward, r') => r'.next
  termination_by r.feed.length
  decreasing_by
    have := handle_length { r with feed := rest } t
    simp only [_h] at this
    simp only [_feed, List.length_cons]
    omega

theorem next_length (r : Reader) : r.next.2.feed.length ≤ r.feed.length := by
  fun_induction next r with
  | case1 r hf => exact Nat.le_refl _
  | case2 r e rest hf =>
    rw [hf]
    exact Nat.le_succ _
  | case3 r t rest hf s r' h =>
    have hl := handle_length { r with feed := rest } t
    rw [h] at hl
    rw [hf]
    exact Nat.le_succ_of_le hl
  | case4 r t rest hf e r' h =>
    have hl := handle_length { r with feed := rest } t
    rw [h] at hl
    rw [hf]
    exact Nat.le_succ_of_le hl
  | case5 r t rest hf r' h ih =>
    have hl := handle_length { r with feed := rest } t
    rw [h] at hl
    rw [hf]
    exact Nat.le_succ_of_le (Nat.le_trans ih hl)

theorem next_symbol_length {r r' : Reader} {s : Symbol} (hn : r.next = (.ok (some s), r')) :
    r'.feed.length < r.feed.length := by
  fun_induction next r with
  | case1 r hf => cases hn
  | case2 r e rest hf => cases hn
  | case3 r t rest hf s r' h =>
    have hl := handle_length { r with feed := rest } t
    rw [h] at hl
    cases hn
    rw [hf]
    exact Nat.lt_succ_of_le hl
  | case4 r t rest hf e r' h => cases hn
  | case5 r t rest hf r' h ih =>
    have hl := handle_length { r with feed := rest } t
    rw [h] at hl
    rw [hf]
    exact Nat.lt_succ_of_le (Nat.le_trans (Nat.le_of_lt (ih hn)) hl)

def all (r : Reader) : Except ReadError (List Symbol) :=
  match _h : r.next with
  | (.error e, _) => .error e
  | (.ok none, _) => .ok []
  | (.ok (some s), r') => match r'.all with
    | .error e => .error e
    | .ok symbols => .ok (s :: symbols)
  termination_by r.feed.length
  decreasing_by exact next_symbol_length _h

/-- The answers of so many calls for the next symbol, each with the reader that it leaves. -/
def calls : Nat → Reader → List (Except ReadError (Option Symbol) × Reader)
  | 0, _ => []
  | n + 1, r => let answer := r.next; answer :: calls n answer.2

end Reader

def symbols (text : String) : Except ReadError (List Symbol) := (Reader.ofText text).all

end Tablature.Notation
