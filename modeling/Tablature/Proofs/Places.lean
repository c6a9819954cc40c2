import Mathlib.Data.List.Induction
import Tablature.Notation.Reading

/-!
Where the readings of a text stand. Every reading belongs to one character, which is neither blank
nor in a comment, and its place tells the line feeds in front of that character and the characters
behind the latest of them. What is read in front of a character depends on nothing that follows it
(`exists_readAt`). -/
namespace Tablature.Notation
open Tablature.Text

def lastLine (s : List Char) : List Char := s.reverse.takeWhile (· != '\n')

/-- The place of a character that stands behind the others: its line is one more than the line feeds
before it, its column one more than the characters of its line before it. -/
def placeBehind (s : List Char) : Place := .known (s.count '\n' + 1) ((lastLine s).length + 1)

/-- A character of a text that is read: it is no blank, and there is no number sign in its line up
to it. -/
structure ReadAt (s : List Char) (k : Nat) (c : Char) : Prop where
  getElem? : s[k]? = some c
  not_blank : isBlank c = false
  not_mark : c ≠ '#'
  not_comment : '#' ∉ lastLine (s.take k)

theorem lastLine_append (s : List Char) (c : Char) :
    lastLine (s ++ [c]) = if c = '\n' then [] else c :: lastLine s := by
  by_cases hc : c = '\n' <;> simp [lastLine, hc]

def readingsOf (s : List Char) : List Reading := Cursor.scan false 1 0 s

theorem readings_eq_readingsOf (text : String) : readings text = readingsOf text.toList := rfl

/-- Where the walk over a text stands: the place of the latest character, and whether a comment
hides what follows. -/
structure Spot where
  line : Nat := 1
  column : Nat := 0
  inComment : Bool := false
  deriving DecidableEq, Repr

namespace Spot

def pass (spot : Spot) (c : Char) : Spot :=
  if c = '\n' then ⟨spot.line + 1, 0, false⟩
    else ⟨spot.line, spot.column + 1, spot.inComment || c == '#'⟩

def scan (spot : Spot) (s : List Char) : List Reading :=
  Cursor.scan spot.inComment spot.line spot.column s

def behind (s : List Char) : Spot := s.foldl pass {}

theorem scan_cons (spot : Spot) (c : Char) (s : List Char) :
    spot.scan (c :: s) = spot.scan [c] ++ (spot.pass c).scan s := by
  obtain ⟨line, column, inComment⟩ := spot
  simp only [scan, Cursor.scan, pass]
  by_cases hn : c = '\n'
  · simp [hn]
  · cases inComment with
    | true => simp [hn]
    | false =>
      by_cases hmark : c = '#'
      · subst hmark
        simp [show isBlank '#' = false by decide]
      · have hmark' : (c == '#') = false := beq_eq_false_iff_ne.mpr hmark
        by_cases hb : isBlank c = true <;> simp [hn, hmark, hmark', hb]

theorem scan_append (spot : Spot) (a b : List Char) :
    spot.scan (a ++ b) = spot.scan a ++ (a.foldl pass spot).scan b := by
  induction a generalizing spot with
  | nil => rfl
  | cons c a ih =>
    rw [List.cons_append, scan_cons, ih, scan_cons spot c a, List.append_assoc, List.foldl_cons]

theorem behind_eq (s : List Char) :
    behind s = ⟨s.count '\n' + 1, (lastLine s).length, decide ('#' ∈ lastLine s)⟩ := by
  induction s using List.reverseRecOn with
  | nil => rfl
  | append_singleton s c ih =>
    rw [behind, List.foldl_append, List.foldl_cons, List.foldl_nil, ← behind, ih, lastLine_append]
    by_cases hn : c = '\n'
    · simp [pass, hn]
    · have hmark : (c == '#') = decide ('#' = c) := by simp [eq_comm, Bool.beq_eq_decide_eq]
      simp [pass, hn, hmark, Bool.or_comm]

theorem scan_singleton (s : List Char) (c : Char) :
    (behind s).scan [c] =
      if isBlank c = false ∧ c ≠ '#' ∧ '#' ∉ lastLine s then [reading c (placeBehind s)]
      else [] := by
  rw [behind_eq]
  simp only [scan, Cursor.scan, placeBehind]
  by_cases hn : c = '\n'
  · simp [hn, isBlank_newline]
  · by_cases hcomment : '#' ∈ lastLine s
    · simp [hn, hcomment]
    · by_cases hb : isBlank c = true <;> by_cases hmark : c = '#' <;> simp [hn, hcomment, hb, hmark]

end Spot

theorem readingsOf_append (a b : List Char) :
    readingsOf (a ++ b) = readingsOf a ++ (Spot.behind a).scan b := Spot.scan_append {} a b

theorem readingsOf_prefix {a b : List Char} (h : a <+: b) : readingsOf a <+: readingsOf b := by
  obtain ⟨rest, rfl⟩ := h
  exact ⟨_, (readingsOf_append a rest).symm⟩

namespace ReadAt
variable {s : List Char} {k : Nat} {c : Char}

theorem lt_length (h : ReadAt s k c) : k < s.length := (List.getElem?_eq_some_iff.mp h.getElem?).1

theorem take_succ (h : ReadAt s k c) : s.take (k + 1) = s.take k ++ [c] := by
  rw [List.take_add_one, h.getElem?]
  rfl

theorem readingsOf_take_succ (h : ReadAt s k c) :
    readingsOf (s.take (k + 1)) = readingsOf (s.take k) ++
      [reading c (placeBehind (s.take k))] := by
  rw [h.take_succ, readingsOf_append, Spot.scan_singleton,
    if_pos ⟨h.not_blank, h.not_mark, h.not_comment⟩]

theorem append (h : ReadAt s k c) (rest : List Char) : ReadAt (s ++ rest) k c := by
  have hk := h.lt_length
  refine ⟨?_, h.not_blank, h.not_mark, ?_⟩
  · rw [List.getElem?_append_left hk, h.getElem?]
  · rw [List.take_append_of_le_length (Nat.le_of_lt hk)]
    exact h.not_comment

theorem of_take {n : Nat} (h : ReadAt (s.take n) k c) : ReadAt s k c := by
  have hs := h.append (s.drop n)
  rwa [List.take_append_drop] at hs

theorem take {n : Nat} (h : ReadAt s k c) (hk : k < n) : ReadAt (s.take n) k c := by
  refine ⟨?_, h.not_blank, h.not_mark, ?_⟩
  · rw [List.getElem?_take_of_lt hk, h.getElem?]
  · rw [List.take_take, Nat.min_eq_left (Nat.le_of_lt hk)]
    exact h.not_comment

/-- A character that is read behind another has its reading behind that one's. -/
theorem reading_mem {before after : List Reading} {r : Reading} {i : Nat} {d : Char}
    (h : ReadAt s k c) (hbefore : readingsOf (s.take k) = before)
    (hs : readingsOf s = before ++ r :: after) (hi : ReadAt s i d)
    (hlt : k < i) : reading d (placeBehind (s.take i)) ∈ after := by
  obtain ⟨between, hbetween⟩ : readingsOf (s.take (k + 1)) <+: readingsOf (s.take i) :=
    readingsOf_prefix (List.take_prefix_take_left hlt)
  obtain ⟨behind, hbehind⟩ : readingsOf (s.take (i + 1)) <+: readingsOf s :=
    readingsOf_prefix (List.take_prefix _ _)
  rw [h.readingsOf_take_succ, hbefore] at hbetween
  rw [hi.readingsOf_take_succ, ← hbetween, hs] at hbehind
  simp only [List.append_assoc, List.cons_append, List.nil_append,
    List.append_cancel_left_eq] at hbehind
  rw [← (List.cons.inj hbehind).2]
  simp

end ReadAt

/-- Every reading belongs to a character of the text that is read; those before it are the readings
of what stands in front of that character. -/
theorem exists_readAt {s : List Char} {before after : List Reading} {r : Reading}
    (h : readingsOf s = before ++ r :: after) :
    ∃ k c, ReadAt s k c ∧ r = reading c (placeBehind (s.take k)) ∧
      readingsOf (s.take k) = before := by
  induction s using List.reverseRecOn generalizing after with
  | nil => simp [readingsOf, Cursor.scan] at h
  | append_singleton s c ih =>
    have earlier : ∀ after, readingsOf s = before ++ r :: after →
        ∃ k d, ReadAt (s ++ [c]) k d ∧ r = reading d (placeBehind ((s ++ [c]).take k)) ∧
          readingsOf ((s ++ [c]).take k) = before := by
      intro after h
      obtain ⟨k, d, hread, hr, hbefore⟩ := ih h
      refine ⟨k, d, hread.append [c], ?_⟩
      rw [List.take_append_of_le_length (Nat.le_of_lt hread.lt_length)]
      exact ⟨hr, hbefore⟩
    rw [readingsOf_append, Spot.scan_singleton] at h
    split at h
    · next hc =>
      rcases List.eq_nil_or_concat after with rfl | ⟨after, last, rfl⟩
      · obtain ⟨hbefore, hr⟩ := List.append_inj' h rfl
        have htake : (s ++ [c]).take s.length = s := List.take_left
        refine ⟨s.length, c, ⟨by simp, hc.1, hc.2.1, by rw [htake]; exact hc.2.2⟩, ?_, ?_⟩
        · rw [htake]
          exact (List.cons.inj hr).1.symm
        · rw [htake, hbefore]
      · have hinit : readingsOf s ++ [reading c (placeBehind s)] =
            (before ++ r :: after) ++ [last] := by
          rw [h]
          simp
        exact earlier after (List.append_inj' hinit rfl).1
    · rw [List.append_nil] at h
      exact earlier after h

end Tablature.Notation
