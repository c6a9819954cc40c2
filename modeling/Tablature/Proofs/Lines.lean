import Tablature.Proofs.Scanning

/-!
The readings of a text, line by line. A text is cut at its line feeds, each line in front of its
first number sign, and the blanks are left out; every character that remains yields one reading, at
its line and its column. `Kind.characters` lists the characters of each kind. The scanner, which
walks over the text once, answers these readings and no others (`scans_line_by_line`). -/
namespace Tablature.Notation
open Tablature.Text Tablature.Music

namespace Kind

/-- The characters that make a token of a kind. -/
def characters : Kind → List Char
  | noteLetter => ['a', 'b', 'c', 'd', 'e', 'f', 'g', 'A', 'B', 'C', 'D', 'E', 'F', 'G']
  | digit => ['0', '1', '2', '3', '4', '5', '6', '7', '8', '9']
  | chordOpen => ['(']
  | chordClose => [')']
  | octaveUp => ['>']
  | octaveDown => ['<']
  | raiseMark => ['\'']
  | dot => ['.']
  | restMark => ['r']

theorem ofChar?_of_mem {k : Kind} {c : Char} (h : c ∈ k.characters) : ofChar? c = some k := by
  have hall : k.characters.all (fun d => ofChar? d = some k) = true := by cases k <;> decide
  exact of_decide_eq_true (List.all_eq_true.mp hall c h)

theorem mem_characters_of_isDigit {c : Char} (h : c.isDigit) : c ∈ digit.characters := by
  have hc : 48 ≤ c.toNat ∧ c.toNat ≤ 57 := Char.isDigit_iff_toNat.mp h
  have hall : ∀ n ≤ 57, 48 ≤ n → Char.ofNat n ∈ digit.characters := by decide
  exact Char.ofNat_toNat c ▸ hall c.toNat hc.2 hc.1

theorem mem_characters_of_toLower {c : Char} (h : c.toLower ∈ stepNames) :
    c ∈ noteLetter.characters := by
  have hlower := h
  unfold Char.toLower at h
  split at h
  · next hupper =>
    have hall : ∀ n ≤ 90, 65 ≤ n → (Char.ofNat n).toLower ∈ stepNames →
        Char.ofNat n ∈ noteLetter.characters := by
      decide
    have hc : 65 ≤ c.toNat ∧ c.toNat ≤ 90 := hupper
    have hmem := hall c.toNat hc.2 hc.1
    rw [Char.ofNat_toNat] at hmem
    exact hmem hlower
  · have hall : stepNames.all (· ∈ noteLetter.characters) = true := by decide
    exact of_decide_eq_true (List.all_eq_true.mp hall c h)

theorem mem_of_ofChar? {k : Kind} {c : Char} (h : ofChar? c = some k) : c ∈ k.characters := by
  unfold ofChar? at h
  split at h
  iterate 7
    · cases h
      decide
  · split at h
    · next hstep =>
      cases h
      exact mem_characters_of_toLower (mem_stepNames_of_step? hstep)
    · split at h
      · next hdigit =>
        cases h
        exact mem_characters_of_isDigit hdigit
      · cases h

theorem ofChar?_eq_some_iff {k : Kind} {c : Char} : ofChar? c = some k ↔ c ∈ k.characters :=
  ⟨mem_of_ofChar?, ofChar?_of_mem⟩

end Kind

def Readable (c : Char) : Prop := ∃ k : Kind, c ∈ k.characters

theorem isSome_ofChar?_iff (c : Char) : (Kind.ofChar? c).isSome ↔ Readable c := by
  simp only [Readable, Option.isSome_iff_exists, Kind.ofChar?_eq_some_iff]

instance (c : Char) : Decidable (Readable c) := decidable_of_iff _ (isSome_ofChar?_iff c)

def beforeComment (line : List Char) : List Char := line.takeWhile (· != '#')

/-- The characters of a line that are read, each with its place; the first one has the column
given. -/
def lineCharacters (line column : Nat) (s : List Char) : List (Char × Place) :=
  ((beforeComment s).zipIdx column).filterMap fun (c, column) =>
    if isBlank c then none else some (c, .known line column)

def linesCharacters (line : Nat) (lines : List (List Char)) : List (Char × Place) :=
  (lines.zipIdx line).flatMap fun (s, line) => lineCharacters line 1 s

/-- The characters of a text that are read, in their order. -/
def charactersRead (text : String) : List (Char × Place) :=
  linesCharacters 1 (text.toList.splitOn '\n')

/-- What a character yields at its place. -/
def yield (read : Char × Place) : Reading := reading read.1 read.2

theorem yield_of_mem {k : Kind} {c : Char} (h : c ∈ k.characters) (place : Place) :
    yield (c, place) = .ok ⟨k, String.singleton c, place⟩ := by
  rw [yield, reading, Kind.ofChar?_of_mem h]

theorem yield_of_not_readable {c : Char} (h : ¬Readable c) (place : Place) :
    yield (c, place) = .error ⟨c, place⟩ := by
  have hnone : Kind.ofChar? c = none := by simpa [← isSome_ofChar?_iff] using h
  rw [yield, reading, hnone]

theorem lineCharacters_cons {line column : Nat} {c : Char} {s : List Char} (hc : c ≠ '#') :
    lineCharacters line column (c :: s) =
      (if isBlank c then [] else [(c, Place.known line column)]) ++
        lineCharacters line (column + 1) s := by
  by_cases hb : isBlank c = true
  · simp [lineCharacters, beforeComment, hc, hb]
  · simp [lineCharacters, beforeComment, hc, hb]

theorem lineCharacters_comment (line column : Nat) (s : List Char) :
    lineCharacters line column ('#' :: s) = [] := rfl

theorem linesCharacters_cons (line : Nat) (s : List Char) (lines : List (List Char)) :
    linesCharacters line (s :: lines) =
      lineCharacters line 1 s ++ linesCharacters (line + 1) lines := by
  simp [linesCharacters]

namespace Cursor

/-- From any place on, the rest of the line is read, unless a comment hides it, and then the lines
behind it. -/
theorem scan_eq_lines (inComment : Bool) (line column : Nat) (s : List Char) :
    ∃ first others, s.splitOn '\n' = first :: others ∧
      scan inComment line column s =
        ((if inComment then [] else lineCharacters line (column + 1) first) ++
          linesCharacters (line + 1) others).map yield := by
  fun_induction scan inComment line column s with
  | case1 inComment line column => exact ⟨[], [], rfl, by cases inComment <;> rfl⟩
  | case2 inComment line column rest ih =>
    obtain ⟨first, others, hsplit, hscan⟩ := ih
    refine ⟨[], first :: others, by simp [List.splitOn_cons_eq_if_modifyHead, hsplit], ?_⟩
    rw [hscan, linesCharacters_cons]
    cases inComment <;> rfl
  | case3 line column c rest hc ih =>
    obtain ⟨first, others, hsplit, hscan⟩ := ih
    exact ⟨c :: first, others, by simp [List.splitOn_cons_eq_if_modifyHead, hsplit, hc], hscan⟩
  | case4 inComment line column c rest hn hcomment hb ih =>
    obtain ⟨first, others, hsplit, hscan⟩ := ih
    have hc : c ≠ '#' := by
      rintro rfl
      exact absurd hb (by decide)
    refine ⟨c :: first, others, by simp [List.splitOn_cons_eq_if_modifyHead, hsplit, hn], ?_⟩
    rw [hscan, lineCharacters_cons hc]
    simp [hb, hcomment]
  | case5 inComment line column rest hn hcomment hb ih =>
    obtain ⟨first, others, hsplit, hscan⟩ := ih
    refine ⟨'#' :: first, others, by simp [List.splitOn_cons_eq_if_modifyHead, hsplit], ?_⟩
    rw [hscan, lineCharacters_comment, ite_self]
    rfl
  | case6 inComment line column c rest hn hcomment hb hc ih =>
    obtain ⟨first, others, hsplit, hscan⟩ := ih
    refine ⟨c :: first, others, by simp [List.splitOn_cons_eq_if_modifyHead, hsplit, hn], ?_⟩
    rw [hscan, lineCharacters_cons hc]
    simp [hb, hcomment, yield]

theorem calls_eq_take (n : Nat) (cursor : Cursor) :
    cursor.calls n = (cursor.readings.map some ++ List.replicate n none).take n := by
  induction n generalizing cursor with
  | zero => rfl
  | succ n ih =>
    rw [calls, readings_eq]
    cases hnext : cursor.next? with
    | none =>
      have hend : cursor.readings = [] := by rw [readings_eq, hnext]
      simp [ih, hend, List.replicate_succ]
    | some found =>
      obtain ⟨r, rest⟩ := found
      simp [ih, List.take_append, List.replicate_succ']

end Cursor

theorem readings_eq_map (text : String) :
    readings text = (charactersRead text).map yield := by
  obtain ⟨first, others, hsplit, hscan⟩ := Cursor.scan_eq_lines false 1 0 text.toList
  rw [charactersRead, hsplit, linesCharacters_cons]
  exact hscan

theorem untilError_map (read : List (Char × Place)) :
    (untilError (read.map yield)).2 =
      (read.find? fun read => ¬Readable read.1).map fun read => ⟨read.1, read.2⟩ := by
  induction read with
  | nil => rfl
  | cons first read ih =>
    obtain ⟨c, place⟩ := first
    by_cases hc : Readable c
    · obtain ⟨k, hk⟩ := hc
      have hfirst : yield (c, place) = .ok ⟨k, String.singleton c, place⟩ := yield_of_mem hk place
      have hreadable : Readable c := ⟨k, hk⟩
      simp [hfirst, untilError, ih, hreadable]
    · simp [yield_of_not_readable hc, untilError, hc]

theorem tokens_eq (text : String) :
    tokens text = match (untilError (readings text)).2 with
      | none => .ok (untilError (readings text)).1
      | some e => .error e := by
  unfold tokens
  rcases untilError (readings text) with ⟨found, _ | e⟩ <;> rfl

theorem tokens_eq_error_iff {text : String} {e : ScanError} :
    tokens text = .error e ↔
      (charactersRead text).find? (fun read => ¬Readable read.1) = some (e.char, e.place) := by
  rw [tokens_eq, readings_eq_map, untilError_map]
  cases hfind : (charactersRead text).find? fun read => ¬Readable read.1 with
  | none => simp
  | some read =>
    obtain ⟨c, place⟩ := read
    obtain ⟨c', place'⟩ := e
    simp

theorem tokens_isOk_iff (text : String) :
    (∃ ts, tokens text = .ok ts) ↔ ∀ read ∈ charactersRead text, Readable read.1 := by
  rw [tokens_eq, readings_eq_map, untilError_map]
  cases hfind : (charactersRead text).find? fun read => ¬Readable read.1 with
  | none => simpa using hfind
  | some read =>
    have hbad := List.find?_some hfind
    simp only [Option.map_some, reduceCtorEq, exists_false, false_iff]
    intro hall
    exact absurd (hall read (List.mem_of_find?_eq_some hfind)) (by simpa using hbad)

/-- A text is scanned character by character and line by line. Any number of calls answer one
reading for each character that is neither blank nor in a comment, in their order and at their
places, and then nothing. A reading is the token of the character's kind, or an error if it has
none; so all tokens are found if and only if no character is refused, and otherwise the first of
these is reported. -/
theorem scans_line_by_line (text : String) :
    (∀ n, (Cursor.ofText text).calls n =
      ((charactersRead text).map (fun read => some (yield read)) ++ List.replicate n none).take n) ∧
    (∀ c place, (∀ k : Kind, yield (c, place) = .ok ⟨k, String.singleton c, place⟩ ↔
      c ∈ k.characters) ∧
      (yield (c, place) = .error ⟨c, place⟩ ↔ ∀ k : Kind, c ∉ k.characters)) ∧
    ((∃ ts, tokens text = .ok ts) ↔ ∀ read ∈ charactersRead text, Readable read.1) ∧
    (∀ ts, tokens text = .ok ts → (charactersRead text).map yield = ts.map .ok) ∧
    ∀ e, tokens text = .error e ↔
      (charactersRead text).find? (fun read => ¬Readable read.1) = some (e.char, e.place) := by
  refine ⟨?_, ?_, tokens_isOk_iff text, ?_, fun e => tokens_eq_error_iff⟩
  · intro n
    have hreadings : (Cursor.ofText text).readings = _ := readings_eq_map text
    rw [Cursor.calls_eq_take, hreadings, List.map_map]
    rfl
  · intro c place
    by_cases hc : Readable c
    · obtain ⟨k, hk⟩ := hc
      rw [yield_of_mem hk]
      have hkind : ∀ k' : Kind, k = k' ↔ c ∈ k'.characters := by
        intro k'
        rw [← Kind.ofChar?_eq_some_iff, Kind.ofChar?_of_mem hk, Option.some.injEq]
      refine ⟨fun k' => by simp [← hkind], ?_⟩
      simp only [reduceCtorEq, false_iff]
      exact fun hnone => hnone k hk
    · have hnone : ∀ k : Kind, c ∉ k.characters := fun k hk => hc ⟨k, hk⟩
      simp [yield_of_not_readable hc, hnone]
  · intro ts hts
    rw [← readings_eq_map, readings_of_tokens hts]

end Tablature.Notation
