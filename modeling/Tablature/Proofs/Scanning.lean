import Tablature.Notation.Reading

/-!
What the tokens of a text are. A text that scans without an error has a reading for each of its
tokens, and a token is a letter that names a step, a digit, or one of seven marks. -/
namespace Tablature.Notation
open Tablature.Text Tablature.Music

/-- The tokens that a text can hold. -/
inductive Scanned : Token → Prop where
  | letter {c : Char} (place : Place) (h : c.toLower ∈ stepNames) :
    Scanned ⟨.noteLetter, String.singleton c, place⟩
  | digit {c : Char} (place : Place) (h : c.isDigit) : Scanned ⟨.digit, String.singleton c, place⟩
  | chordOpen (place : Place) : Scanned ⟨.chordOpen, "(", place⟩
  | chordClose (place : Place) : Scanned ⟨.chordClose, ")", place⟩
  | octaveUp (place : Place) : Scanned ⟨.octaveUp, ">", place⟩
  | octaveDown (place : Place) : Scanned ⟨.octaveDown, "<", place⟩
  | raiseMark (place : Place) : Scanned ⟨.raiseMark, "'", place⟩
  | dot (place : Place) : Scanned ⟨.dot, ".", place⟩
  | restMark (place : Place) : Scanned ⟨.restMark, "r", place⟩

theorem Scanned.text_of_raiseMark {t : Token} (h : Scanned t) (hkind : t.kind = .raiseMark) :
    t.text = "'" := by
  cases h with
  | raiseMark place => rfl
  | letter | digit | chordOpen | chordClose | octaveUp | octaveDown | dot | restMark => cases hkind

theorem Scanned.text_of_dot {t : Token} (h : Scanned t) (hkind : t.kind = .dot) : t.text = "." := by
  cases h with
  | dot place => rfl
  | letter | digit | chordOpen | chordClose | octaveUp | octaveDown | raiseMark | restMark =>
    cases hkind

theorem step?_eq {letter : Char} (h : letter.toLower ∈ stepNames) :
    step? letter = some (stepNames.idxOf letter.toLower) :=
  List.findIdx?_eq_some_iff_findIdx_eq.mpr ⟨List.idxOf_lt_length_iff.mpr h, rfl⟩

theorem mem_stepNames_of_step? {letter : Char} (h : (step? letter).isSome) :
    letter.toLower ∈ stepNames := by
  obtain ⟨c, hc, heq⟩ := List.any_eq_true.mp ((List.findIdx?_isSome).symm.trans h)
  exact eq_of_beq heq ▸ hc

theorem scanned_of_reading {c : Char} {place : Place} {t : Token} (h : reading c place = .ok t) :
    Scanned t := by
  unfold reading Kind.ofChar? at h
  split at h
  · next kind hkind =>
    cases h
    split at hkind
    · cases hkind
      exact .chordOpen place
    · cases hkind
      exact .chordClose place
    · cases hkind
      exact .octaveUp place
    · cases hkind
      exact .octaveDown place
    · cases hkind
      exact .raiseMark place
    · cases hkind
      exact .dot place
    · cases hkind
      exact .restMark place
    · split at hkind
      · next hstep =>
        cases hkind
        exact .letter place (mem_stepNames_of_step? hstep)
      · split at hkind
        · next hdigit =>
          cases hkind
          exact .digit place hdigit
        · cases hkind
  · cases h

theorem mem_scan {r : Reading} {inComment : Bool} {line column : Nat} {s : List Char}
    (h : r ∈ Cursor.scan inComment line column s) : ∃ c place, r = reading c place := by
  fun_induction Cursor.scan inComment line column s
  case case1 => cases h
  case case2 ih | case3 ih | case4 ih | case5 ih => exact ih h
  case case6 ih =>
    cases List.mem_cons.mp h with
    | inl h => exact ⟨_, _, h⟩
    | inr h => exact ih h

theorem untilError_of_none {rs : List Reading} (h : (untilError rs).2 = none) :
    rs = (untilError rs).1.map .ok := by
  induction rs with
  | nil => rfl
  | cons r rs ih =>
    cases r with
    | error e => cases h
    | ok t => exact congrArg (Except.ok t :: ·) (ih h)

theorem readings_of_tokens {text : String} {ts : List Token} (h : tokens text = .ok ts) :
    readings text = ts.map .ok := by
  unfold tokens at h
  split at h
  · next found heq =>
    cases h
    have hnone : (untilError (readings text)).2 = none := by rw [heq]
    have hmap := untilError_of_none hnone
    rwa [heq] at hmap
  · cases h

theorem exists_of_mem_readings {text : String} {t : Token} (h : .ok t ∈ readings text) :
    ∃ c place, reading c place = .ok t := by
  obtain ⟨c, place, hr⟩ := mem_scan h
  exact ⟨c, place, hr.symm⟩

theorem scanned_of_mem_readings {text : String} {t : Token} (h : .ok t ∈ readings text) :
    Scanned t := by
  obtain ⟨c, place, hr⟩ := exists_of_mem_readings h
  exact scanned_of_reading hr

theorem mem_readings_of_tokens {text : String} {ts : List Token} (h : tokens text = .ok ts)
    {t : Token} (ht : t ∈ ts) :
    .ok t ∈ readings text := by
  rw [readings_of_tokens h]
  exact List.mem_map_of_mem ht

theorem scanned_of_tokens {text : String} {ts : List Token} (h : tokens text = .ok ts) :
    ∀ t ∈ ts, Scanned t :=
  fun _ ht => scanned_of_mem_readings (mem_readings_of_tokens h ht)

end Tablature.Notation
