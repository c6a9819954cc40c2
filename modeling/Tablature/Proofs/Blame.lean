import Tablature.Proofs.Lines
import Tablature.Proofs.Places
import Tablature.Proofs.Stages

/-!
Errors are reported at the earliest character. The character that an error blames is the first one
that no text can go on with: what stands before it can be completed, and nothing that follows it
makes the error go away or changes it (`reports_earliest_character`). Only a chord that is still
open at the end of a text has nothing to blame. -/
namespace Tablature.Notation
open Tablature.Text Tablature.Music

/-- The character of a text that an error blames. The error has that character's place; the error of
an empty chord blames the closing mark and has the place of the opening one. -/
inductive Blames (s : List Char) : ReadError → Nat → Prop where
  | scan {k : Nat} {c : Char} (hread : ReadAt s k c) (hc : ¬Readable c) :
      Blames s (.scan ⟨c, placeBehind (s.take k)⟩) k
  | token {k : Nat} {c : Char} {cause : Cause} (hread : ReadAt s k c)
      (hcause : cause.blamed? = some (String.singleton c)) :
        Blames s (.refused cause (placeBehind (s.take k))) k
  | emptyChord {j k : Nat} (hopening : ReadAt s j '(') (hclosing : ReadAt s k ')') (hlt : j < k)
      (hempty : ∀ i c, j < i → i < k → ¬ReadAt s i c) :
      Blames s (.refused .emptyChord (placeBehind (s.take j))) k

theorem kind_of_reading {c : Char} {place : Place} {t : Token} (h : reading c place = .ok t) :
    c ∈ t.kind.characters ∧ t.text = String.singleton c ∧ t.place = place := by
  unfold reading at h
  split at h
  · next k hk =>
    cases h
    exact ⟨Kind.ofChar?_eq_some_iff.mp hk, rfl, rfl⟩
  · cases h

theorem error_of_reading {c : Char} {place : Place} {e : ScanError}
    (h : reading c place = .error e) :
    ¬Readable c ∧ e = ⟨c, place⟩ := by
  unfold reading at h
  split at h
  · cases h
  · next hnone =>
    cases h
    exact ⟨by simp [← isSome_ofChar?_iff, hnone], rfl⟩

/-- The chord that is open behind some text: where its mark stands, and what is read behind the
mark. -/
theorem Opens.exists_mark {s : List Char} {opening : Token} {notes : List Token}
    (h : Opens (readingsOf s) opening notes) :
    ∃ j, ReadAt s j '(' ∧ opening.place = placeBehind (s.take j) ∧
      ∀ i c, j < i → ReadAt s i c → ∃ t ∈ notes, c ∈ t.kind.characters := by
  obtain ⟨hkind, -, before, hfeed⟩ := h
  obtain ⟨j, c, hread, hreading, hbefore⟩ := exists_readAt hfeed
  obtain ⟨hc, -, hplace⟩ := kind_of_reading hreading.symm
  rw [hkind] at hc
  cases List.mem_singleton.mp hc
  refine ⟨j, hread, hplace, fun i d hlt hi => ?_⟩
  obtain ⟨t, ht, hok⟩ := List.mem_map.mp (hread.reading_mem hbefore hfeed hi hlt)
  exact ⟨t, ht, (kind_of_reading hok.symm).1⟩

theorem blames_of_refused {s : List Char} {k : Nat} {c : Char} {p : Progress} {e : ReadError}
    (hread : ReadAt s k c) (hrun : Progress.run ⟨0, .between⟩ (readingsOf (s.take k)) = .ok p)
    (htake : p.take (reading c (placeBehind (s.take k))) = .error e) : Blames s e k := by
  cases hreading : reading c (placeBehind (s.take k)) with
  | error e' =>
    rw [hreading] at htake
    cases htake
    obtain ⟨hc, rfl⟩ := error_of_reading hreading
    exact .scan hread hc
  | ok t =>
    rw [hreading] at htake
    obtain ⟨hc, htext, hplace⟩ := kind_of_reading hreading
    cases Progress.step_blames (scanned_of_reading hreading) htake with
    | inl htoken =>
      obtain ⟨cause, rfl, hcause⟩ := htoken
      rw [hplace]
      exact .token hread (hcause.trans (congrArg some htext))
    | inr hempty =>
      obtain ⟨opening, hstage, hclose, rfl⟩ := hempty
      have hfollows := Progress.follows_of_run hrun
      rw [hstage] at hfollows
      obtain ⟨notes, hopens, hnotes⟩ := hfollows
      rw [hnotes rfl] at hopens
      obtain ⟨j, hj, hplace, hbetween⟩ := hopens.exists_mark
      have hjk : j < k := Nat.lt_of_lt_of_le hj.lt_length (List.length_take_le k s)
      rw [hclose] at hc
      cases List.mem_singleton.mp hc
      rw [hplace, List.take_take, Nat.min_eq_left (Nat.le_of_lt hjk)]
      refine .emptyChord hj.of_take hread hjk fun i d hji hik hi => ?_
      obtain ⟨t, ht, -⟩ := hbetween i d hji (hi.take hik)
      cases ht

/-- Outside a comment, what is under way can be written to its end. -/
theorem exists_completion (stage : Stage) {spot : Spot} (h : spot.inComment = false) :
    ∃ (rest : List Char) (ts : List Token), spot.scan rest = ts.map .ok ∧
      ts.map Token.content = stage.completion := by
  cases stage with
  | between | note | length => exact ⟨[], [], rfl, rfl⟩
  | chord opening _ | chordNote opening =>
    refine ⟨['c', ')'], [⟨.noteLetter, "c", .known spot.line (spot.column + 1)⟩,
      ⟨.chordClose, ")", .known spot.line (spot.column + 1 + 1)⟩], ?_, rfl⟩
    have hblank : isBlank 'c' = false ∧ isBlank ')' = false := by decide
    have hc : ∀ place, reading 'c' place = .ok ⟨.noteLetter, "c", place⟩ := fun _ => rfl
    have hclose : ∀ place, reading ')' place = .ok ⟨.chordClose, ")", place⟩ := fun _ => rfl
    simp [Spot.scan, Cursor.scan, h, hblank, hc, hclose]

theorem symbols_ofList_eq_error_iff {s : List Char} {e : ReadError} :
    symbols (String.ofList s) = .error e ↔
      Progress.fault? ⟨0, .between⟩ (readingsOf s) = some e := by
  rw [Progress.symbols_eq_error_iff, readings_eq_readingsOf, String.toList_ofList]

theorem symbols_ofList_eq_ok_iff {s : List Char} :
    (∃ result, symbols (String.ofList s) = .ok result) ↔
      Progress.fault? ⟨0, .between⟩ (readingsOf s) = none := by
  rw [Progress.symbols_eq_ok_iff, readings_eq_readingsOf, String.toList_ofList]

/-- An error is reported at the earliest character. What stands before the character that it blames
begins a text that is read, and every text that begins with what ends there has the same error at
the same place. Otherwise a chord is not closed: the error has the place of its opening mark, and
only note letters and raise marks are read behind that. -/
theorem reports_earliest_character {text : String} {e : ReadError} (h : symbols text = .error e) :
    (∃ k, Blames text.toList e k ∧
      (∃ rest result, symbols (String.ofList (text.toList.take k ++ rest)) = .ok result) ∧
      ∀ rest, symbols (String.ofList (text.toList.take (k + 1) ++ rest)) = .error e) ∨
    ∃ j, e = .refused .unclosedChord (placeBehind (text.toList.take j)) ∧ ReadAt text.toList j '(' ∧
      ∀ i c, j < i → ReadAt text.toList i c →
        c ∈ Kind.noteLetter.characters ∨ c ∈ Kind.raiseMark.characters := by
  rw [Progress.symbols_eq_error_iff, readings_eq_readingsOf] at h
  generalize text.toList = s at h ⊢
  cases Progress.exists_refused h with
  | inl hend =>
    obtain ⟨p, hrun, hend⟩ := hend
    have hfollows := Progress.follows_of_run hrun
    have hopens : ∃ opening notes, Opens (readingsOf s) opening notes ∧
        e = .refused .unclosedChord opening.place := by
      obtain ⟨octave, stage⟩ := p
      cases stage with
      | between | note | length => cases hend
      | chord opening isEmpty =>
        obtain ⟨notes, hopens, -⟩ := hfollows
        cases hend
        exact ⟨opening, notes, hopens, rfl⟩
      | chordNote opening =>
        obtain ⟨notes, hopens⟩ := hfollows
        cases hend
        exact ⟨opening, notes, hopens, rfl⟩
    obtain ⟨opening, notes, hopens, rfl⟩ := hopens
    obtain ⟨j, hj, hplace, hbehind⟩ := hopens.exists_mark
    refine Or.inr ⟨j, by rw [hplace], hj, fun i c hlt hi => ?_⟩
    obtain ⟨t, ht, hc⟩ := hbehind i c hlt hi
    cases hopens.2.1 t ht with
    | inl hkind => exact Or.inl (hkind ▸ hc)
    | inr hkind => exact Or.inr (hkind ▸ hc)
  | inr hrefused =>
    obtain ⟨before, r, after, p, hfeed, hrun, htake⟩ := hrefused
    obtain ⟨k, c, hread, rfl, rfl⟩ := exists_readAt hfeed
    refine Or.inl ⟨k, blames_of_refused hread hrun htake, ?_, fun rest => ?_⟩
    · have hspot : (Spot.behind (s.take k)).inComment = false := by
        rw [Spot.behind_eq]
        exact decide_eq_false hread.not_comment
      obtain ⟨rest, ts, hscan, hts⟩ := exists_completion p.stage hspot
      refine ⟨rest, symbols_ofList_eq_ok_iff.mpr ?_⟩
      rw [readingsOf_append, hscan, Progress.fault?_append hrun]
      exact Progress.fault?_completion hts
    · rw [symbols_ofList_eq_error_iff, readingsOf_append, hread.readingsOf_take_succ,
        List.append_assoc]
      exact Progress.fault?_refused hrun htake _

/-- The first mark is in a comment, and another comment stands between the marks of the chord. -/
theorem emptyChord_over_lines :
    symbols "2. c # (\n ( # d )\n\t) e" = .error (.refused .emptyChord (.known 2 2)) ∧
      ∃ k, Blames "2. c # (\n ( # d )\n\t) e".toList (.refused .emptyChord (.known 2 2)) k ∧
        (∃ rest result,
          symbols (String.ofList ("2. c # (\n ( # d )\n\t) e".toList.take k ++ rest)) =
            .ok result) ∧
        ∀ rest, symbols (String.ofList ("2. c # (\n ( # d )\n\t) e".toList.take (k + 1) ++ rest)) =
          .error (.refused .emptyChord (.known 2 2)) := by
  have hsymbols : symbols "2. c # (\n ( # d )\n\t) e" =
      .error (.refused .emptyChord (.known 2 2)) :=
    Progress.symbols_eq_error_iff.mpr (by decide +kernel)
  refine ⟨hsymbols, ?_⟩
  cases reports_earliest_character hsymbols with
  | inl hblamed => exact hblamed
  | inr hopen =>
    obtain ⟨j, hcause, -⟩ := hopen
    cases hcause

end Tablature.Notation
