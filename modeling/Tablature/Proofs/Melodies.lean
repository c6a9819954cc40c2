import Tablature.Proofs.Elements

/-!
The reader and the grammar. Behind some items the reader holds their duration and their octave. One
item ahead takes it to the state behind that item too, and nothing but an item does; by induction it
reads the melodies of the grammar, and no other tokens, as what they mean
(`reads_exactly_melodies`). -/
namespace Tablature.Notation
open Tablature.Text Tablature.Music

namespace Reader

theorem all_eq (r : Reader) : r.all = match r.next with
    | (.error e, _) => .error e
    | (.ok none, _) => .ok []
    | (.ok (some s), r') => r'.all.map (s :: ·) := by
  rw [all]
  split
  · next e r' h => rw [h]
  · next r' h => rw [h]
  · next s r' h =>
    rw [h]
    show _ = r'.all.map (s :: ·)
    cases r'.all with
    | error e => rfl
    | ok symbols => rfl

theorem next_cons (r : Reader) (t : Token) (feed : List Reading) :
    next { r with feed := .ok t :: feed } = match handle { r with feed := feed } t with
      | (.symbol s, r') => (.ok (some s), r')
      | (.failed e, r') => (.error e, r')
      | (.onward, r') => r'.next := by
  rw [next]
  split
  · next hfeed => cases hfeed
  · next e rest hfeed => cases hfeed
  · next t' rest hfeed =>
    cases hfeed
    split
    · next s r' h => rw [h]
    · next e r' h => rw [h]
    · next r' h => rw [h]

theorem all_cons (r : Reader) (t : Token) (feed : List Reading) :
    all { r with feed := .ok t :: feed } = match handle { r with feed := feed } t with
      | (.symbol s, r') => r'.all.map (s :: ·)
      | (.failed e, _) => .error e
      | (.onward, r') => r'.all := by
  rw [all_eq, next_cons]
  rcases handle { r with feed := feed } t with ⟨verdict, r'⟩
  cases verdict with
  | symbol s => rfl
  | failed e => rfl
  | onward => exact (all_eq r').symm

@[simp] theorem all_nil (duration : Duration) (octave : Nat) :
    all ⟨[], duration, octave⟩ = .ok [] := by
  rw [all_eq, next]

@[simp] theorem all_error (e : ScanError) (feed : List Reading) (duration : Duration)
    (octave : Nat) :
    all ⟨.error e :: feed, duration, octave⟩ = .error (.scan e) := by
  rw [all_eq, next]

/-- A token may take others with it; what holds of the reader behind it, whatever that is, is
carried back to it. -/
@[elab_as_elim] theorem handle_induction {motive : Reader → Prop}
    (nil : ∀ duration octave, motive ⟨[], duration, octave⟩)
    (error : ∀ e feed duration octave, motive ⟨.error e :: feed, duration, octave⟩)
    (token : ∀ t feed duration octave, motive (handle ⟨feed, duration, octave⟩ t).2 →
      motive ⟨.ok t :: feed, duration, octave⟩)
    (r : Reader) : motive r := by
  generalize hlength : r.feed.length = n
  induction n using Nat.strongRecOn generalizing r with
  | _ n ih =>
    obtain ⟨feed, duration, octave⟩ := r
    cases feed with
    | nil => exact nil duration octave
    | cons reading feed =>
      cases reading with
      | error e => exact error e feed duration octave
      | ok t =>
        have hshorter := handle_length ⟨feed, duration, octave⟩ t
        exact token t feed duration octave (ih _ (hlength ▸ Nat.lt_succ_of_le hshorter) _ rfl)

end Reader

def readerBehind (before : List Item) (ts : List Token) : Reader :=
  ⟨ts.map .ok, durationBehind before, (octaveBehind before).toNat⟩

/-- What handling the first token of an item comes to. -/
def Item.verdict (before : List Item) (item : Item) : Verdict :=
  match item.symbol? before with
  | some symbol => .symbol symbol
  | none => .onward

theorem readerBehind_append (before : List Item) (item : Item) (ts : List Token) :
    readerBehind (before ++ [item]) ts =
      ⟨ts.map .ok, item.duration?.getD (durationBehind before),
        (octaveBehind before + item.shift).toNat⟩ := by
  rw [readerBehind, durationBehind_append, octaveBehind_append]

section Handle
variable {before : List Item} {t : Token} {ts rest : List Token}

theorem handle_octaveUp (hbefore : 0 ≤ octaveBehind before) (hkind : t.kind = .octaveUp) :
    (readerBehind before ts).handle t =
      (Item.octaveUp.verdict before, readerBehind (before ++ [.octaveUp]) ts) := by
  have hshift : (octaveBehind before + 1).toNat = (octaveBehind before).toNat + 1 :=
    Int.toNat_add hbefore (by decide)
  rw [readerBehind_append]
  simp [readerBehind, Reader.handle, hkind, Item.verdict, Item.symbol?, hshift]

theorem handle_octaveDown (hbefore : 0 < octaveBehind before) (hkind : t.kind = .octaveDown) :
    (readerBehind before ts).handle t =
      (Item.octaveDown.verdict before, readerBehind (before ++ [.octaveDown]) ts) := by
  obtain ⟨lower, hlower⟩ : ∃ lower, (octaveBehind before).toNat = lower + 1 :=
    Nat.exists_eq_succ_of_ne_zero (by omega)
  have hshift : (octaveBehind before + -1).toNat = lower := by omega
  rw [readerBehind_append]
  simp [readerBehind, Reader.handle, hkind, Item.verdict, Item.symbol?, hshift, hlower]

theorem handle_octaveDown_zero (hbefore : octaveBehind before = 0) (hkind : t.kind = .octaveDown) :
    ((readerBehind before ts).handle t).1 = .failed (.refused (.lowestOctave t.text) t.place) := by
  simp [readerBehind, Reader.handle, hkind, hbefore]

theorem handle_length {base : Length} {dotted : Bool} (hkind : t.kind = .digit)
    (hlength : readLength t (ts.map .ok) = (.ok ⟨base, dotted⟩, rest.map .ok)) :
    (readerBehind before ts).handle t =
      ((Item.length base dotted).verdict before,
        readerBehind (before ++ [.length base dotted]) rest) := by
  rw [readerBehind_append]
  simp [readerBehind, Reader.handle, hkind, hlength, Item.verdict, Item.symbol?]

theorem handle_note {n : WrittenNote} (hbefore : 0 ≤ octaveBehind before)
    (hkind : t.kind = .noteLetter)
    (hpitch : readPitch (octaveBehind before).toNat t (ts.map .ok) =
      (.ok (n.pitch (octaveBehind before).toNat), rest.map .ok)) :
    (readerBehind before ts).handle t =
      ((Item.note n).verdict before, readerBehind (before ++ [.note n]) rest) := by
  rw [Int.toNat_of_nonneg hbefore] at hpitch
  rw [readerBehind_append]
  simp [readerBehind, Reader.handle, hkind, hpitch, Item.verdict, Item.symbol?]

theorem handle_chord {first : WrittenNote} {others : List WrittenNote}
    (hbefore : 0 ≤ octaveBehind before) (hkind : t.kind = .chordOpen)
    (hchord : readChord (octaveBehind before).toNat t [] (ts.map .ok) =
      (.ok ((first :: others).map (WrittenNote.pitch (octaveBehind before).toNat)), rest.map .ok)) :
    (readerBehind before ts).handle t =
      ((Item.chord first others).verdict before,
        readerBehind (before ++ [.chord first others]) rest) := by
  rw [Int.toNat_of_nonneg hbefore] at hchord
  rw [readerBehind_append]
  simp [readerBehind, Reader.handle, hkind, hchord, Item.verdict, Item.symbol?]

theorem handle_rest (hkind : t.kind = .restMark) :
    (readerBehind before ts).handle t =
      (Item.rest.verdict before, readerBehind (before ++ [.rest]) ts) := by
  rw [readerBehind_append]
  simp [readerBehind, Reader.handle, hkind, Item.verdict, Item.symbol?]

end Handle

theorem handle_written {before : List Item} {item : Item} {t : Token} {ts : List Token}
    {after : List (Kind × String)} (hbefore : 0 ≤ octaveBehind before)
    (hitem : 0 ≤ octaveBehind (before ++ [item]))
    (h : (t :: ts).map Token.content = item.contents ++ after)
    (hafter : ∀ c ∈ after.head?, c.1 ≠ .raiseMark ∧ c.1 ≠ .dot) :
    ∃ rest : List Token, rest.map Token.content = after ∧
      (readerBehind before ts).handle t =
        (item.verdict before, readerBehind (before ++ [item]) rest) := by
  cases item with
  | octaveUp =>
    have hkind : t.kind = .octaveUp := congrArg Prod.fst (List.cons.inj h).1
    exact ⟨ts, (List.cons.inj h).2, handle_octaveUp hbefore hkind⟩
  | octaveDown =>
    have hkind : t.kind = .octaveDown := congrArg Prod.fst (List.cons.inj h).1
    rw [octaveBehind_append, Item.shift] at hitem
    exact ⟨ts, (List.cons.inj h).2, handle_octaveDown (by omega) hkind⟩
  | length base dotted =>
    have hkind : t.kind = .digit := congrArg Prod.fst (List.cons.inj h).1
    obtain ⟨rest, hrest, hlength⟩ := readLength_written h fun c hc => (hafter c hc).2
    exact ⟨rest, hrest, handle_length hkind hlength⟩
  | note n =>
    have hkind : t.kind = .noteLetter := congrArg Prod.fst (List.cons.inj h).1
    obtain ⟨rest, hrest, hpitch⟩ :=
      readPitch_written (octaveBehind before).toNat h fun c hc => (hafter c hc).1
    exact ⟨rest, hrest, handle_note hbefore hkind hpitch⟩
  | chord first others =>
    have hkind : t.kind = .chordOpen := congrArg Prod.fst (List.cons.inj h).1
    have hnotes : ts.map Token.content =
        (first :: others).flatMap WrittenNote.contents ++ (.chordClose, ")") :: after := by
      rw [(List.cons.inj h).2]
      simp
    obtain ⟨rest, hrest, hchord⟩ :=
      readChord_written (octaveBehind before).toNat t hnotes
        (Or.inr (List.cons_ne_nil first others))
    exact ⟨rest, hrest, handle_chord hbefore hkind hchord⟩
  | rest =>
    have hkind : t.kind = .restMark := congrArg Prod.fst (List.cons.inj h).1
    exact ⟨ts, (List.cons.inj h).2, handle_rest hkind⟩

/-- The first token of what is left fails, or it begins an item that keeps the octave. -/
theorem handle_scanned {before : List Item} {t : Token} {ts : List Token}
    (hbefore : 0 ≤ octaveBehind before) (ht : Scanned t) (hts : ∀ t ∈ ts, Scanned t) :
    (∃ e r, (readerBehind before ts).handle t = (.failed e, r)) ∨
    ∃ (item : Item) (rest : List Token), (∀ t ∈ rest, Scanned t) ∧
      0 ≤ octaveBehind (before ++ [item]) ∧
      (t :: ts).map Token.content = item.contents ++ rest.map Token.content ∧
      (readerBehind before ts).handle t =
        (item.verdict before, readerBehind (before ++ [item]) rest) := by
  cases ht with
  | letter place hc =>
    obtain ⟨n, rest, hrest, hcontents, hpitch⟩ :=
      readPitch_scanned (octaveBehind before).toNat hc place hts
    refine Or.inr ⟨.note n, rest, hrest, ?_, hcontents, handle_note hbefore rfl hpitch⟩
    simpa [octaveBehind_append] using hbefore
  | digit place hc =>
    cases readLength_scanned hc place hts with
    | inl herror =>
      obtain ⟨e, feed, herror⟩ := herror
      refine Or.inl ⟨e, { readerBehind before ts with feed := feed }, ?_⟩
      simp [readerBehind, Reader.handle, herror]
    | inr hlength =>
      obtain ⟨base, dotted, rest, hrest, hcontents, hlength⟩ := hlength
      refine Or.inr ⟨.length base dotted, rest, hrest, ?_, hcontents, handle_length rfl hlength⟩
      simpa [octaveBehind_append] using hbefore
  | chordOpen place =>
    cases readChord_scanned (octaveBehind before).toNat ⟨.chordOpen, "(", place⟩ [] hts with
    | inl herror =>
      obtain ⟨e, feed, herror⟩ := herror
      refine Or.inl ⟨e, { readerBehind before ts with feed := feed }, ?_⟩
      simp [readerBehind, Reader.handle, herror]
    | inr hchord =>
      obtain ⟨notes, rest, hrest, hne, hcontents, hchord⟩ := hchord
      cases notes with
      | nil => exact absurd rfl (hne.resolve_left (fun h => h rfl))
      | cons first others =>
        refine Or.inr ⟨.chord first others, rest, hrest, ?_, ?_, handle_chord hbefore rfl hchord⟩
        · simpa [octaveBehind_append] using hbefore
        · rw [List.map_cons, hcontents]
          simp [Item.contents, Token.content]
  | octaveUp place =>
    refine Or.inr ⟨.octaveUp, ts, hts, ?_, rfl, handle_octaveUp hbefore rfl⟩
    rw [octaveBehind_append, Item.shift]
    omega
  | octaveDown place =>
    by_cases h : octaveBehind before = 0
    · exact Or.inl ⟨_, _, Prod.ext (handle_octaveDown_zero h rfl) rfl⟩
    · refine Or.inr ⟨.octaveDown, ts, hts, ?_, rfl, handle_octaveDown (by omega) rfl⟩
      rw [octaveBehind_append, Item.shift]
      omega
  | restMark place =>
    refine Or.inr ⟨.rest, ts, hts, ?_, rfl, handle_rest rfl⟩
    simpa [octaveBehind_append] using hbefore
  | chordClose | raiseMark | dot => exact Or.inl ⟨_, _, rfl⟩

theorem all_readerBehind_cons (before : List Item) (t : Token) (ts : List Token) :
    (readerBehind before (t :: ts)).all = match (readerBehind before ts).handle t with
      | (.symbol s, r) => r.all.map (s :: ·)
      | (.failed e, _) => .error e
      | (.onward, r) => r.all :=
  Reader.all_cons (readerBehind before ts) t (ts.map .ok)

theorem all_of_verdict {before : List Item} {item : Item} {t : Token} {ts : List Token} {r : Reader}
    (h : (readerBehind before ts).handle t = (item.verdict before, r)) :
    (readerBehind before (t :: ts)).all = r.all.map ((item.symbol? before).toList ++ ·) := by
  rw [all_readerBehind_cons, h, Item.verdict]
  cases item.symbol? before with
  | some symbol => rfl
  | none =>
    show r.all = r.all.map id
    cases r.all <;> rfl

theorem all_of_written {before items : List Item} {ts : List Token}
    (hbalanced : Balanced (before ++ items)) (h : ts.map Token.content = written items) :
    (readerBehind before ts).all = .ok (meaningBehind before items) := by
  induction items generalizing before ts with
  | nil =>
    rw [List.map_eq_nil_iff.mp h]
    exact Reader.all_nil _ _
  | cons item rest ih =>
    have hcontents : ts.map Token.content = item.contents ++ written rest := h
    cases ts with
    | nil => cases item <;> cases hcontents
    | cons t ts =>
      have hoctave := hbalanced.octave_nonneg_mid
      obtain ⟨ts', hts', hhandle⟩ :=
        handle_written hoctave.1 hoctave.2 hcontents (head_written rest)
      have hbalanced : Balanced (before ++ [item] ++ rest) := by rwa [List.append_assoc]
      rw [all_of_verdict hhandle, ih hbalanced hts', meaningBehind_cons]
      rfl

theorem written_of_all {before : List Item} {ts : List Token} {result : List Symbol}
    (hbefore : Balanced before) (hts : ∀ t ∈ ts, Scanned t)
    (h : (readerBehind before ts).all = .ok result) :
    ∃ items, written items = ts.map Token.content ∧ Balanced (before ++ items) := by
  -- An item takes any number of tokens, so the induction is on how many are left.
  generalize hlength : ts.length = n
  induction n using Nat.strongRecOn generalizing before ts result with
  | _ n ih =>
    cases ts with
    | nil => exact ⟨[], rfl, by rwa [List.append_nil]⟩
    | cons t ts =>
      have hrest : ∀ t' ∈ ts, Scanned t' := fun t' ht' => hts t' (List.mem_cons_of_mem t ht')
      cases handle_scanned hbefore.octave_nonneg (hts t List.mem_cons_self) hrest with
      | inl hfailed =>
        obtain ⟨e, r, hfailed⟩ := hfailed
        rw [all_readerBehind_cons, hfailed] at h
        cases h
      | inr hread =>
        obtain ⟨item, rest, hrest, hitem, hcontents, hhandle⟩ := hread
        rw [all_of_verdict hhandle] at h
        cases hall : (readerBehind (before ++ [item]) rest).all with
        | error e =>
          rw [hall] at h
          cases h
        | ok symbols =>
          have hshorter : rest.length < n := by
            have hle := congrArg List.length hcontents
            have hpos : 0 < item.contents.length := by
              cases item <;> simp [Item.contents, WrittenNote.contents]
            simp at hle hlength
            omega
          obtain ⟨items, hitems, hbalanced⟩ :=
            ih rest.length hshorter (hbefore.append hitem) hrest hall rfl
          refine ⟨item :: items, ?_, by rwa [List.append_assoc] at hbalanced⟩
          rw [hcontents, ← hitems]
          rfl

/-- A text that scans is read exactly if its tokens are those of a balanced melody, and as what the
melody means. -/
theorem reads_exactly_melodies {text : String} {ts : List Token} (h : tokens text = .ok ts) :
    ((∃ result, symbols text = .ok result) ↔ ∃ items, written items = ts.map Token.content ∧
      Balanced items) ∧
    ∀ items, written items = ts.map Token.content → Balanced items →
      symbols text = .ok (meaning items) := by
  have hreader : Reader.ofText text = readerBehind [] ts := by
    rw [Reader.ofText, readings_of_tokens h]
    rfl
  have hmeaning : ∀ items, written items = ts.map Token.content → Balanced items →
      symbols text = .ok (meaning items) := by
    intro items hitems hbalanced
    rw [symbols, hreader, ← meaningBehind_nil_left]
    exact all_of_written hbalanced hitems.symm
  refine ⟨⟨?_, ?_⟩, hmeaning⟩
  · rintro ⟨result, hresult⟩
    rw [symbols, hreader] at hresult
    exact written_of_all balanced_nil (scanned_of_tokens h) hresult
  · rintro ⟨items, hitems, hbalanced⟩
    exact ⟨meaning items, hmeaning items hitems hbalanced⟩

def dottedChord : List Item :=
  [.length .eighth true, .chord ⟨'C', false, by decide⟩
    [⟨'c', true, by decide⟩, ⟨'C', false, by decide⟩], .octaveUp, .length .half false,
    .note ⟨'e', false, by decide⟩, .octaveDown, .rest]

theorem symbols_of_dottedChord :
    ∃ ts, tokens "1. (C c' C) > 4 e < r" = .ok ts ∧ written dottedChord = ts.map Token.content ∧
      Balanced dottedChord ∧
      symbols "1. (C c' C) > 4 e < r" = .ok
        [⟨⟨.eighth, true⟩, .chord [0, 7, 0]⟩, ⟨⟨.half, false⟩, .note 9⟩,
          ⟨⟨.half, false⟩, .rest⟩] := by
  have hscan : (tokens "1. (C c' C) > 4 e < r").map (List.map Token.content) =
      .ok (written dottedChord) := by
    decide +kernel
  have hbalanced : Balanced dottedChord := by decide +kernel
  cases htokens : tokens "1. (C c' C) > 4 e < r" with
  | error e =>
    rw [htokens] at hscan
    cases hscan
  | ok ts =>
    rw [htokens] at hscan
    have hwritten : written dottedChord = ts.map Token.content := (Except.ok.inj hscan).symm
    have hsymbols := (reads_exactly_melodies htokens).2 dottedChord hwritten hbalanced
    have hmeaning : meaning dottedChord =
        [⟨⟨.eighth, true⟩, .chord [0, 7, 0]⟩, ⟨⟨.half, false⟩, .note 9⟩,
          ⟨⟨.half, false⟩, .rest⟩] := by decide +kernel
    exact ⟨ts, rfl, hwritten, hbalanced, hmeaning ▸ hsymbols⟩

end Tablature.Notation
