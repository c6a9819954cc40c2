import Tablature.Notation.Reader
import Tablature.Proofs.Lines

/-!
Tokens written out and scanned again. A token is genuine if its text is one character and its kind
is the one of that character. The tokens of a text are genuine; and genuine tokens, written with one
blank between two of them, are what the scanner finds there (`tokens_join`). -/
namespace Tablature.Notation
open Tablature.Text Tablature.Music

/-- The text is one character, and the kind is the one of that character. -/
def Token.Genuine (t : Token) : Prop :=
  ∃ c, t.text = String.singleton c ∧ Kind.ofChar? c = some t.kind

theorem genuine_of_reading {c : Char} {place : Place} {t : Token} (h : reading c place = .ok t) :
    t.Genuine := by
  unfold reading at h
  split at h
  · next kind hkind =>
    cases h
    exact ⟨c, rfl, hkind⟩
  · cases h

theorem Token.Genuine.scanned {t : Token} (h : t.Genuine) : Scanned t := by
  obtain ⟨c, htext, hkind⟩ := h
  have hreading : reading c t.place = .ok t := by simp [reading, hkind, ← htext]
  exact scanned_of_reading hreading

theorem Token.Genuine.of_content {t t' : Token} (h : t.Genuine) (heq : t.content = t'.content) :
    t'.Genuine := by
  obtain ⟨c, htext, hkind⟩ := h
  exact ⟨c, (congrArg Prod.snd heq).symm.trans htext, hkind.trans (congrArg (some ·.1) heq)⟩

theorem genuine_of_map_content {ts ts' : List Token}
    (h : ts.map Token.content = ts'.map Token.content)
    (hts : ∀ t ∈ ts, t.Genuine) : ∀ t ∈ ts', t.Genuine := by
  intro t ht
  have hmem : t.content ∈ ts.map Token.content := h ▸ List.mem_map_of_mem ht
  obtain ⟨u, hu, heq⟩ := List.mem_map.mp hmem
  exact (hts u hu).of_content heq

theorem genuine_of_tokens {text : String} {ts : List Token} (h : tokens text = .ok ts) :
    ∀ t ∈ ts, t.Genuine := by
  intro t ht
  obtain ⟨c, place, hr⟩ := exists_of_mem_readings (mem_readings_of_tokens h ht)
  exact genuine_of_reading hr

theorem Kind.visible_of_ofChar? {k : Kind} {c : Char} (h : ofChar? c = some k) :
    c ≠ '\n' ∧ isBlank c = false ∧ c ≠ '#' := by
  have hall : k.characters.all (fun d => d ≠ '\n' ∧ isBlank d = false ∧ d ≠ '#') = true := by
    cases k <;> decide
  exact of_decide_eq_true (List.all_eq_true.mp hall c (Kind.ofChar?_eq_some_iff.mp h))

theorem Cursor.scan_visible {k : Kind} {c : Char} (h : Kind.ofChar? c = some k) (line column : Nat)
    (s : List Char) :
    scan false line column (c :: s) =
      .ok ⟨k, String.singleton c, .known line (column + 1)⟩ :: scan false line (column + 1) s := by
  obtain ⟨hbreak, hblank, hmark⟩ := Kind.visible_of_ofChar? h
  simp [scan, hbreak, hblank, hmark, Notation.reading, h]

theorem Cursor.scan_blank (line column : Nat) (s : List Char) :
    scan false line column (' ' :: s) = scan false line (column + 1) s := by
  simp [scan, isBlank_space]

theorem toList_join_cons_cons (t t' : Token) (ts : List Token) :
    (Token.join (t :: t' :: ts)).toList =
      t.text.toList ++ ' ' :: (Token.join (t' :: ts)).toList := by
  simp [Token.join, String.toList_intercalate]

/-- From any place in a line on, genuine tokens are found again; the blanks between them yield
nothing. -/
theorem Cursor.scan_join {ts : List Token} (h : ∀ t ∈ ts, t.Genuine) (line column : Nat) :
    ∃ again : List Token, scan false line column (Token.join ts).toList = again.map .ok ∧
      again.map Token.content = ts.map Token.content := by
  induction ts generalizing column with
  | nil => exact ⟨[], rfl, rfl⟩
  | cons t ts ih =>
    obtain ⟨⟨c, htext, hkind⟩, hrest⟩ := List.forall_mem_cons.mp h
    cases ts with
    | nil =>
      refine ⟨[⟨t.kind, String.singleton c, .known line (column + 1)⟩],
        ?_, by simp [Token.content, htext]⟩
      simp [Token.join, htext, scan_visible hkind, scan]
    | cons t' ts =>
      obtain ⟨again, hscan, hagain⟩ := ih hrest (column + 2)
      refine ⟨⟨t.kind, String.singleton c, .known line (column + 1)⟩ :: again, ?_, ?_⟩
      · simp [toList_join_cons_cons, htext, scan_visible hkind, scan_blank, hscan]
      · simp [hagain, Token.content, htext]

theorem untilError_map_ok (ts : List Token) : untilError (ts.map .ok) = (ts, none) := by
  induction ts with
  | nil => rfl
  | cons t ts ih => simp [untilError, ih]

theorem tokens_of_readings {text : String} {ts : List Token} (h : readings text = ts.map .ok) :
    tokens text = .ok ts := by
  simp [tokens, h, untilError_map_ok]

theorem tokens_join {ts : List Token} (h : ∀ t ∈ ts, t.Genuine) :
    ∃ again, tokens (Token.join ts) = .ok again ∧
      again.map Token.content = ts.map Token.content := by
  obtain ⟨again, hscan, hagain⟩ := Cursor.scan_join h 1 0
  exact ⟨again, tokens_of_readings hscan, hagain⟩

theorem symbols_of_tokens {text : String} {ts : List Token} (h : tokens text = .ok ts) :
    symbols text = (Reader.ofTokens ts).all := by
  rw [symbols, Reader.ofText, readings_of_tokens h]
  rfl

end Tablature.Notation
