import Mathlib.Data.List.Basic
import Tablature.Text.Escape

/-!
Escaping character by character. The three replacements in turn write each character by itself; no
angle bracket is left, and reading the entities once gives the text back, also one that holds
entities itself. The texts that are written are those in which every ampersand begins an entity
(`escapes_each_character`). -/
namespace Tablature.Text

theorem escapeChar_of_ne {c : Char} (hamp : c ≠ '&') (hlt : c ≠ '<') (hgt : c ≠ '>') :
    escapeChar c = [c] := by
  unfold escapeChar
  split
  · contradiction
  · contradiction
  · contradiction
  · rfl

theorem substitute_singleton_of_ne {c d : Char} (h : d ≠ c) (entity : List Char) :
    substitute c entity [d] = [d] := by
  rw [substitute, List.flatMap_singleton, if_neg h]

theorem escape_singleton (c : Char) : escape [c] = escapeChar c := by
  unfold escapeChar
  split
  · decide
  · decide
  · decide
  · next hamp hlt hgt =>
    rw [escape, substitute_singleton_of_ne hamp, substitute_singleton_of_ne hlt,
      substitute_singleton_of_ne hgt]

theorem escape_eq_flatMap (s : List Char) : escape s = s.flatMap escapeChar := by
  induction s with
  | nil => rfl
  | cons c s ih =>
    rw [← List.singleton_append, escape_append, escape_singleton, ih, List.flatMap_append,
      List.flatMap_singleton]

theorem escape_eq_self {s : List Char} (h : ∀ c ∈ s, c ≠ '&' ∧ c ≠ '<' ∧ c ≠ '>') :
    escape s = s := by
  rw [escape_eq_flatMap]
  induction s with
  | nil => rfl
  | cons c s ih =>
    obtain ⟨hamp, hlt, hgt⟩ := h c List.mem_cons_self
    rw [List.flatMap_cons, escapeChar_of_ne hamp hlt hgt,
      ih fun d hd => h d (List.mem_cons_of_mem c hd)]
    rfl

theorem unescape_cons_of_ne {c : Char} (h : c ≠ '&') (s : List Char) :
    unescape (c :: s) = c :: unescape s := by
  rw [unescape]
  all_goals
    intro rest hc
    exact absurd hc h

theorem unescape_escapeChar_append (c : Char) (s : List Char) :
    unescape (escapeChar c ++ s) = c :: unescape s := by
  unfold escapeChar
  split
  · rfl
  · rfl
  · rfl
  · next hamp _ _ => exact unescape_cons_of_ne hamp s

/-- Reading the entities gives back what was escaped. -/
@[simp] theorem unescape_escape (s : List Char) : unescape (escape s) = s := by
  rw [escape_eq_flatMap]
  induction s with
  | nil => rfl
  | cons c s ih => rw [List.flatMap_cons, unescape_escapeChar_append, ih]

theorem mem_escapeChar {c d : Char} (h : d ∈ escapeChar c) :
    d ∈ "&ampltg;".toList ∨ d = c ∧ d ≠ '<' ∧ d ≠ '>' := by
  unfold escapeChar at h
  split at h
  · exact Or.inl ((by decide : "&amp;".toList ⊆ "&ampltg;".toList) h)
  · exact Or.inl ((by decide : "&lt;".toList ⊆ "&ampltg;".toList) h)
  · exact Or.inl ((by decide : "&gt;".toList ⊆ "&ampltg;".toList) h)
  · next hamp hlt hgt =>
    rw [List.mem_singleton] at h
    subst h
    exact Or.inr ⟨rfl, hlt, hgt⟩

theorem bracket_notMem_escape {d : Char} (hd : d = '<' ∨ d = '>') (s : List Char) :
    d ∉ escape s := by
  rw [escape_eq_flatMap, List.mem_flatMap]
  rintro ⟨c, -, h⟩
  rcases mem_escapeChar h with h | ⟨-, hlt, hgt⟩
  · rcases hd with rfl | rfl <;> revert h <;> decide
  · exact hd.elim hlt hgt

/-- A character that occurs in no entity is in an escaped text only if it is in the text itself. -/
theorem mem_of_mem_escape {d : Char} (hd : d ∉ "&ampltg;".toList) {s : List Char}
    (h : d ∈ escape s) : d ∈ s := by
  rw [escape_eq_flatMap, List.mem_flatMap] at h
  obtain ⟨c, hc, h⟩ := h
  rcases mem_escapeChar h with h | ⟨rfl, -⟩
  · exact absurd h hd
  · exact hc

def entities : List String := ["amp;", "lt;", "gt;"]

/-- No angle bracket is left, and every ampersand begins an entity. -/
structure OnlyEntities (t : List Char) : Prop where
  less : '<' ∉ t
  greater : '>' ∉ t
  ampersand : ∀ behind, '&' :: behind <:+ t → ∃ entity ∈ entities, entity.toList <+: behind

theorem OnlyEntities.of_suffix {s t : List Char} (h : OnlyEntities t) (hs : s <:+ t) :
    OnlyEntities s where
  less hc := h.less (hs.subset hc)
  greater hc := h.greater (hs.subset hc)
  ampersand behind hb := h.ampersand behind (hb.trans hs)

theorem suffix_of_suffix_append {c : Char} {a s behind : List Char} (hc : c ∉ a)
    (h : c :: behind <:+ a ++ s) :
    c :: behind <:+ s := by
  induction a with
  | nil => exact h
  | cons d a ih =>
    obtain ⟨hne, ha⟩ := List.ne_and_not_mem_of_not_mem_cons hc
    rcases List.suffix_cons_iff.mp h with heq | hsuffix
    · exact absurd (List.cons.inj heq).1 hne
    · exact ih ha hsuffix

/-- An ampersand begins what is written for a character, which is an entity then, or it stands
behind that. -/
theorem entity_of_suffix {c : Char} {s behind : List Char}
    (h : '&' :: behind <:+ escapeChar c ++ s) :
    (∃ entity ∈ entities, entity.toList <+: behind) ∨ '&' :: behind <:+ s := by
  have hentity : ∀ entity ∈ entities, '&' :: behind <:+ '&' :: (entity.toList ++ s) →
      (∃ entity ∈ entities, entity.toList <+: behind) ∨ '&' :: behind <:+ s := by
    intro entity hmem hsuffix
    have hinside : ∀ entity ∈ entities, '&' ∉ entity.toList := by decide
    rcases List.suffix_cons_iff.mp hsuffix with heq | hsuffix
    · refine .inl ⟨entity, hmem, ?_⟩
      rw [(List.cons.inj heq).2]
      exact List.prefix_append _ _
    · exact .inr (suffix_of_suffix_append (hinside entity hmem) hsuffix)
  unfold escapeChar at h
  split at h
  · exact hentity "amp;" (by decide) h
  · exact hentity "lt;" (by decide) h
  · exact hentity "gt;" (by decide) h
  · next hamp _ _ =>
    rcases List.suffix_cons_iff.mp h with heq | hsuffix
    · exact absurd (List.cons.inj heq).1.symm hamp
    · exact .inr hsuffix

theorem onlyEntities_escape (s : List Char) : OnlyEntities (escape s) where
  less := bracket_notMem_escape (.inl rfl) s
  greater := bracket_notMem_escape (.inr rfl) s
  ampersand := by
    intro behind h
    rw [escape_eq_flatMap] at h
    induction s with
    | nil => simp at h
    | cons c s ih =>
      rw [List.flatMap_cons] at h
      exact (entity_of_suffix h).elim id ih

theorem escape_unescape {t : List Char} (h : OnlyEntities t) : escape (unescape t) = t := by
  rw [escape_eq_flatMap]
  fun_induction unescape t with
  | case1 rest ih =>
    exact congrArg ("&amp;".toList ++ ·) (ih (h.of_suffix (List.suffix_append "&amp;".toList rest)))
  | case2 rest ih =>
    exact congrArg ("&lt;".toList ++ ·) (ih (h.of_suffix (List.suffix_append "&lt;".toList rest)))
  | case3 rest ih =>
    exact congrArg ("&gt;".toList ++ ·) (ih (h.of_suffix (List.suffix_append "&gt;".toList rest)))
  | case4 c rest hamp hlt hgt ih =>
    have hc : c ≠ '&' := by
      rintro rfl
      obtain ⟨entity, hmem, behind, hrest⟩ := h.ampersand rest (List.suffix_refl _)
      simp only [entities, List.mem_cons, List.not_mem_nil, or_false] at hmem
      rcases hmem with rfl | rfl | rfl
      · exact hamp behind rfl hrest.symm
      · exact hlt behind rfl hrest.symm
      · exact hgt behind rfl hrest.symm
    have hless : c ≠ '<' := fun he => h.less (he ▸ List.mem_cons_self)
    have hgreater : c ≠ '>' := fun he => h.greater (he ▸ List.mem_cons_self)
    rw [List.flatMap_cons, escapeChar_of_ne hc hless hgreater,
      ih (h.of_suffix (List.suffix_cons c rest))]
    rfl
  | case5 => rfl

theorem toList_escaped (s : String) : (escaped s).toList = escape s.toList := String.toList_ofList

/-- A text is escaped in one pass. Each character is written by itself, as an entity or as it is; so
two texts are escaped one after the other, no angle bracket is left, every ampersand begins an
entity, and reading the entities once from left to right gives the text back, whatever entities it
holds. Nothing else sets the written texts apart: any text without angle brackets in which every
ampersand begins an entity is written for some text. -/
theorem escapes_each_character (s t : String) :
    escaped s = String.ofList (s.toList.flatMap escapeChar) ∧
      escaped (s ++ t) = escaped s ++ escaped t ∧
      OnlyEntities (escaped s).toList ∧
      unescape (escaped s).toList = s.toList ∧
      ∀ written : String, OnlyEntities written.toList ↔ ∃ s, escaped s = written := by
  refine ⟨congrArg String.ofList (escape_eq_flatMap s.toList), ?_, ?_, ?_,
    fun written => ⟨fun h => ?_, ?_⟩⟩
  · rw [escaped, String.toList_append, escape_append, String.ofList_append]
    rfl
  · rw [toList_escaped]
    exact onlyEntities_escape s.toList
  · rw [toList_escaped, unescape_escape]
  · refine ⟨String.ofList (unescape written.toList), ?_⟩
    rw [escaped, String.toList_ofList, escape_unescape h, String.ofList_toList]
  · rintro ⟨s, rfl⟩
    rw [toList_escaped]
    exact onlyEntities_escape s.toList

/-- An entity in a text is escaped once more, and read back once. -/
example : escaped "&lt;" = "&amp;lt;" ∧ unescape "&amp;lt;".toList = "&lt;".toList := by
  decide +kernel

end Tablature.Text
