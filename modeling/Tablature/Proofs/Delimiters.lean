import Mathlib.Data.List.Basic

/-!
Delimiters in a text. A text is cut at the first occurrence of a delimiter. A text avoids a
delimiter if it holds no beginning of an occurrence, whatever follows the text; such a text is
passed over, so that a cut behind it is found where it was written. -/
namespace Tablature.Text

/-- No occurrence of the delimiter begins in the text, whatever may follow. -/
inductive Avoids (delimiter : List Char) : List Char → Prop
  | nil : Avoids delimiter []
  | cons {c : Char} {s : List Char} (whole : ¬delimiter <+: c :: s) (part : ¬c :: s <+: delimiter)
      (rest : Avoids delimiter s) : Avoids delimiter (c :: s)

theorem avoids_cons_iff {delimiter : List Char} {c : Char} {s : List Char} :
    Avoids delimiter (c :: s) ↔ (¬delimiter <+: c :: s ∧ ¬c :: s <+: delimiter) ∧
      Avoids delimiter s := by
  constructor
  · intro h
    cases h with
    | cons whole part rest => exact ⟨⟨whole, part⟩, rest⟩
  · rintro ⟨⟨whole, part⟩, rest⟩
    exact .cons whole part rest

def decideAvoids (delimiter : List Char) : (s : List Char) → Decidable (Avoids delimiter s)
  | [] => .isTrue .nil
  | _ :: s =>
    have := decideAvoids delimiter s
    decidable_of_iff _ avoids_cons_iff.symm

instance (delimiter s : List Char) : Decidable (Avoids delimiter s) := decideAvoids delimiter s

/-- What stands before the first occurrence of a delimiter, and what stands behind it. -/
def cut? (delimiter : List Char) : List Char → Option (List Char × List Char)
  | [] => none
  | c :: s =>
    if delimiter <+: c :: s then some ([], (c :: s).drop delimiter.length)
    else (cut? delimiter s).map fun parts => (c :: parts.1, parts.2)

def between? (opening closing s : List Char) : Option (List Char) :=
  (cut? opening s).bind fun parts => (cut? closing parts.2).map Prod.fst

def occurrences (delimiter : List Char) : List Char → Nat
  | [] => 0
  | c :: s => (if delimiter <+: c :: s then 1 else 0) + occurrences delimiter s

section Avoids
variable {delimiter a b : List Char}

/-- Where an occurrence does not begin, none begins in a longer text either. -/
theorem not_prefix_append {c : Char} (h : Avoids delimiter (c :: a)) (b : List Char) :
    ¬delimiter <+: c :: (a ++ b) ∧ ¬c :: (a ++ b) <+: delimiter := by
  obtain ⟨hnone, hpart⟩ := (avoids_cons_iff.mp h).1
  have hhead : c :: a <+: c :: (a ++ b) := List.prefix_append (c :: a) b
  refine ⟨fun hwhole => ?_, fun hwhole => hpart (hhead.trans hwhole)⟩
  have hnested := List.prefix_or_prefix_of_prefix hwhole hhead
  exact hnested.elim hnone hpart

theorem Avoids.append (ha : Avoids delimiter a) (hb : Avoids delimiter b) :
    Avoids delimiter (a ++ b) := by
  induction a with
  | nil => exact hb
  | cons c a ih =>
    obtain ⟨hnone, hpart⟩ := not_prefix_append ha b
    exact .cons hnone hpart (ih (avoids_cons_iff.mp ha).2)

theorem Avoids.flatMap {parts : List String} (h : ∀ part ∈ parts, Avoids delimiter part.toList) :
    Avoids delimiter (parts.flatMap String.toList) := by
  induction parts with
  | nil => exact .nil
  | cons part parts ih =>
    obtain ⟨hpart, hparts⟩ := List.forall_mem_cons.mp h
    exact hpart.append (ih hparts)

theorem avoids_of_notMem {c : Char} {rest s : List Char} (h : c ∉ s) : Avoids (c :: rest) s := by
  induction s with
  | nil => exact .nil
  | cons d s ih =>
    obtain ⟨hne, hs⟩ := List.ne_and_not_mem_of_not_mem_cons h
    refine .cons (fun hwhole => ?_) (fun hpart => ?_) (ih hs)
    · exact hne (List.cons_prefix_cons.mp hwhole).1
    · exact hne (List.cons_prefix_cons.mp hpart).1.symm

theorem cut?_of_avoids (h : Avoids delimiter a) : cut? delimiter a = none := by
  induction h with
  | nil => rfl
  | cons whole _ _ ih => rw [cut?, if_neg whole, ih, Option.map_none]

theorem cut?_append (hne : delimiter ≠ []) (h : Avoids delimiter a) (b : List Char) :
    cut? delimiter (a ++ (delimiter ++ b)) = some (a, b) := by
  induction a with
  | nil =>
    obtain ⟨c, rest, rfl⟩ := List.exists_cons_of_ne_nil hne
    rw [List.nil_append, List.cons_append, cut?, ← List.cons_append,
      if_pos (List.prefix_append _ _), List.drop_left]
  | cons c a ih => rw [List.cons_append, cut?, if_neg (not_prefix_append h _).1,
      ih (avoids_cons_iff.mp h).2, Option.map_some]

theorem between?_append {opening closing : List Char} (hopening : opening ≠ [])
    (hclosing : closing ≠ []) (ha : Avoids opening a) (hb : Avoids closing b) (c : List Char) :
    between? opening closing (a ++ (opening ++ (b ++ (closing ++ c)))) = some b := by
  rw [between?, cut?_append hopening ha, Option.bind_some, cut?_append hclosing hb, Option.map_some]

theorem occurrences_append (h : Avoids delimiter a) (b : List Char) :
    occurrences delimiter (a ++ b) = occurrences delimiter b := by
  induction a with
  | nil => rfl
  | cons c a ih =>
    rw [List.cons_append, occurrences, if_neg (not_prefix_append h b).1, Nat.zero_add,
      ih (avoids_cons_iff.mp h).2]

theorem occurrences_of_avoids (h : Avoids delimiter a) : occurrences delimiter a = 0 := by
  simpa [occurrences] using occurrences_append h []

theorem occurrences_once {c : Char} {rest : List Char} (hrest : c ∉ rest)
    (ha : Avoids (c :: rest) a)
    (hb : Avoids (c :: rest) b) : occurrences (c :: rest) (a ++ (c :: rest ++ b)) = 1 := by
  have hhere : c :: rest <+: c :: (rest ++ b) := List.prefix_append (c :: rest) b
  rw [occurrences_append ha, List.cons_append, occurrences, if_pos hhere,
    occurrences_append (avoids_of_notMem hrest), occurrences_of_avoids hb]

end Avoids
end Tablature.Text
