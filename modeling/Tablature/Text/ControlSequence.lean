/-!
Control sequences. A terminal obeys them and does not show them: an escape character and an opening
bracket, then parameters, then intermediates, then one final character. `withoutControls` leaves
whole sequences out of a text in one pass; what begins like one and has no final character stays. A
text without the escape character is untouched. -/
namespace Tablature.Text

def escapeMark : Char := '\x1b'

def isParameter (c : Char) : Bool := decide (0x30 ≤ c.toNat) && decide (c.toNat ≤ 0x3F)

def isIntermediate (c : Char) : Bool := decide (0x20 ≤ c.toNat) && decide (c.toNat ≤ 0x2F)

def isFinal (c : Char) : Bool := decide (0x40 ≤ c.toNat) && decide (c.toNat ≤ 0x7E)

def afterFinal? (s : List Char) : Option (List Char) :=
  match (s.dropWhile isParameter).dropWhile isIntermediate with
  | [] => none
  | c :: rest => if isFinal c then some rest else none

def afterControl? (c : Char) : List Char → Option (List Char)
  | '[' :: rest => if c = escapeMark then afterFinal? rest else none
  | _ => none

theorem afterFinal?_length {s rest : List Char} (h : afterFinal? s = some rest) :
    rest.length < s.length := by
  have hp := (List.dropWhile_sublist isParameter (l := s)).length_le
  have hi := (List.dropWhile_sublist isIntermediate (l := s.dropWhile isParameter)).length_le
  unfold afterFinal? at h
  split at h
  · cases h
  · next hs =>
    split at h
    · cases h
      rw [hs, List.length_cons] at hi
      omega
    · cases h

theorem afterControl?_length {c : Char} {s rest : List Char} (h : afterControl? c s = some rest) :
    rest.length < s.length := by
  unfold afterControl? at h
  split at h
  · split at h
    · have := afterFinal?_length h
      simp only [List.length_cons]
      omega
    · cases h
  · cases h

theorem afterControl?_of_ne {c : Char} (h : c ≠ escapeMark) (s : List Char) :
    afterControl? c s = none := by
  unfold afterControl?
  split
  · exact if_neg h
  · rfl

/-- Leaves the control sequences out. -/
def withoutControls : List Char → List Char
  | [] => []
  | c :: s => match _h : afterControl? c s with
    | some rest => withoutControls rest
    | none => c :: withoutControls s
  termination_by s => s.length
  decreasing_by
    · have := afterControl?_length _h
      simp only [List.length_cons]
      omega
    · simp

theorem withoutControls_of_not_mem {s : List Char} (h : escapeMark ∉ s) :
    withoutControls s = s := by
  fun_induction withoutControls s with
  | case1 => rfl
  | case2 c s rest hc =>
    simp only [List.mem_cons, not_or] at h
    rw [afterControl?_of_ne (Ne.symm h.1)] at hc
    cases hc
  | case3 c s hc ih =>
    simp only [List.mem_cons, not_or] at h
    rw [ih h.2]

end Tablature.Text
