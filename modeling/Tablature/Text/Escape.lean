/-!
Text inside markup. The ampersand and the two angle brackets are written as entities; `unescape`
reads the entities back, from left to right and once. -/
namespace Tablature.Text

def substitute (c : Char) (entity : List Char) (s : List Char) : List Char :=
  s.flatMap fun d => if d = c then entity else [d]

/-- The ampersand goes first, so that the entities written for the brackets stay whole. -/
def escape (s : List Char) : List Char :=
  substitute '>' "&gt;".toList (substitute '<' "&lt;".toList (substitute '&' "&amp;".toList s))

def escapeChar : Char → List Char
  | '&' => "&amp;".toList
  | '<' => "&lt;".toList
  | '>' => "&gt;".toList
  | c => [c]

@[simp] theorem substitute_nil (c : Char) (entity : List Char) : substitute c entity [] = [] := rfl

@[simp] theorem substitute_append (c : Char) (entity s t : List Char) :
    substitute c entity (s ++ t) = substitute c entity s ++ substitute c entity t := by
  simp [substitute]

theorem escape_append (s t : List Char) : escape (s ++ t) = escape s ++ escape t := by
  simp [escape]

/-- Reads entities; an ampersand that begins none of the three stands for itself. -/
def unescape : List Char → List Char
  | '&' :: 'a' :: 'm' :: 'p' :: ';' :: rest => '&' :: unescape rest
  | '&' :: 'l' :: 't' :: ';' :: rest => '<' :: unescape rest
  | '&' :: 'g' :: 't' :: ';' :: rest => '>' :: unescape rest
  | c :: rest => c :: unescape rest
  | [] => []

def escaped (s : String) : String := String.ofList (escape s.toList)

end Tablature.Text
