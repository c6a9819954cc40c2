/-!
Line ends. A file may end its lines by a line feed, a carriage return or the pair of both; a text in
memory knows the line feed alone. -/
namespace Tablature.Text

/-- Makes a line feed of every carriage return and of every pair of carriage return and line
feed. -/
def unifyNewlines : List Char → List Char
  | '\r' :: '\n' :: rest => '\n' :: unifyNewlines rest
  | '\r' :: rest => '\n' :: unifyNewlines rest
  | c :: rest => c :: unifyNewlines rest
  | [] => []

theorem unifyNewlines_no_return (s : List Char) : '\r' ∉ unifyNewlines s := by
  fun_induction unifyNewlines s with
  | case1 rest ih => simp [ih]
  | case2 rest _ ih => simp [ih]
  | case3 c rest h₁ h₂ ih =>
    simp only [List.mem_cons, not_or]
    exact ⟨fun h => h₂ h.symm, ih⟩
  | case4 => simp

end Tablature.Text
