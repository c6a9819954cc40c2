/-!
Drawing commands: a drawing is the list of them. A canvas is opened and finished, shapes and texts
are put on it, and a group moves what it holds. The kind of number that places them is a
parameter. -/
namespace Tablature.Drawing

inductive Command (α : Type) where
  | start (width height : α)
  | finish
  | rect (x y width height : α) (style : String)
  | line (x₁ y₁ x₂ y₂ : α) (style : String)
  | circle (x y radius : α) (style : String)
  | text (x y : α) (content style : String)
  | openGroup (dx dy : α)
  | closeGroup
  deriving DecidableEq, Repr

namespace Command

variable {α β γ : Type}

def map (f : α → β) : Command α → Command β
  | start width height => start (f width) (f height)
  | finish => finish
  | rect x y width height style => rect (f x) (f y) (f width) (f height) style
  | line x₁ y₁ x₂ y₂ style => line (f x₁) (f y₁) (f x₂) (f y₂) style
  | circle x y radius style => circle (f x) (f y) (f radius) style
  | text x y content style => text (f x) (f y) content style
  | openGroup dx dy => openGroup (f dx) (f dy)
  | closeGroup => closeGroup

@[simp] theorem map_id (c : Command α) : c.map id = c := by cases c <;> rfl

@[simp] theorem map_map (f : α → β) (g : β → γ) (c : Command α) :
    (c.map f).map g = c.map (g ∘ f) := by
  cases c <;> rfl

def isOpenGroup : Command α → Bool
  | openGroup _ _ => true
  | _ => false

end Command
end Tablature.Drawing
