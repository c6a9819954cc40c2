import Mathlib.Data.String.Basic
import Tablature.CommandLine.Run
import Tablature.Proofs.Tags

/-!
The names of outputs. A document that has no path of its own stands beside its input, under the
same name with another suffix (`Beside`); a title that is not given is the name without its suffix
(`TitleOf`). The program takes paths apart from behind and puts them together again; the rules are
stated on the characters of the path. -/
namespace Tablature.CommandLine
open Tablature.Drawing.Svg (cut_append)

section Slashes
open String

end Slashes

section Rules
variable {input : String}

end Rules

namespace FileTree
variable {tree : FileTree} {here l : Location} {path : String} {bytes : List UInt8}

end FileTree
end Tablature.CommandLine
