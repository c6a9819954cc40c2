import Tablature.Text.Blank
import Tablature.Text.Escape

/-!
A page of HTML around drawings. Each drawing stands in a division of its own, which scrolls sideways
on a screen and fills a sheet in print. A drawing's declaration, with the blanks behind it, is left
out. -/
namespace Tablature.Drawing.Html
open Tablature.Text

def afterDeclaration? : List Char → Option (List Char)
  | '?' :: '>' :: rest => some rest
  | _ :: rest => afterDeclaration? rest
  | [] => none

/-- A drawing without its declaration; nothing if the declaration has no end. -/
def body? (svg : String) : Option String :=
  if "<?xml".toList.isPrefixOf svg.toList then
    (afterDeclaration? svg.toList).map fun rest => String.ofList (trimStart rest)
  else some svg

def head (title : String) : String :=
  "<!DOCTYPE html>\n<html lang=\"en\">\n<head>\n  <meta charset=\"UTF-8\" />\n" ++
  "  <title>" ++ escaped title ++ "</title>\n" ++
  "  <style>\n" ++
  "    body \x7b font-family: sans-serif; margin: 1rem; \x7d\n" ++
  "    h1 \x7b font-size: 1.4rem; \x7d\n" ++
  "    .page \x7b overflow-x: auto; \x7d\n" ++
  "    @page \x7b size: landscape; \x7d\n" ++
  "    @media print \x7b\n" ++
  "      .page \x7b overflow: visible; page-break-after: always; \x7d\n" ++
  "    \x7d\n" ++
  "  </style>\n</head>\n<body>\n"

def heading (title : String) : String :=
  if title.isEmpty then "" else "  <h1>" ++ escaped title ++ "</h1>\n"

def division (body : String) : String := "  <div class=\"page\">" ++ body ++ "</div>"

/-- The page; nothing if a drawing begins a declaration and does not end it. -/
def page? (title : String) (svgs : List String) : Option String :=
  (svgs.mapM body?).map fun bodies =>
    head title ++ heading title ++ String.intercalate "\n" (bodies.map division) ++
      "\n</body>\n</html>"

end Tablature.Drawing.Html
