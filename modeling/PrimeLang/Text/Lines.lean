/-! # Lines of a text

A line feed ends a line, and so does the end of a text that does not end in one. A carriage return
right before a line feed belongs to the line end. -/

namespace PrimeLang

/-- A line, given backwards, without the carriage return that its line end began with. -/
def chopReturn : List Char → List Char
  | '\r' :: line => line
  | line => line

/-- The lines of `rest`, the first of which continues `line`, given backwards. -/
def linesFrom (line : List Char) : List Char → List (List Char)
  | [] => if line = [] then [] else [line.reverse]
  | '\n' :: rest => (chopReturn line).reverse :: linesFrom [] rest
  | c :: rest => linesFrom (c :: line) rest

/-- The lines of a text. -/
def lines (text : String) : List String := (linesFrom [] text.toList).map String.ofList

/-- Line number `row`, counted from zero, or nothing past the last one. -/
def line (text : String) (row : Nat) : String := (lines text).getD row ""

end PrimeLang
