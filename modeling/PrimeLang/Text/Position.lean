/-! # Positions in a source text

A position counts the same place three ways: bytes of UTF-8 from the start of the text, line feeds
before it, and characters since the last line feed. -/

namespace PrimeLang

/-- A place in a source text: byte offset, and row and column counted from zero. -/
structure Pos where
  offset : Nat
  row : Nat
  col : Nat
deriving DecidableEq, Repr, Inhabited

namespace Pos

/-- The start of every text. -/
def start : Pos := ⟨0, 0, 0⟩

/-- The position after `c`. Only a line feed opens a new row. -/
def advance (p : Pos) (c : Char) : Pos :=
  if c = '\n' then ⟨p.offset + c.utf8Size, p.row + 1, 0⟩
  else ⟨p.offset + c.utf8Size, p.row, p.col + 1⟩

/-- The position after all of `cs`. -/
def advanceBy (p : Pos) (cs : List Char) : Pos := cs.foldl advance p

/-- `row:column`, counted from one as readers do. -/
def text (p : Pos) : String := s!"{p.row + 1}:{p.col + 1}"

@[simp] theorem advanceBy_nil (p : Pos) : p.advanceBy [] = p := rfl

@[simp] theorem advanceBy_cons (p : Pos) (c : Char) (cs : List Char) :
    p.advanceBy (c :: cs) = (p.advance c).advanceBy cs := rfl

theorem advanceBy_append (p : Pos) (cs ds : List Char) :
    p.advanceBy (cs ++ ds) = (p.advanceBy cs).advanceBy ds := List.foldl_append

end Pos
end PrimeLang
