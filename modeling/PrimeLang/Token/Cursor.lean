import PrimeLang.Source.Error
import PrimeLang.Token.Basic

/-! # A place in a token stream

A cursor stands before the tokens that are still to be read. Comments are not among them. -/

namespace PrimeLang

/-- The tokens still to be read, and where the last one read started. -/
structure Cursor where
  rest : List Token
  last : Pos
deriving DecidableEq, Repr

namespace Cursor
open Token (Kind)

/-- Before the first of `ts`. -/
def ofTokens (ts : List Token) : Cursor := ⟨ts.filter (·.kind ≠ .comment), .start⟩

/-- The next token, which stays to be read. -/
def peek? (c : Cursor) : Option Token := c.rest.head?

/-- Reads the next token. -/
def next? (c : Cursor) : Option (Token × Cursor) :=
  match c.rest with
  | [] => none
  | t :: rest => some (t, ⟨rest, t.pos⟩)

/-- There is a next token and its kind is in `p`. -/
def nextIs (p : Kind → Bool) (c : Cursor) : Bool := c.peek?.any (p ·.kind)

/-- Reads the next token if its kind is in `p`. -/
def nextIf? (p : Kind → Bool) (c : Cursor) : Option (Token × Cursor) :=
  if c.nextIs p then c.next? else none

/-- The error that the next token is not the `expected` one. After the last token it is reported
where that token started. -/
def unexpected (expected : String) (c : Cursor) : SyntaxError :=
  match c.peek? with
  | some t =>
    if t.kind = .invalid then .invalidCharacter t.spelling t.pos
    else .unexpected expected t.describe t.pos
  | none => .unexpected expected Kind.eof.describe c.last

/-- Reads a token whose kind is in `p`, which messages call `expected`. -/
def expect (expected : String) (p : Kind → Bool) (c : Cursor) :
    Except SyntaxError (Token × Cursor) :=
  match c.nextIf? p with
  | some r => .ok r
  | none => .error (c.unexpected expected)

end Cursor
end PrimeLang
