import PrimeLang.Text.Position

/-! # Errors of the grammar -/

namespace PrimeLang

/-- Why a token stream is no program, with the place where that shows. -/
inductive SyntaxError where
  /-- Something else was due where `found` stands. -/
  | unexpected (expected found : String) (pos : Pos)
  /-- A character that starts no token. -/
  | invalidCharacter (spelling : String) (pos : Pos)
  /-- What stands left of an assignment operator is not a variable. -/
  | assignTarget (pos : Pos)
  /-- A literal that is no 32-bit integer. -/
  | literalRange (spelling : String) (pos : Pos)
deriving DecidableEq, Repr

namespace SyntaxError

def pos : SyntaxError → Pos
  | unexpected _ _ pos => pos
  | invalidCharacter _ pos => pos
  | assignTarget pos => pos
  | literalRange _ pos => pos

/-- What is wrong, apart from where. -/
def complaint : SyntaxError → String
  | unexpected expected found _ => s!"expected {expected} but found {found}"
  | invalidCharacter spelling _ => s!"invalid character '{spelling}'"
  | assignTarget _ => "only a variable can be assigned to"
  | literalRange spelling _ => s!"integer literal {spelling} is out of range"

def message (e : SyntaxError) : String := s!"Syntax error at {e.pos.text}: {e.complaint}"

end SyntaxError
end PrimeLang
