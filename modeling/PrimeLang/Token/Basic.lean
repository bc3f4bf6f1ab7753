import PrimeLang.Text.Position
import PrimeLang.Token.Kind

/-! # Tokens -/

namespace PrimeLang

/-- A piece of the source text: what it is, how it is spelled and where it starts. -/
structure Token where
  kind : Token.Kind
  spelling : String
  pos : Pos
deriving DecidableEq, Repr, Inhabited

/-- How a message names the token. -/
def Token.describe (t : Token) : String :=
  if t.kind = .eof then t.kind.describe else "'" ++ t.spelling ++ "'"

end PrimeLang
