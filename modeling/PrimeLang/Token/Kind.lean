import PrimeLang.Language.Operator
import PrimeLang.Language.Type

/-! # Kinds of tokens

A token is a symbol, a keyword, or one of five kinds without a spelling of their own. Symbols are
one or two characters long, so that the scanner finds them by looking at two characters. -/

namespace PrimeLang

/-- Operators and punctuation. -/
inductive Symbol where
  | operator (op : BinaryOp)
  | assign
  | addAssign | subAssign | mulAssign | divAssign | modAssign
  | arrow
  | semicolon | comma
  | lparen | rparen
  | lbracket | rbracket
  | lbrace | rbrace
deriving DecidableEq, Repr, Inhabited

namespace Symbol

def all : List Symbol :=
  BinaryOp.all.map operator ++
    [assign, addAssign, subAssign, mulAssign, divAssign, modAssign, arrow, semicolon, comma,
      lparen, rparen, lbracket, rbracket, lbrace, rbrace]

/-- The characters that a symbol is written with. -/
def chars : Symbol → List Char
  | operator .and => ['&', '&']
  | operator .or => ['|', '|']
  | operator .eq => ['=', '=']
  | operator .ne => ['!', '=']
  | operator .lt => ['<']
  | operator .le => ['<', '=']
  | operator .gt => ['>']
  | operator .ge => ['>', '=']
  | operator .add => ['+']
  | operator .sub => ['-']
  | operator .mul => ['*']
  | operator .div => ['/']
  | operator .mod => ['%']
  | assign => [':', '=']
  | addAssign => ['+', '=']
  | subAssign => ['-', '=']
  | mulAssign => ['*', '=']
  | divAssign => ['/', '=']
  | modAssign => ['%', '=']
  | arrow => ['-', '>']
  | semicolon => [';']
  | comma => [',']
  | lparen => ['(']
  | rparen => [')']
  | lbracket => ['[']
  | rbracket => [']']
  | lbrace => ['\x7b']
  | rbrace => ['\x7d']

def spelling (s : Symbol) : String := String.ofList s.chars

/-- The symbol written with exactly `cs`. -/
def ofChars? (cs : List Char) : Option Symbol := all.find? (·.chars == cs)

/-- The operator of a compound assignment. -/
def update? : Symbol → Option BinaryOp
  | addAssign => some .add
  | subAssign => some .sub
  | mulAssign => some .mul
  | divAssign => some .div
  | modAssign => some .mod
  | _ => none

/-- The operator that a symbol stands for, by itself or in a compound assignment. -/
def operator? : Symbol → Option BinaryOp
  | operator op => some op
  | s => s.update?

def tier? : Symbol → Option Tier
  | operator op => some op.tier
  | assign => some .assignment
  | s => s.update?.map fun _ => .assignment

end Symbol

/-- Reserved words. -/
inductive Keyword where
  | type (ty : Ty)
  | func
  | return_
  | if_
  | else_
  | for_
  | main
deriving DecidableEq, Repr, Inhabited

namespace Keyword

def all : List Keyword := Ty.all.map type ++ [func, return_, if_, else_, for_, main]

def spelling : Keyword → String
  | type ty => ty.name
  | func => "func"
  | return_ => "return"
  | if_ => "if"
  | else_ => "else"
  | for_ => "for"
  | main => "main"

def ofSpelling? (s : String) : Option Keyword := all.find? (·.spelling == s)

end Keyword

namespace Token

/-- What a token is, apart from how it is spelled and where it stands. -/
inductive Kind where
  | symbol (s : Symbol)
  | keyword (k : Keyword)
  | ident
  | number
  | comment
  /-- A character that starts no token. -/
  | invalid
  /-- The end of the text. -/
  | eof
deriving DecidableEq, Repr, Inhabited

namespace Kind

/-- The one spelling of a symbol or keyword. -/
def spelling? : Kind → Option String
  | symbol s => some s.spelling
  | keyword k => some k.spelling
  | _ => none

/-- What a token of this kind is called in messages. -/
def describe : Kind → String
  | symbol s => "'" ++ s.spelling ++ "'"
  | keyword k => "'" ++ k.spelling ++ "'"
  | ident => "identifier"
  | number => "integer literal"
  | comment => "comment"
  | invalid => "invalid character"
  | eof => "end of file"

/-- The type that a type keyword names. -/
def type? : Kind → Option Ty
  | keyword (.type ty) => some ty
  | _ => none

def isType (k : Kind) : Bool := k.type?.isSome

def tier? : Kind → Option Tier
  | symbol s => s.tier?
  | _ => none

def operator? : Kind → Option BinaryOp
  | symbol s => s.operator?
  | _ => none

end Kind
end Token
end PrimeLang
