import PrimeLang.Source.Basic
import PrimeLang.Text.Decimal
import PrimeLang.Token.Cursor

/-! # From tokens to programs

A recursive-descent parser with one token of lookahead. Loops and nesting are bounded by a number
`n` above the number of tokens left: every round of a loop and every level of nesting reads a token
before it counts down, so the bound is never met. -/

namespace PrimeLang.Source
open Token (Kind)

/-- A parser reads from a cursor, or fails with the first error. -/
abbrev Parse := StateT Cursor (Except SyntaxError)

namespace Parse
variable {α : Type}

/-- The next token, which stays to be read. -/
def peek : Parse (Option Token) := fun c => .ok (c.peek?, c)

/-- The next token has kind `k`. -/
def nextIs (k : Kind) : Parse Bool := fun c => .ok (c.nextIs (· == k), c)

/-- Reads the next token if `f` makes something of its kind. -/
def nextWith (f : Kind → Option α) : Parse (Option (α × Token)) := fun c =>
  match c.next? with
  | some (t, c') =>
    match f t.kind with
    | some a => .ok (some (a, t), c')
    | none => .ok (none, c)
  | none => .ok (none, c)

/-- Reads a token of kind `k` if one is next. -/
def skip (k : Kind) : Parse Bool := fun c =>
  match c.nextIf? (· == k) with
  | some (_, c') => .ok (true, c')
  | none => .ok (false, c)

def unexpected (expected : String) : Parse α := fun c => .error (c.unexpected expected)

def expect (expected : String) (p : Kind → Bool) : Parse Token := fun c => c.expect expected p

/-- Reads a token of kind `k`. -/
def kind (k : Kind) : Parse Token := expect k.describe (· == k)

def symbol (s : Symbol) : Parse Token := kind (.symbol s)

def keyword (k : Keyword) : Parse Token := kind (.keyword k)

/-! ## Lists -/

/-- Further items, each after a comma. -/
def commaItems (item : Parse α) : Nat → Parse (List α)
  | 0 => pure []
  | n + 1 => do
    if ← skip (.symbol .comma) then
      let a ← item
      let as ← commaItems item n
      return a :: as
    else return []

/-- Items between commas, none if `close` is next. -/
def commaList (n : Nat) (item : Parse α) (close : Symbol) : Parse (List α) := do
  if ← nextIs (.symbol close) then return []
  else
    let a ← item
    let as ← commaItems item n
    return a :: as

/-- Items until `close` is next. -/
def itemsUntil (item : Parse α) (close : Symbol) : Nat → Parse (List α)
  | 0 => pure []
  | n + 1 => do
    if ← nextIs (.symbol close) then return []
    else
      let a ← item
      let as ← itemsUntil item close n
      return a :: as

/-! ## Expressions -/

/-- The binary operator of a symbol, if it is of tier `t`. -/
def operatorOf (t : Tier) : Kind → Option BinaryOp
  | .symbol (.operator op) => if op.tier = t then some op else none
  | _ => none

/-- The operator of an assignment symbol, which is absent in a plain assignment. -/
def assignmentOf : Kind → Option (Option BinaryOp)
  | .symbol .assign => some none
  | .symbol s => s.update?.map some
  | _ => none

/-- Continues `lhs` by operators of tier `t` and operands, associating to the left. -/
def chainFrom (t : Tier) (operand : Parse Expr) : Nat → Expr → Parse Expr
  | 0, lhs => pure lhs
  | n + 1, lhs => do
    match ← nextWith (operatorOf t) with
    | some (op, token) =>
      let rhs ← operand
      chainFrom t operand n (.binary op token.pos lhs rhs)
    | none => return lhs

/-- Operands between operators of tier `t`. -/
def chain (n : Nat) (t : Tier) (operand : Parse Expr) : Parse Expr := do
  let lhs ← operand
  chainFrom t operand n lhs

/-- What follows a name in an expression: arguments, an index, or nothing. -/
def named (n : Nat) (expr : Parse Expr) (name : Token) : Parse Expr := do
  if ← skip (.symbol .lparen) then
    let args ← commaList n expr .rparen
    let _ ← symbol .rparen
    return .call name.spelling name.pos args
  else if ← skip (.symbol .lbracket) then
    let index ← expr
    let _ ← symbol .rbracket
    return .element name.spelling name.pos index
  else return .var name.spelling name.pos

/-- A literal, which has to be a 32-bit integer. -/
def literal (token : Token) : Parse Expr :=
  match word? token.spelling.toList with
  | some value => return .literal value token.pos
  | none => throw (.literalRange token.spelling token.pos)

/-- An operand of the tightest operators; `expr` reads what it nests. -/
def primary (n : Nat) (expr : Parse Expr) : Parse Expr := do
  if ← skip (.symbol .lparen) then
    let inner ← expr
    let _ ← symbol .rparen
    return inner
  else if ← nextIs .ident then named n expr (← kind .ident)
  else if ← nextIs .number then literal (← kind .number)
  else unexpected "expression"

/-- Binary operators by tier, loosest outermost. -/
def binary (n : Nat) (expr : Parse Expr) : Parse Expr :=
  chain n .logical <| chain n .comparison <| chain n .additive <| chain n .multiplicative <|
    primary n expr

/-- One assignment at most; its target has to be a variable. -/
def assignment (operand : Parse Expr) : Parse Expr := do
  let target ← operand
  match ← nextWith assignmentOf with
  | some (op, token) =>
    if target.isVariable then
      let value ← operand
      return .assign op token.pos target value
    else throw (.assignTarget token.pos)
  | none => return target

/-- An expression. -/
def expr : Nat → Parse Expr
  | 0 => unexpected "expression"
  | n + 1 => assignment (binary n (expr n))

/-! ## Declarations and statements -/

def type : Parse Ty := do
  match ← nextWith Kind.type? with
  | some (ty, _) => return ty
  | none => unexpected "type"

/-- A type and a name. -/
def var : Parse Var := do
  let ty ← type
  let name ← kind .ident
  return ⟨ty, name.spelling, name.pos⟩

/-- Statements in braces. -/
def block (n : Nat) (stmt : Parse Stmt) : Parse (List Stmt) := do
  let _ ← symbol .lbrace
  let body ← itemsUntil stmt .rbrace n
  let _ ← symbol .rbrace
  return body

/-- A variable and its first value. -/
def binding (n : Nat) : Parse (Var × Expr) := do
  let v ← var
  let _ ← symbol .assign
  let init ← expr n
  let _ ← symbol .semicolon
  return (v, init)

def declStmt (n : Nat) : Parse Stmt := do
  let (v, init) ← binding n
  return .decl v init

def ifStmt (n : Nat) (stmt : Parse Stmt) : Parse Stmt := do
  let _ ← keyword .if_
  let cond ← expr n
  let body ← block n stmt
  if ← skip (.keyword .else_) then
    let orElse ← block n stmt
    return .ifElse cond body orElse
  else return .ifThen cond body

def forStmt (n : Nat) (stmt : Parse Stmt) : Parse Stmt := do
  let _ ← keyword .for_
  let (v, init) ← binding n
  let cond ← expr n
  let _ ← symbol .semicolon
  let step ← expr n
  let body ← block n stmt
  return .loop v init cond step body

def returnStmt (n : Nat) : Parse Stmt := do
  let _ ← keyword .return_
  let value ← if ← nextIs (.symbol .semicolon) then pure none else some <$> expr n
  let _ ← symbol .semicolon
  return .ret value

def exprStmt (n : Nat) : Parse Stmt := do
  let e ← expr n
  let _ ← symbol .semicolon
  return .eval e

/-- A statement, told by its first token. -/
def stmt : Nat → Parse Stmt
  | 0 => unexpected "statement"
  | n + 1 => do
    match (← peek).map Token.kind with
    | none => unexpected "statement"
    | some (.keyword (.type _)) => declStmt n
    | some (.keyword .if_) => ifStmt n (stmt n)
    | some (.keyword .for_) => forStmt n (stmt n)
    | some (.keyword .return_) => returnStmt n
    | some _ => exprStmt (n + 1)

/-- A function may be called by a keyword, `main`. -/
def isFuncName (k : Kind) : Bool := k == .ident || k == .keyword .main

def func (n : Nat) : Parse Func := do
  let _ ← keyword .func
  let name ← expect "function name" isFuncName
  let _ ← symbol .lparen
  let params ← commaList n var .rparen
  let _ ← symbol .rparen
  let ret ← if ← skip (.symbol .arrow) then some <$> type else pure none
  let body ← block n (stmt n)
  return ⟨name.spelling, name.pos, params, ret, body⟩

/-- Functions as long as the keyword for one is next. -/
def funcs : Nat → Parse (List Func)
  | 0 => pure []
  | n + 1 => do
    if ← nextIs (.keyword .func) then
      let f ← func n
      let fs ← funcs n
      return f :: fs
    else return []

/-- Functions up to the end of the text. -/
def program (n : Nat) : Parse (List Func) := do
  let fs ← funcs n
  let _ ← expect "function declaration" (· == .eof)
  return fs

end Parse

/-- The functions that the tokens after `c` declare. -/
def parse (c : Cursor) : Except SyntaxError (List Func) :=
  (Parse.program (c.rest.length + 1) c).map Prod.fst

end PrimeLang.Source
