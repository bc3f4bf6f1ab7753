import Mathlib.Data.Nat.Digits.Defs
import PrimeLang.Text.Decimal
import PrimeLang.Token.Basic
import PrimeLang.Tree.Basic

/-! # The grammar

The grammar of the language over token lists, as relations between the tokens of a phrase and the
abstract tree of its derivation. A repetition is a list of phrases: `Joined` puts commas between
them, `List.flatten` puts nothing. Binary operators are left-recursive, one tier of precedence at a
time, so a derivation associates them to the left; parentheses leave no node; `t op= e` derives the
tree of `t := t op e`. -/

namespace PrimeLang.Grammar

/-! ## Numerals -/

/-- A run of digits, most significant first, and its value. -/
structure Digits (cs : List Char) (n : Nat) : Prop where
  ne_nil : cs ≠ []
  isDigit : ∀ c ∈ cs, isDigit c
  value : n = Nat.ofDigits 10 (cs.reverse.map fun c => c.toNat - '0'.toNat)

/-- A run of digits behind at most one sign, and its value. -/
inductive Numeral : List Char → Int → Prop
  | unsigned {cs : List Char} {n : Nat} : Digits cs n → Numeral cs n
  | plus {cs : List Char} {n : Nat} : Digits cs n → Numeral ('+' :: cs) n
  | minus {cs : List Char} {n : Nat} : Digits cs n → Numeral ('-' :: cs) (-n)

/-! ## Expressions -/

/-- Phrases with commas between them. -/
inductive Joined : List (List Token) → List Token → Prop
  | nil : Joined [] []
  | one {ts : List Token} : Joined [ts] ts
  | cons {ts us vs : List Token} {rest : List (List Token)} {comma : Token} :
    comma.kind = .symbol .comma → Joined (us :: rest) vs →
    Joined (ts :: us :: rest) (ts ++ comma :: vs)

/-- The tiers of the binary operators, loosest first. -/
def tiers : List Tier := [.logical, .comparison, .additive, .multiplicative]

mutual

/-- `expression := expr1 [ assign-op expr1 ]`, where a target is a variable or an element of one. -/
inductive Expression : List Token → Tree.Expr Pos → Prop
  | term {ts : List Token} {e : Tree.Expr Pos} : Term tiers ts e → Expression ts e
  | assign {ts us : List Token} {op : Token} {pos : Pos} {name : String}
      {indices : List (Tree.Expr Pos)} {e : Tree.Expr Pos} :
    Term tiers ts (.ident pos name indices) → op.kind = .symbol .assign → Term tiers us e →
    Expression (ts ++ op :: us) (.assign op.pos (.ident pos name indices) e)
  | update {ts us : List Token} {op : Token} {s : Symbol} {b : BinaryOp} {pos : Pos}
      {name : String} {indices : List (Tree.Expr Pos)} {e : Tree.Expr Pos} :
    Term tiers ts (.ident pos name indices) → op.kind = .symbol s → s.update? = some b →
    Term tiers us e →
    Expression (ts ++ op :: us) (.assign op.pos (.ident pos name indices)
      (.binary op.pos b (.ident pos name indices) e))

/-- Operands between operators of the given tiers, loosest first; without tiers, `primary`. -/
inductive Term : List Tier → List Token → Tree.Expr Pos → Prop
  | operand {tier : Tier} {tighter : List Tier} {ts : List Token} {e : Tree.Expr Pos} :
    Term tighter ts e → Term (tier :: tighter) ts e
  | binary {tighter : List Tier} {ts us : List Token} {op : Token} {b : BinaryOp}
      {lhs rhs : Tree.Expr Pos} :
    Term (b.tier :: tighter) ts lhs → op.kind = .symbol (.operator b) → Term tighter us rhs →
    Term (b.tier :: tighter) (ts ++ op :: us) (.binary op.pos b lhs rhs)
  | paren {l r : Token} {ts : List Token} {e : Tree.Expr Pos} :
    l.kind = .symbol .lparen → Expression ts e → r.kind = .symbol .rparen →
    Term [] (l :: (ts ++ [r])) e
  | var {x : Token} : x.kind = .ident → Term [] [x] (.ident x.pos x.spelling [])
  | element {x l r : Token} {ts : List Token} {e : Tree.Expr Pos} :
    x.kind = .ident → l.kind = .symbol .lbracket → Expression ts e →
    r.kind = .symbol .rbracket → Term [] (x :: l :: (ts ++ [r])) (.ident x.pos x.spelling [e])
  | call {x l r : Token} {ts : List Token} {args : List (List Token × Tree.Expr Pos)} :
    x.kind = .ident → l.kind = .symbol .lparen → (∀ a ∈ args, Expression a.1 a.2) →
    Joined (args.map Prod.fst) ts → r.kind = .symbol .rparen →
    Term [] (x :: l :: (ts ++ [r])) (.call x.pos x.spelling (args.map Prod.snd))
  | literal {x : Token} {w : Int32} :
    x.kind = .number → Numeral x.spelling.toList w.toInt → Term [] [x] (.literal x.pos w)

end

/-! ## Statements and functions -/

/-- `param := type ident` -/
inductive Parameter : List Token → Var → Prop
  | intro {t x : Token} {ty : Ty} :
    t.kind = .keyword (.type ty) → x.kind = .ident → Parameter [t, x] ⟨ty, x.spelling, x.pos⟩

mutual

/-- `stmt` -/
inductive Statement : List Token → Stmt (Tree.Expr Pos) Var → Prop
  | decl {ts us : List Token} {op semi : Token} {v : Var} {init : Tree.Expr Pos} :
    Parameter ts v → op.kind = .symbol .assign → Expression us init →
    semi.kind = .symbol .semicolon → Statement (ts ++ op :: (us ++ [semi])) (.decl v init)
  | ifThen {k : Token} {ts us : List Token} {cond : Tree.Expr Pos}
      {body : List (Stmt (Tree.Expr Pos) Var)} :
    k.kind = .keyword .if_ → Expression ts cond → Block us body →
    Statement (k :: (ts ++ us)) (.ifThen cond body)
  | ifElse {k l : Token} {ts us vs : List Token} {cond : Tree.Expr Pos}
      {body orElse : List (Stmt (Tree.Expr Pos) Var)} :
    k.kind = .keyword .if_ → Expression ts cond → Block us body → l.kind = .keyword .else_ →
    Block vs orElse → Statement (k :: (ts ++ (us ++ l :: vs))) (.ifElse cond body orElse)
  | loop {k op semi semi' : Token} {ts us vs ws xs : List Token} {v : Var}
      {init cond step : Tree.Expr Pos} {body : List (Stmt (Tree.Expr Pos) Var)} :
    k.kind = .keyword .for_ → Parameter ts v → op.kind = .symbol .assign → Expression us init →
    semi.kind = .symbol .semicolon → Expression vs cond → semi'.kind = .symbol .semicolon →
    Expression ws step → Block xs body →
    Statement (k :: (ts ++ op :: (us ++ semi :: (vs ++ semi' :: (ws ++ xs)))))
      (.loop v init cond step body)
  | ret {k semi : Token} :
    k.kind = .keyword .return_ → semi.kind = .symbol .semicolon → Statement [k, semi] (.ret none)
  | retValue {k semi : Token} {ts : List Token} {e : Tree.Expr Pos} :
    k.kind = .keyword .return_ → Expression ts e → semi.kind = .symbol .semicolon →
    Statement (k :: (ts ++ [semi])) (.ret (some e))
  | eval {semi : Token} {ts : List Token} {e : Tree.Expr Pos} :
    Expression ts e → semi.kind = .symbol .semicolon → Statement (ts ++ [semi]) (.eval e)

/-- `block := "{" { stmt } "}"` -/
inductive Block : List Token → List (Stmt (Tree.Expr Pos) Var) → Prop
  | intro {l r : Token} {items : List (List Token × Stmt (Tree.Expr Pos) Var)} :
    l.kind = .symbol .lbrace → (∀ i ∈ items, Statement i.1 i.2) → r.kind = .symbol .rbrace →
    Block (l :: ((items.map Prod.fst).flatten ++ [r])) (items.map Prod.snd)

end

/-- `[ "->" type ]` -/
inductive Result : List Token → Option Ty → Prop
  | none : Result [] none
  | some {arrow t : Token} {ty : Ty} :
    arrow.kind = .symbol .arrow → t.kind = .keyword (.type ty) → Result [arrow, t] (some ty)

/-- `func-decl` -/
inductive Function : List Token → Func (Tree.Expr Pos) Var → Prop
  | intro {k x l r : Token} {ts us vs : List Token} {params : List (List Token × Var)}
      {ret : Option Ty} {body : List (Stmt (Tree.Expr Pos) Var)} :
    k.kind = .keyword .func → x.kind = .ident ∨ x.kind = .keyword .main →
    l.kind = .symbol .lparen → (∀ v ∈ params, Parameter v.1 v.2) →
    Joined (params.map Prod.fst) ts → r.kind = .symbol .rparen → Result us ret → Block vs body →
    Function (k :: x :: l :: (ts ++ r :: (us ++ vs)))
      ⟨x.spelling, x.pos, params.map Prod.snd, ret, body⟩

/-- `program := { func-decl } EOF` -/
inductive Program : List Token → List (Func (Tree.Expr Pos) Var) → Prop
  | intro {eof : Token} {items : List (List Token × Func (Tree.Expr Pos) Var)} :
    (∀ i ∈ items, Function i.1 i.2) → eof.kind = .eof →
    Program ((items.map Prod.fst).flatten ++ [eof]) (items.map Prod.snd)

end PrimeLang.Grammar
