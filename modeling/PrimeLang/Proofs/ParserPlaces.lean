import PrimeLang.Proofs.ParserSound
import PrimeLang.Proofs.Relabelling
import PrimeLang.Proofs.TokenBoundaries

/-! # The parser looks at no positions

The parser passes positions on and does nothing else with them: moved tokens are parsed like the
tokens, and what comes out is moved as they are (`Source.parse_move`). So what the parser makes of
tokens is, up to positions, decided by their kinds and spellings. -/

namespace PrimeLang

def Token.move (π : Pos → Pos) (t : Token) : Token := ⟨t.kind, t.spelling, π t.pos⟩

def Cursor.move (π : Pos → Pos) (c : Cursor) : Cursor := ⟨c.rest.map (.move π), π c.last⟩

def SyntaxError.move (π : Pos → Pos) : SyntaxError → SyntaxError
  | unexpected expected found pos => unexpected expected found (π pos)
  | invalidCharacter spelling pos => invalidCharacter spelling (π pos)
  | assignTarget pos => assignTarget (π pos)
  | literalRange spelling pos => literalRange spelling (π pos)

namespace Source

namespace Parse
open Token (Kind)
variable {α β γ δ : Type} {π : Pos → Pos}

theorem bind_apply (p : Parse α) (k : α → Parse β) (c : Cursor) :
    (p >>= k) c = (p c).bind fun (a, c') => k a c' := rfl

/-- Among moved tokens `q` does what `p` does, and returns by `f` what `p` returns. -/
def Moves (π : Pos → Pos) (f : α → β) (p : Parse α) (q : Parse β) : Prop :=
  ∀ c : Cursor, q (c.move π) = match p c with
    | .ok (a, c') => .ok (f a, c'.move π)
    | .error e => .error (e.move π)

namespace Moves
variable {f : α → β} {p p' : Parse α} {q q' : Parse β}

theorem pure {a : α} {b : β} (h : f a = b) : Moves π f (pure a) (pure b) := fun _ => h ▸ rfl

theorem bind {g : γ → δ} {k : α → Parse γ} {l : β → Parse δ} (h : Moves π f p q)
    (hk : ∀ a, Moves π g (k a) (l (f a))) : Moves π g (p >>= k) (q >>= l) := by
  intro c
  rw [bind_apply, bind_apply, h c]
  cases p c with
  | error e => rfl
  | ok r => exact hk r.1 r.2

theorem ite {b : Bool} (h : Moves π f p q) (h' : Moves π f p' q') :
    Moves π f (if b then p else p') (if b then q else q') := by
  cases b with
  | true => exact h
  | false => exact h'

end Moves

/-! ## Steps of the parser -/

theorem moves_peek : Moves π (Option.map (.move π)) peek peek := by
  intro c
  simp [peek, Cursor.move, Cursor.peek?]

theorem nextIs_move (p : Kind → Bool) (c : Cursor) : (c.move π).nextIs p = c.nextIs p := by
  obtain ⟨rest, last⟩ := c
  cases rest <;> rfl

theorem moves_nextIs (k : Kind) : Moves π (fun b => b) (nextIs k) (nextIs k) := by
  intro c
  rw [nextIs, nextIs_move]
  rfl

theorem nextIf?_move (p : Kind → Bool) (c : Cursor) :
    (c.move π).nextIf? p = (c.nextIf? p).map fun (t, c') => (t.move π, c'.move π) := by
  rw [Cursor.nextIf?, Cursor.nextIf?, nextIs_move]
  split
  · obtain ⟨rest, last⟩ := c
    cases rest <;> rfl
  · rfl

theorem moves_skip (k : Kind) : Moves π (fun b => b) (skip k) (skip k) := by
  intro c
  rw [skip, nextIf?_move, skip]
  cases c.nextIf? (· == k) <;> rfl

theorem unexpected_move (expected : String) (c : Cursor) :
    (c.move π).unexpected expected = (c.unexpected expected).move π := by
  obtain ⟨rest, last⟩ := c
  cases rest with
  | nil => rfl
  | cons t rest =>
    simp only [Cursor.unexpected, Cursor.peek?, Cursor.move, List.map_cons, List.head?_cons,
      Token.move]
    split <;> rfl

theorem moves_unexpected {f : α → β} (expected : String) :
    Moves π f (unexpected expected) (unexpected expected) :=
  fun c => congrArg Except.error (unexpected_move expected c)

theorem moves_expect (expected : String) (p : Kind → Bool) :
    Moves π (.move π) (expect expected p) (expect expected p) := by
  intro c
  rw [expect, Cursor.expect, nextIf?_move, expect, Cursor.expect, unexpected_move]
  cases c.nextIf? p <;> rfl

theorem moves_kind (k : Kind) : Moves π (.move π) (kind k) (kind k) := moves_expect _ _

theorem moves_nextWith (f : Kind → Option α) :
    Moves π (Option.map fun (a, t) => (a, t.move π)) (nextWith f) (nextWith f) := by
  rintro ⟨rest, last⟩
  cases rest with
  | nil => rfl
  | cons t rest =>
    simp only [nextWith, Cursor.next?, Cursor.move, List.map_cons, Token.move]
    cases f t.kind <;> rfl

/-! ## Lists -/

section
variable {f : α → β} {item : Parse α} {item' : Parse β} (hitem : Moves π f item item')
include hitem

theorem moves_commaItems (n : Nat) :
    Moves π (List.map f) (commaItems item n) (commaItems item' n) := by
  induction n with
  | zero => exact .pure rfl
  | succ n ih =>
    rw [commaItems, commaItems]
    refine (moves_skip _).bind fun _ => .ite ?_ (.pure rfl)
    exact hitem.bind fun _ => ih.bind fun _ => .pure rfl

theorem moves_commaList (n : Nat) (close : Symbol) :
    Moves π (List.map f) (commaList n item close) (commaList n item' close) := by
  refine (moves_nextIs _).bind fun _ => .ite (.pure rfl) ?_
  exact hitem.bind fun _ => (moves_commaItems hitem n).bind fun _ => .pure rfl

theorem moves_itemsUntil (close : Symbol) (n : Nat) :
    Moves π (List.map f) (itemsUntil item close n) (itemsUntil item' close n) := by
  induction n with
  | zero => exact .pure rfl
  | succ n ih =>
    rw [itemsUntil, itemsUntil]
    refine (moves_nextIs _).bind fun _ => .ite (.pure rfl) ?_
    exact hitem.bind fun _ => ih.bind fun _ => .pure rfl

end

/-! ## Expressions -/

/-- Expressions are moved with all that they consist of. -/
abbrev moveExpr (π : Pos → Pos) : Expr → Expr := Expr.relabel (.ofPlaces π)

theorem moves_chainFrom {operand : Parse Expr} (h : Moves π (moveExpr π) operand operand)
    (tier : Tier) (n : Nat) (lhs : Expr) :
    Moves π (moveExpr π) (chainFrom tier operand n lhs)
      (chainFrom tier operand n (moveExpr π lhs)) := by
  induction n generalizing lhs with
  | zero => exact .pure rfl
  | succ n ih =>
    rw [chainFrom, chainFrom]
    refine (moves_nextWith _).bind fun o => ?_
    cases o with
    | none => exact .pure rfl
    | some o => exact h.bind fun rhs => ih (.binary o.1 o.2.pos lhs rhs)

theorem moves_chain {operand : Parse Expr} (h : Moves π (moveExpr π) operand operand) (n : Nat)
    (tier : Tier) : Moves π (moveExpr π) (chain n tier operand) (chain n tier operand) :=
  h.bind fun lhs => moves_chainFrom h tier n lhs

theorem moves_literal (t : Token) : Moves π (moveExpr π) (literal t) (literal (t.move π)) := by
  intro c
  simp only [literal, Token.move]
  cases word? t.spelling.toList <;> rfl

section
variable {expr : Parse Expr} (hexpr : Moves π (moveExpr π) expr expr)
include hexpr

theorem moves_named (n : Nat) (name : Token) :
    Moves π (moveExpr π) (named n expr name) (named n expr (name.move π)) := by
  unfold named
  refine (moves_skip _).bind fun _ => .ite ?_ ((moves_skip _).bind fun _ => .ite ?_ (.pure rfl))
  · refine (moves_commaList hexpr n .rparen).bind fun args => (moves_kind _).bind fun _ => .pure ?_
    simp [moveExpr, Expr.relabel, Expr.relabelAll_eq_map, Token.move, Relabelling.ofPlaces]
  · exact hexpr.bind fun _ => (moves_kind _).bind fun _ => .pure rfl

theorem moves_primary (n : Nat) : Moves π (moveExpr π) (primary n expr) (primary n expr) := by
  unfold primary
  refine (moves_skip _).bind fun _ => .ite ?_ ?_
  · exact hexpr.bind fun _ => (moves_kind _).bind fun _ => .pure rfl
  refine (moves_nextIs _).bind fun _ => .ite ?_ ?_
  · exact (moves_kind _).bind fun name => moves_named hexpr n name
  refine (moves_nextIs _).bind fun _ => .ite ?_ (moves_unexpected _)
  exact (moves_kind _).bind fun t => moves_literal t

theorem moves_binary (n : Nat) : Moves π (moveExpr π) (binary n expr) (binary n expr) :=
  moves_chain (moves_chain (moves_chain (moves_chain (moves_primary hexpr n) n _) n _) n _) n _

end

theorem moves_assignment {operand : Parse Expr} (h : Moves π (moveExpr π) operand operand) :
    Moves π (moveExpr π) (assignment operand) (assignment operand) := by
  refine h.bind fun target => (moves_nextWith _).bind fun o => ?_
  cases o with
  | none => exact .pure rfl
  | some o =>
    simp only [Option.map_some, moveExpr, Expr.isVariable_relabel]
    refine .ite ?_ fun _ => rfl
    exact h.bind fun _ => .pure rfl

theorem moves_expr (n : Nat) : Moves π (moveExpr π) (expr n) (expr n) := by
  induction n with
  | zero => exact moves_unexpected _
  | succ n ih => exact moves_assignment (moves_binary ih n)

/-! ## Statements and functions -/

abbrev moveVar (π : Pos → Pos) : Var → Var := Var.relabel (.ofPlaces π)

abbrev moveStmt (π : Pos → Pos) : Stmt → Stmt := Stmt.relabel (.ofPlaces π)

theorem moves_type : Moves π (fun ty => ty) type type := by
  refine (moves_nextWith _).bind fun o => ?_
  cases o with
  | none => exact moves_unexpected _
  | some o => exact .pure rfl

theorem moves_var : Moves π (moveVar π) var var :=
  moves_type.bind fun _ => (moves_kind _).bind fun _ => .pure rfl

theorem moves_block {stmt : Parse Stmt} (h : Moves π (moveStmt π) stmt stmt) (n : Nat) :
    Moves π (List.map (moveStmt π)) (block n stmt) (block n stmt) := by
  refine (moves_kind _).bind fun _ => (moves_itemsUntil h .rbrace n).bind fun _ => ?_
  exact (moves_kind _).bind fun _ => .pure rfl

theorem moves_binding (n : Nat) :
    Moves π (Prod.map (moveVar π) (moveExpr π)) (binding n) (binding n) := by
  refine moves_var.bind fun _ => (moves_kind _).bind fun _ => ?_
  exact (moves_expr n).bind fun _ => (moves_kind _).bind fun _ => .pure rfl

theorem moves_declStmt (n : Nat) : Moves π (moveStmt π) (declStmt n) (declStmt n) :=
  (moves_binding n).bind fun _ => .pure rfl

section
variable {stmt : Parse Stmt} (hstmt : Moves π (moveStmt π) stmt stmt)
include hstmt

theorem moves_ifStmt (n : Nat) : Moves π (moveStmt π) (ifStmt n stmt) (ifStmt n stmt) := by
  refine (moves_kind _).bind fun _ => (moves_expr n).bind fun _ => ?_
  refine (moves_block hstmt n).bind fun body => (moves_skip _).bind fun _ => .ite ?_ (.pure ?_)
  · refine (moves_block hstmt n).bind fun orElse => .pure ?_
    simp [moveStmt, Stmt.relabel, PrimeLang.Stmt.map, mapAll_eq_map]
  · simp [moveStmt, Stmt.relabel, PrimeLang.Stmt.map, mapAll_eq_map]

theorem moves_forStmt (n : Nat) : Moves π (moveStmt π) (forStmt n stmt) (forStmt n stmt) := by
  refine (moves_kind _).bind fun _ => (moves_binding n).bind fun _ => ?_
  refine (moves_expr n).bind fun _ => (moves_kind _).bind fun _ => (moves_expr n).bind fun _ => ?_
  refine (moves_block hstmt n).bind fun _ => .pure ?_
  simp [moveStmt, Stmt.relabel, PrimeLang.Stmt.map, mapAll_eq_map]

end

theorem moves_returnStmt (n : Nat) : Moves π (moveStmt π) (returnStmt n) (returnStmt n) := by
  unfold returnStmt
  refine (moves_kind _).bind fun _ => (moves_nextIs _).bind fun _ => .ite ?_ ?_
  · simp only [pure_bind]
    exact (moves_kind _).bind fun _ => .pure rfl
  · simp only [map_eq_pure_bind, bind_assoc, pure_bind]
    exact (moves_expr n).bind fun _ => (moves_kind _).bind fun _ => .pure rfl

theorem moves_exprStmt (n : Nat) : Moves π (moveStmt π) (exprStmt n) (exprStmt n) :=
  (moves_expr n).bind fun _ => (moves_kind _).bind fun _ => .pure rfl

theorem moves_stmt (n : Nat) : Moves π (moveStmt π) (stmt n) (stmt n) := by
  induction n with
  | zero => exact moves_unexpected _
  | succ n ih =>
    rw [stmt]
    refine moves_peek.bind fun o => ?_
    have hkind : (o.map (.move π)).map Token.kind = o.map Token.kind := by cases o <;> rfl
    rw [hkind]
    split
    · exact moves_unexpected _
    · exact moves_declStmt n
    · exact moves_ifStmt ih n
    · exact moves_forStmt ih n
    · exact moves_returnStmt n
    · exact moves_exprStmt (n + 1)

theorem moves_func (n : Nat) : Moves π (Func.relabel (.ofPlaces π)) (func n) (func n) := by
  have hbody : ∀ (x : Token) (params : List Var) (ret : Option Ty),
      Moves π (Func.relabel (.ofPlaces π))
        (block n (stmt n) >>= fun body => pure ⟨x.spelling, x.pos, params, ret, body⟩)
        (block n (stmt n) >>= fun body =>
          pure ⟨(x.move π).spelling, (x.move π).pos, params.map (moveVar π), ret, body⟩) := by
    intro x params ret
    refine (moves_block (moves_stmt n) n).bind fun body => .pure ?_
    rw [Func.relabel, PrimeLang.Func.relabel, mapAll_eq_map]
    rfl
  unfold func
  refine (moves_kind _).bind fun _ => (moves_expect _ _).bind fun x => ?_
  refine (moves_kind _).bind fun _ => ?_
  refine (moves_commaList moves_var n .rparen).bind fun params => (moves_kind _).bind fun _ => ?_
  refine (moves_skip _).bind fun _ => .ite ?_ ?_
  · simp only [map_eq_pure_bind, bind_assoc, pure_bind]
    exact moves_type.bind fun ty => hbody x params (some ty)
  · simp only [pure_bind]
    exact hbody x params none

theorem moves_funcs (n : Nat) :
    Moves π (List.map (Func.relabel (.ofPlaces π))) (funcs n) (funcs n) := by
  induction n with
  | zero => exact .pure rfl
  | succ n ih =>
    rw [funcs]
    refine (moves_nextIs _).bind fun _ => .ite ?_ (.pure rfl)
    exact (moves_func n).bind fun _ => ih.bind fun _ => .pure rfl

theorem moves_program (n : Nat) :
    Moves π (List.map (Func.relabel (.ofPlaces π))) (program n) (program n) :=
  (moves_funcs n).bind fun _ => (moves_expect _ _).bind fun _ => .pure rfl

end Parse

/-- Moved tokens are parsed like the tokens. -/
theorem parse_move (π : Pos → Pos) (c : Cursor) :
    parse (c.move π) =
      ((parse c).map (List.map (Func.relabel (.ofPlaces π)))).mapError (.move π) := by
  rw [parse, parse]
  have hlength : (c.move π).rest.length = c.rest.length := List.length_map _
  rw [hlength, Parse.moves_program _ c]
  cases Parse.program (c.rest.length + 1) c <;> rfl

end Source

/-! ## Tokens without positions -/

/-- Everything is in one place. -/
def Pos.forget : Pos → Pos := fun _ => .start

/-- Tokens of the same kinds and spellings are the same but for their places. -/
theorem Cursor.move_forget_congr {c c' : Cursor}
    (h : c.rest.map Token.content = c'.rest.map Token.content) :
    c.move Pos.forget = c'.move Pos.forget := by
  have hmove : Token.move Pos.forget =
      (fun k : Token.Kind × String => Token.mk k.1 k.2 .start) ∘ Token.content := rfl
  rw [move, move, hmove, ← List.map_map, ← List.map_map, h]
  rfl

/-- Results that are the same up to `f` and `g` are both results or both errors. -/
theorem sameResult_cases {ε ε' α β : Type} {f : ε → ε'} {g : α → β} {x y : Except ε α}
    (h : (x.map g).mapError f = (y.map g).mapError f) :
    (∃ a b, x = .ok a ∧ y = .ok b ∧ g a = g b) ∨
      ∃ e e', x = .error e ∧ y = .error e' ∧ f e = f e' := by
  cases x with
  | error e =>
    cases y with
    | error e' => exact .inr ⟨e, e', rfl, rfl, Except.error.inj h⟩
    | ok b => cases h
  | ok a =>
    cases y with
    | error e' => cases h
    | ok b => exact .inl ⟨a, b, rfl, rfl, Except.ok.inj h⟩

/-- What is made of tokens depends on their kinds and spellings alone, but for positions. -/
theorem Source.parse_congr {c c' : Cursor}
    (h : c.rest.map Token.content = c'.rest.map Token.content) :
    (∃ fs fs', parse c = .ok fs ∧ parse c' = .ok fs' ∧
      fs.map (Func.relabel (.ofPlaces Pos.forget)) =
        fs'.map (Func.relabel (.ofPlaces Pos.forget))) ∨
    ∃ e e', parse c = .error e ∧ parse c' = .error e' ∧ e.move Pos.forget = e'.move Pos.forget := by
  refine sameResult_cases (f := SyntaxError.move Pos.forget) ?_
  rw [← parse_move, ← parse_move, Cursor.move_forget_congr h]

end PrimeLang
