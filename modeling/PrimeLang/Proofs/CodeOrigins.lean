import PrimeLang.Proofs.StructuralCode
import PrimeLang.Proofs.Visibility

/-! # Where requests come from

Every request in code by structure belongs to a piece of the tree. The relations below say which
requests there can be, and with them where jumps can lead and what can be accessed or called. -/

namespace PrimeLang.Code
open Machine

/-! ## Expressions -/

/-- A request in the code of an expression that uses the names `us`. -/
inductive OfExpr (env : Env) (us : List Event) : Request → Prop
  /-- Moves words from or to the variable that a used name stands for. -/
  | access {op : Opcode} {site : Site} {name : String} (size : Int) :
    op = .load ∨ op = .store → .ident site name ∈ us →
    OfExpr env us (env.access op size (env.placeAt site))
  /-- Copies the word on top of the stack. -/
  | copy : OfExpr env us ⟨.load, integerSize, .st, -integerSize⟩
  | indirect {op : Opcode} : op = .loadIndirect ∨ op = .storeIndirect →
    OfExpr env us ⟨op, integerSize, .cb, 0⟩
  | literal (value : Int) : OfExpr env us ⟨.loadLiteral, 0, .cb, value⟩
  | routine (op : BinaryOp) : OfExpr env us (Code.routine op.routine)
  | call {site : Site} {name : String} {args : Nat} : .call site name args ∈ us →
    OfExpr env us (env.callAt site)
  | pop (size : Int) : OfExpr env us (Code.pop size)

section
variable {env : Env} {us us' : List Event} {q : Request}

theorem OfExpr.mono (hle : us ⊆ us') (h : OfExpr env us q) : OfExpr env us' q := by
  cases h with
  | access size hop huse => exact .access size hop (hle huse)
  | copy => exact .copy
  | indirect hop => exact .indirect hop
  | literal value => exact .literal value
  | routine op => exact .routine op
  | call huse => exact .call (hle huse)
  | pop size => exact .pop size

theorem ofExpr_combine (us : List Event) (use : Use) (op : BinaryOp) :
    OfExpr env us (combine use op) := by
  cases use with
  | value => exact .routine op
  | effect => exact .pop _

theorem ofExpr_discard {use : Use} {ret : Option Ty} (h : q ∈ discard use ret) :
    OfExpr env us q := by
  cases use with
  | value => cases h
  | effect =>
    cases ret with
    | none => cases h
    | some ty =>
      rw [List.mem_singleton.1 h]
      exact .pop _

end

mutual

theorem ofExpr_expr (env : Env) : ∀ (e : Tree.Expr Site) {use : Use} {q : Request},
    q ∈ expr env use e → OfExpr env e.uses q
  | .assign _ (.ident site name []) value, use, q, h => by
    rw [expr, List.mem_append, List.mem_append, List.mem_singleton] at h
    have hname : .ident site name ∈ (Tree.Expr.ident site name []).uses ++ value.uses :=
      List.mem_cons_self
    rcases h with (h | rfl) | h
    · exact (ofExpr_expr env value h).mono (List.subset_append_right _ _)
    · exact .access _ (.inr rfl) hname
    · split at h
      · rw [List.mem_singleton.1 h]
        exact .access _ (.inl rfl) hname
      · cases h
  | .assign _ (.ident site name (index :: indices)) value, use, q, h => by
    rw [expr, List.mem_append, List.mem_append, List.mem_append, List.mem_append,
      List.mem_singleton, List.mem_singleton] at h
    rcases h with (((h | h) | rfl) | h) | rfl
    · exact (ofExpr_expr env value h).mono (List.subset_append_right _ _)
    · split at h
      · rw [List.mem_singleton.1 h]
        exact .copy
      · cases h
    · exact .access _ (.inl rfl) List.mem_cons_self
    · apply (ofExpr_element env (index :: indices) h).mono
      exact fun u hu => List.mem_append_left _ (List.mem_cons_of_mem _ hu)
    · exact .indirect (.inr rfl)
  | .assign _ (.assign ..) _, _, _, h => nomatch h
  | .assign _ (.binary ..) _, _, _, h => nomatch h
  | .assign _ (.literal ..) _, _, _, h => nomatch h
  | .assign _ (.call ..) _, _, _, h => nomatch h
  | .binary _ op lhs rhs, use, q, h => by
    rw [expr, List.mem_append, List.mem_append, List.mem_singleton] at h
    rcases h with (h | h) | rfl
    · exact (ofExpr_expr env lhs h).mono (List.subset_append_left _ _)
    · exact (ofExpr_expr env rhs h).mono (List.subset_append_right _ _)
    · exact ofExpr_combine _ use op
  | .ident site name indices, .effect, q, h => by
    rw [expr] at h
    exact (ofExpr_exprs env indices h).mono (List.subset_cons_self _ _)
  | .ident site name [], .value, q, h => by
    rw [expr, List.mem_singleton] at h
    rw [h]
    exact .access _ (.inl rfl) List.mem_cons_self
  | .ident site name (index :: indices), .value, q, h => by
    rw [expr, List.mem_append, List.mem_append, List.mem_singleton, List.mem_singleton] at h
    rcases h with (rfl | h) | rfl
    · exact .access _ (.inl rfl) List.mem_cons_self
    · exact (ofExpr_element env (index :: indices) h).mono (List.subset_cons_self _ _)
    · exact .indirect (.inl rfl)
  | .literal _ value, .value, q, h => by
    rw [expr_literal, List.mem_singleton] at h
    rw [h]
    exact .literal _
  | .literal _ value, .effect, q, h => nomatch h
  | .call site name args, use, q, h => by
    rw [expr, List.mem_append, List.mem_append, List.mem_singleton] at h
    rcases h with (h | rfl) | h
    · exact (ofExpr_exprs env args h).mono (List.subset_cons_self _ _)
    · exact .call List.mem_cons_self
    · exact ofExpr_discard h

theorem ofExpr_exprs (env : Env) : ∀ (es : List (Tree.Expr Site)) {use : Use} {q : Request},
    q ∈ exprs env use es → OfExpr env (Tree.Expr.usesAll es) q
  | [], _, _, h => nomatch h
  | e :: es, use, q, h => by
    rw [exprs, List.mem_append] at h
    rcases h with h | h
    · exact (ofExpr_expr env e h).mono (List.subset_append_left _ _)
    · exact (ofExpr_exprs env es h).mono (List.subset_append_right _ _)

theorem ofExpr_element (env : Env) : ∀ (es : List (Tree.Expr Site)) {q : Request},
    q ∈ element env es → OfExpr env (Tree.Expr.usesAll es) q
  | [], _, h => nomatch h
  | e :: es, q, h => by
    rw [element, List.mem_append, List.mem_append, List.mem_singleton] at h
    rcases h with (h | rfl) | h
    · exact (ofExpr_expr env e h).mono (List.subset_append_left _ _)
    · exact .routine .add
    · exact (ofExpr_element env es h).mono (List.subset_append_right _ _)

end

/-! ## Statements -/

/-- A request in code for the expressions `es` that declares the variables `vs` and jumps only to
addresses from `lo` to `hi`. -/
inductive OfBlock (env : Env) (es : List (Tree.Expr Site)) (vs : List Tree.Var) (lo hi : Nat) :
    Request → Prop
  | expr {e : Tree.Expr Site} {q : Request} : e ∈ es → OfExpr env e.uses q →
    OfBlock env es vs lo hi q
  | declare {v : Tree.Var} : v ∈ vs → OfBlock env es vs lo hi
      (env.access .store v.ty.size ((env.layout.vars.get? v.id).getD default))
  | jumpIfFalse {target : Nat} : lo ≤ target → target ≤ hi →
    OfBlock env es vs lo hi (Code.jumpIfFalse target)
  | jump {target : Nat} : lo ≤ target → target ≤ hi → OfBlock env es vs lo hi (Code.jump target)
  | ret (n : Int) : OfBlock env es vs lo hi (Code.ret env n)

section
variable {env : Env} {es : List (Tree.Expr Site)} {vs : List Tree.Var} {lo hi : Nat} {q : Request}

theorem OfBlock.of_expr {e : Tree.Expr Site} {use : Use} (he : e ∈ es)
    (h : q ∈ Code.expr env use e) : OfBlock env es vs lo hi q := .expr he (ofExpr_expr env e h)

theorem OfBlock.of_declare {v : Tree.Var} {init : Tree.Expr Site} (hinit : init ∈ es) (hv : v ∈ vs)
    (h : q ∈ Code.declare env v init) : OfBlock env es vs lo hi q := by
  rw [Code.declare, List.mem_append, List.mem_singleton] at h
  rcases h with h | rfl
  · exact .of_expr hinit h
  · exact .declare hv

/-- What is skipped lies between the jump and its target. -/
theorem OfBlock.of_guarded {start : Nat} {c b : List Request} (hlo : lo ≤ start)
    (hhi : start + (guarded start c b).length ≤ hi) (hc : ∀ q ∈ c, OfBlock env es vs lo hi q)
    (hb : ∀ q ∈ b, OfBlock env es vs lo hi q) (h : q ∈ guarded start c b) :
    OfBlock env es vs lo hi q := by
  rw [length_guarded] at hhi
  rw [guarded, List.mem_append, List.mem_cons] at h
  rcases h with h | rfl | h
  · exact hc q h
  · exact .jumpIfFalse (by omega) (by omega)
  · exact hb q h

end

mutual

/-- The addresses in the code of a statement are the only ones that it jumps to, and the one behind
it. -/
theorem ofBlock_stmt {env : Env} {es : List (Tree.Expr Site)} {vs : List Tree.Var} {lo hi : Nat} :
    ∀ (s : Tree.Stmt) {start : Nat}, s.exprs ⊆ es → s.decls ⊆ vs → lo ≤ start →
      start + (stmt env start s).length ≤ hi → ∀ q ∈ stmt env start s, OfBlock env es vs lo hi q
  | .decl v init, start, hes, hvs, hlo, hhi, q, h => by
    rw [stmt] at h
    exact .of_declare (hes List.mem_cons_self) (hvs List.mem_cons_self) h
  | .ifThen cond body, start, hes, hvs, hlo, hhi, q, h => by
    rw [stmt] at h hhi
    refine .of_guarded hlo hhi (fun q => .of_expr (hes List.mem_cons_self)) ?_ h
    rw [length_guarded] at hhi
    exact ofBlock_block body (fun e he => hes (List.mem_cons_of_mem _ he)) hvs (by omega) (by omega)
  | .ifElse cond body orElse, start, hes, hvs, hlo, hhi, q, h => by
    obtain ⟨hcond, hes⟩ := List.cons_subset.1 hes
    obtain ⟨hbody, helse⟩ := List.append_subset.1 hes
    obtain ⟨hvbody, hvelse⟩ := List.append_subset.1 hvs
    rw [stmt] at h hhi
    rw [List.length_append] at hhi
    have hguard := hhi
    rw [length_guarded, List.length_append, List.length_singleton] at hguard
    rcases List.mem_append.1 h with h | h
    · refine .of_guarded hlo (by omega) (fun q => .of_expr hcond) (fun q h => ?_) h
      rcases List.mem_append.1 h with h | h
      · exact ofBlock_block body hbody hvbody (by omega) (by omega) q h
      · rw [List.mem_singleton.1 h]
        exact .jump (by omega) (by omega)
    · exact ofBlock_block orElse helse hvelse (by omega) (by omega) q h
  | .loop v init cond step body, start, hes, hvs, hlo, hhi, q, h => by
    obtain ⟨hinit, hes⟩ := List.cons_subset.1 hes
    obtain ⟨hcond, hes⟩ := List.cons_subset.1 hes
    obtain ⟨hstep, hbody⟩ := List.cons_subset.1 hes
    obtain ⟨hv, hvbody⟩ := List.cons_subset.1 hvs
    rw [stmt] at h hhi
    rw [List.length_append] at hhi
    have hguard := hhi
    rw [length_guarded, List.length_append, List.length_append, List.length_singleton] at hguard
    rcases List.mem_append.1 h with h | h
    · exact .of_declare hinit hv h
    · refine .of_guarded (by omega) (by omega) (fun q => .of_expr hcond) (fun q h => ?_) h
      rw [List.mem_append, List.mem_append] at h
      rcases h with (h | h) | h
      · exact ofBlock_block body hbody hvbody (by omega) (by omega) q h
      · exact .of_expr hstep h
      · rw [List.mem_singleton.1 h]
        exact .jump (by omega) (by omega)
  | .ret none, start, hes, hvs, hlo, hhi, q, h => by
    rw [stmt, List.mem_singleton] at h
    rw [h]
    exact .ret _
  | .ret (some value), start, hes, hvs, hlo, hhi, q, h => by
    rw [stmt, List.mem_append, List.mem_singleton] at h
    rcases h with h | rfl
    · exact .of_expr (hes List.mem_cons_self) h
    · exact .ret _
  | .eval e, start, hes, hvs, hlo, hhi, q, h => by
    rw [stmt] at h
    exact .of_expr (hes List.mem_cons_self) h

theorem ofBlock_block {env : Env} {es : List (Tree.Expr Site)} {vs : List Tree.Var} {lo hi : Nat} :
    ∀ (ss : List Tree.Stmt) {start : Nat}, Stmt.exprsOf ss ⊆ es → Stmt.declsOf ss ⊆ vs →
      lo ≤ start → start + (block env start ss).length ≤ hi →
      ∀ q ∈ block env start ss, OfBlock env es vs lo hi q
  | [], _, _, _, _, _, _, h => nomatch h
  | s :: ss, start, hes, hvs, hlo, hhi, q, h => by
    rw [block] at h hhi
    rw [List.length_append] at hhi
    obtain ⟨hs, hss⟩ := List.append_subset.1 hes
    obtain ⟨hvs, hvss⟩ := List.append_subset.1 hvs
    rcases List.mem_append.1 h with h | h
    · exact ofBlock_stmt s hs hvs hlo (by omega) q h
    · exact ofBlock_block ss hss hvss (by omega) (by omega) q h

end

/-! ## Functions -/

theorem exprsOf_append (ss ss' : List Tree.Stmt) :
    Stmt.exprsOf (ss ++ ss') = Stmt.exprsOf ss ++ Stmt.exprsOf ss' := by
  induction ss with
  | nil => rfl
  | cons s ss ih => rw [List.cons_append, Stmt.exprsOf, Stmt.exprsOf, ih, List.append_assoc]

theorem declsOf_append (ss ss' : List Tree.Stmt) :
    Stmt.declsOf (ss ++ ss') = Stmt.declsOf ss ++ Stmt.declsOf ss' := by
  induction ss with
  | nil => rfl
  | cons s ss ih => rw [List.cons_append, Stmt.declsOf, Stmt.declsOf, ih, List.append_assoc]

theorem block_append (env : Env) (start : Nat) (ss ss' : List Tree.Stmt) :
    block env start (ss ++ ss') =
      block env start ss ++ block env (start + (block env start ss).length) ss' := by
  induction ss generalizing start with
  | nil => rfl
  | cons s ss ih =>
    rw [List.cons_append, block, block, ih, List.append_assoc, List.length_append, Nat.add_assoc]

/-- The code of a function behind the space for its locals. -/
def bodyCode (env : Env) (start : Nat) (f : Tree.Func) : List Request :=
  block env (start + (space f.body).length) f.body ++ if !f.endsInReturn then [ret env 0] else []

theorem funcBody_eq (env : Env) (start : Nat) (f : Tree.Func) :
    funcBody env start f = space f.body ++ bodyCode env start f := List.append_assoc ..

theorem getElem?_space {ss : List Tree.Stmt} {i : Nat} {q : Request}
    (h : (space ss)[i]? = some q) :
    i = 0 ∧ 0 < Tree.storage ss ∧ q = ⟨.push, 0, .cb, Tree.storage ss⟩ := by
  rw [space] at h
  split at h
  · next hpos =>
    rw [List.getElem?_singleton] at h
    split at h
    · next hi =>
      cases h
      exact ⟨hi, hpos, rfl⟩
    · cases h
  · cases h

/-- The code of a function makes space first, if there is need for it. -/
theorem getElem?_func {cx : Context} {L : Layout} {level start i : Nat} {f : Tree.Func}
    {q : Request} (h : (func cx L level start f)[i]? = some q) :
    (i = 0 ∧ 0 < Tree.storage f.body ∧ q = ⟨.push, 0, .cb, Tree.storage f.body⟩) ∨
      q ∈ bodyCode (bodyEnv cx L level f) start f := by
  rw [func, funcBody_eq] at h
  rcases Nat.lt_or_ge i (space f.body).length with hi | hi
  · rw [List.getElem?_append_left hi] at h
    exact .inl (getElem?_space h)
  · rw [List.getElem?_append_right hi] at h
    exact .inr (List.mem_of_getElem? h)

theorem exists_body_eq_of_endsInReturn {f : Tree.Func} (h : f.endsInReturn) :
    ∃ ss value, f.body = ss ++ [.ret value] := by
  obtain ⟨s, hlast, hs⟩ := (Option.any_eq_true _ _).1 h
  obtain ⟨ss, hbody⟩ := List.getLast?_eq_some_iff.1 hlast
  cases s with
  | ret value => exact ⟨ss, value, hbody⟩
  | _ => cases hs

/-- The code of a return ends in one, after the code of its value. -/
theorem stmt_ret_spec (env : Env) (start : Nat) (value : Option (Tree.Expr Site)) :
    ∃ c n, stmt env start (.ret value) = c ++ [ret env n] ∧
      ∀ q ∈ c, ∃ e ∈ value.toList, OfExpr env e.uses q := by
  cases value with
  | none => exact ⟨[], 0, rfl, fun q h => nomatch h⟩
  | some e =>
    exact ⟨expr env .value e, integerSize, rfl,
      fun q h => ⟨e, List.mem_cons_self, ofExpr_expr env e h⟩⟩

/-- A block that ends in a return jumps no further than to its last request. -/
theorem block_ret_spec (env : Env) {lo first : Nat} (hlo : lo ≤ first) (ss : List Tree.Stmt)
    (value : Option (Tree.Expr Site)) :
    ∃ c n, block env first (ss ++ [.ret value]) = c ++ [ret env n] ∧ ∀ q ∈ c,
      OfBlock env (Stmt.exprsOf (ss ++ [.ret value])) (Stmt.declsOf (ss ++ [.ret value])) lo
        (first + c.length) q := by
  obtain ⟨c, n, hc, hvalue⟩ := stmt_ret_spec env (first + (block env first ss).length) value
  refine ⟨block env first ss ++ c, n, ?_, fun q hq => ?_⟩
  · rw [block_append, block, block, hc, List.append_nil, List.append_assoc]
  · rw [exprsOf_append, declsOf_append, List.length_append]
    rcases List.mem_append.1 hq with hq | hq
    · exact ofBlock_block ss (List.subset_append_left _ _) (List.subset_append_left _ _) hlo
        (by omega) q hq
    · obtain ⟨e, he, hq⟩ := hvalue q hq
      exact .expr (List.mem_append_right _ (List.mem_append_left _ he)) hq

/-- The last request of a function leaves it, and the others jump no further than there. -/
theorem bodyCode_spec (env : Env) (start : Nat) (f : Tree.Func) :
    ∃ c n, bodyCode env start f = c ++ [ret env n] ∧ ∀ q ∈ c,
      OfBlock env (Stmt.exprsOf f.body) (Stmt.declsOf f.body) start
        (start + (space f.body).length + c.length) q := by
  have hlo : start ≤ start + (space f.body).length := Nat.le_add_right _ _
  unfold bodyCode
  by_cases hend : f.endsInReturn
  · obtain ⟨ss, value, hbody⟩ := exists_body_eq_of_endsInReturn hend
    obtain ⟨c, n, hc, hall⟩ := block_ret_spec env hlo ss value
    rw [← hbody] at hc hall
    refine ⟨c, n, ?_, hall⟩
    rw [hc, hend]
    exact List.append_nil _
  · refine ⟨block env (start + (space f.body).length) f.body, 0, ?_, ?_⟩
    · simp only [hend]
      rfl
    · exact ofBlock_block f.body (List.Subset.refl _) (List.Subset.refl _) hlo (Nat.le_refl _)

end PrimeLang.Code
