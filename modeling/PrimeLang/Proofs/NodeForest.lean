import PrimeLang.Proofs.Storing

/-! # Nodes form a forest

Functions are the roots of what a program stores. Every other node has one parent, which is stored
after it. While a program is being stored, some nodes have no parent yet; they are open
(`Nodes.Open`). A new node becomes the parent of the open nodes that it refers to and is open itself
(`Storing.Adopts`), and when all functions are stored, nothing is open. -/

namespace PrimeLang

/-- A node that is no function, by its sort and number. -/
inductive NodeRef where
  | var (id : VarId)
  | stmt (id : StmtId)
  | expr (id : ExprId)
deriving DecidableEq, Repr

/-! ## References -/

namespace Node

/-- The nodes that an expression node refers to. -/
def Expr.refs : Expr → List NodeRef
  | assign target value => [.expr target, .expr value]
  | binary _ lhs rhs => [.expr lhs, .expr rhs]
  | ident _ indices => indices.map .expr
  | literal _ => []
  | call _ args => args.map .expr

/-- The nodes that a statement node refers to. -/
def Stmt.refs : Stmt → List NodeRef
  | decl var init => [.var var, .expr init]
  | ifThen cond body => .expr cond :: body.map .stmt
  | ifElse cond body orElse => .expr cond :: (body.map .stmt ++ orElse.map .stmt)
  | loop var init cond step body =>
    .var var :: .expr init :: .expr cond :: .expr step :: body.map .stmt
  | ret value => value.toList.map .expr
  | eval e => [.expr e]

/-- The nodes that a function node refers to. -/
def Func.refs (f : Func) : List NodeRef := f.params.map .var ++ f.body.map .stmt

end Node

namespace Nodes

/-- All references from one node to another. -/
def refs (ns : Nodes) : List NodeRef :=
  ns.funcs.toList.flatMap Node.Func.refs ++ ns.stmts.toList.flatMap Node.Stmt.refs ++
    ns.exprs.toList.flatMap fun (e, _) => e.refs

/-- There is such a node. -/
def Has (ns : Nodes) : NodeRef → Prop
  | .var id => id < ns.vars.size
  | .stmt id => id < ns.stmts.size
  | .expr id => id < ns.exprs.size

instance (ns : Nodes) : (r : NodeRef) → Decidable (ns.Has r)
  | .var id => Nat.decLt id ns.vars.size
  | .stmt id => Nat.decLt id ns.stmts.size
  | .expr id => Nat.decLt id ns.exprs.size

/-- A chain of references leads from a function to the node. -/
inductive Reached (ns : Nodes) : NodeRef → Prop
  | ofFunc {f : Node.Func} {r : NodeRef} : f ∈ ns.funcs → r ∈ f.refs → Reached ns r
  | ofStmt {id : StmtId} {s : Node.Stmt} {r : NodeRef} : Reached ns (.stmt id) →
    ns.stmts[id]? = some s → r ∈ s.refs → Reached ns r
  | ofExpr {id : ExprId} {e : Node.Expr} {pos : Pos} {r : NodeRef} : Reached ns (.expr id) →
    ns.exprs[id]? = some (e, pos) → r ∈ e.refs → Reached ns r

/-! ## Open nodes -/

/-- Every node has one parent or is once among `opened`, and parents are stored after what they
refer to. -/
structure Open (ns : Nodes) (opened : List NodeRef) : Prop where
  count : ∀ r, ns.refs.count r + opened.count r = if ns.Has r then 1 else 0
  expr_lt : ∀ {id : ExprId} {e : Node.Expr} {pos : Pos}, ns.exprs[id]? = some (e, pos) →
    ∀ child, .expr child ∈ e.refs → child < id
  stmt_lt : ∀ {id : StmtId} {s : Node.Stmt}, ns.stmts[id]? = some s →
    ∀ child, .stmt child ∈ s.refs → child < id

namespace Open
variable {ns : Nodes} {opened opened' : List NodeRef}

theorem empty : Nodes.empty.Open [] where
  count r := by cases r <;> rfl
  expr_lt h := by simp [Nodes.empty] at h
  stmt_lt h := by simp [Nodes.empty] at h

theorem perm (h : ns.Open opened) (hp : opened.Perm opened') : ns.Open opened' :=
  { h with count := fun r => hp.count_eq r ▸ h.count r }

/-- Whatever is referred to or open is there. -/
theorem has (h : ns.Open opened) {r : NodeRef} (hr : r ∈ ns.refs ++ opened) : ns.Has r := by
  have hcount := h.count r
  have hpos := List.count_pos_iff.2 hr
  rw [List.count_append] at hpos
  by_cases hn : ns.Has r
  · exact hn
  · rw [if_neg hn] at hcount
    omega

/-- A new node is opened and refers once to each of `new`, which were open. -/
theorem count_add {ns' : Nodes} {new : List NodeRef} {added : NodeRef}
    (h : ns.Open (new ++ opened)) (hrefs : ∀ r, ns'.refs.count r = ns.refs.count r + new.count r)
    (hhas : ∀ r, ns'.Has r ↔ ns.Has r ∨ r = added) (hadded : ¬ ns.Has added) (r : NodeRef) :
    ns'.refs.count r + (added :: opened).count r = if ns'.Has r then 1 else 0 := by
  have hcount := h.count r
  rw [List.count_append] at hcount
  rw [hrefs, List.count_cons]
  by_cases hr : r = added
  · subst hr
    rw [if_neg hadded] at hcount
    rw [if_pos ((hhas r).2 (.inr rfl)), if_pos (beq_self_eq_true r)]
    omega
  · have hsame : ns'.Has r ↔ ns.Has r := by simp [hhas, hr]
    simp only [hsame, beq_iff_eq, Ne.symm hr, if_false]
    omega

theorem addVar (h : ns.Open opened) (v : Var) :
    (ns.addVar v).2.Open (.var ns.vars.size :: opened) where
  count := by
    have hnone : ns.Open ([] ++ opened) := h
    refine hnone.count_add (fun r => rfl) (fun r => ?_) (Nat.lt_irrefl _)
    cases r <;> simp only [Nodes.addVar, Has, Array.size_push, Nat.lt_succ_iff_lt_or_eq,
      NodeRef.var.injEq, reduceCtorEq, or_false]
  expr_lt := h.expr_lt
  stmt_lt := h.stmt_lt

theorem addExpr {e : Node.Expr} (h : ns.Open (e.refs ++ opened)) (pos : Pos) :
    (ns.addExpr e pos).2.Open (.expr ns.exprs.size :: opened) where
  count := by
    refine h.count_add (fun r => ?_) (fun r => ?_) (Nat.lt_irrefl _)
    · simp [Nodes.addExpr, refs, Nat.add_assoc]
    · cases r <;> simp only [Nodes.addExpr, Has, Array.size_push, Nat.lt_succ_iff_lt_or_eq,
        NodeRef.expr.injEq, reduceCtorEq, or_false]
  expr_lt {id e' pos'} hid child hchild := by
    rw [Nodes.addExpr, Array.getElem?_push] at hid
    split at hid
    · next heq =>
      cases hid
      exact heq ▸ h.has (List.mem_append_right _ (List.mem_append_left _ hchild))
    · exact h.expr_lt hid child hchild
  stmt_lt := h.stmt_lt

theorem addStmt {s : Node.Stmt} (h : ns.Open (s.refs ++ opened)) :
    (ns.addStmt s).2.Open (.stmt ns.stmts.size :: opened) where
  count := by
    refine h.count_add (fun r => ?_) (fun r => ?_) (Nat.lt_irrefl _)
    · simp only [Nodes.addStmt, refs, Array.toList_push, List.flatMap_append,
        List.flatMap_singleton, List.count_append]
      omega
    · cases r <;> simp only [Nodes.addStmt, Has, Array.size_push, Nat.lt_succ_iff_lt_or_eq,
        NodeRef.stmt.injEq, reduceCtorEq, or_false]
  expr_lt := h.expr_lt
  stmt_lt {id s'} hid child hchild := by
    rw [Nodes.addStmt, Array.getElem?_push] at hid
    split at hid
    · next heq =>
      cases hid
      exact heq ▸ h.has (List.mem_append_right _ (List.mem_append_left _ hchild))
    · exact h.stmt_lt hid child hchild

theorem addFunc {f : Node.Func} (h : ns.Open (f.refs ++ opened)) :
    (ns.addFunc f).2.Open opened where
  count r := by
    have hhas : (ns.addFunc f).2.Has r ↔ ns.Has r := by cases r <;> rfl
    simp only [hhas, ← h.count r]
    simp only [Nodes.addFunc, refs, Array.toList_push, List.flatMap_append,
      List.flatMap_singleton, List.count_append]
    omega
  expr_lt := h.expr_lt
  stmt_lt := h.stmt_lt

end Open
end Nodes

/-! ## Storing -/

namespace Storing
variable {α β : Type}

/-- `x` becomes the parent of the open nodes `before` and leaves the nodes `after` open. Whatever
else is open stays so. -/
def Adopts (before : List NodeRef) (x : Storing α) (after : α → List NodeRef) : Prop :=
  ∀ ⦃ns opened⦄, ns.Open (before ++ opened) → (x.run ns).2.Open (after (x.run ns).1 ++ opened)

section
variable {before : List NodeRef} {f : α → List NodeRef} {g : β → List NodeRef}

theorem Adopts.pure {a : α} (h : before = f a) : Adopts before (pure a) f := by
  subst h
  exact fun _ _ hns => hns

theorem Adopts.of_perm {before' : List NodeRef} {x : Storing α} (hp : before.Perm before')
    (h : Adopts before' x f) : Adopts before x f :=
  fun _ opened hns => h (hns.perm (hp.append_right opened))

/-- What is open already stays open while `x` opens more. -/
theorem Adopts.bind {x : Storing α} {k : α → Storing β} (hx : Adopts [] x f)
    (hk : ∀ a, Adopts (f a ++ before) (k a) g) : Adopts before (x >>= k) g := by
  intro ns opened hns
  have h : (x.run ns).2.Open (f (x.run ns).1 ++ (before ++ opened)) := hx hns
  rw [← List.append_assoc] at h
  exact hk _ h

theorem adopts_addExpr (rest : List NodeRef) {e : Node.Expr} {pos : Pos} {k : ExprId → Storing β}
    (hrefs : before.Perm (e.refs ++ rest)) (hk : ∀ id, Adopts (.expr id :: rest) (k id) g) :
    Adopts before (modifyGet (Nodes.addExpr e pos) >>= k) g := by
  intro ns opened hns
  have h := hns.perm (hrefs.append_right opened)
  rw [List.append_assoc] at h
  exact hk _ (h.addExpr pos)

theorem adopts_addStmt {s : Node.Stmt} {k : StmtId → Storing β} (hrefs : before.Perm s.refs)
    (hk : ∀ id, Adopts [.stmt id] (k id) g) :
    Adopts before (modifyGet (Nodes.addStmt s) >>= k) g :=
  fun _ opened hns => hk _ (hns.perm (hrefs.append_right opened)).addStmt

theorem adopts_addFunc {d : Node.Func} {k : FuncId → Storing β} (hrefs : before.Perm d.refs)
    (hk : ∀ id, Adopts [] (k id) g) : Adopts before (modifyGet (Nodes.addFunc d) >>= k) g :=
  fun _ opened hns => hk _ (hns.perm (hrefs.append_right opened)).addFunc

end

end Storing

open Storing

namespace Tree.Expr

mutual

theorem adopts_store : ∀ e : Expr Pos, Adopts [] e.store fun t => [.expr t.label.id]
  | assign pos target value | binary pos op target value => by
    rw [store]
    refine (adopts_store target).bind fun l => (adopts_store value).bind fun r => ?_
    exact adopts_addExpr [] (.swap ..) fun id => .pure rfl
  | ident pos name es | call pos name es => by
    rw [store]
    refine (adopts_storeAll es).bind fun ts => ?_
    refine adopts_addExpr [] ?_ fun id => .pure rfl
    simp [Node.Expr.refs, Function.comp_def]
  | literal pos value => by
    rw [store]
    exact adopts_addExpr [] (.refl _) fun id => .pure rfl

theorem adopts_storeAll : ∀ es : List (Expr Pos),
    Adopts [] (storeAll es) fun ts => ts.map fun t => .expr t.label.id
  | [] => .pure rfl
  | e :: es => by
    rw [storeAll]
    exact (adopts_store e).bind fun t => (adopts_storeAll es).bind fun ts =>
      .of_perm (List.perm_append_comm ..) (.pure rfl)

end

end Tree.Expr

namespace Source

namespace Expr

mutual

theorem adopts_store : ∀ e : Expr, Adopts [] e.store fun t => [.expr t.label.id]
  | assign none pos target value | binary op pos target value => by
    rw [store]
    refine (adopts_store target).bind fun l => (adopts_store value).bind fun r => ?_
    exact adopts_addExpr [] (.swap ..) fun id => .pure rfl
  | assign (some op) pos target value => by
    rw [store]
    refine (adopts_store target).bind fun l => (adopts_store value).bind fun r => ?_
    refine target.tree.adopts_store.bind fun copy => ?_
    -- the copy and the value go to the operator, which goes to the assignment with the target
    refine adopts_addExpr [.expr l.label.id] (.refl _) fun result => ?_
    exact adopts_addExpr [] (.swap ..) fun id => .pure rfl
  | var name pos | literal value pos => by
    rw [store]
    exact adopts_addExpr [] (.refl _) fun id => .pure rfl
  | element name pos index => by
    rw [store]
    refine (adopts_store index).bind fun i => ?_
    exact adopts_addExpr [] (.refl _) fun id => .pure rfl
  | call name pos args => by
    rw [store]
    refine (adopts_storeAll args).bind fun ts => ?_
    refine adopts_addExpr [] ?_ fun id => .pure rfl
    simp [Node.Expr.refs, Function.comp_def]

theorem adopts_storeAll : ∀ es : List Expr,
    Adopts [] (storeAll es) fun ts => ts.map fun t => .expr t.label.id
  | [] => .pure rfl
  | e :: es => by
    rw [storeAll]
    exact (adopts_store e).bind fun t => (adopts_storeAll es).bind fun ts =>
      .of_perm (List.perm_append_comm ..) (.pure rfl)

end

end Expr

theorem adopts_storeVar (v : Var) : Adopts [] (storeVar v) fun w => [.var w.id] :=
  fun _ _ hns => hns.addVar v

theorem adopts_storeVars (vs : List Var) :
    Adopts [] (vs.mapM storeVar) fun ws => ws.map fun w => .var w.id := by
  induction vs with
  | nil => exact .pure rfl
  | cons v vs ih =>
    rw [List.mapM_cons]
    exact (adopts_storeVar v).bind fun w => ih.bind fun ws =>
      .of_perm (List.perm_append_comm ..) (.pure rfl)

mutual

theorem adopts_storeStmt : ∀ s : Stmt, Adopts [] (storeStmt s) fun (id, _) => [.stmt id]
  | .decl v init => by
    rw [storeStmt]
    refine (adopts_storeVar v).bind fun w => init.adopts_store.bind fun i => ?_
    exact adopts_addStmt (.swap ..) fun id => .pure rfl
  | .ifThen cond body => by
    rw [storeStmt]
    refine cond.adopts_store.bind fun c => (adopts_storeBlock body).bind fun (ids, _) => ?_
    exact adopts_addStmt (List.perm_append_comm ..) fun id => .pure rfl
  | .ifElse cond body orElse => by
    rw [storeStmt]
    refine cond.adopts_store.bind fun c => (adopts_storeBlock body).bind fun (ids, _) => ?_
    refine (adopts_storeBlock orElse).bind fun (elseIds, _) => ?_
    refine adopts_addStmt (List.perm_iff_count.2 fun r => ?_) fun id => .pure rfl
    simp only [Node.Stmt.refs, List.count_append, List.count_cons, List.count_nil]
    omega
  | .loop v init cond step body => by
    rw [storeStmt]
    refine (adopts_storeVar v).bind fun w => init.adopts_store.bind fun i => ?_
    refine cond.adopts_store.bind fun c => step.adopts_store.bind fun s => ?_
    refine (adopts_storeBlock body).bind fun (ids, _) => ?_
    refine adopts_addStmt (List.perm_iff_count.2 fun r => ?_) fun id => .pure rfl
    simp only [Node.Stmt.refs, List.count_append, List.count_cons, List.count_nil]
    omega
  | .ret none => by
    rw [storeStmt]
    exact adopts_addStmt (.refl _) fun id => .pure rfl
  | .ret (some value) => by
    rw [storeStmt]
    refine value.adopts_store.bind fun t => ?_
    exact adopts_addStmt (.refl _) fun id => .pure rfl
  | .eval e => by
    rw [storeStmt]
    refine e.adopts_store.bind fun t => ?_
    exact adopts_addStmt (.refl _) fun id => .pure rfl

theorem adopts_storeBlock : ∀ ss : List Stmt,
    Adopts [] (storeBlock ss) fun (ids, _) => ids.map .stmt
  | [] => .pure rfl
  | s :: ss => by
    rw [storeBlock]
    exact (adopts_storeStmt s).bind fun (id, _) => (adopts_storeBlock ss).bind fun (ids, _) =>
      .of_perm (List.perm_append_comm ..) (.pure rfl)

end

theorem adopts_storeFunc (f : Func) : Adopts [] (storeFunc f) fun _ => [] := by
  rw [storeFunc]
  refine (adopts_storeVars f.params).bind fun ws => ?_
  refine (adopts_storeBlock f.body).bind fun (ids, _) => adopts_addFunc ?_ fun id => .pure rfl
  rw [List.append_nil, Node.Func.refs, List.map_map]
  exact List.perm_append_comm

theorem adopts_storeFuncs (fs : List Func) : Adopts [] (fs.mapM storeFunc) fun _ => [] := by
  induction fs with
  | nil => exact .pure rfl
  | cons f fs ih =>
    rw [List.mapM_cons]
    exact (adopts_storeFunc f).bind fun t => ih.bind fun ts => .pure rfl

end Source

/-! ## Reachable nodes -/

theorem Node.Expr.eq_expr_of_mem_refs {e : Node.Expr} {r : NodeRef} (h : r ∈ e.refs) :
    ∃ id, r = .expr id := by
  cases e <;> simp only [refs, List.mem_cons, List.mem_map, List.not_mem_nil, or_false] at h
  case assign | binary => exact h.elim (⟨_, ·⟩) (⟨_, ·⟩)
  case ident | call =>
    obtain ⟨id, -, rfl⟩ := h
    exact ⟨id, rfl⟩

namespace Nodes.Open
variable {ns : Nodes} (h : ns.Open [])
include h

/-- Some function, statement or expression refers to a node. -/
theorem exists_parent {r : NodeRef} (hr : ns.Has r) :
    (∃ f ∈ ns.funcs, r ∈ f.refs) ∨
      (∃ (id : StmtId) (s : Node.Stmt), ns.stmts[id]? = some s ∧ r ∈ s.refs) ∨
      ∃ (id : ExprId) (e : Node.Expr) (pos : Pos), ns.exprs[id]? = some (e, pos) ∧ r ∈ e.refs := by
  have hcount := h.count r
  rw [if_pos hr, List.count_nil, Nat.add_zero] at hcount
  have hmem : r ∈ ns.refs := List.count_pos_iff.1 (by omega)
  simp only [refs, List.mem_append, List.mem_flatMap, Array.mem_toList_iff] at hmem
  obtain (⟨f, hf, hr⟩ | ⟨s, hs, hr⟩) | ⟨⟨e, pos⟩, he, hr⟩ := hmem
  · exact .inl ⟨f, hf, hr⟩
  · obtain ⟨id, hid⟩ := Array.mem_iff_getElem?.1 hs
    exact .inr (.inl ⟨id, s, hid, hr⟩)
  · obtain ⟨id, hid⟩ := Array.mem_iff_getElem?.1 he
    exact .inr (.inr ⟨id, e, pos, hid, hr⟩)

/-- Parents have greater numbers, so the way up from a statement ends at a function. -/
theorem reached_stmt {id : StmtId} (hid : id < ns.stmts.size) : ns.Reached (.stmt id) := by
  have hhas : ns.Has (.stmt id) := hid
  obtain ⟨f, hf, hr⟩ | ⟨parent, s, hs, hr⟩ | ⟨_, e, _, -, hr⟩ := h.exists_parent hhas
  · exact .ofFunc hf hr
  · have hlt := h.stmt_lt hs id hr
    exact .ofStmt (reached_stmt (Array.getElem?_eq_some_iff.1 hs).1) hs hr
  · obtain ⟨_, heq⟩ := Node.Expr.eq_expr_of_mem_refs hr
    cases heq
termination_by ns.stmts.size - id
decreasing_by exact Nat.sub_lt_sub_left hid hlt

theorem reached_of_stmt {id : StmtId} {s : Node.Stmt} (hs : ns.stmts[id]? = some s) {r : NodeRef}
    (hr : r ∈ s.refs) : ns.Reached r :=
  .ofStmt (h.reached_stmt (Array.getElem?_eq_some_iff.1 hs).1) hs hr

theorem reached_expr {id : ExprId} (hid : id < ns.exprs.size) : ns.Reached (.expr id) := by
  have hhas : ns.Has (.expr id) := hid
  obtain ⟨f, hf, hr⟩ | ⟨_, s, hs, hr⟩ | ⟨parent, e, pos, he, hr⟩ := h.exists_parent hhas
  · exact .ofFunc hf hr
  · exact h.reached_of_stmt hs hr
  · have hlt := h.expr_lt he id hr
    exact .ofExpr (reached_expr (Array.getElem?_eq_some_iff.1 he).1) he hr
termination_by ns.exprs.size - id
decreasing_by exact Nat.sub_lt_sub_left hid hlt

theorem reached {r : NodeRef} (hr : ns.Has r) : ns.Reached r := by
  obtain ⟨f, hf, hr⟩ | ⟨_, s, hs, hr⟩ | ⟨_, e, pos, he, hr⟩ := h.exists_parent hr
  · exact .ofFunc hf hr
  · exact h.reached_of_stmt hs hr
  · exact .ofExpr (h.reached_expr (Array.getElem?_eq_some_iff.1 he).1) he hr

end Nodes.Open

namespace Program

theorem open_of_parse {text : String} {p : Program} (h : parse text = .ok p) : p.nodes.Open [] := by
  obtain ⟨fs, -, rfl⟩ := ofTokens_eq_ok.1 h
  exact Source.adopts_storeFuncs fs Nodes.Open.empty

/-- The nodes of a program that was parsed are a forest whose roots are the functions. An expression
has one position. Each variable, statement and expression is referred to once, nothing else is
referred to, and a chain of references leads to each of them from a function. Expressions have
smaller numbers than the expressions that they are part of, and so have statements. -/
theorem nodes_form_forest {text : String} {p : Program} (h : parse text = .ok p) :
    (p.nodes.exprs.map Prod.fst).size = (p.nodes.exprs.map Prod.snd).size ∧
    (∀ r, p.nodes.refs.count r = if p.nodes.Has r then 1 else 0) ∧
    (∀ r, p.nodes.Has r → p.nodes.Reached r) ∧
    (∀ (id : ExprId) (e : Node.Expr) (pos : Pos), p.nodes.exprs[id]? = some (e, pos) →
      ∀ child, .expr child ∈ e.refs → child < id) ∧
    ∀ (id : StmtId) (s : Node.Stmt), p.nodes.stmts[id]? = some s →
      ∀ child, .stmt child ∈ s.refs → child < id := by
  have hopen := open_of_parse h
  refine ⟨?_, hopen.count, fun _ => hopen.reached, fun _ _ _ => hopen.expr_lt,
    fun _ _ => hopen.stmt_lt⟩
  rw [Array.size_map, Array.size_map]

/-- A loop with a compound assignment to an element whose index is a call. -/
def copyingText : String :=
  "func f(array a) \x7b for int i := 0; i; i += 1 \x7b a[f((a))] *= (i); \x7d \x7d"

theorem nodes_form_forest_copying :
    ∃ p, parse copyingText = .ok p ∧ p.nodes.exprs.size = 16 ∧
      ∀ id < 16, p.nodes.refs.count (.expr id) = 1 ∧ p.nodes.Reached (.expr id) := by
  have heval : (parse copyingText).toOption.any (·.nodes.exprs.size == 16) = true := by
    decide +kernel
  cases hp : parse copyingText with
  | error e =>
    rw [hp] at heval
    cases heval
  | ok p =>
    rw [hp] at heval
    have hsize : p.nodes.exprs.size = 16 := eq_of_beq heval
    obtain ⟨-, hcount, hreached, -⟩ := nodes_form_forest hp
    refine ⟨p, rfl, hsize, fun id hid => ?_⟩
    have hhas : p.nodes.Has (.expr id) := Nat.lt_of_lt_of_eq hid hsize.symm
    exact ⟨by rw [hcount, if_pos hhas], hreached _ hhas⟩

end Program
end PrimeLang
