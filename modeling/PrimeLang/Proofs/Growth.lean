import PrimeLang.Program.Basic

/-! # Growing node tables

Storing only adds nodes. One table is at most another if every node of the first is a node of the
second under the same number. What was read off the smaller table is read off the larger one as
well: `Nodes.expr?_mono`, `Nodes.stmt?_mono`, `Nodes.func?_mono`. -/

namespace PrimeLang

/-! ## Growing tables -/

namespace Nodes

/-- Every node of `ns` is a node of `ns'` under the same number. -/
structure Le (ns ns' : Nodes) : Prop where
  funcs : ns.funcs.toList <+: ns'.funcs.toList
  vars : ns.vars.toList <+: ns'.vars.toList
  stmts : ns.stmts.toList <+: ns'.stmts.toList
  exprs : ns.exprs.toList <+: ns'.exprs.toList

instance : LE Nodes := ⟨Le⟩

variable {ns ns' ns'' : Nodes}

theorem le_refl (ns : Nodes) : ns ≤ ns :=
  ⟨List.prefix_rfl, List.prefix_rfl, List.prefix_rfl, List.prefix_rfl⟩

theorem le_trans (h : ns ≤ ns') (h' : ns' ≤ ns'') : ns ≤ ns'' :=
  ⟨h.funcs.trans h'.funcs, h.vars.trans h'.vars, h.stmts.trans h'.stmts, h.exprs.trans h'.exprs⟩

@[simp] theorem size_exprs_addExpr (e : Node.Expr) (pos : Pos) (ns : Nodes) :
    (ns.addExpr e pos).2.exprs.size = ns.exprs.size + 1 := Array.size_push ..

theorem le_addFunc (f : Node.Func) (ns : Nodes) : ns ≤ (ns.addFunc f).2 :=
  { le_refl ns with funcs := by simp [addFunc] }

theorem le_addVar (v : Var) (ns : Nodes) : ns ≤ (ns.addVar v).2 :=
  { le_refl ns with vars := by simp [addVar] }

theorem le_addStmt (s : Node.Stmt) (ns : Nodes) : ns ≤ (ns.addStmt s).2 :=
  { le_refl ns with stmts := by simp [addStmt] }

theorem le_addExpr (e : Node.Expr) (pos : Pos) (ns : Nodes) : ns ≤ (ns.addExpr e pos).2 :=
  { le_refl ns with exprs := by simp [addExpr] }

private theorem getElem?_of_toList_prefix {α : Type} {as bs : Array α} {i : Nat} {a : α}
    (h : as.toList <+: bs.toList) (ha : as[i]? = some a) : bs[i]? = some a := by
  obtain ⟨rest, hrest⟩ := h
  rw [← Array.getElem?_toList] at ha ⊢
  rw [← hrest, List.getElem?_append_left (List.getElem?_eq_some_iff.1 ha).1, ha]

namespace Le

theorem getElem?_funcs (h : ns ≤ ns') {i : Nat} {f : Node.Func} (hf : ns.funcs[i]? = some f) :
    ns'.funcs[i]? = some f := getElem?_of_toList_prefix h.funcs hf

theorem getElem?_vars (h : ns ≤ ns') {i : Nat} {v : Var} (hv : ns.vars[i]? = some v) :
    ns'.vars[i]? = some v := getElem?_of_toList_prefix h.vars hv

theorem getElem?_stmts (h : ns ≤ ns') {i : Nat} {s : Node.Stmt} (hs : ns.stmts[i]? = some s) :
    ns'.stmts[i]? = some s := getElem?_of_toList_prefix h.stmts hs

theorem getElem?_exprs (h : ns ≤ ns') {i : Nat} {e : Node.Expr × Pos}
    (he : ns.exprs[i]? = some e) : ns'.exprs[i]? = some e := getElem?_of_toList_prefix h.exprs he

theorem size_funcs (h : ns ≤ ns') : ns.funcs.size ≤ ns'.funcs.size := by
  simpa using h.funcs.length_le

theorem size_vars (h : ns ≤ ns') : ns.vars.size ≤ ns'.vars.size := by
  simpa using h.vars.length_le

theorem size_stmts (h : ns ≤ ns') : ns.stmts.size ≤ ns'.stmts.size := by
  simpa using h.stmts.length_le

theorem size_exprs (h : ns ≤ ns') : ns.exprs.size ≤ ns'.exprs.size := by
  simpa using h.exprs.length_le

end Le

/-! ## What was read off stays -/

theorem mapM_some_mono {α β : Type} {f g : α → Option β} {as : List α} {bs : List β}
    (hfg : ∀ a ∈ as, ∀ b, f a = some b → g a = some b) (h : as.mapM f = some bs) :
    as.mapM g = some bs := by
  induction as generalizing bs with
  | nil => simpa using h
  | cons a as ih =>
    simp only [List.mapM_cons, Option.bind_eq_bind, Option.bind_eq_some_iff, Option.pure_def,
      Option.some.injEq] at h ⊢
    obtain ⟨b, hb, bs', hbs, rfl⟩ := h
    exact ⟨b, hfg a List.mem_cons_self b hb, bs',
      ih (fun a' ha => hfg a' (List.mem_cons_of_mem _ ha)) hbs, rfl⟩

theorem exprWithin?_mono (h : ns ≤ ns') {n m : Nat} (hnm : n ≤ m) {id : ExprId}
    {t : Tree.Expr Site} (ht : ns.exprWithin? n id = some t) : ns'.exprWithin? m id = some t := by
  induction n generalizing m id t with
  | zero => simp [exprWithin?] at ht
  | succ n ih =>
    obtain ⟨m, rfl⟩ : ∃ k, m = k + 1 := ⟨m - 1, by omega⟩
    have ih' : ∀ id t, ns.exprWithin? n id = some t → ns'.exprWithin? m id = some t :=
      fun id t => ih (by omega)
    simp only [exprWithin?, Option.bind_eq_bind, Option.bind_eq_some_iff] at ht ⊢
    obtain ⟨⟨e, pos⟩, he, ht⟩ := ht
    refine ⟨(e, pos), h.getElem?_exprs he, ?_⟩
    cases e with
    | assign target value | binary op target value =>
      simp only [Option.bind_eq_some_iff] at ht ⊢
      obtain ⟨a, ha, b, hb, ht⟩ := ht
      exact ⟨a, ih' _ _ ha, b, ih' _ _ hb, ht⟩
    | ident name ids | call name ids =>
      simp only [Option.bind_eq_some_iff] at ht ⊢
      obtain ⟨as, has, ht⟩ := ht
      exact ⟨as, mapM_some_mono (fun a _ => ih' a) has, ht⟩
    | literal value => exact ht

theorem expr?_mono (h : ns ≤ ns') {id : ExprId} {t : Tree.Expr Site}
    (ht : ns.expr? id = some t) : ns'.expr? id = some t :=
  exprWithin?_mono h h.size_exprs ht

theorem var?_mono (h : ns ≤ ns') {id : VarId} {v : Tree.Var} (hv : ns.var? id = some v) :
    ns'.var? id = some v := by
  obtain ⟨w, hw, rfl⟩ := Option.map_eq_some_iff.1 hv
  rw [var?, h.getElem?_vars hw, Option.map_some]

theorem stmtWithin?_mono (h : ns ≤ ns') {n m : Nat} (hnm : n ≤ m) {id : StmtId}
    {t : Tree.Stmt} (ht : ns.stmtWithin? n id = some t) : ns'.stmtWithin? m id = some t := by
  induction n generalizing m id t with
  | zero => simp [stmtWithin?] at ht
  | succ n ih =>
    obtain ⟨m, rfl⟩ : ∃ k, m = k + 1 := ⟨m - 1, by omega⟩
    have ih' : ∀ {ids : List StmtId} {ss}, ids.mapM (ns.stmtWithin? n) = some ss →
        ids.mapM (ns'.stmtWithin? m) = some ss :=
      mapM_some_mono fun _ _ _ => ih (by omega)
    simp only [stmtWithin?, Option.bind_eq_bind, Option.bind_eq_some_iff] at ht ⊢
    obtain ⟨s, hs, ht⟩ := ht
    refine ⟨s, h.getElem?_stmts hs, ?_⟩
    cases s with
    | decl var init =>
      simp only [Option.bind_eq_some_iff] at ht ⊢
      obtain ⟨v, hv, e, he, ht⟩ := ht
      exact ⟨v, var?_mono h hv, e, expr?_mono h he, ht⟩
    | ifThen cond body =>
      simp only [Option.bind_eq_some_iff] at ht ⊢
      obtain ⟨e, he, ss, hss, ht⟩ := ht
      exact ⟨e, expr?_mono h he, ss, ih' hss, ht⟩
    | ifElse cond body orElse =>
      simp only [Option.bind_eq_some_iff] at ht ⊢
      obtain ⟨e, he, ss, hss, ss', hss', ht⟩ := ht
      exact ⟨e, expr?_mono h he, ss, ih' hss, ss', ih' hss', ht⟩
    | loop var init cond step body =>
      simp only [Option.bind_eq_some_iff] at ht ⊢
      obtain ⟨v, hv, e, he, e', he', e'', he'', ss, hss, ht⟩ := ht
      exact ⟨v, var?_mono h hv, e, expr?_mono h he, e', expr?_mono h he', e'',
        expr?_mono h he'', ss, ih' hss, ht⟩
    | ret value =>
      cases value with
      | none => exact ht
      | some value =>
        simp only [Option.bind_eq_some_iff] at ht ⊢
        obtain ⟨e, he, ht⟩ := ht
        exact ⟨e, expr?_mono h he, ht⟩
    | eval e =>
      simp only [Option.bind_eq_some_iff] at ht ⊢
      obtain ⟨e, he, ht⟩ := ht
      exact ⟨e, expr?_mono h he, ht⟩

theorem stmt?_mono (h : ns ≤ ns') {id : StmtId} {t : Tree.Stmt} (ht : ns.stmt? id = some t) :
    ns'.stmt? id = some t := stmtWithin?_mono h h.size_stmts ht

theorem block?_mono (h : ns ≤ ns') {ids : List StmtId} {ss : List Tree.Stmt}
    (hss : ns.block? ids = some ss) : ns'.block? ids = some ss :=
  mapM_some_mono (fun _ _ _ => stmt?_mono h) hss

/-- The tree of a function is read off its node. -/
theorem exists_of_func? {id : FuncId} {f : Tree.Func} (h : ns.func? id = some f) :
    ∃ node, ns.funcs[id]? = some node ∧ node.params.mapM ns.var? = some f.params ∧
      ns.block? node.body = some f.body ∧ f.name = node.name ∧ f.ret = node.ret ∧ f.id = id := by
  rw [func?] at h
  obtain ⟨node, hnode, h⟩ := Option.bind_eq_some_iff.1 h
  obtain ⟨params, hparams, h⟩ := Option.bind_eq_some_iff.1 h
  obtain ⟨body, hbody, h⟩ := Option.bind_eq_some_iff.1 h
  cases h
  exact ⟨node, hnode, hparams, hbody, rfl, rfl, rfl⟩

theorem func?_mono (h : ns ≤ ns') {id : FuncId} {f : Tree.Func}
    (hf : ns.func? id = some f) : ns'.func? id = some f := by
  simp only [func?, Option.bind_eq_bind, Option.bind_eq_some_iff] at hf ⊢
  obtain ⟨node, hnode, params, hparams, body, hbody, hf⟩ := hf
  exact ⟨node, h.getElem?_funcs hnode, params, mapM_some_mono (fun _ _ _ => var?_mono h) hparams,
    body, block?_mono h hbody, hf⟩

end Nodes
end PrimeLang
