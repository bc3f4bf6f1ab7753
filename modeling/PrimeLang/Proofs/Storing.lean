import PrimeLang.Proofs.Growth

/-! # Trees and the nodes that hold them

`Stored ns ns' ts vs fs` says what storing the expressions `ts`, the variables `vs` and the
functions `fs` does to the tables: each can be read off under its number, and the new numbers are
used exactly once. For a whole program this is `Program.WellFormed`, which
`Program.ofTokens_wellFormed` gives for all tokens that are accepted. -/

namespace PrimeLang

/-! ## The parts of a tree -/

namespace Tree.Expr
variable {α β : Type}

mutual

/-- The labels of all nodes of an expression, parents before their children. -/
def labels : Expr α → List α
  | assign a target value => a :: (target.labels ++ value.labels)
  | binary a _ lhs rhs => a :: (lhs.labels ++ rhs.labels)
  | ident a _ indices => a :: labelsAll indices
  | literal a _ => [a]
  | call a _ args => a :: labelsAll args

/-- The labels of all nodes of expressions. -/
def labelsAll : List (Expr α) → List α
  | [] => []
  | e :: es => e.labels ++ labelsAll es

end

theorem head?_labels (e : Expr α) : e.labels.head? = some e.label := by
  cases e <;> rfl

theorem labelsAll_eq_flatMap (es : List (Expr α)) : labelsAll es = es.flatMap labels := by
  induction es with
  | nil => rfl
  | cons e es ih => rw [labelsAll, ih, List.flatMap_cons]

mutual

theorem labels_map (f : α → β) : ∀ e : Expr α, (e.map f).labels = e.labels.map f
  | assign a target value => by simp [map, labels, labels_map f target, labels_map f value]
  | binary a op lhs rhs => by simp [map, labels, labels_map f lhs, labels_map f rhs]
  | ident a name indices => by simp [map, labels, labelsAll_mapAll f indices]
  | literal a value => by simp [map, labels]
  | call a name args => by simp [map, labels, labelsAll_mapAll f args]

theorem labelsAll_mapAll (f : α → β) : ∀ es : List (Expr α),
    labelsAll (mapAll f es) = (labelsAll es).map f
  | [] => by simp [mapAll, labelsAll]
  | e :: es => by simp [mapAll, labelsAll, labels_map f e, labelsAll_mapAll f es]

end

theorem length_labels_of_map {f : α → β} {e e' : Expr α} (h : e.map f = e'.map f) :
    e.labels.length = e'.labels.length := by
  simpa [labels_map] using congrArg (fun e => e.labels.length) h

end Tree.Expr

namespace Stmt
variable {ε β : Type}

mutual

/-- The expressions of a statement, outermost and leftmost first. -/
def exprs : Stmt ε β → List ε
  | decl _ init => [init]
  | ifThen cond body => cond :: exprsOf body
  | ifElse cond body orElse => cond :: (exprsOf body ++ exprsOf orElse)
  | loop _ init cond step body => init :: cond :: step :: exprsOf body
  | ret value => value.toList
  | eval e => [e]

/-- The expressions of a list of statements, in order. -/
def exprsOf : List (Stmt ε β) → List ε
  | [] => []
  | s :: ss => s.exprs ++ exprsOf ss

end

mutual

/-- The same statement over other expressions and variables. -/
def map {ε' β' : Type} (f : ε → ε') (g : β → β') : Stmt ε β → Stmt ε' β'
  | decl v init => decl (g v) (f init)
  | ifThen cond body => ifThen (f cond) (mapAll f g body)
  | ifElse cond body orElse => ifElse (f cond) (mapAll f g body) (mapAll f g orElse)
  | loop v init cond step body => loop (g v) (f init) (f cond) (f step) (mapAll f g body)
  | ret value => ret (value.map f)
  | eval e => eval (f e)

/-- The same statements over other expressions and variables. -/
def mapAll {ε' β' : Type} (f : ε → ε') (g : β → β') : List (Stmt ε β) → List (Stmt ε' β')
  | [] => []
  | s :: ss => s.map f g :: mapAll f g ss

end

end Stmt

/-- The same function over other expressions and variables. -/
def Func.map {ε ε' β β' : Type} (f : ε → ε') (g : β → β') (d : Func ε β) : Func ε' β' :=
  ⟨d.name, d.pos, d.params.map g, d.ret, Stmt.mapAll f g d.body⟩

/-! ## What storing does to the tables -/

/-- Between `ns` and `ns'` the expressions `ts`, the variables `vs` and the functions `fs` were
stored. Each can be read off under its number, and every new number belongs to one node. -/
structure Stored (ns ns' : Nodes) (ts : List (Tree.Expr Site)) (vs : List Tree.Var)
    (fs : List Tree.Func) : Prop where
  le : ns ≤ ns'
  expr? : ∀ t ∈ ts, ns'.expr? t.label.id = some t
  var? : ∀ v ∈ vs, ns'.var? v.id = some v
  func? : ∀ f ∈ fs, ns'.func? f.id = some f
  exprIds : ((ts.flatMap Tree.Expr.labels).map Site.id).Perm
    (List.range' ns.exprs.size (ns'.exprs.size - ns.exprs.size))
  varIds : vs.map (·.id) = List.range' ns.vars.size (ns'.vars.size - ns.vars.size)
  funcIds : fs.map (·.id) = List.range' ns.funcs.size (ns'.funcs.size - ns.funcs.size)

namespace Stored
variable {ns ns₁ ns' : Nodes} {ts ts' : List (Tree.Expr Site)} {vs vs' : List Tree.Var}
  {fs fs' : List Tree.Func}

theorem nil (ns : Nodes) : Stored ns ns [] [] [] :=
  ⟨Nodes.le_refl ns, by simp, by simp, by simp, by simp, by simp, by simp⟩

private theorem range'_split {a b c : Nat} (hab : a ≤ b) (hbc : b ≤ c) :
    List.range' a (c - a) = List.range' a (b - a) ++ List.range' b (c - b) := by
  have h : b = a + 1 * (b - a) := by omega
  conv => rhs; rw [h]
  rw [show a + 1 * (b - a) - a = b - a by omega, List.range'_append]
  congr 1
  omega

theorem append (h : Stored ns ns₁ ts vs fs) (h' : Stored ns₁ ns' ts' vs' fs') :
    Stored ns ns' (ts ++ ts') (vs ++ vs') (fs ++ fs') where
  le := Nodes.le_trans h.le h'.le
  expr? t ht := by
    rcases List.mem_append.1 ht with ht | ht
    · exact Nodes.expr?_mono h'.le (h.expr? t ht)
    · exact h'.expr? t ht
  var? v hv := by
    rcases List.mem_append.1 hv with hv | hv
    · exact Nodes.var?_mono h'.le (h.var? v hv)
    · exact h'.var? v hv
  func? f hf := by
    rcases List.mem_append.1 hf with hf | hf
    · exact Nodes.func?_mono h'.le (h.func? f hf)
    · exact h'.func? f hf
  exprIds := by
    rw [range'_split h.le.size_exprs h'.le.size_exprs, List.flatMap_append, List.map_append]
    exact h.exprIds.append h'.exprIds
  varIds := by
    rw [range'_split h.le.size_vars h'.le.size_vars, List.map_append, h.varIds, h'.varIds]
  funcIds := by
    rw [range'_split h.le.size_funcs h'.le.size_funcs, List.map_append, h.funcIds, h'.funcIds]

theorem perm (h : Stored ns ns' ts vs fs) (hts : ts.Perm ts') : Stored ns ns' ts' vs fs :=
  { h with
    expr? := fun t ht => h.expr? t (hts.mem_iff.2 ht)
    exprIds := ((hts.symm.flatMap_right _).map _).trans h.exprIds }

/-- A node over stored expressions makes one expression of them. -/
theorem parent {kids : List (Tree.Expr Site)} {t : Tree.Expr Site} {e : Node.Expr} {pos : Pos}
    (h : Stored ns ns' kids vs fs)
    (hlabels : t.labels = ⟨ns'.exprs.size, pos⟩ :: kids.flatMap Tree.Expr.labels)
    (hunfold : ∀ (m : Nodes) (n : Nat), m.exprs[ns'.exprs.size]? = some (e, pos) →
      (∀ k ∈ kids, m.exprWithin? n k.label.id = some k) →
      m.exprWithin? (n + 1) ns'.exprs.size = some t) :
    Stored ns (ns'.addExpr e pos).2 [t] vs fs where
  le := Nodes.le_trans h.le (Nodes.le_addExpr e pos ns')
  expr? t' ht' := by
    obtain rfl := List.mem_singleton.1 ht'
    have hlabel : t'.label = ⟨ns'.exprs.size, pos⟩ := by
      have := t'.head?_labels
      rw [hlabels] at this
      exact (Option.some.inj this).symm
    rw [hlabel, Nodes.expr?, Nodes.size_exprs_addExpr]
    refine hunfold _ _ (by simp [Nodes.addExpr]) fun k hk => ?_
    exact Nodes.exprWithin?_mono (Nodes.le_addExpr e pos ns') (Nat.le_refl _) (h.expr? k hk)
  var? v hv := Nodes.var?_mono (Nodes.le_addExpr e pos ns') (h.var? v hv)
  func? f hf := Nodes.func?_mono (Nodes.le_addExpr e pos ns') (h.func? f hf)
  exprIds := by
    have hle := h.le.size_exprs
    have hsize : (ns'.addExpr e pos).2.exprs.size - ns.exprs.size =
        ns'.exprs.size - ns.exprs.size + 1 := by
      rw [Nodes.size_exprs_addExpr]
      omega
    rw [hsize, List.range'_concat, List.flatMap_singleton, hlabels, List.map_cons]
    have hlast : ns.exprs.size + 1 * (ns'.exprs.size - ns.exprs.size) = ns'.exprs.size := by omega
    rw [hlast]
    exact (h.exprIds.cons _).trans (List.perm_append_singleton _ _).symm
  varIds := h.varIds
  funcIds := h.funcIds

/-- A node over stored statements stores nothing else. -/
theorem addStmt (h : Stored ns ns' ts vs fs) (s : Node.Stmt) :
    Stored ns (ns'.addStmt s).2 ts vs fs :=
  { h with
    le := Nodes.le_trans h.le (Nodes.le_addStmt s ns')
    expr? := fun t ht => Nodes.expr?_mono (Nodes.le_addStmt s ns') (h.expr? t ht)
    func? := fun f hf => Nodes.func?_mono (Nodes.le_addStmt s ns') (h.func? f hf) }

theorem addVar (ns : Nodes) (v : Var) : Stored ns (ns.addVar v).2 [] [⟨v, ns.vars.size⟩] [] where
  le := Nodes.le_addVar v ns
  expr? := by simp
  var? := by simp [Nodes.var?, Nodes.addVar]
  func? := by simp
  exprIds := by simp [Nodes.addVar]
  varIds := by simp [Nodes.addVar]
  funcIds := by simp [Nodes.addVar]

theorem addFunc {ns : Nodes} {node : Node.Func} {f : Tree.Func} (hid : f.id = ns.funcs.size)
    (hf : (ns.addFunc node).2.func? f.id = some f) :
    Stored ns (ns.addFunc node).2 [] [] [f] where
  le := Nodes.le_addFunc node ns
  expr? := by simp
  var? := by simp
  func? := by simpa using hf
  exprIds := by simp [Nodes.addFunc]
  varIds := by simp [Nodes.addFunc]
  funcIds := by simp [Nodes.addFunc, hid]

end Stored

/-! ## Storing expressions -/

namespace Storing
variable {α β : Type} {ns ns' : Nodes}

theorem run_bind_eq {x : Storing α} {f : α → Storing β} {b : β} :
    (x >>= f).run ns = (b, ns') ↔
      ∃ a ns₁, x.run ns = (a, ns₁) ∧ (f a).run ns₁ = (b, ns') := by
  refine ⟨fun h => ⟨_, _, rfl, h⟩, ?_⟩
  rintro ⟨a, ns₁, hx, hf⟩
  rw [StateT.run_bind, hx]
  exact hf

theorem run_pure_eq {a b : α} : (pure a : Storing α).run ns = (b, ns') ↔ a = b ∧ ns = ns' :=
  Prod.mk.injEq .. ▸ Iff.rfl

theorem run_addExpr_eq {e : Node.Expr} {pos : Pos} {id : ExprId} :
    (modifyGet (Nodes.addExpr e pos) : Storing ExprId).run ns = (id, ns') ↔
      ns.exprs.size = id ∧ (ns.addExpr e pos).2 = ns' := Prod.mk.injEq .. ▸ Iff.rfl

theorem run_addVar_eq {v : Var} {id : VarId} :
    (modifyGet (Nodes.addVar v) : Storing VarId).run ns = (id, ns') ↔
      ns.vars.size = id ∧ (ns.addVar v).2 = ns' := Prod.mk.injEq .. ▸ Iff.rfl

theorem run_addStmt_eq {s : Node.Stmt} {id : StmtId} :
    (modifyGet (Nodes.addStmt s) : Storing StmtId).run ns = (id, ns') ↔
      ns.stmts.size = id ∧ (ns.addStmt s).2 = ns' := Prod.mk.injEq .. ▸ Iff.rfl

theorem run_addFunc_eq {f : Node.Func} {id : FuncId} :
    (modifyGet (Nodes.addFunc f) : Storing FuncId).run ns = (id, ns') ↔
      ns.funcs.size = id ∧ (ns.addFunc f).2 = ns' := Prod.mk.injEq .. ▸ Iff.rfl

end Storing

/-- What can be read off under its number one by one can be read off as a list. -/
private theorem mapM_map_key {α β : Type} {key : β → α} {f : α → Option β} {bs : List β}
    (h : ∀ b ∈ bs, f (key b) = some b) : (bs.map key).mapM f = some bs := by
  induction bs with
  | nil => rfl
  | cons b bs ih =>
    rw [List.map_cons, List.mapM_cons, h b List.mem_cons_self,
      ih fun b hb => h b (List.mem_cons_of_mem _ hb)]
    rfl

namespace Tree.Expr

mutual

/-- A stored expression is the given one with the new numbers. -/
theorem stored_store {ns ns' : Nodes} (e : Expr Pos) {t : Expr Site}
    (h : e.store.run ns = (t, ns')) : Stored ns ns' [t] [] [] ∧ t.map Site.pos = e := by
  cases e with
  | assign pos target value | binary pos op target value =>
    simp only [store, Storing.run_bind_eq, Storing.run_pure_eq, Storing.run_addExpr_eq] at h
    obtain ⟨t₁, ns₁, h₁, t₂, ns₂, h₂, _, _, ⟨rfl, rfl⟩, rfl, rfl⟩ := h
    obtain ⟨hs₁, hm₁⟩ := stored_store target h₁
    obtain ⟨hs₂, hm₂⟩ := stored_store value h₂
    refine ⟨(hs₁.append hs₂).parent (by simp [labels]) ?_, by simp [map, hm₁, hm₂]⟩
    intro m n hm hkids
    simp [Nodes.exprWithin?, hm, hkids]
  | ident pos name es | call pos name es =>
    simp only [store, Storing.run_bind_eq, Storing.run_pure_eq, Storing.run_addExpr_eq] at h
    obtain ⟨ts, ns₁, h₁, _, _, ⟨rfl, rfl⟩, rfl, rfl⟩ := h
    obtain ⟨hs, hm⟩ := stored_storeAll es h₁
    refine ⟨hs.parent (by simp [labels, labelsAll_eq_flatMap]) ?_, by simp [map, hm]⟩
    intro m n hm hkids
    simp [Nodes.exprWithin?, hm, mapM_map_key hkids]
  | literal pos value =>
    simp only [store, Storing.run_bind_eq, Storing.run_pure_eq, Storing.run_addExpr_eq] at h
    obtain ⟨_, _, ⟨rfl, rfl⟩, rfl, rfl⟩ := h
    refine ⟨(Stored.nil ns).parent (by simp [labels]) ?_, by simp [map]⟩
    intro m n hm _
    simp [Nodes.exprWithin?, hm]

theorem stored_storeAll {ns ns' : Nodes} (es : List (Expr Pos)) {ts : List (Expr Site)}
    (h : (storeAll es).run ns = (ts, ns')) :
    Stored ns ns' ts [] [] ∧ mapAll Site.pos ts = es := by
  cases es with
  | nil =>
    obtain ⟨rfl, rfl⟩ := Storing.run_pure_eq.1 h
    exact ⟨.nil ns, rfl⟩
  | cons e es =>
    simp only [storeAll, Storing.run_bind_eq, Storing.run_pure_eq] at h
    obtain ⟨t, ns₁, h₁, ts, ns₂, h₂, rfl, rfl⟩ := h
    obtain ⟨hs₁, hm₁⟩ := stored_store e h₁
    obtain ⟨hs₂, hm₂⟩ := stored_storeAll es h₂
    exact ⟨hs₁.append hs₂, by rw [mapAll, hm₁, hm₂]⟩

end

end Tree.Expr

namespace Source.Expr

mutual

/-- A stored expression is the given one, spelled out, with the new numbers. -/
theorem stored_store {ns ns' : Nodes} (e : Expr) {t : Tree.Expr Site}
    (h : e.store.run ns = (t, ns')) : Stored ns ns' [t] [] [] ∧ t.map Site.pos = e.tree := by
  cases e with
  | assign op pos target value =>
    cases op with
    | none =>
      simp only [store, Storing.run_bind_eq, Storing.run_pure_eq, Storing.run_addExpr_eq] at h
      obtain ⟨t₁, ns₁, h₁, t₂, ns₂, h₂, _, _, ⟨rfl, rfl⟩, rfl, rfl⟩ := h
      obtain ⟨hs₁, hm₁⟩ := stored_store target h₁
      obtain ⟨hs₂, hm₂⟩ := stored_store value h₂
      refine ⟨(hs₁.append hs₂).parent (by simp [Tree.Expr.labels]) ?_,
        by simp [Tree.Expr.map, tree, hm₁, hm₂]⟩
      intro m n hm hkids
      simp [Nodes.exprWithin?, hm, hkids]
    | some op =>
      simp only [store, Storing.run_bind_eq, Storing.run_pure_eq, Storing.run_addExpr_eq] at h
      obtain ⟨t₁, ns₁, h₁, t₂, ns₂, h₂, t₃, ns₃, h₃, _, _, ⟨rfl, rfl⟩, _, _, ⟨rfl, rfl⟩, rfl,
        rfl⟩ := h
      obtain ⟨hs₁, hm₁⟩ := stored_store target h₁
      obtain ⟨hs₂, hm₂⟩ := stored_store value h₂
      obtain ⟨hs₃, hm₃⟩ := Tree.Expr.stored_store target.tree h₃
      -- the copy is stored after the value but stands before it
      have hs := (hs₂.append hs₃).perm (List.Perm.swap t₃ t₂ [])
      have hb : Stored ns₁ (ns₃.addExpr (.binary op t₃.label.id t₂.label.id) pos).2
          [.binary ⟨ns₃.exprs.size, pos⟩ op t₃ t₂] [] [] := by
        refine hs.parent (by simp [Tree.Expr.labels]) ?_
        intro m n hm hkids
        simp [Nodes.exprWithin?, hm, hkids]
      refine ⟨(hs₁.append hb).parent (by simp [Tree.Expr.labels]) ?_,
        by simp [Tree.Expr.map, tree, hm₁, hm₂, hm₃]⟩
      intro m n hm hkids
      have hvalue := hkids (.binary ⟨ns₃.exprs.size, pos⟩ op t₃ t₂) (by simp)
      rw [Tree.Expr.label] at hvalue
      rw [Nodes.size_exprs_addExpr] at hm
      simp [Nodes.exprWithin?, hm, hkids, hvalue]
  | binary op pos lhs rhs =>
    simp only [store, Storing.run_bind_eq, Storing.run_pure_eq, Storing.run_addExpr_eq] at h
    obtain ⟨t₁, ns₁, h₁, t₂, ns₂, h₂, _, _, ⟨rfl, rfl⟩, rfl, rfl⟩ := h
    obtain ⟨hs₁, hm₁⟩ := stored_store lhs h₁
    obtain ⟨hs₂, hm₂⟩ := stored_store rhs h₂
    refine ⟨(hs₁.append hs₂).parent (by simp [Tree.Expr.labels]) ?_,
      by simp [Tree.Expr.map, tree, hm₁, hm₂]⟩
    intro m n hm hkids
    simp [Nodes.exprWithin?, hm, hkids]
  | var name pos | literal value pos =>
    simp only [store, Storing.run_bind_eq, Storing.run_pure_eq, Storing.run_addExpr_eq] at h
    obtain ⟨_, _, ⟨rfl, rfl⟩, rfl, rfl⟩ := h
    refine ⟨(Stored.nil ns).parent (by simp [Tree.Expr.labels, Tree.Expr.labelsAll]) ?_,
      by simp [Tree.Expr.map, Tree.Expr.mapAll, tree]⟩
    intro m n hm _
    simp [Nodes.exprWithin?, hm]
  | element name pos index =>
    simp only [store, Storing.run_bind_eq, Storing.run_pure_eq, Storing.run_addExpr_eq] at h
    obtain ⟨t, ns₁, h₁, _, _, ⟨rfl, rfl⟩, rfl, rfl⟩ := h
    obtain ⟨hs, hm⟩ := stored_store index h₁
    refine ⟨hs.parent (by simp [Tree.Expr.labels, Tree.Expr.labelsAll]) ?_,
      by simp [Tree.Expr.map, Tree.Expr.mapAll, tree, hm]⟩
    intro m n hm hkids
    simp [Nodes.exprWithin?, hm, hkids]
  | call name pos args =>
    simp only [store, Storing.run_bind_eq, Storing.run_pure_eq, Storing.run_addExpr_eq] at h
    obtain ⟨ts, ns₁, h₁, _, _, ⟨rfl, rfl⟩, rfl, rfl⟩ := h
    obtain ⟨hs, hm⟩ := stored_storeAll args h₁
    refine ⟨hs.parent (by simp [Tree.Expr.labels, Tree.Expr.labelsAll_eq_flatMap]) ?_,
      by simp [Tree.Expr.map, tree, hm]⟩
    intro m n hm hkids
    simp [Nodes.exprWithin?, hm, mapM_map_key hkids]

theorem stored_storeAll {ns ns' : Nodes} (es : List Expr) {ts : List (Tree.Expr Site)}
    (h : (storeAll es).run ns = (ts, ns')) :
    Stored ns ns' ts [] [] ∧ Tree.Expr.mapAll Site.pos ts = treeAll es := by
  cases es with
  | nil =>
    obtain ⟨rfl, rfl⟩ := Storing.run_pure_eq.1 h
    exact ⟨.nil ns, rfl⟩
  | cons e es =>
    simp only [storeAll, Storing.run_bind_eq, Storing.run_pure_eq] at h
    obtain ⟨t, ns₁, h₁, ts, ns₂, h₂, rfl, rfl⟩ := h
    obtain ⟨hs₁, hm₁⟩ := stored_store e h₁
    obtain ⟨hs₂, hm₂⟩ := stored_storeAll es h₂
    exact ⟨hs₁.append hs₂, by rw [Tree.Expr.mapAll, hm₁, hm₂, treeAll]⟩

end

end Source.Expr

/-! ## Storing statements and functions -/

namespace Source

theorem stored_storeVar {ns ns' : Nodes} {v : Var} {w : Tree.Var}
    (h : (storeVar v).run ns = (w, ns')) : Stored ns ns' [] [w] [] ∧ w.toVar = v := by
  simp only [storeVar, Storing.run_bind_eq, Storing.run_pure_eq, Storing.run_addVar_eq] at h
  obtain ⟨_, _, ⟨rfl, rfl⟩, rfl, rfl⟩ := h
  exact ⟨Stored.addVar ns v, rfl⟩

theorem stored_storeVars {ns ns' : Nodes} {vs : List Var} {ws : List Tree.Var}
    (h : (vs.mapM storeVar).run ns = (ws, ns')) :
    Stored ns ns' [] ws [] ∧ ws.map (·.toVar) = vs := by
  induction vs generalizing ns ws with
  | nil =>
    obtain ⟨rfl, rfl⟩ := Storing.run_pure_eq.1 h
    exact ⟨.nil ns, rfl⟩
  | cons v vs ih =>
    simp only [List.mapM_cons, Storing.run_bind_eq, Storing.run_pure_eq] at h
    obtain ⟨w, ns₁, h₁, ws, ns₂, h₂, rfl, rfl⟩ := h
    obtain ⟨hs₁, hv⟩ := stored_storeVar h₁
    obtain ⟨hs₂, hvs⟩ := ih h₂
    exact ⟨hs₁.append hs₂, by rw [List.map_cons, hv, hvs]⟩

/-- A statement node is unfolded with the bound that is left for its parts. -/
private theorem stmt?_addStmt (ns : Nodes) (s : Node.Stmt) :
    (ns.addStmt s).2.stmt? ns.stmts.size =
      (ns.addStmt s).2.stmtWithin? (ns.stmts.size + 1) ns.stmts.size := by
  simp [Nodes.stmt?, Nodes.addStmt]

private theorem getElem?_addStmt (ns : Nodes) (s : Node.Stmt) :
    (ns.addStmt s).2.stmts[ns.stmts.size]? = some s := by
  simp [Nodes.addStmt]

private theorem mapM_addStmt {ns : Nodes} {ids : List StmtId} {ss : List Tree.Stmt}
    (h : ns.block? ids = some ss) (s : Node.Stmt) :
    ids.mapM ((ns.addStmt s).2.stmtWithin? ns.stmts.size) = some ss :=
  Nodes.mapM_some_mono
    (fun _ _ _ => Nodes.stmtWithin?_mono (Nodes.le_addStmt s ns) (Nat.le_refl _)) h

mutual

/-- A stored statement is the given one, spelled out, with the new numbers. -/
theorem stored_storeStmt {ns ns' : Nodes} (s : Stmt) {id : StmtId} {t : Tree.Stmt}
    (h : (storeStmt s).run ns = ((id, t), ns')) :
    Stored ns ns' t.exprs t.decls [] ∧ ns'.stmt? id = some t ∧
      t.map (Tree.Expr.map Site.pos) (·.toVar) = s.map Expr.tree (fun v => v) := by
  cases s with
  | decl v init =>
    simp only [storeStmt, Storing.run_bind_eq, Storing.run_pure_eq, Storing.run_addStmt_eq,
      Prod.mk.injEq] at h
    obtain ⟨w, ns₁, h₁, e, ns₂, h₂, _, _, ⟨rfl, rfl⟩, ⟨rfl, rfl⟩, rfl⟩ := h
    obtain ⟨hs₁, hw⟩ := stored_storeVar h₁
    obtain ⟨hs₂, he⟩ := init.stored_store h₂
    have hs := (hs₁.append hs₂).addStmt (.decl w.id e.label.id)
    refine ⟨hs, ?_, by simp [PrimeLang.Stmt.map, hw, he]⟩
    rw [stmt?_addStmt, Nodes.stmtWithin?]
    simp [getElem?_addStmt, hs.var? w (by simp), hs.expr? e (by simp)]
  | ifThen cond body =>
    simp only [storeStmt, Storing.run_bind_eq, Storing.run_pure_eq, Storing.run_addStmt_eq,
      Prod.mk.injEq] at h
    obtain ⟨e, ns₁, h₁, ⟨ids, ts⟩, ns₂, h₂, _, _, ⟨rfl, rfl⟩, ⟨rfl, rfl⟩, rfl⟩ := h
    obtain ⟨hs₁, he⟩ := cond.stored_store h₁
    obtain ⟨hs₂, hu, hm⟩ := stored_storeBlock body h₂
    have hs := (hs₁.append hs₂).addStmt (.ifThen e.label.id ids)
    refine ⟨hs, ?_, by simp [PrimeLang.Stmt.map, he, hm]⟩
    rw [stmt?_addStmt, Nodes.stmtWithin?]
    simp [getElem?_addStmt, hs.expr? e (by simp), mapM_addStmt hu]
  | ifElse cond body orElse =>
    simp only [storeStmt, Storing.run_bind_eq, Storing.run_pure_eq, Storing.run_addStmt_eq,
      Prod.mk.injEq] at h
    obtain ⟨e, ns₁, h₁, ⟨ids, ts⟩, ns₂, h₂, ⟨ids', ts'⟩, ns₃, h₃, _, _, ⟨rfl, rfl⟩, ⟨rfl, rfl⟩,
      rfl⟩ := h
    obtain ⟨hs₁, he⟩ := cond.stored_store h₁
    obtain ⟨hs₂, hu, hm⟩ := stored_storeBlock body h₂
    obtain ⟨hs₃, hu', hm'⟩ := stored_storeBlock orElse h₃
    have hs := (hs₁.append (hs₂.append hs₃)).addStmt (.ifElse e.label.id ids ids')
    refine ⟨hs, ?_, by simp [PrimeLang.Stmt.map, he, hm, hm']⟩
    rw [stmt?_addStmt, Nodes.stmtWithin?]
    simp [getElem?_addStmt, hs.expr? e (by simp), mapM_addStmt (Nodes.block?_mono hs₃.le hu),
      mapM_addStmt hu']
  | loop v init cond step body =>
    simp only [storeStmt, Storing.run_bind_eq, Storing.run_pure_eq, Storing.run_addStmt_eq,
      Prod.mk.injEq] at h
    obtain ⟨w, ns₁, h₁, e, ns₂, h₂, e', ns₃, h₃, e'', ns₄, h₄, ⟨ids, ts⟩, ns₅, h₅, _, _,
      ⟨rfl, rfl⟩, ⟨rfl, rfl⟩, rfl⟩ := h
    obtain ⟨hs₁, hw⟩ := stored_storeVar h₁
    obtain ⟨hs₂, he⟩ := init.stored_store h₂
    obtain ⟨hs₃, he'⟩ := cond.stored_store h₃
    obtain ⟨hs₄, he''⟩ := step.stored_store h₄
    obtain ⟨hs₅, hu, hm⟩ := stored_storeBlock body h₅
    have hs := (hs₁.append (hs₂.append (hs₃.append (hs₄.append hs₅)))).addStmt
      (.loop w.id e.label.id e'.label.id e''.label.id ids)
    refine ⟨hs, ?_, by simp [PrimeLang.Stmt.map, hw, he, he', he'', hm]⟩
    rw [stmt?_addStmt, Nodes.stmtWithin?]
    simp [getElem?_addStmt, hs.var? w (by simp), hs.expr? e (by simp), hs.expr? e' (by simp),
      hs.expr? e'' (by simp), mapM_addStmt hu]
  | ret value =>
    cases value with
    | none =>
      simp only [storeStmt, Storing.run_bind_eq, Storing.run_pure_eq, Storing.run_addStmt_eq,
        Prod.mk.injEq] at h
      obtain ⟨_, _, ⟨rfl, rfl⟩, ⟨rfl, rfl⟩, rfl⟩ := h
      refine ⟨(Stored.nil ns).addStmt (.ret none), ?_, by simp [PrimeLang.Stmt.map]⟩
      rw [stmt?_addStmt, Nodes.stmtWithin?]
      simp [getElem?_addStmt]
    | some value =>
      simp only [storeStmt, Storing.run_bind_eq, Storing.run_pure_eq, Storing.run_addStmt_eq,
        Prod.mk.injEq] at h
      obtain ⟨e, ns₁, h₁, _, _, ⟨rfl, rfl⟩, ⟨rfl, rfl⟩, rfl⟩ := h
      obtain ⟨hs₁, he⟩ := value.stored_store h₁
      have hs := hs₁.addStmt (.ret (some e.label.id))
      refine ⟨hs, ?_, by simp [PrimeLang.Stmt.map, he]⟩
      rw [stmt?_addStmt, Nodes.stmtWithin?]
      simp [getElem?_addStmt, hs.expr? e (by simp)]
  | eval e =>
    simp only [storeStmt, Storing.run_bind_eq, Storing.run_pure_eq, Storing.run_addStmt_eq,
      Prod.mk.injEq] at h
    obtain ⟨t, ns₁, h₁, _, _, ⟨rfl, rfl⟩, ⟨rfl, rfl⟩, rfl⟩ := h
    obtain ⟨hs₁, he⟩ := e.stored_store h₁
    have hs := hs₁.addStmt (.eval t.label.id)
    refine ⟨hs, ?_, by simp [PrimeLang.Stmt.map, he]⟩
    rw [stmt?_addStmt, Nodes.stmtWithin?]
    simp [getElem?_addStmt, hs.expr? t (by simp)]

theorem stored_storeBlock {ns ns' : Nodes} (ss : List Stmt) {ids : List StmtId}
    {ts : List Tree.Stmt} (h : (storeBlock ss).run ns = ((ids, ts), ns')) :
    Stored ns ns' (PrimeLang.Stmt.exprsOf ts) (PrimeLang.Stmt.declsOf ts) [] ∧
      ns'.block? ids = some ts ∧
      PrimeLang.Stmt.mapAll (Tree.Expr.map Site.pos) (·.toVar) ts =
        PrimeLang.Stmt.mapAll Expr.tree (fun v => v) ss := by
  cases ss with
  | nil =>
    obtain ⟨h, rfl⟩ := Storing.run_pure_eq.1 h
    cases h
    exact ⟨.nil ns, rfl, rfl⟩
  | cons s ss =>
    simp only [storeBlock, Storing.run_bind_eq, Storing.run_pure_eq, Prod.mk.injEq] at h
    obtain ⟨⟨id, t⟩, ns₁, h₁, ⟨ids, ts⟩, ns₂, h₂, ⟨rfl, rfl⟩, rfl⟩ := h
    obtain ⟨hs₁, hu₁, hm₁⟩ := stored_storeStmt s h₁
    obtain ⟨hs₂, hu₂, hm₂⟩ := stored_storeBlock ss h₂
    refine ⟨hs₁.append hs₂, ?_, by rw [PrimeLang.Stmt.mapAll, hm₁, hm₂, PrimeLang.Stmt.mapAll]⟩
    rw [Nodes.block?] at hu₂ ⊢
    rw [List.mapM_cons, Nodes.stmt?_mono hs₂.le hu₁, hu₂]
    rfl

end

/-- A stored function is the given one, spelled out, with the new numbers. -/
theorem stored_storeFunc {ns ns' : Nodes} {f : Func} {t : Tree.Func}
    (h : (storeFunc f).run ns = (t, ns')) :
    Stored ns ns' (PrimeLang.Stmt.exprsOf t.body) t.vars [t] ∧
      t.toFunc.map (Tree.Expr.map Site.pos) (·.toVar) = f.map Expr.tree (fun v => v) := by
  simp only [storeFunc, Storing.run_bind_eq, Storing.run_pure_eq, Storing.run_addFunc_eq] at h
  obtain ⟨ws, ns₁, h₁, ⟨ids, ts⟩, ns₂, h₂, _, _, ⟨rfl, rfl⟩, rfl, rfl⟩ := h
  obtain ⟨hs₁, hw⟩ := stored_storeVars h₁
  obtain ⟨hs₂, hu, hm⟩ := stored_storeBlock f.body h₂
  have hs := hs₁.append hs₂
  refine ⟨?_, by simp [PrimeLang.Func.map, hw, hm]⟩
  have hle := Nodes.le_addFunc ⟨f.name, ws.map (·.id), f.ret, ids, f.pos⟩ ns₂
  have hparams := mapM_map_key fun w hw =>
    Nodes.var?_mono hle (hs.var? w (List.mem_append_left _ hw))
  have hbody := Nodes.block?_mono hle hu
  have hnode : (ns₂.addFunc ⟨f.name, ws.map (·.id), f.ret, ids, f.pos⟩).2.funcs[ns₂.funcs.size]? =
      some ⟨f.name, ws.map (·.id), f.ret, ids, f.pos⟩ := by simp [Nodes.addFunc]
  simpa [PrimeLang.Func.vars] using hs.append (Stored.addFunc rfl (by simp [Nodes.func?, hnode, hparams, hbody]))

theorem stored_storeFuncs {ns ns' : Nodes} {fs : List Func} {ts : List Tree.Func}
    (h : (fs.mapM storeFunc).run ns = (ts, ns')) :
    Stored ns ns' (ts.flatMap fun f => PrimeLang.Stmt.exprsOf f.body) (ts.flatMap (·.vars)) ts ∧
      ts.map (·.toFunc.map (Tree.Expr.map Site.pos) (·.toVar)) =
        fs.map (PrimeLang.Func.map Expr.tree (fun v => v)) := by
  induction fs generalizing ns ts with
  | nil =>
    obtain ⟨rfl, rfl⟩ := Storing.run_pure_eq.1 h
    exact ⟨.nil ns, rfl⟩
  | cons f fs ih =>
    simp only [List.mapM_cons, Storing.run_bind_eq, Storing.run_pure_eq] at h
    obtain ⟨t, ns₁, h₁, ts, ns₂, h₂, rfl, rfl⟩ := h
    obtain ⟨hs₁, hm₁⟩ := stored_storeFunc h₁
    obtain ⟨hs₂, hm₂⟩ := ih h₂
    exact ⟨hs₁.append hs₂, by rw [List.map_cons, hm₁, hm₂, List.map_cons]⟩

end Source

/-! ## The nodes under the labels of a tree -/

namespace Tree.Expr

mutual

/-- Under the label of every node of the tree, `ns` has that node. -/
def Held (ns : Nodes) : Expr Site → Prop
  | assign a target value =>
    ns.exprs[a.id]? = some (.assign target.label.id value.label.id, a.pos) ∧
      target.Held ns ∧ value.Held ns
  | binary a op lhs rhs =>
    ns.exprs[a.id]? = some (.binary op lhs.label.id rhs.label.id, a.pos) ∧
      lhs.Held ns ∧ rhs.Held ns
  | ident a name indices =>
    ns.exprs[a.id]? = some (.ident name (indices.map (·.label.id)), a.pos) ∧ HeldAll ns indices
  | literal a value => ns.exprs[a.id]? = some (.literal value, a.pos)
  | call a name args =>
    ns.exprs[a.id]? = some (.call name (args.map (·.label.id)), a.pos) ∧ HeldAll ns args

def HeldAll (ns : Nodes) : List (Expr Site) → Prop
  | [] => True
  | e :: es => e.Held ns ∧ HeldAll ns es

end

theorem heldAll_of_mapM {ns : Nodes} {f : ExprId → Option (Expr Site)} {ids : List ExprId}
    {es : List (Expr Site)} (hf : ∀ id e, f id = some e → e.label.id = id ∧ e.Held ns)
    (h : ids.mapM f = some es) : es.map (·.label.id) = ids ∧ HeldAll ns es := by
  induction ids generalizing es with
  | nil =>
    cases h
    exact ⟨rfl, trivial⟩
  | cons id ids ih =>
    simp only [List.mapM_cons, Option.bind_eq_bind, Option.bind_eq_some_iff, Option.pure_def,
      Option.some.injEq] at h
    obtain ⟨e, he, es, hes, rfl⟩ := h
    obtain ⟨hid, hheld⟩ := hf id e he
    obtain ⟨hids, hall⟩ := ih hes
    exact ⟨by rw [List.map_cons, hid, hids], hheld, hall⟩

end Tree.Expr

theorem Nodes.held_of_exprWithin? {ns : Nodes} {n : Nat} {id : ExprId} {e : Tree.Expr Site}
    (h : ns.exprWithin? n id = some e) : e.label.id = id ∧ e.Held ns := by
  induction n generalizing id e with
  | zero => exact nomatch h
  | succ n ih =>
    simp only [exprWithin?, Option.bind_eq_bind, Option.bind_eq_some_iff] at h
    obtain ⟨⟨node, pos⟩, hnode, h⟩ := h
    cases node with
    | assign target value =>
      simp only [Option.bind_eq_some_iff, Option.pure_def, Option.some.injEq] at h
      obtain ⟨t, ht, v, hv, rfl⟩ := h
      obtain ⟨rfl, htarget⟩ := ih ht
      obtain ⟨rfl, hvalue⟩ := ih hv
      exact ⟨rfl, hnode, htarget, hvalue⟩
    | binary op lhs rhs =>
      simp only [Option.bind_eq_some_iff, Option.pure_def, Option.some.injEq] at h
      obtain ⟨l, hl, r, hr, rfl⟩ := h
      obtain ⟨rfl, hlhs⟩ := ih hl
      obtain ⟨rfl, hrhs⟩ := ih hr
      exact ⟨rfl, hnode, hlhs, hrhs⟩
    | ident name indices =>
      simp only [Option.bind_eq_some_iff, Option.pure_def, Option.some.injEq] at h
      obtain ⟨es, hes, rfl⟩ := h
      obtain ⟨rfl, hall⟩ := Tree.Expr.heldAll_of_mapM (fun _ _ => ih) hes
      exact ⟨rfl, hnode, hall⟩
    | literal value =>
      cases h
      exact ⟨rfl, hnode⟩
    | call name args =>
      simp only [Option.bind_eq_some_iff, Option.pure_def, Option.some.injEq] at h
      obtain ⟨es, hes, rfl⟩ := h
      obtain ⟨rfl, hall⟩ := Tree.Expr.heldAll_of_mapM (fun _ _ => ih) hes
      exact ⟨rfl, hnode, hall⟩

/-! ## Whole programs -/

namespace Program

/-- All variables of a program, function by function. -/
def vars (p : Program) : List Tree.Var := p.funcs.flatMap (·.vars)

/-- All expressions in the statements of a program, function by function. -/
def exprs (p : Program) : List (Tree.Expr Site) := p.funcs.flatMap fun f => Stmt.exprsOf f.body

/-- The functions of a program are those that its nodes hold, and every number of a function, a
variable or an expression is used once. -/
structure WellFormed (p : Program) : Prop where
  expr? : ∀ e ∈ p.exprs, p.nodes.expr? e.label.id = some e
  func? : ∀ f ∈ p.funcs, p.nodes.func? f.id = some f
  var? : ∀ v ∈ p.vars, p.nodes.var? v.id = some v
  funcIds : p.funcs.map (·.id) = List.range p.nodes.funcs.size
  varIds : p.vars.map (·.id) = List.range p.nodes.vars.size
  exprIds : ((p.exprs.flatMap Tree.Expr.labels).map Site.id).Perm (List.range p.nodes.exprs.size)

/-- The functions of a well-formed program are those that its nodes unfold to. -/
theorem WellFormed.funcs? {p : Program} (h : p.WellFormed) : p.nodes.funcs? = some p.funcs := by
  rw [Nodes.funcs?, ← h.funcIds]
  exact mapM_map_key h.func?

theorem WellFormed.held {p : Program} (h : p.WellFormed) {e : Tree.Expr Site} (he : e ∈ p.exprs) :
    e.Held p.nodes := (Nodes.held_of_exprWithin? (h.expr? e he)).2

/-- No two places of the trees hold the same expression node. -/
theorem WellFormed.nodup_exprIds {p : Program} (h : p.WellFormed) :
    ((p.exprs.flatMap Tree.Expr.labels).map Site.id).Nodup :=
  h.exprIds.nodup_iff.2 List.nodup_range

private theorem run_ofSource (fs : List Source.Func) :
    (fs.mapM Source.storeFunc).run .empty = ((ofSource fs).funcs, (ofSource fs).nodes) := rfl

private theorem stored_ofSource (fs : List Source.Func) :
    Stored .empty (ofSource fs).nodes (ofSource fs).exprs (ofSource fs).vars
      (ofSource fs).funcs := (Source.stored_storeFuncs (run_ofSource fs)).1

theorem ofSource_wellFormed (fs : List Source.Func) : (ofSource fs).WellFormed := by
  have hs := stored_ofSource fs
  refine ⟨hs.expr?, hs.func?, hs.var?, ?_, ?_, ?_⟩
  · simpa [List.range_eq_range', Nodes.empty] using hs.funcIds
  · simpa [List.range_eq_range', Nodes.empty] using hs.varIds
  · simpa [List.range_eq_range', Nodes.empty] using hs.exprIds

theorem ofTokens_eq_ok {c : Cursor} {p : Program} :
    ofTokens c = .ok p ↔ ∃ fs, Source.parse c = .ok fs ∧ ofSource fs = p := by
  unfold ofTokens
  cases Source.parse c <;> simp [Except.map]

theorem ofTokens_wellFormed {c : Cursor} {p : Program} (h : ofTokens c = .ok p) :
    p.WellFormed := by
  obtain ⟨fs, -, rfl⟩ := ofTokens_eq_ok.1 h
  exact ofSource_wellFormed fs

/-- Without their numbers, the functions of a stored program are the given ones, spelled out. -/
theorem ofSource_funcs (fs : List Source.Func) :
    (ofSource fs).funcs.map (·.toFunc.map (Tree.Expr.map Site.pos) (·.toVar)) =
      fs.map (Func.map Source.Expr.tree (fun v => v)) :=
  (Source.stored_storeFuncs (run_ofSource fs)).2

end Program
end PrimeLang
