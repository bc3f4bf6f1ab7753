import PrimeLang.Proofs.AcyclicNodes

/-! # Copies of expressions

An expression is copied node by node into tables that grow meanwhile, and what is still to be copied
is read off the grown tables. Since old nodes stay as they are, that stores the tree under the node
once more (`Nodes.copyWithin?_run`). The nodes of a stored tree are all new and refer to one another
as the nodes of a tree do (`Planted`), however much the nodes that were copied are shared. The
second target of a compound assignment is such a copy of the first
(`Source.Expr.run_store_compound`). -/

namespace PrimeLang

/-! ## Stored trees -/

/-- Between `ns` and `ns'` nothing but the expression nodes `new` was added, and these are the nodes
of the trees `ts`: with the roots they refer once to each of them. -/
structure Planted (ns ns' : Nodes) (ts : List (Tree.Expr Site)) (new : List (Node.Expr × Pos)) :
    Prop where
  funcs : ns'.funcs = ns.funcs
  vars : ns'.vars = ns.vars
  stmts : ns'.stmts = ns.stmts
  exprs : ns'.exprs.toList = ns.exprs.toList ++ new
  refs : (ts.map (fun t => NodeRef.expr t.label.id) ++ new.flatMap (·.1.refs)).Perm
    ((ts.flatMap Tree.Expr.labels).map fun s => .expr s.id)

namespace Planted
variable {ns ns₁ ns' : Nodes} {ts ts' : List (Tree.Expr Site)} {new new' : List (Node.Expr × Pos)}

theorem nil (ns : Nodes) : Planted ns ns [] [] :=
  ⟨rfl, rfl, rfl, (List.append_nil _).symm, .refl _⟩

theorem append (h : Planted ns ns₁ ts new) (h' : Planted ns₁ ns' ts' new') :
    Planted ns ns' (ts ++ ts') (new ++ new') where
  funcs := h'.funcs.trans h.funcs
  vars := h'.vars.trans h.vars
  stmts := h'.stmts.trans h.stmts
  exprs := by rw [h'.exprs, h.exprs, List.append_assoc]
  refs := by
    rw [List.map_append, List.flatMap_append, List.flatMap_append, List.map_append]
    refine .trans ?_ (h.refs.append h'.refs)
    rw [List.append_assoc, List.append_assoc]
    exact (List.perm_append_comm_assoc ..).append_left _

/-- A node that refers to the roots makes one tree of them. -/
theorem parent {kids : List (Tree.Expr Site)} {t : Tree.Expr Site} {e : Node.Expr} {pos : Pos}
    (h : Planted ns ns' kids new)
    (hlabels : t.labels = ⟨ns'.exprs.size, pos⟩ :: kids.flatMap Tree.Expr.labels)
    (hrefs : e.refs = kids.map fun k => .expr k.label.id) :
    Planted ns (ns'.addExpr e pos).2 [t] (new ++ [(e, pos)]) where
  funcs := h.funcs
  vars := h.vars
  stmts := h.stmts
  exprs := by rw [Nodes.addExpr, Array.toList_push, h.exprs, List.append_assoc]
  refs := by
    have hroot : t.label = ⟨ns'.exprs.size, pos⟩ := by
      have hhead := t.head?_labels
      rw [hlabels] at hhead
      exact (Option.some.inj hhead).symm
    rw [List.map_singleton, hroot, List.flatMap_append, List.flatMap_singleton, hrefs,
      List.flatMap_singleton, hlabels, List.map_cons, List.singleton_append]
    exact (List.perm_append_comm.trans h.refs).cons _

/-- The new nodes refer once to each of them but the roots. -/
theorem count_refs (h : Planted ns ns' ts new) (hs : Stored ns ns' ts [] []) (k : Nat) :
    (new.flatMap (·.1.refs)).count (.expr k) + (ts.map (·.label.id)).count k =
      if ns.exprs.size ≤ k ∧ k < ns'.exprs.size then 1 else 0 := by
  have hcount := h.refs.count_eq (.expr k)
  have hinj : Function.Injective NodeRef.expr := fun _ _ h => NodeRef.expr.inj h
  have hroots : ts.map (fun t => NodeRef.expr t.label.id) =
      (ts.map (·.label.id)).map NodeRef.expr := by rw [List.map_map]; rfl
  have hids : (ts.flatMap Tree.Expr.labels).map (fun s => NodeRef.expr s.id) =
      ((ts.flatMap Tree.Expr.labels).map Site.id).map NodeRef.expr := by rw [List.map_map]; rfl
  rw [List.count_append, hroots, hids, List.count_map_of_injective _ _ hinj,
    List.count_map_of_injective _ _ hinj, hs.exprIds.count_eq] at hcount
  rw [Nat.add_comm, hcount, List.Nodup.count List.nodup_range']
  have hle := hs.le.size_exprs
  simp only [List.mem_range'_1]
  congr 1
  rw [eq_iff_iff]
  omega

end Planted

namespace Tree.Expr

mutual

theorem planted_store {ns ns' : Nodes} (e : Expr Pos) {t : Expr Site}
    (h : e.store.run ns = (t, ns')) : ∃ new, Planted ns ns' [t] new := by
  cases e with
  | assign pos target value | binary pos op target value =>
    simp only [store, Storing.run_bind_eq, Storing.run_pure_eq, Storing.run_addExpr_eq] at h
    obtain ⟨t₁, ns₁, h₁, t₂, ns₂, h₂, _, _, ⟨rfl, rfl⟩, rfl, rfl⟩ := h
    obtain ⟨new₁, hp₁⟩ := planted_store target h₁
    obtain ⟨new₂, hp₂⟩ := planted_store value h₂
    exact ⟨_, (hp₁.append hp₂).parent (by simp [labels]) rfl⟩
  | ident pos name es | call pos name es =>
    simp only [store, Storing.run_bind_eq, Storing.run_pure_eq, Storing.run_addExpr_eq] at h
    obtain ⟨ts, ns₁, h₁, _, _, ⟨rfl, rfl⟩, rfl, rfl⟩ := h
    obtain ⟨new, hp⟩ := planted_storeAll es h₁
    refine ⟨_, hp.parent (by simp [labels, labelsAll_eq_flatMap]) ?_⟩
    rw [Node.Expr.refs, List.map_map]
    rfl
  | literal pos value =>
    simp only [store, Storing.run_bind_eq, Storing.run_pure_eq, Storing.run_addExpr_eq] at h
    obtain ⟨_, _, ⟨rfl, rfl⟩, rfl, rfl⟩ := h
    exact ⟨_, (Planted.nil ns).parent rfl rfl⟩

theorem planted_storeAll {ns ns' : Nodes} (es : List (Expr Pos)) {ts : List (Expr Site)}
    (h : (storeAll es).run ns = (ts, ns')) : ∃ new, Planted ns ns' ts new := by
  cases es with
  | nil =>
    obtain ⟨rfl, rfl⟩ := Storing.run_pure_eq.1 h
    exact ⟨[], .nil ns⟩
  | cons e es =>
    simp only [storeAll, Storing.run_bind_eq, Storing.run_pure_eq] at h
    obtain ⟨t, ns₁, h₁, ts, ns₂, h₂, rfl, rfl⟩ := h
    obtain ⟨new₁, hp₁⟩ := planted_store e h₁
    obtain ⟨new₂, hp₂⟩ := planted_storeAll es h₂
    exact ⟨_, hp₁.append hp₂⟩

end

/-- The root is stored last. -/
theorem label_store {ns ns' : Nodes} {e : Expr Pos} {t : Expr Site}
    (h : e.store.run ns = (t, ns')) : t.label.id + 1 = ns'.exprs.size := by
  cases e with
  | assign pos target value | binary pos op target value =>
    simp only [store, Storing.run_bind_eq, Storing.run_pure_eq, Storing.run_addExpr_eq] at h
    obtain ⟨t₁, ns₁, -, t₂, ns₂, -, _, _, ⟨rfl, rfl⟩, rfl, rfl⟩ := h
    exact (Nodes.size_exprs_addExpr ..).symm
  | ident pos name es | call pos name es =>
    simp only [store, Storing.run_bind_eq, Storing.run_pure_eq, Storing.run_addExpr_eq] at h
    obtain ⟨ts, ns₁, -, _, _, ⟨rfl, rfl⟩, rfl, rfl⟩ := h
    exact (Nodes.size_exprs_addExpr ..).symm
  | literal pos value =>
    simp only [store, Storing.run_bind_eq, Storing.run_pure_eq, Storing.run_addExpr_eq] at h
    obtain ⟨_, _, ⟨rfl, rfl⟩, rfl, rfl⟩ := h
    exact (Nodes.size_exprs_addExpr ..).symm

end Tree.Expr

/-! ## Copying is storing once more -/

namespace Nodes
variable {ns m m' : Nodes} {n : Nat} {id : ExprId} {t t' : Tree.Expr Site}

private theorem run_bind_of_some {α β : Type} {x : StateT Nodes Option α}
    {f : α → StateT Nodes Option β} {a : α} (h : x.run m = some (a, m')) :
    (x >>= f).run m = (f a).run m' := by
  rw [StateT.run_bind, h]
  rfl

/-- If each expression is copied as it is stored, then so are several in order. -/
theorem mapM_copyWithin?_run
    (hcopy : ∀ {id t m t' m'}, ns ≤ m → ns.exprWithin? n id = some t →
      (t.map Site.pos).store.run m = (t', m') → (copyWithin? n id).run m = some (t'.label.id, m'))
    (hle : ns ≤ m) {ids : List ExprId} {ts ts' : List (Tree.Expr Site)}
    (hts : ids.mapM (ns.exprWithin? n) = some ts)
    (hstore : (Tree.Expr.storeAll (Tree.Expr.mapAll Site.pos ts)).run m = (ts', m')) :
    (ids.mapM (copyWithin? n)).run m = some (ts'.map (·.label.id), m') := by
  induction ids generalizing m ts ts' with
  | nil =>
    cases hts
    obtain ⟨rfl, rfl⟩ := Storing.run_pure_eq.1 hstore
    rfl
  | cons id ids ih =>
    simp only [List.mapM_cons, Option.bind_eq_bind, Option.bind_eq_some_iff, Option.pure_def,
      Option.some.injEq] at hts
    obtain ⟨t, ht, ts, hts, rfl⟩ := hts
    simp only [Tree.Expr.mapAll, Tree.Expr.storeAll, Storing.run_bind_eq, Storing.run_pure_eq]
      at hstore
    obtain ⟨t', m₁, h₁, ts', m₂, h₂, rfl, rfl⟩ := hstore
    have hle₁ : ns ≤ m₁ := le_trans hle (Tree.Expr.stored_store _ h₁).1.le
    rw [List.mapM_cons, run_bind_of_some (hcopy hle ht h₁), run_bind_of_some (ih hle₁ hts h₂)]
    rfl

/-- In tables that have grown, a copy of what is under an old node is the same tree stored. -/
theorem copyWithin?_run (hle : ns ≤ m) (ht : ns.exprWithin? n id = some t)
    (hstore : (t.map Site.pos).store.run m = (t', m')) :
    (copyWithin? n id).run m = some (t'.label.id, m') := by
  induction n generalizing m m' id t t' with
  | zero => cases ht
  | succ n ih =>
    simp only [exprWithin?, Option.bind_eq_bind, Option.bind_eq_some_iff] at ht
    obtain ⟨⟨e, pos⟩, he, ht⟩ := ht
    -- the node is still there, though other expressions were copied before
    have hread : (liftM m.exprs[id]? : StateT Nodes Option (Node.Expr × Pos)).run m =
        some ((e, pos), m) := by
      rw [hle.getElem?_exprs he]
      rfl
    rw [copyWithin?, run_bind_of_some (rfl : (get : StateT Nodes Option Nodes).run m = some (m, m)),
      run_bind_of_some hread]
    cases e with
    | assign l r | binary op l r =>
      simp only [Option.bind_eq_some_iff, Option.pure_def, Option.some.injEq] at ht
      obtain ⟨a, ha, b, hb, rfl⟩ := ht
      simp only [Tree.Expr.map, Tree.Expr.store, Storing.run_bind_eq, Storing.run_pure_eq,
        Storing.run_addExpr_eq] at hstore
      obtain ⟨t₁, m₁, h₁, t₂, m₂, h₂, _, _, ⟨rfl, rfl⟩, rfl, rfl⟩ := hstore
      have hle₁ : ns ≤ m₁ := le_trans hle (Tree.Expr.stored_store _ h₁).1.le
      simp only [pure_bind]
      rw [run_bind_of_some (ih hle ha h₁), run_bind_of_some (ih hle₁ hb h₂)]
      rfl
    | ident name ids | call name ids =>
      simp only [Option.bind_eq_some_iff, Option.pure_def, Option.some.injEq] at ht
      obtain ⟨as, has, rfl⟩ := ht
      simp only [Tree.Expr.map, Tree.Expr.store, Storing.run_bind_eq, Storing.run_pure_eq,
        Storing.run_addExpr_eq] at hstore
      obtain ⟨ts, m₁, h₁, _, _, ⟨rfl, rfl⟩, rfl, rfl⟩ := hstore
      simp only [pure_bind]
      rw [run_bind_of_some (mapM_copyWithin?_run ih hle has h₁)]
      rfl
    | literal value =>
      cases ht
      simp only [Tree.Expr.map, Tree.Expr.store, Storing.run_bind_eq, Storing.run_pure_eq,
        Storing.run_addExpr_eq] at hstore
      obtain ⟨_, _, ⟨rfl, rfl⟩, rfl, rfl⟩ := hstore
      rfl

/-- Every expression of nodes without a cycle can be copied. All nodes stay as they are, and as many
expression nodes are added as the tree under the given one has; the copy is the last of them. What
is under it is the same tree, positions included, and consists of new nodes. Of these each but the
copy itself is referred to once among the new nodes, which refer to nothing else. -/
theorem copies_are_fresh_trees (h : ns.Acyclic) (hid : id < ns.exprs.size) :
    ∃ t copy root ns' new, ns.expr? id = some t ∧ ns.copy? id = some (root, ns') ∧
      ns'.funcs = ns.funcs ∧ ns'.vars = ns.vars ∧ ns'.stmts = ns.stmts ∧
      ns'.exprs.toList = ns.exprs.toList ++ new ∧ new.length = t.labels.length ∧
      root + 1 = ns'.exprs.size ∧
      ns'.expr? root = some copy ∧ copy.map Site.pos = t.map Site.pos ∧
      (∀ s ∈ copy.labels, ns.exprs.size ≤ s.id) ∧
      ∀ k : Nat, (new.flatMap (·.1.refs)).count (.expr k) =
        if ns.exprs.size ≤ k ∧ k < root then 1 else 0 := by
  obtain ⟨t, ht⟩ := h.exists_expr? hid
  obtain ⟨⟨copy, ns'⟩, hstore⟩ : ∃ r, (t.map Site.pos).store.run ns = r := ⟨_, rfl⟩
  obtain ⟨hstored, hmap⟩ := Tree.Expr.stored_store _ hstore
  obtain ⟨new, hplanted⟩ := Tree.Expr.planted_store _ hstore
  have hlast := Tree.Expr.label_store hstore
  have hids : (copy.labels.map Site.id).Perm
      (List.range' ns.exprs.size (ns'.exprs.size - ns.exprs.size)) := by
    have hperm := hstored.exprIds
    rwa [List.flatMap_singleton] at hperm
  refine ⟨t, copy, copy.label.id, ns', new, ht, copyWithin?_run (le_refl ns) ht hstore,
    hplanted.funcs, hplanted.vars, hplanted.stmts, hplanted.exprs, ?_, hlast,
    hstored.expr? copy List.mem_cons_self, hmap, fun s hs => ?_, fun k => ?_⟩
  · have hsize := congrArg List.length hplanted.exprs
    have hlength := hids.length_eq
    rw [List.length_append, Array.length_toList, Array.length_toList] at hsize
    rw [List.length_map, List.length_range', Tree.Expr.length_labels_of_map hmap] at hlength
    omega
  · have hmem := hids.mem_iff.1 (List.mem_map_of_mem hs)
    exact (List.mem_range'_1.1 hmem).1
  · have hcount := hplanted.count_refs hstored k
    rw [List.map_singleton, List.count_singleton, ← hlast] at hcount
    simp only [beq_iff_eq] at hcount
    split_ifs at hcount ⊢ <;> omega

/-- The sum `x[0] + x[0]`, whose summands are one node. -/
def sharedSummand : Nodes where
  funcs := #[]
  vars := #[]
  stmts := #[]
  exprs := #[(.literal 0, ⟨2, 0, 2⟩), (.ident "x" [0], ⟨0, 0, 0⟩), (.binary .add 1 1, ⟨5, 0, 5⟩)]

theorem copies_are_fresh_trees_sharedSummand : ∃ copy ns', sharedSummand.Acyclic ∧
    sharedSummand.copy? 2 = some (7, ns') ∧ ns'.exprs.size = 8 ∧ ns'.expr? 7 = some copy ∧
    copy.map Site.pos = .binary ⟨5, 0, 5⟩ .add
      (.ident ⟨0, 0, 0⟩ "x" [.literal ⟨2, 0, 2⟩ 0]) (.ident ⟨0, 0, 0⟩ "x" [.literal ⟨2, 0, 2⟩ 0]) ∧
    ∀ s ∈ copy.labels, 3 ≤ s.id := by
  have hacyclic : sharedSummand.Acyclic := by
    refine .of_lt (by decide) ?_ ?_
    · rintro (_ | _ | _ | id) child ⟨e, pos, he, hc⟩ <;> simp [sharedSummand] at he <;>
        obtain ⟨rfl, -⟩ := he <;> simp [Node.Expr.refs] at hc <;> simp [hc]
    · rintro id child ⟨s, hs, -⟩
      simp [sharedSummand] at hs
  obtain ⟨t, copy, root, ns', new, ht, hcopy, -, -, -, hexprs, hnew, hroot, hread, hmap, hfresh,
    -⟩ := @copies_are_fresh_trees sharedSummand 2 hacyclic (by decide)
  obtain rfl : _ = t := Option.some.inj ht
  have hsize : ns'.exprs.size = 8 := by
    have hlength := congrArg List.length hexprs
    rwa [List.length_append, hnew, Array.length_toList] at hlength
  obtain rfl : root = 7 := Nat.succ.inj (hroot.trans hsize)
  exact ⟨copy, ns', hacyclic, hcopy, hsize, hread, hmap, hfresh⟩

end Nodes

/-! ## Copies of targets -/

/-- A compound assignment stores its target and its value, and then copies what is under the stored
target. -/
theorem Source.Expr.run_store_compound (op : BinaryOp) (pos : Pos) (target value : Source.Expr)
    (ns : Nodes) : ∃ stored ns₁ operand ns₂ copy ns₃, target.store.run ns = (stored, ns₁) ∧
      value.store.run ns₁ = (operand, ns₂) ∧
      ns₂.copy? stored.label.id = some (copy.label.id, ns₃) ∧
      (assign (some op) pos target value).store.run ns =
        let (result, ns₄) := ns₃.addExpr (.binary op copy.label.id operand.label.id) pos
        let (id, ns₅) := ns₄.addExpr (.assign stored.label.id result) pos
        (.assign ⟨id, pos⟩ stored (.binary ⟨result, pos⟩ op copy operand), ns₅) := by
  obtain ⟨⟨stored, ns₁⟩, h₁⟩ : ∃ r, target.store.run ns = r := ⟨_, rfl⟩
  obtain ⟨⟨operand, ns₂⟩, h₂⟩ : ∃ r, value.store.run ns₁ = r := ⟨_, rfl⟩
  obtain ⟨⟨copy, ns₃⟩, h₃⟩ : ∃ r, target.tree.store.run ns₂ = r := ⟨_, rfl⟩
  obtain ⟨htarget, hspelled⟩ := stored_store target h₁
  -- the value was stored meanwhile, which leaves the target as it is
  have hread : ns₂.expr? stored.label.id = some stored :=
    Nodes.expr?_mono (stored_store value h₂).1.le (htarget.expr? stored List.mem_cons_self)
  refine ⟨stored, ns₁, operand, ns₂, copy, ns₃, h₁, h₂, ?_, ?_⟩
  · exact Nodes.copyWithin?_run (Nodes.le_refl ns₂) hread (hspelled ▸ h₃)
  · simp only [store, Storing.run_bind_eq, Storing.run_pure_eq, Storing.run_addExpr_eq]
    exact ⟨_, _, h₁, _, _, h₂, _, _, h₃, _, _, ⟨rfl, rfl⟩, _, _, ⟨rfl, rfl⟩, rfl, rfl⟩

end PrimeLang
