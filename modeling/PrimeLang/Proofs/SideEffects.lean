import PrimeLang.Proofs.AcyclicNodes
import PrimeLang.Proofs.FunctionRegions
import PrimeLang.Proofs.IdealAssembler

/-! # Side effects and the use of values

Where the value of an expression is not used, its code leaves out what only serves the value. What
it stores and what it calls stays the same, in the same order: one store for every assignment and
one call for every call of a function. -/

namespace PrimeLang
open Machine Action

namespace Request

/-- Stores a word in a variable or in an element. -/
def stores (q : Request) : Bool := q.op == .store || q.op == .storeIndirect

/-- Calls a function of the program; a primitive routine lies elsewhere. -/
def calls (q : Request) : Bool := q.op == .call && q.r == .cb

end Request

/-- The stores and calls among requests. -/
def sideEffects (qs : List Request) : List Request := qs.filter fun q => q.stores || q.calls

@[simp] theorem sideEffects_append (qs qs' : List Request) :
    sideEffects (qs ++ qs') = sideEffects qs ++ sideEffects qs' := List.filter_append ..

namespace Tree.Expr
variable {α : Type}

mutual

/-- All subtrees of an expression, outer before inner and from left to right. -/
def parts : Expr α → List (Expr α)
  | assign a target value => assign a target value :: (target.parts ++ value.parts)
  | binary a op lhs rhs => binary a op lhs rhs :: (lhs.parts ++ rhs.parts)
  | ident a name indices => ident a name indices :: partsAll indices
  | literal a value => [literal a value]
  | call a name args => call a name args :: partsAll args

def partsAll : List (Expr α) → List (Expr α)
  | [] => []
  | e :: es => e.parts ++ partsAll es

end

def isAssign : Expr α → Bool
  | assign .. => true
  | _ => false

def isCall : Expr α → Bool
  | call .. => true
  | _ => false

end Tree.Expr

namespace Segment

@[simp] theorem requests_append (es es' : List Edit) :
    requests (es ++ es') = requests es ++ requests es' := List.filterMap_append

end Segment

namespace Generate
open Segment
variable {α β : Type} {g : Generator}

/-! ## What an action asks for -/

/-- Whatever the segment of `g` is, `x` ends with `r` and does nothing but edit the segment by
`es`. -/
def Issues (x : Generate α) (g : Generator) (r : Except Unresolved α) (es : List Edit) : Prop :=
  ∀ s, exec x { g with segment := s } = (r, { g with segment := es.foldl Edit.apply s })

theorem Issues.bind {x : Generate α} {f : α → Generate β} {a : α} {r : Except Unresolved β}
    {es es' : List Edit} (hx : Issues x g (.ok a) es) (hf : Issues (f a) g r es') :
    Issues (x >>= f) g r (es ++ es') := by
  intro s
  rw [exec_bind, hx s, andThen_ok, List.foldl_append]
  exact hf _

theorem Issues.bind_error {x : Generate α} {f : α → Generate β} {e : Unresolved} {es : List Edit}
    (hx : Issues x g (.error e) es) : Issues (x >>= f) g (.error e) es := by
  intro s
  rw [exec_bind, hx s, andThen_error]

theorem issues_pure (a : α) : Issues (pure a) g (.ok a) [] := fun _ => rfl

theorem issues_emit (op : Opcode) (n : Int) (r : Register) (d : Int) :
    Issues (emit op n r d) g (.ok ()) [.emit ⟨op, n, r, d⟩] := fun _ => rfl

/-- A register is found without a request, though maybe with a warning. -/
theorem issues_registerFor (cx : Context) (L : Layout) (level : Nat) :
    ∃ es, Issues (registerFor level) g (.ok ((g.env cx L).register level)) es ∧
      requests es = [] := by
  unfold registerFor Code.Env.register
  split
  · exact ⟨[], issues_pure _, rfl⟩
  · show ∃ es, Issues _ g (.ok ((Register.display? (g.level - level)).getD .l6)) es ∧ _
    cases hr : Register.display? (g.level - level) with
    | some r =>
      refine ⟨[], fun s => ?_, rfl⟩
      rw [exec_get_bind]
      simp only [hr]
      rfl
    | none =>
      refine ⟨[.warn (.outOfReach (g.level - level))], fun s => ?_, rfl⟩
      rw [exec_get_bind]
      simp only [hr]
      rfl

/-- From `g`, `x` succeeds and asks for `qs`. -/
def Asks (g : Generator) (x : Generate Unit) (qs : List Request) : Prop :=
  ∃ es, Issues x g (.ok ()) es ∧ requests es = qs

theorem asks_pure : Asks g (pure ()) [] := ⟨[], issues_pure (), rfl⟩

theorem asks_emit (op : Opcode) (n : Int) (r : Register) (d : Int) :
    Asks g (emit op n r d) [⟨op, n, r, d⟩] := ⟨_, issues_emit op n r d, rfl⟩

theorem Asks.bind {x y : Generate Unit} {qs ps : List Request} (hx : Asks g x qs)
    (hy : Asks g y ps) : Asks g (x >>= fun _ => y) (qs ++ ps) := by
  obtain ⟨es, hes, rfl⟩ := hx
  obtain ⟨es', hes', rfl⟩ := hy
  exact ⟨es ++ es', hes.bind hes', requests_append es es'⟩

/-- An instruction that needs a register for a level. -/
theorem asks_withRegister (cx : Context) (L : Layout) {level : Nat} {f : Register → Generate Unit}
    {qs : List Request} (hf : Asks g (f ((g.env cx L).register level)) qs) :
    Asks g (registerFor level >>= f) qs := by
  obtain ⟨es, hreg, hnone⟩ := issues_registerFor (g := g) cx L level
  obtain ⟨es', hes', hqs⟩ := hf
  refine ⟨es ++ es', hreg.bind hes', ?_⟩
  rw [requests_append, hnone, hqs, List.nil_append]

theorem asks_access (cx : Context) (L : Layout) (op : Opcode) (size : Int) (a : Address) :
    Asks g (access op size a) [(g.env cx L).access op size a] := by
  apply asks_withRegister cx L
  exact ⟨[.emit ((g.env cx L).access op size a)], fun _ => rfl, rfl⟩

/-! ## Two actions side by side -/

/-- From `g`, `x` and `y` end alike and with the same side effects. If they succeed, then `x` asks
for `qs` and `y` for `qs'`. -/
def Parallel (g : Generator) (x y : Generate Unit) (qs qs' : List Request) : Prop :=
  ∃ r es es', Issues x g r es ∧ Issues y g r es' ∧
    sideEffects (requests es) = sideEffects (requests es') ∧
    (r = .ok () → requests es = qs ∧ requests es' = qs')

section
variable {x x' y y' z : Generate Unit} {qs qs' ps ps' : List Request}

theorem Asks.parallel (hx : Asks g x qs) (hy : Asks g y qs')
    (h : sideEffects qs = sideEffects qs') : Parallel g x y qs qs' := by
  obtain ⟨es, hes, rfl⟩ := hx
  obtain ⟨es', hes', rfl⟩ := hy
  exact ⟨.ok (), es, es', hes, hes', h, fun _ => ⟨rfl, rfl⟩⟩

theorem Asks.both (hx : Asks g x qs) : Parallel g x x qs qs := hx.parallel hx rfl

namespace Parallel

theorem throw (e : Unresolved) : Parallel g (throw e) (throw e) qs qs' :=
  ⟨.error e, [], [], fun _ => rfl, fun _ => rfl, rfl, nofun⟩

theorem left (h : Parallel g x y qs qs') : Parallel g x x qs qs := by
  obtain ⟨r, es, _, hes, -, -, hqs⟩ := h
  exact ⟨r, es, es, hes, hes, rfl, fun hr => ⟨(hqs hr).1, (hqs hr).1⟩⟩

theorem bind (h : Parallel g x y qs qs') (h' : Parallel g x' y' ps ps') :
    Parallel g (x >>= fun _ => x') (y >>= fun _ => y') (qs ++ ps) (qs' ++ ps') := by
  obtain ⟨r, es, es', hx, hy, hsame, hqs⟩ := h
  cases r with
  | error e => exact ⟨.error e, es, es', hx.bind_error, hy.bind_error, hsame, nofun⟩
  | ok u =>
    obtain ⟨r, fs, fs', hx', hy', hsame', hps⟩ := h'
    refine ⟨r, es ++ fs, es' ++ fs', hx.bind hx', hy.bind hy', ?_, fun hr => ?_⟩
    · rw [requests_append, requests_append, sideEffects_append, sideEffects_append, hsame, hsame']
    · rw [requests_append, requests_append, (hqs rfl).1, (hqs rfl).2, (hps hr).1, (hps hr).2]
      exact ⟨rfl, rfl⟩

/-- Only the left action begins with requests for the sake of a value. -/
theorem skip (hz : Asks g z ps) (hsilent : sideEffects ps = []) (h : Parallel g x y qs qs') :
    Parallel g (z >>= fun _ => x) y (ps ++ qs) qs' := by
  have hbind := (hz.parallel asks_pure hsilent).bind h
  rwa [pure_bind, List.nil_append] at hbind

/-- Only the left action ends with requests for the sake of a value. -/
theorem skip_last (h : Parallel g x y qs qs') (hz : Asks g z ps) (hsilent : sideEffects ps = []) :
    Parallel g (x >>= fun _ => z) y (qs ++ ps) qs' := by
  have hbind := h.bind (hz.parallel asks_pure hsilent)
  rwa [bind_pure_unit, List.append_nil] at hbind

/-- Names are looked up outside the segment. -/
theorem query (look : Generator → Except Unresolved α) {f f' : α → Generate Unit}
    (hlook : ∀ s, look { g with segment := s } = look g)
    (h : ∀ a, look g = .ok a → Parallel g (f a) (f' a) qs qs') :
    Parallel g (get >>= fun g => (liftM (look g) : Generate α) >>= f)
      (get >>= fun g => (liftM (look g) : Generate α) >>= f') qs qs' := by
  cases ha : look g with
  | error e =>
    have herror (f : α → Generate Unit) :
        Issues (get >>= fun g => (liftM (look g) : Generate α) >>= f) g (.error e) [] := by
      intro s
      rw [exec_get_bind, exec_bind, exec_lift, hlook, ha]
      rfl
    exact ⟨.error e, [], [], herror f, herror f', rfl, nofun⟩
  | ok a =>
    have hok {f : α → Generate Unit} {r : Except Unresolved Unit} {es : List Edit}
        (hf : Issues (f a) g r es) :
        Issues (get >>= fun g => (liftM (look g) : Generate α) >>= f) g r es := by
      intro s
      rw [exec_get_bind, exec_bind, exec_lift, hlook, ha]
      exact hf s
    obtain ⟨r, es, es', hx, hy, hrest⟩ := h a ha
    exact ⟨r, es, es', hok hx, hok hy, hrest⟩

end Parallel
end

/-! ## Expressions -/

section
variable {cx : Context} {site : Site} {name : String} {v : Var} {a : Address}

theorem asks_moveAt (op : Opcode) (hv : g.variableOf cx site name = .ok (v, a)) :
    Asks g (access op v.ty.size a) [(g.env cx g.layout).moveAt op site] := by
  rw [Code.Env.moveAt, Generator.typeAt_of_variableOf hv,
    Generator.placeAt_of_variableOf hv ⟨Table.le_refl _, Table.le_refl _⟩]
  exact asks_access cx g.layout op _ a

theorem asks_loadArrayAt (hv : g.variableOf cx site name = .ok (v, a)) :
    Asks g (load addressSize a) [(g.env cx g.layout).loadArrayAt site] := by
  rw [Code.Env.loadArrayAt, Generator.placeAt_of_variableOf hv ⟨Table.le_refl _, Table.le_refl _⟩]
  exact asks_access cx g.layout .load _ a

theorem asks_callAt {ret : Option Ty} {rest : Generate Unit} {ps : List Request}
    (hf : g.calleeOf cx site name = .ok (ret, a)) (hrest : Asks g rest ps) :
    Asks g (registerFor a.level >>= fun link =>
        emit .call link.number .cb a.displacement >>= fun _ => rest)
      ([(g.env cx g.layout).callAt site] ++ ps) := by
  apply asks_withRegister cx g.layout
  rw [Code.Env.callAt, Generator.entryAt_of_calleeOf hf ⟨Table.le_refl _, Table.le_refl _⟩]
  exact (asks_emit ..).bind hrest

end

mutual

/-- An expression for its value and for its effect. -/
theorem parallel_expr (cx : Context) (g : Generator) : ∀ e : Tree.Expr Site,
    Parallel g (expr cx .value e) (expr cx .effect e)
      (Code.expr (g.env cx g.layout) .value e) (Code.expr (g.env cx g.layout) .effect e)
  | .assign _ (.ident site name []) value => by
    rw [expr, expr, Code.expr, Code.expr, List.append_assoc, List.append_assoc]
    refine .query (·.variableOf cx site name) (fun _ => rfl) fun (v, a) hv => ?_
    refine (parallel_expr cx g value).left.bind ((asks_moveAt .store hv).both.bind ?_)
    exact (asks_moveAt .load hv).parallel asks_pure rfl
  | .assign _ (.ident site name (index :: indices)) value => by
    rw [expr, expr, Code.expr, Code.expr]
    simp only [List.append_assoc]
    refine .query (·.variableOf cx site name) (fun _ => rfl) fun (v, a) hv => ?_
    refine (parallel_expr cx g value).left.bind (.skip (asks_emit ..) rfl ?_)
    refine (asks_loadArrayAt hv).both.bind ?_
    exact (parallel_element cx g (index :: indices)).left.bind (asks_emit ..).both
  | .assign _ (.assign _ _ _) _ => .throw _
  | .assign _ (.binary _ _ _ _) _ => .throw _
  | .assign _ (.literal _ _) _ => .throw _
  | .assign _ (.call _ _ _) _ => .throw _
  | .binary _ op lhs rhs => by
    rw [expr, expr, Code.expr, Code.expr, List.append_assoc, List.append_assoc]
    refine (parallel_expr cx g lhs).left.bind ((parallel_expr cx g rhs).left.bind ?_)
    exact (asks_emit ..).parallel (asks_emit ..) rfl
  | .ident site name indices => by
    rw [expr, expr, Code.expr.eq_def, Code.expr.eq_def]
    refine .query (·.variableOf cx site name) (fun _ => rfl) fun (v, a) hv => ?_
    cases indices with
    | nil =>
      simp only [exprs, Code.exprs]
      exact (asks_moveAt .load hv).parallel asks_pure rfl
    | cons index indices =>
      simp only [List.append_assoc]
      refine .skip (asks_loadArrayAt hv) rfl ?_
      exact (parallel_element cx g (index :: indices)).skip_last (asks_emit ..) rfl
  | .literal _ value => by
    rw [expr, expr, Code.expr, Code.expr]
    exact (asks_emit ..).parallel asks_pure rfl
  | .call site name args => by
    rw [expr, expr, Code.expr, Code.expr]
    simp only [List.append_assoc]
    refine .query (·.calleeOf cx site name) (fun _ => rfl) fun (ret, a) hf => ?_
    refine (parallel_exprs cx g args).left.bind ?_
    -- a result is discarded where it is not used
    rw [Generator.resultAt_of_calleeOf hf]
    cases ret with
    | none => exact (asks_callAt hf asks_pure).both
    | some ty => exact (asks_callAt hf asks_pure).parallel (asks_callAt hf (asks_emit ..)) rfl

/-- Expressions in order, all for their values and all for their effects. -/
theorem parallel_exprs (cx : Context) (g : Generator) : ∀ es : List (Tree.Expr Site),
    Parallel g (exprs cx .value es) (exprs cx .effect es)
      (Code.exprs (g.env cx g.layout) .value es) (Code.exprs (g.env cx g.layout) .effect es)
  | [] => by
    rw [exprs, exprs, Code.exprs, Code.exprs]
    exact asks_pure.both
  | e :: es => by
    rw [exprs, exprs, Code.exprs, Code.exprs]
    exact (parallel_expr cx g e).bind (parallel_exprs cx g es)

/-- Indices that are added to an address, and indices that are evaluated for their effects. -/
theorem parallel_element (cx : Context) (g : Generator) : ∀ es : List (Tree.Expr Site),
    Parallel g (element cx es) (exprs cx .effect es)
      (Code.element (g.env cx g.layout) es) (Code.exprs (g.env cx g.layout) .effect es)
  | [] => by
    rw [element, exprs, Code.element, Code.exprs]
    exact asks_pure.both
  | e :: es => by
    rw [element, exprs, Code.element, Code.exprs, List.append_assoc]
    exact (parallel_expr cx g e).bind (.skip (asks_emit ..) rfl (parallel_element cx g es))

end

end Generate

/-! ## One request for each node -/

namespace Code

/-- As many calls and stores as nodes that ask for one. -/
structure Counts (qs : List Request) (es : List (Tree.Expr Site)) : Prop where
  calls : qs.countP Request.calls = es.countP Tree.Expr.isCall
  stores : qs.countP Request.stores = es.countP Tree.Expr.isAssign

namespace Counts
variable {qs qs' : List Request} {es es' : List (Tree.Expr Site)}

theorem nil : Counts [] [] := ⟨rfl, rfl⟩

theorem append (h : Counts qs es) (h' : Counts qs' es') : Counts (qs ++ qs') (es ++ es') where
  calls := by rw [List.countP_append, List.countP_append, h.calls, h'.calls]
  stores := by rw [List.countP_append, List.countP_append, h.stores, h'.stores]

theorem comm (h : Counts qs (es ++ es')) : Counts qs (es' ++ es) where
  calls := h.calls.trans (List.perm_append_comm.countP_eq _)
  stores := h.stores.trans (List.perm_append_comm.countP_eq _)

end Counts

mutual

theorem counts_expr (env : Env) : ∀ (use : Use) (e : Tree.Expr Site), e.AssignsNames →
    Counts (expr env use e) e.parts
  | use, .assign a (.ident site name []) value, h => by
    have hstore : Counts ([env.moveAt .store site] ++
        if use = .value then [env.moveAt .load site] else [])
        [.assign a (.ident site name []) value, .ident site name []] := by
      cases use <;> exact ⟨rfl, rfl⟩
    rw [expr, List.append_assoc]
    exact ((counts_expr env .value value h.2.2).append hstore).comm
  | use, .assign a (.ident site name (index :: indices)) value, h => by
    have hload : Counts ((if use = .value then [⟨.load, integerSize, .st, -integerSize⟩] else []) ++
        [env.loadArrayAt site]) [.ident site name (index :: indices)] := by
      cases use <;> exact ⟨rfl, rfl⟩
    have hstore : Counts [⟨.storeIndirect, integerSize, .cb, 0⟩]
        [.assign a (.ident site name (index :: indices)) value] := ⟨rfl, rfl⟩
    have htarget := ((hload.append (counts_element env _ h.2.1)).append hstore).comm
    have hvalue := counts_expr env .value value h.2.2
    rw [expr, List.append_assoc (expr ..), List.append_assoc (expr ..), List.append_assoc (expr ..)]
    exact (hvalue.append htarget).comm
  | _, .assign _ (.assign _ _ _) _, h | _, .assign _ (.binary _ _ _ _) _, h
  | _, .assign _ (.literal _ _) _, h | _, .assign _ (.call _ _ _) _, h => by
    obtain ⟨_, _, _, htarget⟩ := h.1
    cases htarget
  | use, .binary a op lhs rhs, h => by
    have hop : Counts [combine use op] [.binary a op lhs rhs] := by
      cases use <;> exact ⟨rfl, rfl⟩
    rw [expr]
    exact (((counts_expr env .value lhs h.1).append (counts_expr env .value rhs h.2)).append
      hop).comm
  | .effect, .ident site name indices, h => by
    have hname : Counts [] [.ident site name indices] := ⟨rfl, rfl⟩
    rw [expr]
    exact hname.append (counts_exprs env .effect indices h)
  | .value, .ident site name [], h => ⟨rfl, rfl⟩
  | .value, .ident site name (index :: indices), h => by
    have hload : Counts [env.loadArrayAt site] [.ident site name (index :: indices)] := ⟨rfl, rfl⟩
    have hloadIndirect : Counts [⟨.loadIndirect, integerSize, .cb, 0⟩] [] := ⟨rfl, rfl⟩
    have hall := (hload.append (counts_element env _ h)).append hloadIndirect
    rw [List.append_nil] at hall
    exact hall
  | use, .literal a value, _ => by
    cases use <;> exact ⟨rfl, rfl⟩
  | use, .call site name args, h => by
    have hcall : Counts ([env.callAt site] ++ discard use (env.resultAt site))
        [.call site name args] := by
      cases use <;> cases env.resultAt site <;> exact ⟨rfl, rfl⟩
    rw [expr, List.append_assoc]
    exact ((counts_exprs env .value args h).append hcall).comm

theorem counts_exprs (env : Env) : ∀ (use : Use) (es : List (Tree.Expr Site)),
    Tree.Expr.AssignsNamesAll es → Counts (exprs env use es) (Tree.Expr.partsAll es)
  | _, [], _ => .nil
  | use, e :: es, h => by
    rw [exprs, Tree.Expr.partsAll]
    exact (counts_expr env use e h.1).append (counts_exprs env use es h.2)

theorem counts_element (env : Env) : ∀ es : List (Tree.Expr Site),
    Tree.Expr.AssignsNamesAll es → Counts (element env es) (Tree.Expr.partsAll es)
  | [], _ => .nil
  | e :: es, h => by
    have hadd : Counts [routine .add] [] := ⟨rfl, rfl⟩
    have hindex := (counts_expr env .value e h.1).append hadd
    rw [List.append_nil] at hindex
    rw [element, Tree.Expr.partsAll]
    exact hindex.append (counts_element env es h.2)

end

end Code

/-! ## Expressions of a program -/

/-- The target of every assignment node is the node of a name. -/
def Nodes.AssignsNames (ns : Nodes) : Prop :=
  ∀ (id target value : ExprId) (pos : Pos), ns.exprs[id]? = some (.assign target value, pos) →
    ∃ name indices pos', ns.exprs[target]? = some (.ident name indices, pos')

namespace Tree.Expr
variable {ns : Nodes}

mutual

theorem assignsNames_of_held (hns : ns.AssignsNames) : ∀ e : Expr Site, e.Held ns → e.AssignsNames
  | assign a target value, h => by
    refine ⟨?_, assignsNames_of_held hns target h.2.1, assignsNames_of_held hns value h.2.2⟩
    obtain ⟨name, indices, pos, hident⟩ := hns _ _ _ _ h.1
    cases target with
    | ident b name' es => exact ⟨b, name', es, rfl⟩
    | assign | binary | call => cases hident.symm.trans h.2.1.1
    | literal => cases hident.symm.trans h.2.1
  | binary _ _ lhs rhs, h =>
    ⟨assignsNames_of_held hns lhs h.2.1, assignsNames_of_held hns rhs h.2.2⟩
  | ident _ _ indices, h => assignsNamesAll_of_heldAll hns indices h.2
  | literal _ _, _ => trivial
  | call _ _ args, h => assignsNamesAll_of_heldAll hns args h.2

theorem assignsNamesAll_of_heldAll (hns : ns.AssignsNames) :
    ∀ es : List (Expr Site), HeldAll ns es → AssignsNamesAll es
  | [], _ => trivial
  | e :: es, h => ⟨assignsNames_of_held hns e h.1, assignsNamesAll_of_heldAll hns es h.2⟩

end

end Tree.Expr

/-- The layout has places for all that the names in an expression are resolved to. -/
def Layout.Places (l : Layout) (R : Resolution) (e : Tree.Expr Site) : Prop :=
  ∀ site ∈ e.labels,
    (∀ id, R.idents.get? site.id = some id → ∃ a, l.vars.get? id = some a) ∧
    ∀ id, R.calls.get? site.id = some id → ∃ a, l.funcs.get? id = some a

namespace Program
open Generate Segment
variable {p : Program} {R : Resolution} {e : Tree.Expr Site}

theorem known_of_places (hwf : p.WellFormed) (hR : p.resolve = .ok R) (he : e.Held p.nodes)
    {l : Layout} (hl : l.Places R e) {u : Event} (hu : u ∈ e.uses) :
    u.Known ⟨p.nodes, R⟩ l [] := by
  obtain ⟨site, hsite, node, hnode, huse⟩ := (e.mem_uses_iff he).1 hu
  cases node with
  | ident name indices =>
    cases huse
    obtain ⟨var, hvar⟩ := (exists_idents_get?_iff hwf hR _).2 ⟨name, indices, site.pos, hnode⟩
    have hrange := ident_resolved_in_range hwf hR hvar
    rw [hwf.varIds, List.mem_range] at hrange
    exact ⟨var, _, hvar, Array.getElem?_eq_getElem hrange, .inl ((hl site hsite).1 var hvar)⟩
  | call name args =>
    cases huse
    obtain ⟨func, hfunc⟩ := (exists_calls_get?_iff hwf hR _).2 ⟨name, args, site.pos, hnode⟩
    have hrange := call_resolved_in_range hwf hR hfunc
    rw [hwf.funcIds, List.mem_range] at hrange
    exact ⟨func, _, hfunc, Array.getElem?_eq_getElem hrange, .inl ((hl site hsite).2 func hfunc)⟩
  | assign | binary | literal => cases huse

/-- Whether the value of an expression is used does not change its side effects. From the same
state, with any segment, code generation ends alike for both uses and asks for the same stores and
calls in the same order. If it succeeds, there is one call for each call of a function and one store
for each assignment in the expression. It does succeed once the names in the expression have
places. -/
theorem side_effects_ignore_use {text : String} (hp : parse text = .ok p)
    (hR : p.resolve = .ok R) {id : ExprId} (hid : id < p.nodes.exprs.size) (g : Generator) :
    ∃ e r es es', p.nodes.expr? id = some e ∧
      Issues (expr ⟨p.nodes, R⟩ .value e) g r es ∧
      Issues (expr ⟨p.nodes, R⟩ .effect e) g r es' ∧
      sideEffects (requests es) = sideEffects (requests es') ∧
      (r = .ok () →
        requests es = Code.expr (g.env ⟨p.nodes, R⟩ g.layout) .value e ∧
        requests es' = Code.expr (g.env ⟨p.nodes, R⟩ g.layout) .effect e ∧
        (requests es).countP Request.calls = e.parts.countP Tree.Expr.isCall ∧
        (requests es).countP Request.stores = e.parts.countP Tree.Expr.isAssign) ∧
      (g.layout.Places R e → r = .ok ()) := by
  have hwf := ofTokens_wellFormed hp
  obtain ⟨e, he⟩ := (open_of_parse hp).exists_expr? hid
  have hheld := (Nodes.held_of_exprWithin? he).2
  have hnames := e.assignsNames_of_held (fun _ _ _ _ => target_of_assign hp) hheld
  obtain ⟨r, es, es', hvalue, heffect, hsame, hqs⟩ := parallel_expr ⟨p.nodes, R⟩ g e
  refine ⟨e, r, es, es', he, hvalue, heffect, hsame, fun hr => ?_, fun hplaces => ?_⟩
  · obtain ⟨hes, hes'⟩ := hqs hr
    have hcounts := Code.counts_expr (g.env ⟨p.nodes, R⟩ g.layout) .value e hnames
    exact ⟨hes, hes', hes ▸ hcounts.calls, hes ▸ hcounts.stores⟩
  · have hsucceeds : Action.Succeeds (expr ⟨p.nodes, R⟩ .value e) g :=
      succeeds_expr ⟨p.nodes, R⟩ e hnames fun u hu => known_of_places hwf hR hheld hplaces hu
    obtain ⟨u, g', hexec⟩ := hsucceeds
    exact congrArg Prod.fst ((hvalue g.segment).symm.trans hexec)

/-- An index that calls and assigns, in the target of a compound assignment. -/
def nestedText : String :=
  "func f(array a) -> int \x7b a[a[0] := f(a)] += f(a); return 0; \x7d"

theorem side_effects_ignore_use_nested :
    ∃ p R o e es es', parse nestedText = .ok p ∧ p.resolve = .ok R ∧ p.generate R = .ok o ∧
      p.nodes.expr? 15 = some e ∧
      Issues (expr ⟨p.nodes, R⟩ .value e) { Generator.initial with layout := o.layout } (.ok ())
        es ∧
      Issues (expr ⟨p.nodes, R⟩ .effect e) { Generator.initial with layout := o.layout } (.ok ())
        es' ∧
      sideEffects (requests es) = sideEffects (requests es') ∧
      (requests es).countP Request.calls = 3 ∧ (requests es).countP Request.stores = 3 := by
  obtain ⟨p, o, hcompile, heval⟩ := exists_compile_of_eval nestedText (fun (p, _) =>
    decide (15 < p.nodes.exprs.size) && (p.nodes.expr? 15).any fun e =>
      e.parts.countP Tree.Expr.isCall == 3 && e.parts.countP Tree.Expr.isAssign == 3)
    (by decide +kernel)
  obtain ⟨R, hp, hR, ho⟩ := compile_eq_ok hcompile
  have hwf := ofTokens_wellFormed hp
  simp only [Bool.and_eq_true, decide_eq_true_eq] at heval
  obtain ⟨e, r, es, es', he, hvalue, heffect, hsame, hok, hplaced⟩ :=
    side_effects_ignore_use hp hR heval.1 { Generator.initial with layout := o.layout }
  have hplaces : o.layout.Places R e := fun site _ =>
    ⟨fun id hid => exists_place_of_var hwf ho (ident_resolved_in_range hwf hR hid),
      fun id hid => exists_place_of_func hwf ho (call_resolved_in_range hwf hR hid)⟩
  cases hplaced hplaces
  obtain ⟨-, -, hcalls, hstores⟩ := hok rfl
  simp only [he, Option.any_some, Bool.and_eq_true, beq_iff_eq] at heval
  exact ⟨p, R, o, e, es, es', hp, hR, ho, he, hvalue, heffect, hsame,
    hcalls.trans heval.2.1, hstores.trans heval.2.2⟩

end Program
end PrimeLang
