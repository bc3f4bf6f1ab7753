import Mathlib.Data.Finset.Card
import Mathlib.Data.Finset.Range
import Mathlib.Logic.Relation
import PrimeLang.Proofs.NodeForest

/-! # Acyclic nodes

Nodes that are not stored by a parser may be shared. If every reference leads to a node and no chain
of references closes, then there is a tree under every node: a chain has no more nodes than the
table, so the bound on the descent is never met (`Nodes.Acyclic.exists_expr?` and the lemmas after
it). -/

namespace PrimeLang
open Relation (TransGen)

/-- If no chain of steps to numbers below `n` closes, then there is a rank below `n` that falls with
every step. -/
theorem exists_rank {R : Nat → Nat → Prop} {n : Nat} (hlt : ∀ a b, R a b → b < n)
    (hR : ∀ a, ¬ TransGen R a a) :
    ∃ rank : Nat → Nat, (∀ a < n, rank a < n) ∧ ∀ a b, R a b → rank b < rank a := by
  classical
  -- the rank of a number counts the numbers that chains lead to from there
  refine ⟨fun a => ((Finset.range n).filter (TransGen R a)).card, fun a ha => ?_, fun a b hab => ?_⟩
  · have hsub : (Finset.range n).filter (TransGen R a) ⊂ Finset.range n :=
      Finset.filter_ssubset.2 ⟨a, Finset.mem_range.2 ha, hR a⟩
    simpa using Finset.card_lt_card hsub
  · apply Finset.card_lt_card
    refine (Finset.ssubset_iff_of_subset fun c hc => ?_).2 ⟨b, ?_, ?_⟩
    · obtain ⟨hc, hbc⟩ := Finset.mem_filter.1 hc
      exact Finset.mem_filter.2 ⟨hc, .head hab hbc⟩
    · exact Finset.mem_filter.2 ⟨Finset.mem_range.2 (hlt a b hab), .single hab⟩
    · exact fun hb => hR b (Finset.mem_filter.1 hb).2

theorem lt_of_transGen {R : Nat → Nat → Prop} (hR : ∀ a b, R a b → b < a) {a b : Nat}
    (h : TransGen R a b) : b < a := by
  induction h with
  | single h => exact hR _ _ h
  | tail _ h ih => exact Nat.lt_trans (hR _ _ h) ih

/-- A list can be read off if each of its members can. -/
theorem exists_mapM {α β : Type} {f : α → Option β} {as : List α}
    (h : ∀ a ∈ as, ∃ b, f a = some b) : ∃ bs, as.mapM f = some bs := by
  induction as with
  | nil => exact ⟨[], rfl⟩
  | cons a as ih =>
    obtain ⟨b, hb⟩ := h a List.mem_cons_self
    obtain ⟨bs, hbs⟩ := ih fun a ha => h a (List.mem_cons_of_mem _ ha)
    exact ⟨b :: bs, by simp [hb, hbs]⟩

namespace Nodes

/-- The expression node `id` refers to `child`. -/
def ExprChild (ns : Nodes) (id child : ExprId) : Prop :=
  ∃ e pos, ns.exprs[id]? = some (e, pos) ∧ .expr child ∈ e.refs

/-- The statement node `id` refers to `child`. -/
def StmtChild (ns : Nodes) (id child : StmtId) : Prop :=
  ∃ s, ns.stmts[id]? = some s ∧ .stmt child ∈ s.refs

/-- Every reference leads to a node, and no chain of references leads from a node to itself. -/
structure Acyclic (ns : Nodes) : Prop where
  has : ∀ r ∈ ns.refs, ns.Has r
  expr : ∀ id, ¬ TransGen ns.ExprChild id id
  stmt : ∀ id, ¬ TransGen ns.StmtChild id id

namespace Acyclic
variable {ns : Nodes}

/-- References to smaller numbers close no chain. -/
theorem of_lt (has : ∀ r ∈ ns.refs, ns.Has r)
    (hexpr : ∀ id child, ns.ExprChild id child → child < id)
    (hstmt : ∀ id child, ns.StmtChild id child → child < id) : ns.Acyclic where
  has := has
  expr id h := Nat.lt_irrefl id (lt_of_transGen hexpr h)
  stmt id h := Nat.lt_irrefl id (lt_of_transGen hstmt h)

variable (h : ns.Acyclic)
include h

/-! ## References lead to nodes -/

theorem has_of_func {id : FuncId} {f : Node.Func} (hf : ns.funcs[id]? = some f) {r : NodeRef}
    (hr : r ∈ f.refs) : ns.Has r := by
  apply h.has
  refine List.mem_append_left _ (List.mem_append_left _ (List.mem_flatMap.2 ⟨f, ?_, hr⟩))
  exact Array.mem_toList_iff.2 (Array.mem_of_getElem? hf)

theorem has_of_stmt {id : StmtId} {s : Node.Stmt} (hs : ns.stmts[id]? = some s) {r : NodeRef}
    (hr : r ∈ s.refs) : ns.Has r := by
  apply h.has
  refine List.mem_append_left _ (List.mem_append_right _ (List.mem_flatMap.2 ⟨s, ?_, hr⟩))
  exact Array.mem_toList_iff.2 (Array.mem_of_getElem? hs)

theorem has_of_expr {id : ExprId} {e : Node.Expr} {pos : Pos} (he : ns.exprs[id]? = some (e, pos))
    {r : NodeRef} (hr : r ∈ e.refs) : ns.Has r := by
  apply h.has
  refine List.mem_append_right _ (List.mem_flatMap.2 ⟨(e, pos), ?_, hr⟩)
  exact Array.mem_toList_iff.2 (Array.mem_of_getElem? he)

/-! ## Trees under nodes -/

theorem exists_expr? {id : ExprId} (hid : id < ns.exprs.size) : ∃ t, ns.expr? id = some t := by
  obtain ⟨rank, hsize, hrank⟩ := exists_rank
    (fun a b ⟨_, _, he, hb⟩ => (h.has_of_expr he hb : ns.Has (.expr b))) h.expr
  suffices hwithin : ∀ n id, rank id < n → id < ns.exprs.size →
      ∃ t, ns.exprWithin? n id = some t from hwithin _ id (hsize id hid) hid
  intro n
  induction n with
  | zero => exact fun id hn _ => absurd hn (Nat.not_lt_zero _)
  | succ n ih =>
    intro id hn hid
    obtain ⟨⟨e, pos⟩, he⟩ : ∃ node, ns.exprs[id]? = some node :=
      ⟨_, Array.getElem?_eq_getElem hid⟩
    have hchild : ∀ child, .expr child ∈ e.refs → ∃ t, ns.exprWithin? n child = some t := by
      intro child hc
      have hlt := hrank id child ⟨e, pos, he, hc⟩
      exact ih child (Nat.lt_of_lt_of_le hlt (Nat.le_of_lt_succ hn)) (h.has_of_expr he hc)
    rw [exprWithin?, he]
    cases e with
    | assign l r | binary op l r =>
      obtain ⟨t, ht⟩ := hchild l List.mem_cons_self
      obtain ⟨u, hu⟩ := hchild r (List.mem_cons_of_mem _ List.mem_cons_self)
      simp [ht, hu]
    | ident name ids | call name ids =>
      obtain ⟨ts, hts⟩ := exists_mapM fun child hc => hchild child (List.mem_map_of_mem hc)
      simp [hts]
    | literal value => simp

omit h in
theorem exists_var? {id : VarId} (hid : id < ns.vars.size) : ∃ v, ns.var? id = some v :=
  ⟨_, by rw [var?, Array.getElem?_eq_getElem hid]; rfl⟩

theorem exists_stmt? {id : StmtId} (hid : id < ns.stmts.size) : ∃ t, ns.stmt? id = some t := by
  obtain ⟨rank, hsize, hrank⟩ := exists_rank
    (fun a b ⟨_, hs, hb⟩ => (h.has_of_stmt hs hb : ns.Has (.stmt b))) h.stmt
  suffices hwithin : ∀ n id, rank id < n → id < ns.stmts.size →
      ∃ t, ns.stmtWithin? n id = some t from hwithin _ id (hsize id hid) hid
  intro n
  induction n with
  | zero => exact fun id hn _ => absurd hn (Nat.not_lt_zero _)
  | succ n ih =>
    intro id hn hid
    obtain ⟨s, hs⟩ : ∃ node, ns.stmts[id]? = some node := ⟨_, Array.getElem?_eq_getElem hid⟩
    have hvar : ∀ v, .var v ∈ s.refs → ∃ w, ns.var? v = some w :=
      fun v hv => exists_var? (h.has_of_stmt hs hv)
    have hexpr : ∀ e, .expr e ∈ s.refs → ∃ t, ns.expr? e = some t :=
      fun e he => h.exists_expr? (h.has_of_stmt hs he)
    have hblock : ∀ ids : List StmtId, (∀ child ∈ ids, .stmt child ∈ s.refs) →
        ∃ ts, ids.mapM (ns.stmtWithin? n) = some ts := by
      intro ids hids
      refine exists_mapM fun child hc => ?_
      have hlt := hrank id child ⟨s, hs, hids child hc⟩
      exact ih child (Nat.lt_of_lt_of_le hlt (Nat.le_of_lt_succ hn))
        (h.has_of_stmt hs (hids child hc))
    rw [stmtWithin?, hs]
    cases s with
    | decl v init =>
      obtain ⟨w, hw⟩ := hvar v (by simp [Node.Stmt.refs])
      obtain ⟨t, ht⟩ := hexpr init (by simp [Node.Stmt.refs])
      simp [hw, ht]
    | ifThen cond body =>
      obtain ⟨t, ht⟩ := hexpr cond (by simp [Node.Stmt.refs])
      obtain ⟨ss, hss⟩ := hblock body (by simp [Node.Stmt.refs])
      simp [ht, hss]
    | ifElse cond body orElse =>
      obtain ⟨t, ht⟩ := hexpr cond (by simp [Node.Stmt.refs])
      obtain ⟨ss, hss⟩ := hblock body fun c hc => by simp [Node.Stmt.refs, hc]
      obtain ⟨us, hus⟩ := hblock orElse fun c hc => by simp [Node.Stmt.refs, hc]
      simp [ht, hss, hus]
    | loop v init cond step body =>
      obtain ⟨w, hw⟩ := hvar v (by simp [Node.Stmt.refs])
      obtain ⟨t, ht⟩ := hexpr init (by simp [Node.Stmt.refs])
      obtain ⟨u, hu⟩ := hexpr cond (by simp [Node.Stmt.refs])
      obtain ⟨x, hx⟩ := hexpr step (by simp [Node.Stmt.refs])
      obtain ⟨ss, hss⟩ := hblock body (by simp [Node.Stmt.refs])
      simp [hw, ht, hu, hx, hss]
    | ret value =>
      cases value with
      | none => simp
      | some value =>
        obtain ⟨t, ht⟩ := hexpr value (by simp [Node.Stmt.refs])
        simp [ht]
    | eval e =>
      obtain ⟨t, ht⟩ := hexpr e (by simp [Node.Stmt.refs])
      simp [ht]

theorem exists_func? {id : FuncId} (hid : id < ns.funcs.size) : ∃ f, ns.func? id = some f := by
  obtain ⟨f, hf⟩ : ∃ node, ns.funcs[id]? = some node := ⟨_, Array.getElem?_eq_getElem hid⟩
  obtain ⟨ws, hws⟩ : ∃ ws, f.params.mapM ns.var? = some ws := exists_mapM fun v hv =>
    exists_var? (h.has_of_func hf (List.mem_append_left _ (List.mem_map_of_mem hv)))
  obtain ⟨ss, hss⟩ : ∃ ss, ns.block? f.body = some ss := exists_mapM fun s hs =>
    h.exists_stmt? (h.has_of_func hf (List.mem_append_right _ (List.mem_map_of_mem hs)))
  simp [func?, hf, hws, hss]

theorem exists_funcs? : ∃ fs, ns.funcs? = some fs :=
  exists_mapM fun _ hid => h.exists_func? (List.mem_range.1 hid)

end Acyclic

/-! ## Stored nodes -/

/-- Where parents are stored after what they refer to, references close no chain. -/
theorem Open.acyclic {ns : Nodes} (h : ns.Open []) : ns.Acyclic := by
  refine .of_lt (fun r hr => h.has (List.mem_append_left _ hr)) ?_ ?_
  · rintro id child ⟨e, pos, he, hc⟩
    exact h.expr_lt he child hc
  · rintro id child ⟨s, hs, hc⟩
    exact h.stmt_lt hs child hc

theorem Open.exists_expr? {ns : Nodes} (h : ns.Open []) {id : ExprId} (hid : id < ns.exprs.size) :
    ∃ t, ns.expr? id = some t := h.acyclic.exists_expr? hid

end Nodes
end PrimeLang
