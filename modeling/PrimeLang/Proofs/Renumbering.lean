import Mathlib.Data.List.GetD
import Mathlib.Data.List.Nodup
import PrimeLang.Proofs.FunctionRegions
import PrimeLang.Proofs.Renaming

/-! # Other numbers for expressions

Two programs with the same trees may number their expressions differently. Then the numbers of one
can be mapped one-to-one to those of the other (`Program.SameTrees.exists_labels`). The resolver and
the generator use the number of an expression only to note and to look up what its name stands for,
so they do the same for both programs (`Program.SameTrees.generate`). -/

namespace PrimeLang
open Action

/-! ## Trees are determined by their shape and their labels -/

namespace Tree.Expr
variable {α β γ : Type}

mutual

theorem map_map (f : α → β) (g : β → γ) : ∀ e : Expr α, (e.map f).map g = e.map (g ∘ f)
  | assign a target value => by simp [map, map_map f g target, map_map f g value]
  | binary a op lhs rhs => by simp [map, map_map f g lhs, map_map f g rhs]
  | ident a name indices => by simp [map, mapAll_mapAll f g indices]
  | literal a value => by simp [map]
  | call a name args => by simp [map, mapAll_mapAll f g args]

theorem mapAll_mapAll (f : α → β) (g : β → γ) : ∀ es : List (Expr α),
    mapAll g (mapAll f es) = mapAll (g ∘ f) es
  | [] => by simp [mapAll]
  | e :: es => by simp [mapAll, map_map f g e, mapAll_mapAll f g es]

end

theorem mapAll_eq_map (f : α → β) (es : List (Expr α)) : mapAll f es = es.map (map f) := by
  induction es with
  | nil => rfl
  | cons e es ih => rw [mapAll, ih, List.map_cons]

mutual

/-- Trees that agree up to labels and have the same labels are equal. -/
theorem ext_labels {f : α → β} : ∀ e e' : Expr α,
    e.map f = e'.map f → e.labels = e'.labels → e = e'
  | assign a target value, e', h, hl => by
    cases e' with
    | assign a' target' value' =>
      simp only [map, assign.injEq] at h
      simp only [labels, List.cons.injEq] at hl
      obtain ⟨ht, hv⟩ := List.append_inj hl.2 (length_labels_of_map h.2.1)
      rw [hl.1, ext_labels target target' h.2.1 ht, ext_labels value value' h.2.2 hv]
    | _ => simp [map] at h
  | binary a op lhs rhs, e', h, hl => by
    cases e' with
    | binary a' op' lhs' rhs' =>
      simp only [map, binary.injEq] at h
      simp only [labels, List.cons.injEq] at hl
      obtain ⟨hlhs, hrhs⟩ := List.append_inj hl.2 (length_labels_of_map h.2.2.1)
      rw [hl.1, h.2.1, ext_labels lhs lhs' h.2.2.1 hlhs, ext_labels rhs rhs' h.2.2.2 hrhs]
    | _ => simp [map] at h
  | ident a name indices, e', h, hl => by
    cases e' with
    | ident a' name' indices' =>
      simp only [map, ident.injEq] at h
      simp only [labels, List.cons.injEq] at hl
      rw [hl.1, h.2.1, ext_labelsAll indices indices' h.2.2 hl.2]
    | _ => simp [map] at h
  | literal a value, e', h, hl => by
    cases e' with
    | literal a' value' =>
      simp only [map, literal.injEq] at h
      simp only [labels, List.cons.injEq] at hl
      rw [hl.1, h.2]
    | _ => simp [map] at h
  | call a name args, e', h, hl => by
    cases e' with
    | call a' name' args' =>
      simp only [map, call.injEq] at h
      simp only [labels, List.cons.injEq] at hl
      rw [hl.1, h.2.1, ext_labelsAll args args' h.2.2 hl.2]
    | _ => simp [map] at h

theorem ext_labelsAll {f : α → β} : ∀ es es' : List (Expr α),
    mapAll f es = mapAll f es' → labelsAll es = labelsAll es' → es = es'
  | [], es', h, _ => by
    cases es' with
    | nil => rfl
    | cons e' es' => simp [mapAll] at h
  | e :: es, es', h, hl => by
    cases es' with
    | nil => simp [mapAll] at h
    | cons e' es' =>
      simp only [mapAll, List.cons.injEq] at h
      simp only [labelsAll] at hl
      obtain ⟨he, hes⟩ := List.append_inj hl (length_labels_of_map h.1)
      rw [ext_labels e e' h.1 he, ext_labelsAll es es' h.2 hes]

end

end Tree.Expr

namespace Stmt
variable {ε ε' ε'' β β' β'' : Type}

mutual

theorem map_map (f : ε → ε') (g : β → β') (f' : ε' → ε'') (g' : β' → β'') : ∀ s : Stmt ε β,
    (s.map f g).map f' g' = s.map (f' ∘ f) (g' ∘ g)
  | decl v init => by simp [map]
  | ifThen cond body => by simp [map, mapAll_mapAll f g f' g' body]
  | ifElse cond body orElse => by
    simp [map, mapAll_mapAll f g f' g' body, mapAll_mapAll f g f' g' orElse]
  | loop v init cond step body => by simp [map, mapAll_mapAll f g f' g' body]
  | ret value => by simp [map]
  | eval e => by simp [map]

theorem mapAll_mapAll (f : ε → ε') (g : β → β') (f' : ε' → ε'') (g' : β' → β'') :
    ∀ ss : List (Stmt ε β), mapAll f' g' (mapAll f g ss) = mapAll (f' ∘ f) (g' ∘ g) ss
  | [] => by simp [mapAll]
  | s :: ss => by simp [mapAll, map_map f g f' g' s, mapAll_mapAll f g f' g' ss]

end

section
variable {f : ε → ε'} {g : β → β'} {s s' : Stmt ε β} {ss ss' : List (Stmt ε β)}

theorem length_exprs_of_map (h : s.map f g = s'.map f g) : s.exprs.length = s'.exprs.length := by
  simpa [exprs_map] using congrArg (fun s => s.exprs.length) h

theorem length_decls_of_map (h : s.map f g = s'.map f g) : s.decls.length = s'.decls.length := by
  simpa [decls_map] using congrArg (fun s => s.decls.length) h

theorem length_exprsOf_of_mapAll (h : mapAll f g ss = mapAll f g ss') :
    (exprsOf ss).length = (exprsOf ss').length := by
  simpa [exprsOf_mapAll] using congrArg (fun ss => (exprsOf ss).length) h

theorem length_declsOf_of_mapAll (h : mapAll f g ss = mapAll f g ss') :
    (declsOf ss).length = (declsOf ss').length := by
  simpa [declsOf_mapAll] using congrArg (fun ss => (declsOf ss).length) h

end

mutual

/-- Statements that agree up to expressions and variables, and have the same, are equal. -/
theorem ext_parts {f : ε → ε'} {g : β → β'} : ∀ s s' : Stmt ε β,
    s.map f g = s'.map f g → s.exprs = s'.exprs → s.decls = s'.decls → s = s'
  | decl v init, s', h, he, hd => by
    cases s' with
    | decl v' init' =>
      cases he
      cases hd
      rfl
    | _ => simp [map] at h
  | ifThen cond body, s', h, he, hd => by
    cases s' with
    | ifThen cond' body' =>
      simp only [map, ifThen.injEq] at h
      simp only [exprs, List.cons.injEq] at he
      rw [he.1, ext_partsOf body body' h.2 he.2 hd]
    | _ => simp [map] at h
  | ifElse cond body orElse, s', h, he, hd => by
    cases s' with
    | ifElse cond' body' orElse' =>
      simp only [map, ifElse.injEq] at h
      simp only [exprs, List.cons.injEq] at he
      simp only [decls] at hd
      obtain ⟨he₁, he₂⟩ := List.append_inj he.2 (length_exprsOf_of_mapAll h.2.1)
      obtain ⟨hd₁, hd₂⟩ := List.append_inj hd (length_declsOf_of_mapAll h.2.1)
      rw [he.1, ext_partsOf body body' h.2.1 he₁ hd₁, ext_partsOf orElse orElse' h.2.2 he₂ hd₂]
    | _ => simp [map] at h
  | loop v init cond step body, s', h, he, hd => by
    cases s' with
    | loop v' init' cond' step' body' =>
      simp only [map, loop.injEq] at h
      simp only [exprs, List.cons.injEq] at he
      simp only [decls, List.cons.injEq] at hd
      rw [he.1, he.2.1, he.2.2.1, hd.1, ext_partsOf body body' h.2.2.2.2 he.2.2.2 hd.2]
    | _ => simp [map] at h
  | ret value, s', h, he, _ => by
    cases s' with
    | ret value' => cases value <;> cases value' <;> cases he <;> rfl
    | _ => simp [map] at h
  | eval e, s', h, he, _ => by
    cases s' with
    | eval e' =>
      cases he
      rfl
    | _ => simp [map] at h

theorem ext_partsOf {f : ε → ε'} {g : β → β'} : ∀ ss ss' : List (Stmt ε β),
    mapAll f g ss = mapAll f g ss' → exprsOf ss = exprsOf ss' → declsOf ss = declsOf ss' → ss = ss'
  | [], ss', h, _, _ => by
    cases ss' with
    | nil => rfl
    | cons s' ss' => simp [mapAll] at h
  | s :: ss, ss', h, he, hd => by
    cases ss' with
    | nil => simp [mapAll] at h
    | cons s' ss' =>
      simp only [mapAll, List.cons.injEq] at h
      obtain ⟨he₁, he₂⟩ := List.append_inj he (length_exprs_of_map h.1)
      obtain ⟨hd₁, hd₂⟩ := List.append_inj hd (length_decls_of_map h.1)
      rw [ext_parts s s' h.1 he₁ hd₁, ext_partsOf ss ss' h.2 he₂ hd₂]

end

end Stmt

/-- Functions that agree up to expressions and variables, and have the same, are equal. -/
theorem Tree.Func.ext_parts {ε β : Type} {f : Expr Site → ε} {g : Var → β} {fs fs' : List Func}
    (h : fs.map (·.toFunc.map f g) = fs'.map (·.toFunc.map f g))
    (hids : fs.map (·.id) = fs'.map (·.id))
    (hexprs : fs.flatMap (fun d => PrimeLang.Stmt.exprsOf d.body) =
      fs'.flatMap fun d => PrimeLang.Stmt.exprsOf d.body)
    (hvars : fs.flatMap (·.vars) = fs'.flatMap (·.vars)) : fs = fs' := by
  induction fs generalizing fs' with
  | nil =>
    cases fs' with
    | nil => rfl
    | cons d' fs' => simp at h
  | cons d fs ih =>
    cases fs' with
    | nil => simp at h
    | cons d' fs' =>
      obtain ⟨⟨name, pos, params, ret, body⟩, id⟩ := d
      obtain ⟨⟨name', pos', params', ret', body'⟩, id'⟩ := d'
      simp only [List.map_cons, List.cons.injEq, PrimeLang.Func.map, PrimeLang.Func.mk.injEq] at h
      obtain ⟨⟨rfl, rfl, hparams, rfl, hbody⟩, htail⟩ := h
      simp only [List.map_cons, List.cons.injEq] at hids
      simp only [List.flatMap_cons, PrimeLang.Func.vars] at hexprs hvars
      have hlen : params.length = params'.length := by simpa using congrArg List.length hparams
      obtain ⟨hexprs, hexprs'⟩ :=
        List.append_inj hexprs (PrimeLang.Stmt.length_exprsOf_of_mapAll hbody)
      obtain ⟨hvars, hvars'⟩ := List.append_inj hvars (by
        simp [hlen, PrimeLang.Stmt.length_declsOf_of_mapAll hbody])
      obtain ⟨rfl, hdecls⟩ := List.append_inj hvars hlen
      rw [hids.1, PrimeLang.Stmt.ext_partsOf body body' hbody hexprs hdecls,
        ih htail hids.2 hexprs' hvars']

/-! ## Renumbered trees -/

def Site.renumber (π : ExprId → ExprId) (site : Site) : Site := ⟨π site.id, site.pos⟩

namespace Tree

abbrev Expr.renumber (π : ExprId → ExprId) : Expr Site → Expr Site := map (.renumber π)

/-- Variables keep their numbers. -/
def Stmt.renumber (π : ExprId → ExprId) : Stmt → Stmt :=
  PrimeLang.Stmt.map (Expr.renumber π) fun v => v

def Func.renumber (π : ExprId → ExprId) (f : Func) : Func :=
  ⟨f.toFunc.map (Expr.renumber π) (fun v => v), f.id⟩

theorem map_pos_renumber (π : ExprId → ExprId) :
    Expr.map Site.pos ∘ Expr.renumber π = Expr.map Site.pos := by
  funext e
  exact e.map_map _ _

end Tree

/-- The number that has the place in `ys` that `a` has in `xs`. -/
def renumbering (xs ys : List Nat) (a : Nat) : Nat := ys.getD (xs.idxOf a) a

theorem map_renumbering {xs ys : List Nat} (hxs : xs.Nodup) (hlength : xs.length = ys.length) :
    xs.map (renumbering xs ys) = ys := by
  refine List.ext_getElem (by simpa using hlength) fun i hi hi' => ?_
  rw [List.getElem_map, renumbering, hxs.idxOf_getElem, List.getD_eq_getElem _ _ hi']

theorem injective_renumbering {xs ys : List Nat} {n : Nat} (hxs : xs.Perm (List.range n))
    (hys : ys.Perm (List.range n)) : Function.Injective (renumbering xs ys) := by
  have hlength : xs.length = ys.length := (hxs.trans hys.symm).length_eq
  have hin : ∀ a ∈ xs, ∃ h : xs.idxOf a < ys.length, renumbering xs ys a = ys[xs.idxOf a] := by
    intro a ha
    have hlt : xs.idxOf a < ys.length := hlength ▸ List.idxOf_lt_length_iff.2 ha
    exact ⟨hlt, List.getD_eq_getElem _ _ hlt⟩
  have hout : ∀ a ∉ xs, renumbering xs ys a = a := by
    intro a ha
    rw [renumbering, List.idxOf_eq_length ha, hlength, List.getD_eq_default _ _ le_rfl]
  -- the numbers in the lists are exchanged among themselves, and all others stay as they are
  have hmem : ∀ a, renumbering xs ys a ∈ xs ↔ a ∈ xs := by
    intro a
    by_cases ha : a ∈ xs
    · obtain ⟨hlt, heq⟩ := hin a ha
      simp only [ha, iff_true, heq]
      exact (hxs.trans hys.symm).mem_iff.2 (List.getElem_mem hlt)
    · rw [hout a ha]
  intro a b h
  by_cases ha : a ∈ xs
  · have hb : b ∈ xs := (hmem b).1 (h ▸ (hmem a).2 ha)
    obtain ⟨hlt, heq⟩ := hin a ha
    obtain ⟨hlt', heq'⟩ := hin b hb
    rw [heq, heq'] at h
    have hnodup : ys.Nodup := hys.nodup_iff.2 List.nodup_range
    exact (List.idxOf_inj ha).1 (hnodup.getElem_inj_iff.1 h)
  · have hb : b ∉ xs := fun hb => ha ((hmem a).1 (h ▸ (hmem b).2 hb))
    rwa [hout a ha, hout b hb] at h

theorem eq_of_map_eq {α β γ : Type} {f : α → β} {g : α → γ}
    (hfg : ∀ a b, f a = f b → g a = g b → a = b) {xs ys : List α} (hf : xs.map f = ys.map f)
    (hg : xs.map g = ys.map g) : xs = ys := by
  induction xs generalizing ys with
  | nil => exact (List.map_eq_nil_iff.1 hf.symm).symm
  | cons x xs ih =>
    cases ys with
    | nil => cases hf
    | cons y ys =>
      simp only [List.map_cons, List.cons.injEq] at hf hg
      rw [hfg x y hf.1 hg.1, ih hf.2 hg.2]

namespace Program
variable {p q : Program}

/-- Without the numbers of functions, variables and expressions, the programs are the same. -/
def SameTrees (p q : Program) : Prop :=
  p.funcs.map (·.toFunc.map (Tree.Expr.map Site.pos) (·.toVar)) =
    q.funcs.map (·.toFunc.map (Tree.Expr.map Site.pos) (·.toVar))

namespace SameTrees

theorem map_vars (h : p.SameTrees q) : p.vars.map (·.toVar) = q.vars.map (·.toVar) := by
  have hvars := congrArg (List.flatMap Func.vars) h
  simp only [List.flatMap_map, Func.map, Func.vars, Stmt.declsOf_mapAll, ← List.map_append] at hvars
  simpa only [vars, List.map_flatMap, Func.vars] using hvars

theorem map_exprs (h : p.SameTrees q) :
    p.exprs.map (Tree.Expr.map Site.pos) = q.exprs.map (Tree.Expr.map Site.pos) := by
  have hexprs := congrArg (List.flatMap fun f => Stmt.exprsOf f.body) h
  simp only [List.flatMap_map, Func.map, Stmt.exprsOf_mapAll] at hexprs
  simpa only [exprs, List.map_flatMap] using hexprs

theorem map_labels (h : p.SameTrees q) : (p.exprs.flatMap Tree.Expr.labels).map Site.pos =
    (q.exprs.flatMap Tree.Expr.labels).map Site.pos := by
  have hlabels := congrArg (List.flatMap Tree.Expr.labels) h.map_exprs
  simpa only [List.flatMap_map, Tree.Expr.labels_map, ← List.map_flatMap] using hlabels

theorem funcIds (h : p.SameTrees q) (hp : p.WellFormed) (hq : q.WellFormed) :
    p.funcs.map (·.id) = q.funcs.map (·.id) := by
  have hlength : p.funcs.length = q.funcs.length := by simpa using congrArg List.length h
  rw [hp.funcIds, hq.funcIds, ← hp.length_funcs, ← hq.length_funcs, hlength]

/-- Variables are numbered in the order of the text. -/
theorem vars_eq (h : p.SameTrees q) (hp : p.WellFormed) (hq : q.WellFormed) : p.vars = q.vars := by
  have hlength : p.vars.length = q.vars.length := by simpa using congrArg List.length h.map_vars
  have hsize : ∀ {p : Program}, p.WellFormed → p.nodes.vars.size = p.vars.length := by
    intro p hp
    simpa using (congrArg List.length hp.varIds).symm
  refine eq_of_map_eq (g := (·.id)) (fun v w hv hid => ?_) h.map_vars ?_
  · obtain ⟨v, id⟩ := v
    cases hv
    cases hid
    rfl
  · rw [hp.varIds, hq.varIds, hsize hp, hsize hq, hlength]

/-- The numbers of one program can be put one-to-one for those of the other. -/
theorem exists_labels (h : p.SameTrees q) (hp : p.WellFormed) (hq : q.WellFormed) :
    ∃ π, Function.Injective π ∧ (p.exprs.flatMap Tree.Expr.labels).map (.renumber π) =
      q.exprs.flatMap Tree.Expr.labels := by
  have hlength : ((p.exprs.flatMap Tree.Expr.labels).map Site.id).length =
      ((q.exprs.flatMap Tree.Expr.labels).map Site.id).length := by
    simpa only [List.length_map] using congrArg List.length h.map_labels
  have hsize : q.nodes.exprs.size = p.nodes.exprs.size := by
    have hrange := hq.exprIds.length_eq
    rw [← hlength, hp.exprIds.length_eq] at hrange
    simpa using hrange.symm
  refine ⟨_, injective_renumbering hp.exprIds (hsize ▸ hq.exprIds), ?_⟩
  refine eq_of_map_eq (f := Site.pos) (g := Site.id) (fun s t hpos hid => ?_) ?_ ?_
  · cases s
    cases t
    cases hpos
    cases hid
    rfl
  · rw [List.map_map]
    exact h.map_labels
  · have hids := map_renumbering hp.nodup_exprIds hlength
    rw [List.map_map] at hids ⊢
    exact hids

variable {π : ExprId → ExprId}

theorem exprs_eq (h : p.SameTrees q)
    (hlabels : (p.exprs.flatMap Tree.Expr.labels).map (.renumber π) =
      q.exprs.flatMap Tree.Expr.labels) : p.exprs.map (Tree.Expr.renumber π) = q.exprs := by
  refine Tree.Expr.ext_labelsAll (f := Site.pos) _ _ ?_ ?_
  · rw [Tree.Expr.mapAll_eq_map, Tree.Expr.mapAll_eq_map, List.map_map, Tree.map_pos_renumber,
      h.map_exprs]
  · rw [Tree.Expr.labelsAll_eq_flatMap, Tree.Expr.labelsAll_eq_flatMap, ← hlabels,
      List.flatMap_map, List.map_flatMap]
    simp only [Tree.Expr.labels_map]

theorem funcs_eq (h : p.SameTrees q) (hp : p.WellFormed) (hq : q.WellFormed)
    (hexprs : p.exprs.map (Tree.Expr.renumber π) = q.exprs) :
    p.funcs.map (.renumber π) = q.funcs := by
  refine Tree.Func.ext_parts (f := Tree.Expr.map Site.pos) (g := (·.toVar)) ?_ ?_ ?_ ?_
  · rw [List.map_map, ← h]
    refine List.map_congr_left fun d _ => ?_
    simp only [Function.comp_apply, Tree.Func.renumber, Func.map, Stmt.mapAll_mapAll,
      Tree.map_pos_renumber, List.map_map]
    rfl
  · rw [List.map_map, ← h.funcIds hp hq]
    rfl
  · have hq : _ = q.funcs.flatMap fun d => Stmt.exprsOf d.body := hexprs
    rw [← hq, exprs, List.flatMap_map, List.map_flatMap]
    simp only [Tree.Func.renumber, Func.map, Stmt.exprsOf_mapAll]
  · have hq : _ = q.funcs.flatMap (·.vars) := h.vars_eq hp hq
    rw [← hq, vars, List.flatMap_map]
    simp only [Tree.Func.renumber, Func.map, Func.vars, Stmt.declsOf_mapAll, List.map_id_fun',
      id_eq]

end SameTrees
end Program

/-! ## Names -/

/-- The second resolver knows what the first one does, with other numbers for expressions. -/
structure Resolver.Renumbered (π : ExprId → ExprId) (r r' : Resolver) : Prop where
  funcs : r'.funcs = r.funcs
  scopes : r'.scopes = r.scopes
  idents : ∀ id, r'.resolution.idents.get? (π id) = r.resolution.idents.get? id
  calls : ∀ id, r'.resolution.calls.get? (π id) = r.resolution.calls.get? id

namespace Resolver.Renumbered
variable {π : ExprId → ExprId} {r r' : Resolver}

theorem initial (π : ExprId → ExprId) : Renumbered π .initial .initial :=
  ⟨rfl, rfl, fun _ => rfl, fun _ => rfl⟩

theorem setScopes (h : Renumbered π r r') (f : Scopes → Scopes) :
    Renumbered π { r with scopes := f r.scopes } { r' with scopes := f r'.scopes } :=
  ⟨h.funcs, congrArg f h.scopes, h.idents, h.calls⟩

theorem bindIdent (hπ : Function.Injective π) (h : Renumbered π r r') (id : ExprId) (var : VarId) :
    Renumbered π (r.bindIdent id var) (r'.bindIdent (π id) var) := by
  refine ⟨h.funcs, h.scopes, fun id' => ?_, h.calls⟩
  rw [Resolver.bindIdent, Resolver.bindIdent, Table.get?_insert, Table.get?_insert, h.idents]
  simp only [hπ.eq_iff]

theorem bindCall (hπ : Function.Injective π) (h : Renumbered π r r') (id : ExprId)
    (func : FuncId) : Renumbered π (r.bindCall id func) (r'.bindCall (π id) func) := by
  refine ⟨h.funcs, h.scopes, h.idents, fun id' => ?_⟩
  rw [Resolver.bindCall, Resolver.bindCall, Table.get?_insert, Table.get?_insert, h.calls]
  simp only [hπ.eq_iff]

theorem variableOf_eq (h : Renumbered π r r') (name : String) (pos : Pos) :
    r'.variableOf name pos = r.variableOf name pos := by
  rw [variableOf, variableOf, h.scopes]

theorem calleeOf_eq (h : Renumbered π r r') (name : String) (found : Nat) (pos : Pos) :
    r'.calleeOf name found pos = r.calleeOf name found pos := by
  rw [calleeOf, calleeOf, h.scopes, h.funcs]

end Resolver.Renumbered

namespace Resolve
variable {π : ExprId → ExprId} {x y x' y' : Resolve Unit}

/-- From resolvers that differ in the numbers of expressions, `y` does what `x` does. -/
def Renumbers (π : ExprId → ExprId) (x y : Resolve Unit) : Prop :=
  ∀ r r', Resolver.Renumbered π r r' →
    (exec y r').1 = (exec x r).1 ∧ Resolver.Renumbered π (exec x r).2 (exec y r').2

namespace Renumbers

theorem pure : Renumbers π (pure ()) (pure ()) := fun _ _ h => ⟨rfl, h⟩

theorem bind (h : Renumbers π x y) (h' : Renumbers π x' y') :
    Renumbers π (x >>= fun _ => x') (y >>= fun _ => y') := by
  intro r r' hr
  obtain ⟨hresult, hr'⟩ := h r r' hr
  rw [exec_bind, exec_bind]
  generalize exec x r = a at hresult hr'
  generalize exec y r' = b at hresult hr'
  obtain ⟨result, s⟩ := a
  obtain ⟨result', s'⟩ := b
  cases hresult
  cases result with
  | error err => exact ⟨rfl, hr'⟩
  | ok => exact h' s s' hr'

theorem inScope (h : Renumbers π x y) : Renumbers π (inScope x) (inScope y) := by
  intro r r' hr
  obtain ⟨hresult, hr'⟩ := h _ _ (hr.setScopes Scopes.push)
  exact ⟨hresult, hr'.setScopes Scopes.pop⟩

end Renumbers

theorem renumbers_declareOr (error : BindingError) (v : Tree.Var) :
    Renumbers π (declareOr error v) (declareOr error v) := by
  intro r r' hr
  rw [exec_declareOr, exec_declareOr, Resolver.declare, Resolver.declare, hr.scopes]
  cases r.scopes.declare? v.name v.id with
  | none => exact ⟨rfl, hr⟩
  | some scopes => exact ⟨rfl, hr.setScopes fun _ => scopes⟩

mutual

theorem renumbers_expr (hπ : Function.Injective π) : ∀ e : Tree.Expr Site,
    Renumbers π (expr e) (expr (e.renumber π))
  | .assign _ target value => by
    rw [Tree.Expr.renumber, Tree.Expr.map, expr, expr]
    exact (renumbers_expr hπ target).bind (renumbers_expr hπ value)
  | .binary _ _ lhs rhs => by
    rw [Tree.Expr.renumber, Tree.Expr.map, expr, expr]
    exact (renumbers_expr hπ lhs).bind (renumbers_expr hπ rhs)
  | .ident site name indices => by
    intro r r' hr
    rw [Tree.Expr.renumber, Tree.Expr.map, expr, expr]
    simp only [exec_bind, exec_get, andThen_ok, exec_lift, Site.renumber, hr.variableOf_eq]
    cases r.variableOf name site.pos with
    | error err => exact ⟨rfl, hr⟩
    | ok var => exact renumbers_exprs hπ indices _ _ (hr.bindIdent hπ site.id var)
  | .literal _ _ => by
    rw [Tree.Expr.renumber, Tree.Expr.map, expr, expr]
    exact .pure
  | .call site name args => by
    intro r r' hr
    rw [Tree.Expr.renumber, Tree.Expr.map, expr, expr]
    simp only [exec_bind, exec_get, andThen_ok, exec_lift, Site.renumber, Tree.Expr.mapAll_eq_map,
      List.length_map, hr.calleeOf_eq]
    cases r.calleeOf name args.length site.pos with
    | error err => exact ⟨rfl, hr⟩
    | ok func =>
      rw [← Tree.Expr.mapAll_eq_map]
      exact renumbers_exprs hπ args _ _ (hr.bindCall hπ site.id func)

theorem renumbers_exprs (hπ : Function.Injective π) : ∀ es : List (Tree.Expr Site),
    Renumbers π (exprs es) (exprs (Tree.Expr.mapAll (.renumber π) es))
  | [] => by
    rw [Tree.Expr.mapAll, exprs]
    exact .pure
  | e :: es => by
    rw [Tree.Expr.mapAll, exprs, exprs]
    exact (renumbers_expr hπ e).bind (renumbers_exprs hπ es)

end

mutual

theorem renumbers_stmt (hπ : Function.Injective π) : ∀ s : Tree.Stmt,
    Renumbers π (stmt s) (stmt (s.renumber π))
  | .decl var init => by
    rw [Tree.Stmt.renumber, Stmt.map, stmt, stmt]
    exact (renumbers_declareOr _ var).bind (renumbers_expr hπ init)
  | .ifThen cond body => by
    rw [Tree.Stmt.renumber, Stmt.map, stmt, stmt]
    exact (renumbers_expr hπ cond).bind (renumbers_stmts hπ body).inScope
  | .ifElse cond body orElse => by
    rw [Tree.Stmt.renumber, Stmt.map, stmt, stmt]
    exact (renumbers_expr hπ cond).bind
      ((renumbers_stmts hπ body).inScope.bind (renumbers_stmts hπ orElse).inScope)
  | .loop var init cond step body => by
    rw [Tree.Stmt.renumber, Stmt.map, stmt, stmt]
    refine Renumbers.inScope ((renumbers_declareOr _ var).bind ?_)
    refine (renumbers_expr hπ init).bind ((renumbers_expr hπ cond).bind ?_)
    exact (renumbers_expr hπ step).bind (renumbers_stmts hπ body)
  | .ret none => by
    rw [Tree.Stmt.renumber, Stmt.map, Option.map_none, stmt]
    exact .pure
  | .ret (some value) => by
    rw [Tree.Stmt.renumber, Stmt.map, Option.map_some, stmt, stmt]
    exact renumbers_expr hπ value
  | .eval e => by
    rw [Tree.Stmt.renumber, Stmt.map, stmt, stmt]
    exact renumbers_expr hπ e

theorem renumbers_stmts (hπ : Function.Injective π) : ∀ ss : List Tree.Stmt,
    Renumbers π (stmts ss) (stmts (Stmt.mapAll (Tree.Expr.renumber π) (fun v => v) ss))
  | [] => by
    rw [Stmt.mapAll, stmts]
    exact .pure
  | s :: ss => by
    rw [Stmt.mapAll, stmts, stmts]
    exact (renumbers_stmt hπ s).bind (renumbers_stmts hπ ss)

end

theorem renumbers_params (func : String) (vs : List Tree.Var) :
    Renumbers π (params func vs) (params func vs) := by
  induction vs with
  | nil => exact .pure
  | cons v vs ih => exact (renumbers_declareOr _ v).bind ih

/-- Functions are declared by their name and number, and the number of their parameters. -/
theorem renumbers_declareFunc (f : Tree.Func) :
    Renumbers π (do set (← (← get).declareFunc f))
      (do set (← (← get).declareFunc (f.renumber π))) := by
  intro r r' hr
  have hlength : (f.renumber π).params.length = f.params.length := List.length_map _
  simp only [exec_bind, exec_get, andThen_ok, exec_lift]
  rw [Resolver.declareFunc, Resolver.declareFunc, hr.funcs, hlength]
  cases hname : r.funcs.lookup f.name with
  | some callee =>
    have hname' : r.funcs.lookup (f.renumber π).name = some callee := hname
    rw [hname']
    exact ⟨rfl, hr⟩
  | none =>
    have hname' : r.funcs.lookup (f.renumber π).name = none := hname
    rw [hname']
    exact ⟨rfl, rfl, hr.scopes, hr.idents, hr.calls⟩

section
variable (hπ : Function.Injective π)
include hπ

theorem renumbers_func (f : Tree.Func) : Renumbers π (func f) (func (f.renumber π)) := by
  have hparams : (f.renumber π).params = f.params := List.map_id' _
  have hbody : Renumbers π (inScope do params f.name f.params; stmts f.body)
      (inScope do params (f.renumber π).name (f.renumber π).params; stmts (f.renumber π).body) := by
    rw [hparams]
    exact ((renumbers_params f.name f.params).bind (renumbers_stmts hπ f.body)).inScope
  simpa only [func, bind_assoc] using (renumbers_declareFunc f).bind hbody

theorem renumbers_funcs (fs : List Tree.Func) :
    Renumbers π (funcs fs) (funcs (fs.map (.renumber π))) := by
  induction fs with
  | nil => exact .pure
  | cons f fs ih => exact (renumbers_func hπ f).bind ih

end
end Resolve

/-! ## Code -/

/-- The second context knows what the first one does, with other numbers for expressions. -/
structure Context.Renumbered (π : ExprId → ExprId) (cx cx' : Context) : Prop where
  idents : ∀ id, cx'.resolution.idents.get? (π id) = cx.resolution.idents.get? id
  calls : ∀ id, cx'.resolution.calls.get? (π id) = cx.resolution.calls.get? id
  vars : cx'.nodes.vars = cx.nodes.vars
  funcs : cx'.nodes.funcs.map (fun f => (f.name, f.ret)) =
    cx.nodes.funcs.map fun f => (f.name, f.ret)

namespace Context.Renumbered
variable {π : ExprId → ExprId} {cx cx' : Context}

theorem variableOf_eq (h : Renumbered π cx cx') (g : Generator) (site : Site) (name : String) :
    g.variableOf cx' (site.renumber π) name = g.variableOf cx site name := by
  rw [Generator.variableOf, Generator.variableOf, Site.renumber, h.idents, h.vars]

theorem calleeOf_eq (h : Renumbered π cx cx') (g : Generator) (site : Site) (name : String) :
    g.calleeOf cx' (site.renumber π) name = g.calleeOf cx site name := by
  rw [Generator.calleeOf, Generator.calleeOf, Site.renumber, h.calls]
  cases cx.resolution.calls.get? site.id with
  | none => rfl
  | some id =>
    have hfunc : (cx'.nodes.funcs[id]?).map (fun f => (f.name, f.ret)) =
        (cx.nodes.funcs[id]?).map fun f => (f.name, f.ret) := by
      rw [← Array.getElem?_map, ← Array.getElem?_map, h.funcs]
    simp only
    generalize cx'.nodes.funcs[id]? = f' at hfunc
    generalize cx.nodes.funcs[id]? = f at hfunc
    cases f' with
    | none =>
      cases f with
      | none => rfl
      | some f => cases hfunc
    | some f' =>
      cases f with
      | none => cases hfunc
      | some f =>
        have hret : f'.ret = f.ret := congrArg Prod.snd (Option.some.inj hfunc)
        simp only [hret]

theorem entry?_eq (h : Renumbered π cx cx') : cx'.nodes.entry? = cx.nodes.entry? := by
  have hentry : ∀ ns : Nodes, ns.entry? =
      (ns.funcs.map fun f => (f.name, f.ret)).findIdx? (·.1 == Nodes.entryName) := by
    intro ns
    rw [Array.findIdx?_map]
    rfl
  rw [hentry, hentry, h.funcs]

end Context.Renumbered

namespace Generate
variable {π : ExprId → ExprId} {cx cx' : Context}

mutual

theorem expr_renumber (h : cx.Renumbered π cx') : ∀ (use : Use) (e : Tree.Expr Site),
    expr cx' use (e.renumber π) = expr cx use e
  -- a target is not evaluated, so its cases are those of the assignment
  | use, .assign _ (.ident site name []) value => by
    simp only [Tree.Expr.map, Tree.Expr.mapAll]
    rw [expr, expr]
    simp only [h.variableOf_eq, expr_renumber h .value value]
  | use, .assign _ (.ident site name (index :: indices)) value => by
    have helement := element_renumber h (index :: indices)
    rw [Tree.Expr.mapAll] at helement
    simp only [Tree.Expr.map, Tree.Expr.mapAll]
    rw [expr, expr]
    simp only [h.variableOf_eq, expr_renumber h .value value, helement]
  | use, .assign _ (.assign _ _ _) _ => rfl
  | use, .assign _ (.binary _ _ _ _) _ => rfl
  | use, .assign _ (.literal _ _) _ => rfl
  | use, .assign _ (.call _ _ _) _ => rfl
  | use, .binary _ op lhs rhs => by
    rw [Tree.Expr.renumber, Tree.Expr.map, expr.eq_def, expr.eq_def]
    simp only [expr_renumber h .value lhs, expr_renumber h .value rhs]
  | use, .ident site name indices => by
    rw [Tree.Expr.renumber, Tree.Expr.map, expr.eq_def, expr.eq_def]
    cases use with
    | effect => simp only [h.variableOf_eq, exprs_renumber h .effect indices]
    | value =>
      cases indices with
      | nil => simp only [h.variableOf_eq, Tree.Expr.mapAll]
      | cons index indices =>
        have helement := element_renumber h (index :: indices)
        rw [Tree.Expr.mapAll] at helement
        simp only [h.variableOf_eq, Tree.Expr.mapAll, helement]
  | use, .literal _ value => by
    rw [Tree.Expr.renumber, Tree.Expr.map, expr.eq_def, expr.eq_def]
  | use, .call site name args => by
    rw [Tree.Expr.renumber, Tree.Expr.map, expr.eq_def, expr.eq_def]
    simp only [h.calleeOf_eq, exprs_renumber h .value args]

theorem exprs_renumber (h : cx.Renumbered π cx') : ∀ (use : Use) (es : List (Tree.Expr Site)),
    exprs cx' use (Tree.Expr.mapAll (.renumber π) es) = exprs cx use es
  | use, [] => rfl
  | use, e :: es => by
    rw [Tree.Expr.mapAll, exprs, exprs, expr_renumber h use e, exprs_renumber h use es]

theorem element_renumber (h : cx.Renumbered π cx') : ∀ es : List (Tree.Expr Site),
    element cx' (Tree.Expr.mapAll (.renumber π) es) = element cx es
  | [] => rfl
  | e :: es => by
    rw [Tree.Expr.mapAll, element, element, expr_renumber h .value e, element_renumber h es]

end

theorem declare_renumber (h : cx.Renumbered π cx') (v : Tree.Var) (init : Tree.Expr Site)
    (slot : Address) : declare cx' v (init.renumber π) slot = declare cx v init slot := by
  rw [declare, declare, expr_renumber h]

mutual

theorem stmt_renumber (h : cx.Renumbered π cx') : ∀ (s : Tree.Stmt) (slot : Address),
    stmt cx' (s.renumber π) slot = stmt cx s slot
  | .decl v init, slot => by
    rw [Tree.Stmt.renumber, Stmt.map, stmt, stmt, declare_renumber h]
  | .ifThen cond body, slot => by
    rw [Tree.Stmt.renumber, Stmt.map, stmt, stmt, expr_renumber h]
    simp only [block_renumber h body]
  | .ifElse cond body orElse, slot => by
    rw [Tree.Stmt.renumber, Stmt.map, stmt, stmt, expr_renumber h]
    simp only [block_renumber h body, block_renumber h orElse]
  | .loop v init cond step body, slot => by
    rw [Tree.Stmt.renumber, Stmt.map, stmt, stmt, declare_renumber h, expr_renumber h,
      expr_renumber h]
    simp only [block_renumber h body]
  | .ret none, slot => rfl
  | .ret (some value), slot => by
    rw [Tree.Stmt.renumber, Stmt.map, Option.map_some, stmt, stmt, expr_renumber h]
  | .eval e, slot => by
    rw [Tree.Stmt.renumber, Stmt.map, stmt, stmt, expr_renumber h]

theorem block_renumber (h : cx.Renumbered π cx') : ∀ (ss : List Tree.Stmt) (slot : Address),
    block cx' (Stmt.mapAll (Tree.Expr.renumber π) (fun v => v) ss) slot = block cx ss slot
  | [], slot => rfl
  | s :: ss, slot => by
    rw [Stmt.mapAll, block, block]
    have hs := stmt_renumber h s slot
    rw [Tree.Stmt.renumber] at hs
    rw [hs]
    simp only [block_renumber h ss]

end

/-- Whether the body ends in a `ret` does not depend on expressions. -/
theorem endsInReturn_map {ε ε' β β' : Type} (f : ε → ε') (g : β → β') (d : Func ε β) :
    (d.map f g).endsInReturn = d.endsInReturn := by
  have hreturn : ∀ s : Stmt ε β, (s.map f g).isReturn = s.isReturn := by
    intro s
    cases s <;> rfl
  rw [Func.endsInReturn, Func.map, Source.Parse.mapAll_eq_map, List.getLast?_map, Option.any_map]
  exact congrArg (Option.any · d.body.getLast?) (funext hreturn)

theorem func_renumber (h : cx.Renumbered π cx') (f : Tree.Func) (frame : Address) :
    func cx' (f.renumber π) frame = func cx f frame := by
  have hparams : (f.renumber π).params = f.params := List.map_id' _
  have hstorage : Tree.storage (f.renumber π).body = Tree.storage f.body := by
    show Tree.storage (Stmt.mapAll _ _ f.body) = _
    rw [Tree.storage, Stmt.declsOf_mapAll, List.map_id', Tree.storage]
  have hreturn : (f.renumber π).endsInReturn = f.endsInReturn := endsInReturn_map _ _ f.toFunc
  have hbody : ∀ slot, block cx' (f.renumber π).body slot = block cx f.body slot :=
    block_renumber h f.body
  rw [func, func, hparams, hstorage, hreturn]
  simp only [hbody]
  rfl

theorem program_renumber (h : cx.Renumbered π cx') (fs : List Tree.Func) (frame : Address) :
    program cx' (fs.map (.renumber π)) frame = program cx fs frame := by
  have hfuncs : ∀ frame, funcs cx' (fs.map (.renumber π)) frame = funcs cx fs frame := by
    induction fs with
    | nil => exact fun _ => rfl
    | cons f fs ih =>
      intro frame
      rw [List.map_cons, funcs, funcs, func_renumber h]
      simp only [ih]
  rw [program, program, h.entry?_eq]
  simp only [hfuncs]

end Generate

/-! ## Programs with the same trees -/

/-- A table is what its numbered contents say. -/
theorem toList_map_eq {α β γ : Type} {table : Array α} {bs : List β} {id : β → Nat} {f : α → γ}
    {g : β → γ} (hids : bs.map id = List.range table.size)
    (h : ∀ b ∈ bs, table[id b]?.map f = some (g b)) : table.toList.map f = bs.map g := by
  have hlength : bs.length = table.size := by simpa using congrArg List.length hids
  refine List.ext_getElem (by simp [hlength]) fun i hi hi' => ?_
  rw [List.length_map] at hi hi'
  have hid : id bs[i] = i := by
    have := List.getElem_of_eq hids (i := i) (by rwa [List.length_map])
    rwa [List.getElem_map, List.getElem_range] at this
  have hb := h bs[i] (List.getElem_mem hi')
  rw [hid, Array.getElem?_eq_getElem hi] at hb
  simpa using hb

namespace Program
variable {p q : Program} {R : Resolution} {o : Object}

theorem WellFormed.vars_eq (hp : p.WellFormed) :
    p.nodes.vars.toList = p.vars.map (·.toVar) := by
  have hvars := toList_map_eq (f := fun v => v) (g := fun v : Tree.Var => v.toVar) hp.varIds ?_
  · rwa [List.map_id'] at hvars
  · intro v hv
    have hvar := hp.var? v hv
    rw [Nodes.var?] at hvar
    obtain ⟨w, hw, hwv⟩ := Option.map_eq_some_iff.1 hvar
    rw [hw, ← hwv]
    rfl

theorem WellFormed.funcs_eq (hp : p.WellFormed) :
    p.nodes.funcs.toList.map (fun f => (f.name, f.ret)) = p.funcs.map fun f => (f.name, f.ret) := by
  refine toList_map_eq hp.funcIds fun f hf => ?_
  obtain ⟨node, hnode, -, -, hname, hret, -⟩ := Nodes.exists_of_func? (hp.func? f hf)
  rw [hnode, hname, hret]
  rfl

namespace SameTrees

theorem nodes_vars_eq (h : p.SameTrees q) (hp : p.WellFormed) (hq : q.WellFormed) :
    q.nodes.vars = p.nodes.vars := by
  apply Array.toList_inj.1
  rw [hp.vars_eq, hq.vars_eq, h.vars_eq hp hq]

theorem nodes_funcs_eq (h : p.SameTrees q) (hp : p.WellFormed) (hq : q.WellFormed) :
    q.nodes.funcs.map (fun f => (f.name, f.ret)) = p.nodes.funcs.map fun f => (f.name, f.ret) := by
  apply Array.toList_inj.1
  rw [Array.toList_map, Array.toList_map, hp.funcs_eq, hq.funcs_eq]
  have hfuncs := congrArg (List.map fun f : Func (Tree.Expr Pos) Var => (f.name, f.ret)) h
  rw [List.map_map, List.map_map] at hfuncs
  exact hfuncs.symm

/-- Names are resolved alike, and noted under other numbers. -/
theorem resolve {π : ExprId → ExprId} (hπ : Function.Injective π)
    (hfuncs : p.funcs.map (.renumber π) = q.funcs) (hR : p.resolve = .ok R) :
    ∃ R', q.resolve = .ok R' ∧ (∀ id, R'.idents.get? (π id) = R.idents.get? id) ∧
      ∀ id, R'.calls.get? (π id) = R.calls.get? id := by
  have hresolve : ∀ p : Program, p.resolve =
      (exec (Resolve.funcs p.funcs) .initial).1.map fun _ =>
        (exec (Resolve.funcs p.funcs) .initial).2.resolution := fun _ => rfl
  obtain ⟨hresult, hstate⟩ := Resolve.renumbers_funcs hπ p.funcs _ _ (.initial π)
  rw [hfuncs] at hresult hstate
  rw [hresolve, ← hresult] at hR
  rw [hresolve]
  generalize (exec (Resolve.funcs q.funcs) .initial).1 = result at hR
  cases result with
  | error err => cases hR
  | ok =>
    cases hR
    exact ⟨_, rfl, hstate.idents, hstate.calls⟩

/-- Programs with the same trees have the same code. -/
theorem generate (h : p.SameTrees q) (hp : p.WellFormed) (hq : q.WellFormed)
    (hR : p.resolve = .ok R) (ho : p.generate R = .ok o) :
    ∃ R', q.resolve = .ok R' ∧ q.generate R' = .ok o := by
  obtain ⟨π, hπ, hlabels⟩ := h.exists_labels hp hq
  have hfuncs := h.funcs_eq hp hq (h.exprs_eq hlabels)
  obtain ⟨R', hR', hidents, hcalls⟩ := resolve hπ hfuncs hR
  refine ⟨R', hR', ?_⟩
  -- of the nodes, code generation reads only the variables and the functions
  have hcx : Context.Renumbered π ⟨p.nodes, R⟩ ⟨q.nodes, R'⟩ :=
    ⟨hidents, hcalls, h.nodes_vars_eq hp hq, h.nodes_funcs_eq hp hq⟩
  rw [Program.generate, ← hfuncs, Generate.program_renumber hcx]
  exact ho

end SameTrees
end Program
end PrimeLang
