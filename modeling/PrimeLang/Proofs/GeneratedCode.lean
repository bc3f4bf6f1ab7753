import PrimeLang.Proofs.Actions
import PrimeLang.Proofs.Storing
import PrimeLang.Proofs.StructuralCode

/-! # Generated code is code by structure

Code generation emits jumps before it knows where they lead and patches them afterwards, and it looks
places up in a layout that it is still building. Whenever it succeeds, what it has added to the
segment is the code by structure for the finished layout. -/

namespace PrimeLang
open Machine Action

/-! ## What a run adds -/

/-- A run from `g` to `g'` has placed the variables `ps` and added the code `qs`, provided that the
finished layout is `L`. Where the display registers reach all levels, it warns only of lost code. -/
structure Generates (L : Layout) (g g' : Generator) (ps : List (VarId × Address))
    (qs : List Request) : Prop where
  level : g'.level = g.level
  params : g'.params = g.params
  funcs : g'.layout.funcs = g.layout.funcs
  vars : g'.layout.vars = g.layout.vars.insertAll ps
  next : g'.segment.next = g.segment.next + qs.length
  holds : g.layout ≤ L → L.vars.Has ps →
    ∀ before, g.segment.Holds before → g'.segment.Holds (before ++ qs)
  warned : g.level ≤ 7 → ∀ w ∈ g'.segment.warnings, w ∈ g.segment.warnings ∨ w.losesCode

namespace Generates
variable {L : Layout} {g g₁ g' : Generator} {ps ps' : List (VarId × Address)}
variable {qs qs' : List Request}

theorem refl (L : Layout) (g : Generator) : Generates L g g [] [] where
  level := rfl
  params := rfl
  funcs := rfl
  vars := rfl
  next := rfl
  holds _ _ before h := by rwa [List.append_nil]
  warned _ _ hw := .inl hw

theorem layout_le (h : Generates L g g' ps qs) (hg : g.layout ≤ L) (hps : L.vars.Has ps) :
    g'.layout ≤ L where
  funcs := h.funcs ▸ hg.funcs
  vars := h.vars ▸ Table.insertAll_le hg.vars hps

theorem trans (h : Generates L g g₁ ps qs) (h' : Generates L g₁ g' ps' qs') :
    Generates L g g' (ps ++ ps') (qs ++ qs') where
  level := h'.level.trans h.level
  params := h'.params.trans h.params
  funcs := h'.funcs.trans h.funcs
  vars := by rw [h'.vars, h.vars, Table.insertAll_append]
  next := by rw [h'.next, h.next, List.length_append, Nat.add_assoc]
  holds hg hps before hbefore := by
    obtain ⟨hps, hps'⟩ := Table.has_append.1 hps
    rw [← List.append_assoc]
    exact h'.holds (h.layout_le hg hps) hps' _ (h.holds hg hps _ hbefore)
  warned hlevel w hw := (h'.warned (h.level ▸ hlevel) w hw).elim (h.warned hlevel w) .inr

theorem cons {q : Request} (h : Generates L g g₁ [] [q]) (h' : Generates L g₁ g' ps qs) :
    Generates L g g' ps (q :: qs) := h.trans h'

/-- Code that is right for the finished layout may stand for the code that was added. -/
theorem congr (h : Generates L g g' ps qs) (hlen : qs.length = qs'.length)
    (heq : g.layout ≤ L → L.vars.Has ps → qs = qs') : Generates L g g' ps qs' where
  level := h.level
  params := h.params
  funcs := h.funcs
  vars := h.vars
  next := hlen ▸ h.next
  holds hg hps := heq hg hps ▸ h.holds hg hps
  warned := h.warned

/-- A patch gives the instruction that `pre` leads up to another displacement. -/
theorem patch {pre post : List Request} {q : Request} (h : Generates L g g' ps (pre ++ q :: post))
    (d : Int) :
    Generates L g { g' with segment := g'.segment.patch (g.segment.next + pre.length : Nat) d } ps
      (pre ++ { q with d := d } :: post) where
  level := h.level
  params := h.params
  funcs := h.funcs
  vars := h.vars
  next := by
    have hnext := h.next
    simpa using hnext
  holds hg hps before hbefore := by
    have hall := h.holds hg hps before hbefore
    rw [← List.append_assoc] at hall
    have hpatched := hall.patch d
    rwa [List.length_append, ← hbefore.next, List.append_assoc] at hpatched
  warned hlevel w hw := (Segment.warned_patch hw).elim (h.warned hlevel w) .inr

end Generates

/-- The environment of code that is generated from `g` on. -/
def Generator.env (g : Generator) (cx : Context) (L : Layout) : Code.Env :=
  ⟨cx, L, g.level, g.params⟩

theorem Generates.env {L : Layout} {g g' : Generator} {ps : List (VarId × Address)}
    {qs : List Request} (h : Generates L g g' ps qs) (cx : Context) : g'.env cx L = g.env cx L := by
  rw [Generator.env, h.level, h.params, Generator.env]

/-! ## Names -/

namespace Generator
variable {g : Generator} {cx : Context} {site : Site} {name : String}

theorem variableOf_eq_ok {v : Var} {a : Address} :
    g.variableOf cx site name = .ok (v, a) ↔ ∃ id, cx.resolution.idents.get? site.id = some id ∧
      cx.nodes.vars[id]? = some v ∧ g.layout.vars.get? id = some a := by
  unfold variableOf
  cases cx.resolution.idents.get? site.id with
  | none => simp
  | some id =>
    cases hv : cx.nodes.vars[id]? with
    | none => simp [hv]
    | some w => cases ha : g.layout.vars.get? id <;> simp [hv, ha, pure, Except.pure]

theorem calleeOf_eq_ok {ret : Option Ty} {a : Address} :
    g.calleeOf cx site name = .ok (ret, a) ↔ ∃ id f, cx.resolution.calls.get? site.id = some id ∧
      cx.nodes.funcs[id]? = some f ∧ f.ret = ret ∧ g.layout.funcs.get? id = some a := by
  unfold calleeOf
  cases cx.resolution.calls.get? site.id with
  | none => simp
  | some id =>
    cases hf : cx.nodes.funcs[id]? with
    | none => simp [hf]
    | some f => cases ha : g.layout.funcs.get? id <;> simp [hf, ha, pure, Except.pure]

variable {L : Layout}

theorem typeAt_of_variableOf {v : Var} {a : Address}
    (h : g.variableOf cx site name = .ok (v, a)) : (g.env cx L).typeAt site = v.ty := by
  obtain ⟨id, hid, hv, -⟩ := variableOf_eq_ok.1 h
  simp [Code.Env.typeAt, env, hid, hv]

theorem placeAt_of_variableOf {v : Var} {a : Address}
    (h : g.variableOf cx site name = .ok (v, a)) (hL : g.layout ≤ L) :
    (g.env cx L).placeAt site = a := by
  obtain ⟨id, hid, -, ha⟩ := variableOf_eq_ok.1 h
  simp [Code.Env.placeAt, env, hid, hL.vars id a ha]

theorem resultAt_of_calleeOf {ret : Option Ty} {a : Address}
    (h : g.calleeOf cx site name = .ok (ret, a)) : (g.env cx L).resultAt site = ret := by
  obtain ⟨id, f, hid, hf, hret, -⟩ := calleeOf_eq_ok.1 h
  simp [Code.Env.resultAt, env, hid, hf, hret]

theorem entryAt_of_calleeOf {ret : Option Ty} {a : Address}
    (h : g.calleeOf cx site name = .ok (ret, a)) (hL : g.layout ≤ L) :
    (g.env cx L).entryAt site = a := by
  obtain ⟨id, f, hid, -, -, ha⟩ := calleeOf_eq_ok.1 h
  simp [Code.Env.entryAt, env, hid, hL.funcs id a ha]

end Generator

theorem Generates.variableOf_eq {L : Layout} {g g' : Generator} {qs : List Request}
    (h : Generates L g g' [] qs) (cx : Context) (site : Site) (name : String) :
    g'.variableOf cx site name = g.variableOf cx site name := by
  rw [Generator.variableOf, h.vars, Table.insertAll_nil, Generator.variableOf]

theorem Generates.calleeOf_eq {L : Layout} {g g' : Generator} {ps : List (VarId × Address)}
    {qs : List Request} (h : Generates L g g' ps qs) (cx : Context) (site : Site) (name : String) :
    g'.calleeOf cx site name = g.calleeOf cx site name := by
  rw [Generator.calleeOf, h.funcs, Generator.calleeOf]

/-! ## Single instructions -/

namespace Generate
variable {L : Layout} {cx : Context} {g g' : Generator}

/-- A warning of another kind is given only so deep that a level may be out of reach. -/
theorem generates_warn (L : Layout) (w : Warning) (hlevel : 7 < g.level) :
    Generates L g { g with segment := g.segment.warn w } [] [] where
  level := rfl
  params := rfl
  funcs := rfl
  vars := rfl
  next := rfl
  holds _ _ before h := by
    rw [List.append_nil]
    exact h.warn w
  warned hle := absurd hle (Nat.not_le.2 hlevel)

theorem generates_request (L : Layout) (g : Generator) (q : Request) :
    Generates L g { g with segment := (g.segment.emit q.op q.n q.r q.d).2 } [] [q] where
  level := rfl
  params := rfl
  funcs := rfl
  vars := rfl
  next := g.segment.next_emit ..
  holds _ _ _ h := h.emit q
  warned _ _ hw := Segment.warned_emit q hw

theorem exec_emitAt (op : Opcode) (n : Int) (r : Register) (d : Int) (g : Generator) :
    exec (emitAt op n r d) g =
      (.ok g.segment.next, { g with segment := (g.segment.emit op n r d).2 }) := by
  rw [emitAt, exec_modifyGet]

theorem generates_emitAt {op : Opcode} {n d : Int} {r : Register} {addr : Nat}
    (h : exec (emitAt op n r d) g = (.ok addr, g')) :
    addr = g.segment.next ∧ Generates L g g' [] [⟨op, n, r, d⟩] := by
  rw [exec_emitAt] at h
  cases h
  exact ⟨rfl, generates_request L g ⟨op, n, r, d⟩⟩

theorem generates_emit {op : Opcode} {n d : Int} {r : Register} {u : Unit}
    (h : exec (emit op n r d) g = (.ok u, g')) : Generates L g g' [] [⟨op, n, r, d⟩] := by
  obtain ⟨addr, g₁, hemit, hpure⟩ := exec_bind_ok.1 h
  cases hpure
  exact (generates_emitAt hemit).2

theorem generates_if {p : Prop} [Decidable p] {x : Generate Unit} {qs : List Request} {u : Unit}
    (h : exec (if p then x else pure ()) g = (.ok u, g'))
    (hx : exec x g = (.ok u, g') → Generates L g g' [] qs) :
    Generates L g g' [] (if p then qs else []) := by
  by_cases hp : p
  · rw [if_pos hp] at h ⊢
    exact hx h
  · rw [if_neg hp] at h ⊢
    cases h
    exact .refl L g

theorem generates_registerFor (cx : Context) {level : Nat} {r : Register}
    (h : exec (registerFor level) g = (.ok r, g')) :
    r = (g.env cx L).register level ∧ Generates L g g' [] [] := by
  unfold registerFor at h
  unfold Code.Env.register
  split at h
  · next h0 =>
    cases h
    exact ⟨(if_pos h0).symm, .refl L g⟩
  · next h0 =>
    rw [if_neg h0]
    obtain ⟨g₁, _, hget, h⟩ := exec_bind_ok.1 h
    cases hget
    show _ = (Register.display? (g.level - level)).getD .l6 ∧ _
    cases hr : Register.display? (g.level - level) with
    | some r' =>
      simp only [hr] at h
      cases h
      exact ⟨rfl, .refl L g⟩
    | none =>
      simp only [hr] at h
      cases h
      have hup : 7 ≤ g.level - level := List.getElem?_eq_none_iff.1 hr
      exact ⟨rfl, generates_warn L _ (by omega)⟩

theorem generates_access (cx : Context) {op : Opcode} {size : Int} {a : Address} {u : Unit}
    (h : exec (access op size a) g = (.ok u, g')) :
    Generates L g g' [] [(g.env cx L).access op size a] := by
  obtain ⟨r, g₁, hreg, h⟩ := exec_bind_ok.1 h
  obtain ⟨_, _, hget, h⟩ := exec_bind_ok.1 h
  cases hget
  obtain ⟨rfl, hg₁⟩ := generates_registerFor (L := L) cx hreg
  have hemit := hg₁.trans (generates_emit (L := L) h)
  rwa [hg₁.params] at hemit

/-- Moving the variable that an expression stands for. -/
theorem generates_moveAt {op : Opcode} {site : Site} {name : String} {v : Var} {a : Address}
    {u : Unit} (hv : g.variableOf cx site name = .ok (v, a))
    (h : exec (access op v.ty.size a) g = (.ok u, g')) :
    Generates L g g' [] [(g.env cx L).moveAt op site] := by
  refine (generates_access cx h).congr rfl fun hL _ => ?_
  rw [Code.Env.moveAt, Generator.typeAt_of_variableOf hv, Generator.placeAt_of_variableOf hv hL]

theorem generates_loadArrayAt {site : Site} {name : String} {v : Var} {a : Address}
    {u : Unit} (hv : g.variableOf cx site name = .ok (v, a))
    (h : exec (load addressSize a) g = (.ok u, g')) :
    Generates L g g' [] [(g.env cx L).loadArrayAt site] := by
  refine (generates_access cx h).congr rfl fun hL _ => ?_
  rw [Code.Env.loadArrayAt, Generator.placeAt_of_variableOf hv hL]

theorem generates_callRoutine {r : Routine} {u : Unit}
    (h : exec (callRoutine r) g = (.ok u, g')) : Generates L g g' [] [Code.routine r] :=
  generates_emit h

theorem generates_callAt {site : Site} {name : String} {ret : Option Ty} {a : Address}
    {r : Register} {g₁ : Generator} {u : Unit} (hf : g.calleeOf cx site name = .ok (ret, a))
    (hr : exec (registerFor a.level) g = (.ok r, g₁))
    (h : exec (emit .call r.number .cb a.displacement) g₁ = (.ok u, g')) :
    Generates L g g' [] [(g.env cx L).callAt site] := by
  obtain ⟨rfl, hg₁⟩ := generates_registerFor (L := L) cx hr
  refine (hg₁.trans (generates_emit h)).congr rfl fun hL _ => ?_
  rw [Code.Env.callAt, Generator.entryAt_of_calleeOf hf hL]
  rfl

/-! ## Expressions -/

section
variable (cx : Context) (L : Layout)

/-- What is generated for an expression is its code by structure, whatever its use. -/
def CodesExpr (e : Tree.Expr Site) : Prop :=
  ∀ {use : Use} {g g' : Generator} {u : Unit}, exec (expr cx use e) g = (.ok u, g') →
    Generates L g g' [] (Code.expr (g.env cx L) use e)

/-- The same of expressions in order. -/
def CodesExprs (es : List (Tree.Expr Site)) : Prop :=
  ∀ {use : Use} {g g' : Generator} {u : Unit}, exec (exprs cx use es) g = (.ok u, g') →
    Generates L g g' [] (Code.exprs (g.env cx L) use es)

/-- The same of indices that are added to an address. -/
def CodesElement (es : List (Tree.Expr Site)) : Prop :=
  ∀ {g g' : Generator} {u : Unit}, exec (element cx es) g = (.ok u, g') →
    Generates L g g' [] (Code.element (g.env cx L) es)

end

section
variable {site label : Site} {name : String} {value lhs rhs index e : Tree.Expr Site}
variable {indices es : List (Tree.Expr Site)}

theorem codesExpr_assign (hvalue : CodesExpr cx L value) :
    CodesExpr cx L (.assign label (.ident site name []) value) := by
  intro use g g' u h
  rw [expr, exec_get_bind] at h
  obtain ⟨⟨v, a⟩, hv, h⟩ := exec_lift_bind_ok.1 h
  obtain ⟨_, g₁, hrun, h⟩ := exec_bind_ok.1 h
  obtain ⟨_, g₂, hstore, h⟩ := exec_bind_ok.1 h
  have hg₁ := hvalue hrun
  have hg₂ := generates_moveAt (L := L) ((hg₁.variableOf_eq cx site name).trans hv) hstore
  rw [hg₁.env] at hg₂
  have hg₁₂ := hg₁.trans hg₂
  rw [Code.expr]
  cases use with
  | effect =>
    cases h
    exact hg₁₂.trans (.refl L _)
  | value =>
    have hg' := generates_moveAt (L := L) ((hg₁₂.variableOf_eq cx site name).trans hv) h
    rw [hg₁₂.env] at hg'
    exact hg₁₂.trans hg'

theorem codesExpr_assignElement (hvalue : CodesExpr cx L value)
    (hindices : CodesElement cx L (index :: indices)) :
    CodesExpr cx L (.assign label (.ident site name (index :: indices)) value) := by
  intro use g g' u h
  rw [expr, exec_get_bind] at h
  obtain ⟨⟨v, a⟩, hv, h⟩ := exec_lift_bind_ok.1 h
  obtain ⟨_, g₁, hrun, h⟩ := exec_bind_ok.1 h
  obtain ⟨_, g₂, hcopy, h⟩ := exec_if_bind_ok.1 h
  obtain ⟨_, g₃, hload, h⟩ := exec_bind_ok.1 h
  obtain ⟨_, g₄, helement, h⟩ := exec_bind_ok.1 h
  have hg₁ := hvalue hrun
  have hg₂ := hg₁.trans (generates_if hcopy fun hcopy => generates_emit hcopy)
  have hg₃ := generates_loadArrayAt (L := L) ((hg₂.variableOf_eq cx site name).trans hv) hload
  rw [hg₂.env] at hg₃
  have hg₄ := hindices helement
  rw [(hg₂.trans hg₃).env] at hg₄
  rw [Code.expr]
  exact ((hg₂.trans hg₃).trans hg₄).trans (generates_emit h)

/-- There is nothing to show of an expression that has no code. -/
theorem codesExpr_of_error {x : Unresolved}
    (he : ∀ use g, exec (expr cx use e) g = (.error x, g)) : CodesExpr cx L e := by
  intro use g g' u h
  rw [he] at h
  cases h

theorem codesExpr_binary (op : BinaryOp) (hlhs : CodesExpr cx L lhs) (hrhs : CodesExpr cx L rhs) :
    CodesExpr cx L (.binary label op lhs rhs) := by
  intro use g g' u h
  rw [expr.eq_def] at h
  obtain ⟨_, g₁, hrunLhs, h⟩ := exec_bind_ok.1 h
  obtain ⟨_, g₂, hrunRhs, h⟩ := exec_bind_ok.1 h
  have hg₁ := hlhs hrunLhs
  have hg₂ := hrhs hrunRhs
  rw [hg₁.env] at hg₂
  rw [Code.expr]
  refine (hg₁.trans hg₂).trans ?_
  cases use with
  | value => exact generates_callRoutine h
  | effect => exact generates_emit h

theorem codesExpr_ident (heffect : CodesExprs cx L indices) (hvalue : CodesElement cx L indices) :
    CodesExpr cx L (.ident site name indices) := by
  intro use g g' u h
  rw [expr, exec_get_bind] at h
  obtain ⟨⟨v, a⟩, hv, h⟩ := exec_lift_bind_ok.1 h
  cases use with
  | effect =>
    rw [Code.expr]
    exact heffect h
  | value =>
    cases indices with
    | nil => exact generates_moveAt hv h
    | cons index indices =>
      rw [Code.expr]
      obtain ⟨_, g₁, hload, h⟩ := exec_bind_ok.1 h
      obtain ⟨_, g₂, helement, h⟩ := exec_bind_ok.1 h
      have hg₁ := generates_loadArrayAt (L := L) hv hload
      have hg₂ := hvalue helement
      rw [hg₁.env] at hg₂
      exact (hg₁.trans hg₂).trans (generates_emit h)

theorem codesExpr_literal (n : Int32) : CodesExpr cx L (.literal label n) := by
  intro use g g' u h
  cases use with
  | value =>
    rw [expr_literal] at h
    rw [Code.expr_literal]
    exact generates_emit h
  | effect =>
    cases h
    exact .refl L g

theorem generates_discard {use : Use} {ret : Option Ty} {u : Unit}
    (h : exec (match use, ret with
      | .effect, some ty => emit .pop 0 .cb ty.size
      | _, _ => pure ()) g = (.ok u, g')) : Generates L g g' [] (Code.discard use ret) := by
  cases use with
  | value =>
    cases h
    exact .refl L g
  | effect =>
    cases ret with
    | none =>
      cases h
      exact .refl L g
    | some ty => exact generates_emit h

theorem codesExpr_call (hargs : CodesExprs cx L es) : CodesExpr cx L (.call site name es) := by
  intro use g g' u h
  rw [expr, exec_get_bind] at h
  obtain ⟨⟨ret, a⟩, hf, h⟩ := exec_lift_bind_ok.1 h
  obtain ⟨_, g₁, hrun, h⟩ := exec_bind_ok.1 h
  obtain ⟨r, g₂, hr, h⟩ := exec_bind_ok.1 h
  obtain ⟨_, g₃, hcall, h⟩ := exec_bind_ok.1 h
  have hg₁ := hargs hrun
  have hg₃ := generates_callAt (L := L) ((hg₁.calleeOf_eq cx site name).trans hf) hr hcall
  rw [hg₁.env] at hg₃
  rw [Code.expr, Generator.resultAt_of_calleeOf hf]
  exact (hg₁.trans hg₃).trans (generates_discard h)

theorem codesExprs_nil : CodesExprs cx L [] := by
  intro use g g' u h
  cases h
  exact .refl L g

theorem codesExprs_cons (he : CodesExpr cx L e) (hes : CodesExprs cx L es) :
    CodesExprs cx L (e :: es) := by
  intro use g g' u h
  rw [exprs] at h
  obtain ⟨_, g₁, hrun, h⟩ := exec_bind_ok.1 h
  have hg₁ := he hrun
  have hg' := hes h
  rw [hg₁.env] at hg'
  rw [Code.exprs]
  exact hg₁.trans hg'

theorem codesElement_nil : CodesElement cx L [] := by
  intro g g' u h
  cases h
  exact .refl L g

theorem codesElement_cons (he : CodesExpr cx L e) (hes : CodesElement cx L es) :
    CodesElement cx L (e :: es) := by
  intro g g' u h
  rw [element] at h
  obtain ⟨_, g₁, hrun, h⟩ := exec_bind_ok.1 h
  obtain ⟨_, g₂, hadd, h⟩ := exec_bind_ok.1 h
  have hg₂ := (he hrun).trans (generates_callRoutine hadd)
  have hg' := hes h
  rw [hg₂.env] at hg'
  rw [Code.element]
  exact hg₂.trans hg'

end

mutual

theorem generates_expr (cx : Context) (L : Layout) : ∀ e : Tree.Expr Site, CodesExpr cx L e
  | .assign _ (.ident _ _ []) value => codesExpr_assign (generates_expr cx L value)
  | .assign _ (.ident _ _ (index :: indices)) value =>
    codesExpr_assignElement (generates_expr cx L value) (generates_element cx L (index :: indices))
  | .assign _ (.assign ..) _ => codesExpr_of_error fun _ _ => rfl
  | .assign _ (.binary ..) _ => codesExpr_of_error fun _ _ => rfl
  | .assign _ (.literal ..) _ => codesExpr_of_error fun _ _ => rfl
  | .assign _ (.call ..) _ => codesExpr_of_error fun _ _ => rfl
  | .binary _ op lhs rhs =>
    codesExpr_binary op (generates_expr cx L lhs) (generates_expr cx L rhs)
  | .ident _ _ indices =>
    codesExpr_ident (generates_exprs cx L indices) (generates_element cx L indices)
  | .literal _ n => codesExpr_literal n
  | .call _ _ args => codesExpr_call (generates_exprs cx L args)

theorem generates_exprs (cx : Context) (L : Layout) :
    ∀ es : List (Tree.Expr Site), CodesExprs cx L es
  | [] => codesExprs_nil
  | e :: es => codesExprs_cons (generates_expr cx L e) (generates_exprs cx L es)

theorem generates_element (cx : Context) (L : Layout) :
    ∀ es : List (Tree.Expr Site), CodesElement cx L es
  | [] => codesElement_nil
  | e :: es => codesElement_cons (generates_expr cx L e) (generates_element cx L es)

end

/-! ## Statements -/

theorem generates_param {v : Tree.Var} {slot slot' : Address}
    (h : exec (param v slot) g = (.ok slot', g')) :
    slot' = slot.offset v.ty.size ∧ Generates L g g' [(v.id, slot)] [] := by
  cases h
  exact ⟨rfl, rfl, rfl, rfl, rfl, rfl, fun _ _ before h => by rwa [List.append_nil],
    fun _ _ hw => .inl hw⟩

theorem generates_params {vs : List Tree.Var} {slot slot' : Address}
    (h : exec (params vs slot) g = (.ok slot', g')) :
    slot' = slot.offset (Tree.words vs) ∧ Generates L g g' (placements vs slot) [] := by
  induction vs generalizing g slot with
  | nil =>
    cases h
    exact ⟨slot'.offset_zero.symm, .refl L g'⟩
  | cons v vs ih =>
    obtain ⟨_, g₁, hv, hvs⟩ := exec_bind_ok.1 h
    obtain ⟨rfl, hg₁⟩ := generates_param (L := L) hv
    obtain ⟨rfl, hg'⟩ := ih hvs
    rw [Address.offset_offset, Tree.words_cons, Int.natCast_add]
    exact ⟨rfl, hg₁.trans hg'⟩

theorem generates_declare (cx : Context) {v : Tree.Var} {init : Tree.Expr Site}
    {slot slot' : Address} (h : exec (declare cx v init slot) g = (.ok slot', g')) :
    slot' = slot.offset v.ty.size ∧
      Generates L g g' [(v.id, slot)] (Code.declare (g.env cx L) v init) := by
  obtain ⟨_, g₁, hv, h⟩ := exec_bind_ok.1 h
  obtain ⟨_, g₂, hinit, h⟩ := exec_bind_ok.1 h
  obtain ⟨_, g₃, hstore, h⟩ := exec_bind_ok.1 h
  cases h
  obtain ⟨rfl, hg₁⟩ := generates_param (L := L) hv
  have hg₂ := generates_expr cx L init hinit
  rw [hg₁.env] at hg₂
  have hg₁₂ := hg₁.trans hg₂
  have hg' := generates_access (L := L) cx hstore
  rw [hg₁₂.env] at hg'
  refine ⟨rfl, (hg₁₂.trans hg').congr (by simp [Code.declare]) fun _ hps => ?_⟩
  have hslot : L.vars.get? v.id = some slot := hps (v.id, slot) List.mem_cons_self
  rw [Code.declare, Generator.env, hslot]
  rfl

/-- A jump is made to lead behind all code so far. -/
theorem generates_patchHere {g₁ : Generator} {ps : List (VarId × Address)} {pre post : List Request}
    {q : Request} {addr : Nat} {u : Unit} (h : Generates L g g₁ ps (pre ++ q :: post))
    (haddr : addr = g.segment.next + pre.length) (hpatch : exec (patchHere addr) g₁ = (.ok u, g')) :
    Generates L g g' ps (pre ++
      { q with d := Segment.addressOf (g.segment.next + pre.length + 1 + post.length) } ::
        post) := by
  have hnext : g₁.segment.next = g.segment.next + pre.length + 1 + post.length := by
    rw [h.next, List.length_append, List.length_cons]
    omega
  rw [← hnext]
  subst haddr
  cases hpatch
  exact h.patch _

/-- What a condition guards is skipped over. -/
theorem generates_guarded {g₁ g₂ g₃ : Generator} {ps : List (VarId × Address)}
    {c b : List Request} {exit : Nat} {u : Unit} (hc : Generates L g g₁ [] c)
    (hexit : exec jumpIfFalse g₁ = (.ok exit, g₂)) (hb : Generates L g₂ g₃ ps b)
    (hpatch : exec (patchHere exit) g₃ = (.ok u, g')) :
    Generates L g g' ps (Code.guarded g.segment.next c b) := by
  obtain ⟨rfl, h₂⟩ := generates_emitAt (L := L) hexit
  exact generates_patchHere (hc.trans (h₂.cons hb)) hc.next hpatch

theorem start_of_jumpIfFalse {g₁ g₂ : Generator} {c : List Request} {exit : Nat}
    (hc : Generates L g g₁ [] c) (hexit : exec jumpIfFalse g₁ = (.ok exit, g₂)) (cx : Context) :
    g₂.env cx L = g.env cx L ∧ g₂.segment.next = g.segment.next + c.length + 1 := by
  obtain ⟨rfl, hg₂⟩ := generates_emitAt (L := L) hexit
  exact ⟨(hg₂.env cx).trans (hc.env cx), hg₂.next.trans (congrArg (· + 1) hc.next)⟩

section
variable {g₁ g₂ g₃ g₄ g₅ g₆ : Generator} {ps ps' : List (VarId × Address)}
variable {c b o : List Request} {exit skip : Nat} {u u' : Unit}

theorem start_of_skip (hc : Generates L g g₁ [] c) (hexit : exec jumpIfFalse g₁ = (.ok exit, g₂))
    (hb : Generates L g₂ g₃ ps b) (hskip : exec (emitAt .jump 0 .cb 0) g₃ = (.ok skip, g₄))
    (hpatch : exec (patchHere exit) g₄ = (.ok u, g₅)) (cx : Context) :
    g₅.env cx L = g.env cx L ∧
      g₅.segment.next = g.segment.next + c.length + 1 + (b.length + 1) := by
  obtain ⟨rfl, hg₄⟩ := generates_emitAt (L := L) hskip
  have hg₅ := generates_guarded hc hexit (hb.trans hg₄) hpatch
  refine ⟨hg₅.env cx, ?_⟩
  rw [hg₅.next, Code.length_guarded, List.length_append, List.length_singleton]
  omega

/-- The first alternative skips over the second one. -/
theorem generates_alternatives (hc : Generates L g g₁ [] c)
    (hexit : exec jumpIfFalse g₁ = (.ok exit, g₂)) (hb : Generates L g₂ g₃ ps b)
    (hskip : exec (emitAt .jump 0 .cb 0) g₃ = (.ok skip, g₄))
    (hpatch : exec (patchHere exit) g₄ = (.ok u, g₅)) (ho : Generates L g₅ g₆ ps' o)
    (hpatch' : exec (patchHere skip) g₆ = (.ok u', g')) :
    Generates L g g' (ps ++ ps') (Code.guarded g.segment.next c
      (b ++ [Code.jump (g.segment.next + c.length + 1 + (b.length + 1) + o.length)]) ++ o) := by
  obtain ⟨rfl, hg₄⟩ := generates_emitAt (L := L) hskip
  have hall := (generates_guarded hc hexit (hb.trans hg₄) hpatch).trans ho
  rw [List.append_nil, Code.guarded_append_singleton] at hall
  have hlen : ∀ q : Request, (c ++ q :: b).length = c.length + 1 + b.length := by
    intro q
    rw [List.length_append, List.length_cons]
    omega
  have hnext := hb.next
  rw [(start_of_jumpIfFalse hc hexit default).2] at hnext
  have hg' := generates_patchHere hall (by rw [hnext, hlen]; omega) hpatch'
  rw [Code.guarded_append_singleton]
  have htarget : g.segment.next + (c.length + 1 + b.length) + 1 + o.length =
      g.segment.next + c.length + 1 + (b.length + 1) + o.length := by omega
  rw [hlen, htarget] at hg'
  exact hg'

end

section
variable (cx : Context) (L : Layout)

/-- What is generated for a statement is its code by structure, and its variables get the places
from the first free one on. -/
def CodesStmt (s : Tree.Stmt) : Prop :=
  ∀ {slot slot' : Address} {g g' : Generator}, exec (stmt cx s slot) g = (.ok slot', g') →
    slot' = slot.offset (Tree.words s.decls) ∧
      Generates L g g' (placements s.decls slot) (Code.stmt (g.env cx L) g.segment.next s)

/-- The same of statements in order. -/
def CodesBlock (ss : List Tree.Stmt) : Prop :=
  ∀ {slot slot' : Address} {g g' : Generator}, exec (block cx ss slot) g = (.ok slot', g') →
    slot' = slot.offset (Tree.words (Stmt.declsOf ss)) ∧
      Generates L g g' (placements (Stmt.declsOf ss) slot)
        (Code.block (g.env cx L) g.segment.next ss)

end

section
variable {cond step value : Tree.Expr Site} {body orElse : List Tree.Stmt}

theorem codesStmt_decl (v : Tree.Var) (init : Tree.Expr Site) :
    CodesStmt cx L (.decl v init) := by
  intro slot slot' g g' h
  rw [stmt] at h
  rw [Code.stmt]
  exact generates_declare cx h

theorem codesStmt_ifThen (cond : Tree.Expr Site) (hbody : CodesBlock cx L body) :
    CodesStmt cx L (.ifThen cond body) := by
  intro slot slot' g g' h
  rw [stmt] at h
  obtain ⟨_, g₁, hcond, h⟩ := exec_bind_ok.1 h
  obtain ⟨exit, g₂, hexit, h⟩ := exec_bind_ok.1 h
  obtain ⟨_, g₃, hrun, h⟩ := exec_bind_ok.1 h
  obtain ⟨_, g₄, hpatch, h⟩ := exec_bind_ok.1 h
  cases h
  have hg₁ := generates_expr cx L cond hcond
  obtain ⟨henv, hnext⟩ := start_of_jumpIfFalse hg₁ hexit cx
  obtain ⟨rfl, hg₃⟩ := hbody hrun
  rw [henv, hnext] at hg₃
  rw [Code.stmt]
  exact ⟨rfl, generates_guarded hg₁ hexit hg₃ hpatch⟩

theorem codesStmt_ifElse (cond : Tree.Expr Site) (hbody : CodesBlock cx L body)
    (horElse : CodesBlock cx L orElse) : CodesStmt cx L (.ifElse cond body orElse) := by
  intro slot slot' g g' h
  rw [stmt] at h
  obtain ⟨_, g₁, hcond, h⟩ := exec_bind_ok.1 h
  obtain ⟨exit, g₂, hexit, h⟩ := exec_bind_ok.1 h
  obtain ⟨_, g₃, hrun, h⟩ := exec_bind_ok.1 h
  obtain ⟨skip, g₄, hskip, h⟩ := exec_bind_ok.1 h
  obtain ⟨_, g₅, hpatch, h⟩ := exec_bind_ok.1 h
  obtain ⟨_, g₆, hrunElse, h⟩ := exec_bind_ok.1 h
  obtain ⟨_, g₇, hpatch', h⟩ := exec_bind_ok.1 h
  cases h
  have hg₁ := generates_expr cx L cond hcond
  obtain ⟨henv, hnext⟩ := start_of_jumpIfFalse hg₁ hexit cx
  obtain ⟨rfl, hg₃⟩ := hbody hrun
  rw [henv, hnext] at hg₃
  obtain ⟨rfl, hg₆⟩ := horElse hrunElse
  obtain ⟨henv, hnext⟩ := start_of_skip hg₁ hexit hg₃ hskip hpatch cx
  rw [henv, hnext] at hg₆
  rw [Code.stmt, Stmt.decls, Tree.words_append, Int.natCast_add, ← Address.offset_offset,
    placements_append]
  exact ⟨rfl, generates_alternatives hg₁ hexit hg₃ hskip hpatch hg₆ hpatch'⟩

theorem codesStmt_loop (v : Tree.Var) (init cond step : Tree.Expr Site)
    (hbody : CodesBlock cx L body) : CodesStmt cx L (.loop v init cond step body) := by
  intro slot slot' g g' h
  rw [stmt] at h
  obtain ⟨_, g₁, hdecl, h⟩ := exec_bind_ok.1 h
  obtain ⟨head, _, hhead, h⟩ := exec_bind_ok.1 h
  cases hhead
  obtain ⟨_, g₂, hcond, h⟩ := exec_bind_ok.1 h
  obtain ⟨exit, g₃, hexit, h⟩ := exec_bind_ok.1 h
  obtain ⟨_, g₄, hrun, h⟩ := exec_bind_ok.1 h
  obtain ⟨_, g₅, hstep, h⟩ := exec_bind_ok.1 h
  obtain ⟨_, g₆, hjump, h⟩ := exec_bind_ok.1 h
  obtain ⟨_, g₇, hpatch, h⟩ := exec_bind_ok.1 h
  cases h
  obtain ⟨rfl, hg₁⟩ := generates_declare (L := L) cx hdecl
  have hg₂ := generates_expr cx L cond hcond
  obtain ⟨henv, hnext⟩ := start_of_jumpIfFalse hg₂ hexit cx
  obtain ⟨rfl, hg₄⟩ := hbody hrun
  have hg₅ := generates_expr cx L step hstep
  rw [hg₄.env] at hg₅
  rw [henv, hnext] at hg₄
  rw [henv] at hg₅
  have hg₆ : Generates L g₅ g₆ [] [Code.jump g₁.segment.next] := generates_emit hjump
  have hg' := generates_guarded hg₂ hexit ((hg₄.trans hg₅).trans hg₆) hpatch
  rw [hg₁.env, hg₁.next] at hg'
  rw [Code.stmt, Stmt.decls, Tree.words_cons, Int.natCast_add, ← Address.offset_offset,
    placements]
  have hall := hg₁.trans hg'
  rw [List.append_nil, List.append_nil] at hall
  exact ⟨rfl, hall⟩

theorem codesStmt_leave : CodesStmt cx L (.ret none) := by
  intro slot slot' g g' h
  rw [stmt] at h
  obtain ⟨_, _, hget, h⟩ := exec_bind_ok.1 h
  cases hget
  obtain ⟨_, g₁, hemit, h⟩ := exec_bind_ok.1 h
  cases h
  exact ⟨slot.offset_zero.symm, generates_emit hemit⟩

theorem codesStmt_ret (value : Tree.Expr Site) : CodesStmt cx L (.ret (some value)) := by
  intro slot slot' g g' h
  rw [stmt] at h
  obtain ⟨_, g₁, hvalue, h⟩ := exec_bind_ok.1 h
  obtain ⟨_, _, hget, h⟩ := exec_bind_ok.1 h
  cases hget
  obtain ⟨_, g₂, hemit, h⟩ := exec_bind_ok.1 h
  cases h
  have hg₁ := generates_expr cx L value hvalue
  have hg₂ := generates_emit (L := L) hemit
  rw [hg₁.params] at hg₂
  rw [Code.stmt]
  exact ⟨slot.offset_zero.symm, hg₁.trans hg₂⟩

theorem codesStmt_eval (e : Tree.Expr Site) : CodesStmt cx L (.eval e) := by
  intro slot slot' g g' h
  rw [stmt_eval] at h
  obtain ⟨_, g₁, he, h⟩ := exec_bind_ok.1 h
  cases h
  rw [Code.stmt]
  exact ⟨slot.offset_zero.symm, generates_expr cx L e he⟩

theorem codesBlock_nil : CodesBlock cx L [] := by
  intro slot slot' g g' h
  cases h
  exact ⟨slot.offset_zero.symm, .refl L g⟩

theorem codesBlock_cons {s : Tree.Stmt} {ss : List Tree.Stmt} (hs : CodesStmt cx L s)
    (hss : CodesBlock cx L ss) : CodesBlock cx L (s :: ss) := by
  intro slot slot' g g' h
  rw [block] at h
  obtain ⟨_, g₁, hrun, h⟩ := exec_bind_ok.1 h
  obtain ⟨rfl, hg₁⟩ := hs hrun
  obtain ⟨rfl, hg'⟩ := hss h
  rw [hg₁.env, hg₁.next] at hg'
  rw [Address.offset_offset, Stmt.declsOf, Tree.words_append, Int.natCast_add, placements_append,
    Code.block]
  exact ⟨rfl, hg₁.trans hg'⟩

end

mutual

theorem generates_stmt (cx : Context) (L : Layout) : ∀ s : Tree.Stmt, CodesStmt cx L s
  | .decl v init => codesStmt_decl v init
  | .ifThen cond body => codesStmt_ifThen cond (generates_block cx L body)
  | .ifElse cond body orElse =>
    codesStmt_ifElse cond (generates_block cx L body) (generates_block cx L orElse)
  | .loop v init cond step body => codesStmt_loop v init cond step (generates_block cx L body)
  | .ret none => codesStmt_leave
  | .ret (some value) => codesStmt_ret value
  | .eval e => codesStmt_eval e

theorem generates_block (cx : Context) (L : Layout) : ∀ ss : List Tree.Stmt, CodesBlock cx L ss
  | [] => codesBlock_nil
  | s :: ss => codesBlock_cons (generates_stmt cx L s) (generates_block cx L ss)

end

/-! ## Functions -/

/-- A run from `g` to `g'` has placed the functions `fps` with their variables `ps` and added the code
`qs`, provided that the finished layout is `L`. -/
structure GeneratesFuncs (L : Layout) (g g' : Generator) (fps : List (FuncId × Address))
    (ps : List (VarId × Address)) (qs : List Request) : Prop where
  level : g'.level = g.level
  funcs : g'.layout.funcs = g.layout.funcs.insertAll fps
  vars : g'.layout.vars = g.layout.vars.insertAll ps
  next : g'.segment.next = g.segment.next + qs.length
  holds : g.layout ≤ L → L.funcs.Has fps → L.vars.Has ps →
    ∀ before, g.segment.Holds before → g'.segment.Holds (before ++ qs)
  warned : g.level ≤ 6 → ∀ w ∈ g'.segment.warnings, w ∈ g.segment.warnings ∨ w.losesCode

theorem GeneratesFuncs.trans {g₁ : Generator} {fps fps' : List (FuncId × Address)}
    {ps ps' : List (VarId × Address)} {qs qs' : List Request}
    (h : GeneratesFuncs L g g₁ fps ps qs) (h' : GeneratesFuncs L g₁ g' fps' ps' qs') :
    GeneratesFuncs L g g' (fps ++ fps') (ps ++ ps') (qs ++ qs') where
  level := h'.level.trans h.level
  funcs := by rw [h'.funcs, h.funcs, Table.insertAll_append]
  vars := by rw [h'.vars, h.vars, Table.insertAll_append]
  next := by rw [h'.next, h.next, List.length_append, Nat.add_assoc]
  holds hg hfps hps before hbefore := by
    obtain ⟨hfps, hfps'⟩ := Table.has_append.1 hfps
    obtain ⟨hps, hps'⟩ := Table.has_append.1 hps
    have hg₁ : g₁.layout ≤ L :=
      ⟨h.funcs ▸ Table.insertAll_le hg.funcs hfps, h.vars ▸ Table.insertAll_le hg.vars hps⟩
    rw [← List.append_assoc]
    exact h'.holds hg₁ hfps' hps' _ (h.holds hg hfps hps _ hbefore)
  warned hlevel w hw := (h'.warned (h.level ▸ hlevel) w hw).elim (h.warned hlevel w) .inr

/-- What is generated for a function once its parameters have their places. -/
theorem generates_funcBody (cx : Context) {f : Tree.Func} {slot slot' : Address}
    {g₁ g₂ : Generator} {u u' : Unit}
    (hpush : exec (if 0 < Tree.storage f.body then
      emit .push 0 .cb (Tree.storage f.body) else pure ()) g = (.ok u, g₁))
    (hbody : exec (block cx f.body slot) g₁ = (.ok slot', g₂))
    (hret : exec (if !f.endsInReturn then emit .ret 0 .cb g₂.params else pure ()) g₂ =
      (.ok u', g')) :
    Generates L g g' (placements (Stmt.declsOf f.body) slot)
      (Code.funcBody (g.env cx L) g.segment.next f) := by
  have hg₁ := generates_if hpush fun hpush => generates_emit (L := L) hpush
  obtain ⟨-, hg₂⟩ := generates_block cx L f.body hbody
  have hg' := generates_if hret fun hret => generates_emit (L := L) hret
  rw [(hg₁.trans hg₂).params] at hg'
  rw [hg₁.env, hg₁.next] at hg₂
  have hall := (hg₁.trans hg₂).trans hg'
  rw [List.append_nil] at hall
  exact hall

theorem generates_func (cx : Context) (L : Layout) {f : Tree.Func} {frame frame' : Address}
    (h : exec (func cx f frame) g = (.ok frame', g')) :
    frame' = frame ∧ GeneratesFuncs L g g' [(f.id, ⟨frame.level, g.segment.address⟩)]
      (placements f.vars frame.nested) (Code.func cx L g.level g.segment.next f) := by
  obtain ⟨_, _, hentry, h⟩ := exec_bind_ok.1 h
  cases hentry
  obtain ⟨_, _, hplace, h⟩ := exec_bind_ok.1 h
  cases hplace
  obtain ⟨_, _, hlevel, h⟩ := exec_bind_ok.1 h
  cases hlevel
  obtain ⟨slot, g₁, hparams, h⟩ := exec_bind_ok.1 h
  obtain ⟨_, _, hset, h⟩ := exec_bind_ok.1 h
  cases hset
  obtain ⟨_, g₂, hpush, h⟩ := exec_if_bind_ok.1 h
  obtain ⟨_, g₃, hbody, h⟩ := exec_bind_ok.1 h
  obtain ⟨_, g₄, hret, h⟩ := exec_if_bind_ok.1 (exec_if_get_bind.symm.trans h)
  obtain ⟨_, _, hlevel, h⟩ := exec_bind_ok.1 h
  cases hlevel
  cases h
  obtain ⟨rfl, hg₁⟩ := generates_params (L := L) hparams
  have hg₄ := generates_funcBody (L := L) cx hpush hbody hret
  have henv : Generator.env { g₁ with
      params := (frame.nested.offset (Tree.words f.params)).displacement } cx L =
        Code.bodyEnv cx L g.level f := by
    rw [Generator.env, hg₁.level]
    exact congrArg (Code.Env.mk cx L (g.level + 1)) (Int.zero_add _)
  have hnext : g₁.segment.next = g.segment.next := hg₁.next
  rw [henv, hnext] at hg₄
  rw [Func.vars, placements_append]
  refine ⟨rfl, ?_, hg₄.funcs.trans hg₁.funcs, ?_, hg₄.next.trans (by rw [hnext]; rfl), ?_, ?_⟩
  · show g₄.level - 1 = g.level
    rw [hg₄.level]
    exact congrArg (· - 1) hg₁.level
  · rw [Table.insertAll_append]
    exact hg₄.vars.trans (congrArg (Table.insertAll · _) hg₁.vars)
  · intro hg hfps hps before hbefore
    obtain ⟨hps, hps'⟩ := Table.has_append.1 hps
    have henter : (g.placeFunc f.id ⟨frame.level, g.segment.address⟩).layout ≤ L :=
      ⟨Table.insert_le hg.funcs (hfps _ List.mem_cons_self), hg.vars⟩
    have hbefore := hg₁.holds henter hps before hbefore
    rw [List.append_nil] at hbefore
    exact hg₄.holds (hg₁.layout_le henter hps) hps' before hbefore
  · intro hlevel w hw
    have henter : g.level + 1 ≤ 7 := Nat.succ_le_succ hlevel
    exact (hg₄.warned (hg₁.level ▸ henter) w hw).elim (hg₁.warned henter w) .inr

theorem generates_funcs (cx : Context) (L : Layout) {fs : List Tree.Func} {frame frame' : Address}
    (hlevel : frame.level = g.level) (h : exec (funcs cx fs frame) g = (.ok frame', g')) :
    frame' = frame ∧ GeneratesFuncs L g g' (Code.entries cx L g.level g.segment.next fs)
      (fs.flatMap fun f => placements f.vars frame.nested)
      (Code.funcs cx L g.level g.segment.next fs) := by
  induction fs generalizing g with
  | nil =>
    cases h
    exact ⟨rfl, rfl, rfl, rfl, rfl, fun _ _ _ before h => by rwa [Code.funcs, List.append_nil],
      fun _ _ hw => .inl hw⟩
  | cons f fs ih =>
    obtain ⟨_, g₁, hf, hfs⟩ := exec_bind_ok.1 h
    obtain ⟨rfl, hg₁⟩ := generates_func cx L hf
    obtain ⟨rfl, hg'⟩ := ih (hlevel.trans hg₁.level.symm) hfs
    rw [hg₁.level, hg₁.next] at hg'
    have hall := hg₁.trans hg'
    rw [hlevel] at hall
    exact ⟨rfl, hall⟩

/-! ## Programs -/

theorem map_fst_entries (cx : Context) (L : Layout) (level start : Nat) (fs : List Tree.Func) :
    (Code.entries cx L level start fs).map Prod.fst = fs.map (·.id) := by
  induction fs generalizing start with
  | nil => rfl
  | cons f fs ih => rw [Code.entries, List.map_cons, ih, List.map_cons]

theorem map_fst_flatMap_placements (fs : List Tree.Func) (slot : Address) :
    (fs.flatMap fun f => placements f.vars slot).map Prod.fst =
      (fs.flatMap (·.vars)).map (·.id) := by
  simp [List.map_flatMap]

theorem frame_of_funcs {cx : Context} {fs : List Tree.Func} {g₁ g₂ : Generator} {entry : Nat}
    {frame : Address} (hentry : exec (emitAt .jump 0 .cb 0) .initial = (.ok entry, g₁))
    (hfuncs : exec (funcs cx fs .origin) g₁ = (.ok frame, g₂)) : frame = .origin := by
  obtain ⟨-, hg₁⟩ := generates_emitAt (L := default) hentry
  exact (generates_funcs cx default hg₁.level.symm hfuncs).1

/-- Functions that have no places yet get places and code, and what there was stays as it is. -/
theorem generates_newFuncs (cx : Context) {fs : List Tree.Func} {frame frame' : Address}
    (hfs : (fs.map (·.id)).Nodup) (hvs : ((fs.flatMap (·.vars)).map (·.id)).Nodup)
    (hnewFuncs : ∀ id ∈ fs.map (·.id), g.layout.funcs.get? id = none)
    (hnewVars : ∀ id ∈ (fs.flatMap (·.vars)).map (·.id), g.layout.vars.get? id = none)
    (hlevel : frame.level = g.level) (h : exec (funcs cx fs frame) g = (.ok frame', g')) :
    g.layout ≤ g'.layout ∧
      (∀ before, g.segment.Holds before → g'.segment.Holds
        (before ++ Code.funcs cx g'.layout g.level g.segment.next fs)) ∧
      g'.layout.funcs.Has (Code.entries cx g'.layout g.level g.segment.next fs) ∧
      g'.layout.vars.Has (fs.flatMap fun f => placements f.vars frame.nested) := by
  obtain ⟨-, hg⟩ := generates_funcs cx g'.layout hlevel h
  have hle : g.layout ≤ g'.layout := by
    constructor
    · rw [hg.funcs]
      exact Table.le_insertAll (by rwa [map_fst_entries])
    · rw [hg.vars]
      exact Table.le_insertAll (by rwa [map_fst_flatMap_placements])
  have hhasFuncs : g'.layout.funcs.Has
      (Code.entries cx g'.layout g.level g.segment.next fs) := by
    intro e he
    rw [hg.funcs]
    exact Table.has_insertAll (by rwa [map_fst_entries]) e he
  have hhasVars : g'.layout.vars.Has (fs.flatMap fun f => placements f.vars frame.nested) := by
    intro e he
    rw [hg.vars]
    exact Table.has_insertAll (by rwa [map_fst_flatMap_placements]) e he
  exact ⟨hle, hg.holds hle hhasFuncs hhasVars, hhasFuncs, hhasVars⟩

/-- The code of the functions behind the first jump, which has no target yet, and the places. -/
theorem holds_funcs (cx : Context) {fs : List Tree.Func} {g₁ g₂ : Generator} {entry : Nat}
    {frame : Address} (hfs : (fs.map (·.id)).Nodup)
    (hvs : ((fs.flatMap (·.vars)).map (·.id)).Nodup)
    (hentry : exec (emitAt .jump 0 .cb 0) .initial = (.ok entry, g₁))
    (hfuncs : exec (funcs cx fs .origin) g₁ = (.ok frame, g₂)) :
    entry = 0 ∧ g₂.segment.Holds (⟨.jump, 0, .cb, 0⟩ :: Code.funcs cx g₂.layout 0 1 fs) ∧
      g₂.layout.funcs.Has (Code.entries cx g₂.layout 0 1 fs) ∧
      g₂.layout.vars.Has (fs.flatMap fun f => placements f.vars ⟨1, 0⟩) := by
  rw [exec_emitAt] at hentry
  cases hentry
  obtain ⟨-, hholds, hhasFuncs, hhasVars⟩ :=
    generates_newFuncs cx hfs hvs (fun _ _ => rfl) (fun _ _ => rfl) rfl hfuncs
  exact ⟨rfl, hholds _ (Segment.Holds.empty.emit ⟨.jump, 0, .cb, 0⟩), hhasFuncs, hhasVars⟩

/-- The code before its first jump is given a target, and the places. -/
theorem holds_unpatched (cx : Context) {fs : List Tree.Func} {g₁ g₂ : Generator} {entry halt : Nat}
    {frame : Address} (hfs : (fs.map (·.id)).Nodup)
    (hvs : ((fs.flatMap (·.vars)).map (·.id)).Nodup)
    (hentry : exec (emitAt .jump 0 .cb 0) .initial = (.ok entry, g₁))
    (hfuncs : exec (funcs cx fs .origin) g₁ = (.ok frame, g₂))
    (hhalt : exec (emitAt .halt 0 .cb 0) g₂ = (.ok halt, g)) :
    entry = 0 ∧ halt = 1 + (Code.funcs cx g.layout 0 1 fs).length ∧ g.layout = g₂.layout ∧
      g.segment.Holds
        (⟨.jump, 0, .cb, 0⟩ :: (Code.funcs cx g.layout 0 1 fs ++ [⟨.halt, 0, .cb, 0⟩])) ∧
      g.layout.funcs.Has (Code.entries cx g.layout 0 1 fs) ∧
      g.layout.vars.Has (fs.flatMap fun f => placements f.vars ⟨1, 0⟩) := by
  obtain ⟨rfl, hholds, hhasFuncs, hhasVars⟩ := holds_funcs cx hfs hvs hentry hfuncs
  rw [exec_emitAt] at hhalt
  cases hhalt
  refine ⟨rfl, ?_, rfl, hholds.emit ⟨.halt, 0, .cb, 0⟩, hhasFuncs, hhasVars⟩
  rw [hholds.next, List.length_cons, Nat.add_comm]

/-- How a program gets its code: a jump, the functions and a halt, then the target of the jump. -/
theorem program_cases {cx : Context} {fs : List Tree.Func} {frame : Address}
    (h : exec (program cx fs .origin) .initial = (.ok frame, g)) :
    ∃ entry halt g₁ g₂ g₃, exec (emitAt .jump 0 .cb 0) .initial = (.ok entry, g₁) ∧
      exec (funcs cx fs .origin) g₁ = (.ok .origin, g₂) ∧
      exec (emitAt .halt 0 .cb 0) g₂ = (.ok halt, g₃) ∧ g.layout = g₃.layout ∧
      ((∃ a, cx.nodes.entry?.bind g.layout.funcs.get? = some a ∧
          g.segment = g₃.segment.patch entry a.displacement) ∨
        cx.nodes.entry?.bind g.layout.funcs.get? = none ∧
          g.segment = (g₃.segment.warn .noEntry).patch entry (Segment.addressOf halt)) := by
  obtain ⟨entry, g₁, hentry, h⟩ := exec_bind_ok.1 h
  obtain ⟨frame', g₂, hfuncs, h⟩ := exec_bind_ok.1 h
  cases frame_of_funcs hentry hfuncs
  rw [exec_get_bind] at h
  obtain ⟨_, _, hpush, h⟩ := exec_if_bind_ok.1 h
  cases hpush
  obtain ⟨halt, g₃, hhalt, h⟩ := exec_bind_ok.1 h
  have hlayout : g₃.layout = g₂.layout := by
    rw [exec_emitAt] at hhalt
    cases hhalt
    rfl
  rw [← hlayout] at h
  refine ⟨entry, halt, g₁, g₂, g₃, hentry, hfuncs, hhalt, ?_⟩
  cases hmain : cx.nodes.entry?.bind g₃.layout.funcs.get? with
  | some a =>
    rw [hmain] at h
    cases h
    exact ⟨rfl, .inl ⟨a, hmain, rfl⟩⟩
  | none =>
    rw [hmain] at h
    cases h
    exact ⟨rfl, .inr ⟨hmain, rfl⟩⟩

/-- The code of a program and its places, whenever there is code. -/
theorem generates_program (cx : Context) {fs : List Tree.Func} {frame : Address}
    (hfs : (fs.map (·.id)).Nodup) (hvs : ((fs.flatMap (·.vars)).map (·.id)).Nodup)
    (h : exec (program cx fs .origin) .initial = (.ok frame, g)) :
    g.segment.Holds (Code.program cx g.layout fs) ∧
      g.layout.funcs.Has (Code.entries cx g.layout 0 1 fs) ∧
      g.layout.vars.Has (fs.flatMap fun f => placements f.vars ⟨1, 0⟩) := by
  obtain ⟨entry, halt, g₁, g₂, g₃, hentry, hfuncs, hhalt, hlayout, hjump⟩ := program_cases h
  obtain ⟨rfl, rfl, -, hholds, hfs, hvs⟩ := holds_unpatched cx hfs hvs hentry hfuncs hhalt
  have hall : g₃.segment.Holds ([] ++ _ :: _) := hholds
  rw [← hlayout] at hall hfs hvs hjump
  refine ⟨?_, hfs, hvs⟩
  rw [Code.program]
  rcases hjump with ⟨a, hmain, hsegment⟩ | ⟨hmain, hsegment⟩
  · rw [hsegment, hmain]
    exact hall.patch a.displacement
  · rw [hsegment, hmain]
    exact (hall.warn .noEntry).patch _

/-- The places of a program are those that its functions give. -/
theorem layout_program {cx : Context} {fs : List Tree.Func} {frame : Address}
    (h : exec (program cx fs .origin) .initial = (.ok frame, g)) :
    g.layout.funcs = (∅ : Table Address).insertAll (Code.entries cx default 0 1 fs) ∧
      g.layout.vars =
        (∅ : Table Address).insertAll (fs.flatMap fun f => placements f.vars ⟨1, 0⟩) := by
  obtain ⟨entry, halt, g₁, g₂, g₃, hentry, hfuncs, hhalt, hlayout, -⟩ := program_cases h
  rw [exec_emitAt] at hentry hhalt
  cases hentry
  cases hhalt
  obtain ⟨-, hg₂⟩ := generates_funcs cx default rfl hfuncs
  rw [hlayout]
  exact ⟨hg₂.funcs, hg₂.vars⟩

/-- How many instructions a program asks for: a jump, the code of the functions and a halt. -/
theorem next_program {cx : Context} {fs : List Tree.Func} {frame : Address}
    (h : exec (program cx fs .origin) .initial = (.ok frame, g)) :
    g.segment.next = 1 + (Code.funcs cx default 0 1 fs).length + 1 := by
  obtain ⟨entry, halt, g₁, g₂, g₃, hentry, hfuncs, hhalt, -, hjump⟩ := program_cases h
  rw [exec_emitAt] at hentry hhalt
  cases hentry
  cases hhalt
  obtain ⟨-, hg₂⟩ := generates_funcs cx default rfl hfuncs
  have hnext : g₂.segment.next = 1 + (Code.funcs cx default 0 1 fs).length := hg₂.next
  rcases hjump with ⟨a, -, hsegment⟩ | ⟨-, hsegment⟩ <;> simp [hsegment, hnext]

/-- Only the functions of a program have places as functions. -/
theorem funcs_program {cx : Context} {fs : List Tree.Func} {frame : Address}
    (h : exec (program cx fs .origin) .initial = (.ok frame, g)) (id : FuncId) :
    (∃ a, g.layout.funcs.get? id = some a) ↔ id ∈ fs.map (·.id) := by
  rw [(layout_program h).1, Table.exists_get?_insertAll, map_fst_entries]
  apply or_iff_right
  intro ⟨a, ha⟩
  cases ha

/-- Only the variables of a program have places as variables. -/
theorem vars_program {cx : Context} {fs : List Tree.Func} {frame : Address}
    (h : exec (program cx fs .origin) .initial = (.ok frame, g)) (id : VarId) :
    (∃ a, g.layout.vars.get? id = some a) ↔ id ∈ (fs.flatMap (·.vars)).map (·.id) := by
  rw [(layout_program h).2, Table.exists_get?_insertAll, map_fst_flatMap_placements]
  apply or_iff_right
  intro ⟨a, ha⟩
  cases ha

/-- A program warns of lost code, and that it has no entry function if that is so. -/
theorem warned_program {cx : Context} {fs : List Tree.Func} {frame : Address}
    (h : exec (program cx fs .origin) .initial = (.ok frame, g)) :
    (∀ w ∈ g.segment.warnings, w.losesCode ∨ w = .noEntry) ∧
      (.noEntry ∈ g.segment.warnings ↔ cx.nodes.entry?.bind g.layout.funcs.get? = none) := by
  obtain ⟨entry, halt, g₁, g₂, g₃, hentry, hfuncs, hhalt, -, hjump⟩ := program_cases h
  obtain ⟨-, hg₁⟩ := generates_emitAt (L := default) hentry
  obtain ⟨-, hg₂⟩ := generates_funcs cx default hg₁.level.symm hfuncs
  obtain ⟨-, hg₃⟩ := generates_emitAt (L := default) hhalt
  -- before the jump gets its target, all warnings are of lost code
  have hlost : ∀ w ∈ g₃.segment.warnings, w.losesCode := by
    intro w hw
    have hlevel₁ : g₁.level = 0 := hg₁.level
    have hlevel₂ : g₂.level = 0 := hg₂.level.trans hlevel₁
    rcases hg₃.warned (by omega) w hw with hw | hw
    · rcases hg₂.warned (by omega) w hw with hw | hw
      · exact (hg₁.warned (Nat.zero_le _) w hw).resolve_left (Array.not_mem_empty w)
      · exact hw
    · exact hw
  rcases hjump with ⟨a, hmain, hsegment⟩ | ⟨hmain, hsegment⟩
  · rw [hsegment, hmain]
    have hall : ∀ w ∈ (g₃.segment.patch entry a.displacement).warnings, w.losesCode :=
      fun w hw => (Segment.warned_patch hw).elim (hlost w) id
    refine ⟨fun w hw => .inl (hall w hw), ⟨fun hw => ?_, fun hnone => ?_⟩⟩
    · cases hall _ hw
    · cases hnone
  · rw [hsegment, hmain]
    refine ⟨fun w hw => ?_, ⟨fun _ => rfl, fun _ => ?_⟩⟩
    · rcases Segment.warned_patch hw with hw | hw
      · rcases Array.mem_push.1 hw with hw | hw
        · exact .inl (hlost w hw)
        · exact .inr hw
      · exact .inl hw
    · exact Segment.mem_patch _ _ Array.mem_push_self

end Generate

theorem Program.generate_eq_ok {p : Program} {R : Resolution} {o : Object} :
    p.generate R = .ok o ↔ ∃ frame g,
      exec (Generate.program ⟨p.nodes, R⟩ p.funcs .origin) .initial = (.ok frame, g) ∧
        g.object = o := by
  unfold Program.generate
  generalize hrun : (Generate.program ⟨p.nodes, R⟩ p.funcs .origin).run.run .initial = run
  obtain ⟨_ | frame, g⟩ := run
  · simp [Except.map, exec, hrun]
  · simp only [Except.map, exec, hrun, Except.ok.injEq, Prod.mk.injEq]
    exact ⟨fun h => ⟨frame, g, ⟨rfl, rfl⟩, h⟩, fun ⟨_, _, ⟨_, hg⟩, h⟩ => hg ▸ h⟩

/-- The code of a well-formed program is its code by structure, in the layout of the program. -/
theorem Program.WellFormed.object_spec {p : Program} {R : Resolution} {o : Object}
    (hwf : p.WellFormed) (h : p.generate R = .ok o) :
    (∃ s : Segment, s.code = o.code ∧ s.warnings = o.warnings ∧
      s.Holds (Code.program ⟨p.nodes, R⟩ o.layout p.funcs)) ∧
      o.layout.funcs.Has (Code.entries ⟨p.nodes, R⟩ o.layout 0 1 p.funcs) ∧
      o.layout.vars.Has (p.funcs.flatMap fun f => placements f.vars ⟨1, 0⟩) := by
  obtain ⟨frame, g, hrun, rfl⟩ := generate_eq_ok.1 h
  have hfs : (p.funcs.map (·.id)).Nodup := hwf.funcIds ▸ List.nodup_range
  have hvs : (p.vars.map (·.id)).Nodup := hwf.varIds ▸ List.nodup_range
  obtain ⟨hholds, hfuncs, hvars⟩ := Generate.generates_program _ hfs hvs hrun
  exact ⟨⟨g.segment, rfl, rfl, hholds⟩, hfuncs, hvars⟩

end PrimeLang
