import PrimeLang.Program.Compile
import PrimeLang.Proofs.AssignmentTargets
import PrimeLang.Proofs.GeneratedCode
import PrimeLang.Proofs.ScopingRules

/-! # Resolved programs have code

Names are resolved and code is generated in two orders: the step of a loop is resolved before its
body, but its code comes after it. Still, whenever code generation looks a name up, what the name was
resolved to already has a place, because both orders declare before they use. -/

namespace PrimeLang
open Machine Action

/-! ## What has to be known of a name -/

/-- The numbers of the variables that occurrences declare. -/
def declaredVarIds (os : List Occurrence) : List VarId :=
  os.filterMap fun
    | ⟨_, .var v _⟩ => some v.id
    | _ => none

/-- The numbers of the functions that occurrences declare. -/
def declaredFuncIds (os : List Occurrence) : List FuncId :=
  os.filterMap fun
    | ⟨_, .func f⟩ => some f.id
    | _ => none

theorem declaredVarIds_append (os os' : List Occurrence) :
    declaredVarIds (os ++ os') = declaredVarIds os ++ declaredVarIds os' := List.filterMap_append

theorem declaredFuncIds_append (os os' : List Occurrence) :
    declaredFuncIds (os ++ os') = declaredFuncIds os ++ declaredFuncIds os' := List.filterMap_append

section
variable (cx : Context) (l : Layout)

/-- What a used name is resolved to has a node, and a place in `l` or a declaration in `before`. -/
def Event.Known (before : List Occurrence) : Event → Prop
  | .ident site _ => ∃ id v, cx.resolution.idents.get? site.id = some id ∧
      cx.nodes.vars[id]? = some v ∧
      ((∃ a, l.vars.get? id = some a) ∨ id ∈ declaredVarIds before)
  | .call site _ _ => ∃ id f, cx.resolution.calls.get? site.id = some id ∧
      cx.nodes.funcs[id]? = some f ∧
      ((∃ a, l.funcs.get? id = some a) ∨ id ∈ declaredFuncIds before)
  | _ => True

/-- Each occurrence is of something known from `l` and from the occurrences before it. -/
def Ready (os : List Occurrence) : Prop :=
  ∀ before o after, os = before ++ o :: after → o.event.Known cx l before

/-- `l'` has places for all that `l` has and that `os` declares. -/
structure Layout.Extends (l' : Layout) (os : List Occurrence) : Prop where
  vars : ∀ id, (∃ a, l.vars.get? id = some a) ∨ id ∈ declaredVarIds os → ∃ a, l'.vars.get? id = some a
  funcs : ∀ id, (∃ a, l.funcs.get? id = some a) ∨ id ∈ declaredFuncIds os →
    ∃ a, l'.funcs.get? id = some a

end

namespace Ready
variable {cx : Context} {l l' : Layout} {os os' : List Occurrence}

theorem left (h : Ready cx l (os ++ os')) : Ready cx l os := by
  intro before o after heq
  exact h before o (after ++ os') (by rw [heq, List.append_assoc, List.cons_append])

theorem right (h : Ready cx l (os ++ os')) (hl : l.Extends l' os) : Ready cx l' os' := by
  intro before o after heq
  have hknown := h (os ++ before) o after (by rw [heq, List.append_assoc])
  obtain ⟨b, e⟩ := o
  cases e with
  | ident site name =>
    obtain ⟨id, v, hid, hv, hplace⟩ := hknown
    refine ⟨id, v, hid, hv, ?_⟩
    rw [declaredVarIds_append, List.mem_append, ← or_assoc] at hplace
    exact hplace.imp_left (hl.vars id)
  | call site name args =>
    obtain ⟨id, f, hid, hf, hplace⟩ := hknown
    refine ⟨id, f, hid, hf, ?_⟩
    rw [declaredFuncIds_append, List.mem_append, ← or_assoc] at hplace
    exact hplace.imp_left (hl.funcs id)
  | func f => trivial
  | var v paramOf => trivial

theorem grow (h : Ready cx l os) (hl : l.Extends l' []) : Ready cx l' os :=
  @right cx l l' [] os h hl

end Ready

/-! ## What is declared -/

theorem declaredFuncIds_eq_nil {os : List Occurrence}
    (h : os.filterMap Occurrence.funcName? = []) : declaredFuncIds os = [] := by
  rw [List.filterMap_eq_nil_iff] at h
  refine List.filterMap_eq_nil_iff.2 fun o ho => ?_
  have hnone := h o ho
  obtain ⟨b, e⟩ := o
  cases e with
  | func f => exact nomatch hnone
  | _ => rfl

theorem declaredVarIds_usesIn (e : Tree.Expr Site) (b : Block) :
    declaredVarIds (e.usesIn b) = [] := by
  refine List.filterMap_eq_nil_iff.2 fun o ho => ?_
  obtain ⟨u, hu, rfl⟩ := List.mem_map.1 ho
  obtain ⟨site, hsite⟩ := Tree.Expr.site?_of_mem_uses e hu
  cases u with
  | var v paramOf => exact nomatch hsite
  | _ => rfl

theorem declaredFuncIds_usesIn (e : Tree.Expr Site) (b : Block) :
    declaredFuncIds (e.usesIn b) = [] := declaredFuncIds_eq_nil (funcName?_usesIn e b)

mutual

theorem declaredVarIds_visits : ∀ (s : Tree.Stmt) (b : Block) (i : Nat),
    declaredVarIds (Stmt.visits b i s) = s.decls.map (·.id)
  | .decl v init, b, i => congrArg (v.id :: ·) (declaredVarIds_usesIn init b)
  | .ifThen cond body, b, i => by
    rw [Stmt.visits, declaredVarIds_append, declaredVarIds_usesIn, declaredVarIds_visitsOf body,
      Stmt.decls, List.nil_append]
  | .ifElse cond body orElse, b, i => by
    rw [Stmt.visits, declaredVarIds_append, declaredVarIds_append, declaredVarIds_usesIn,
      declaredVarIds_visitsOf body, declaredVarIds_visitsOf orElse, Stmt.decls, List.map_append,
      List.nil_append]
  | .loop v init cond step body, b, i => by
    have htail : declaredVarIds (init.usesIn (2 * i :: b) ++ cond.usesIn (2 * i :: b) ++
        step.usesIn (2 * i :: b) ++ Stmt.visitsOf (2 * i :: b) 0 body) =
          (Stmt.declsOf body).map (·.id) := by
      rw [declaredVarIds_append, declaredVarIds_append, declaredVarIds_append,
        declaredVarIds_usesIn, declaredVarIds_usesIn, declaredVarIds_usesIn,
        declaredVarIds_visitsOf body]
      rfl
    exact congrArg (v.id :: ·) htail
  | .ret none, b, i => rfl
  | .ret (some e), b, i => declaredVarIds_usesIn e b
  | .eval e, b, i => declaredVarIds_usesIn e b

theorem declaredVarIds_visitsOf : ∀ (ss : List Tree.Stmt) (b : Block) (i : Nat),
    declaredVarIds (Stmt.visitsOf b i ss) = (Stmt.declsOf ss).map (·.id)
  | [], b, i => rfl
  | s :: ss, b, i => by
    rw [Stmt.visitsOf, declaredVarIds_append, declaredVarIds_visits s, declaredVarIds_visitsOf ss,
      Stmt.declsOf, List.map_append]

end

namespace Layout.Extends
variable {l l' : Layout} {os : List Occurrence}

theorem usesIn (l : Layout) (e : Tree.Expr Site) (b : Block) : l.Extends l (e.usesIn b) where
  vars id h := by
    rw [declaredVarIds_usesIn] at h
    exact h.resolve_right List.not_mem_nil
  funcs id h := by
    rw [declaredFuncIds_usesIn] at h
    exact h.resolve_right List.not_mem_nil

theorem trans {l'' : Layout} {os' : List Occurrence} (h : l.Extends l' os)
    (h' : l'.Extends l'' os') : l.Extends l'' (os ++ os') where
  vars id hid := by
    rw [declaredVarIds_append, List.mem_append, ← or_assoc] at hid
    exact h'.vars id (hid.imp_left (h.vars id))
  funcs id hid := by
    rw [declaredFuncIds_append, List.mem_append, ← or_assoc] at hid
    exact h'.funcs id (hid.imp_left (h.funcs id))

/-- A run that places what occurrences declare. -/
theorem of_generates {L : Layout} {g g' : Generator} {ps : List (VarId × Address)}
    {qs : List Request} (h : Generates L g g' ps qs)
    (hvars : ∀ id ∈ declaredVarIds os, id ∈ ps.map Prod.fst)
    (hfuncs : declaredFuncIds os = []) : g.layout.Extends g'.layout os where
  vars id hid := by
    rw [h.vars, Table.exists_get?_insertAll]
    exact hid.imp_right (hvars id)
  funcs id hid := by
    rw [hfuncs] at hid
    rw [h.funcs]
    exact hid.resolve_right List.not_mem_nil

end Layout.Extends

/-- What an expression uses is known from the layout alone. -/
theorem Ready.uses {cx : Context} {l : Layout} {e : Tree.Expr Site} {b : Block}
    (h : Ready cx l (e.usesIn b)) {u : Event} (hu : u ∈ e.uses) : u.Known cx l [] := by
  have hmem : ⟨b, u⟩ ∈ e.uses.map (Occurrence.mk b) := List.mem_map_of_mem hu
  obtain ⟨before, after, hsplit⟩ := List.append_of_mem hmem
  have hknown := h before ⟨b, u⟩ after hsplit
  have hvars := declaredVarIds_usesIn e b
  have hfuncs := declaredFuncIds_usesIn e b
  rw [Tree.Expr.usesIn, hsplit, declaredVarIds_append, List.append_eq_nil_iff] at hvars
  rw [Tree.Expr.usesIn, hsplit, declaredFuncIds_append, List.append_eq_nil_iff] at hfuncs
  cases u with
  | ident site name =>
    obtain ⟨id, v, hid, hv, hplace⟩ := hknown
    rw [hvars.1] at hplace
    exact ⟨id, v, hid, hv, hplace⟩
  | call site name args =>
    obtain ⟨id, f, hid, hf, hplace⟩ := hknown
    rw [hfuncs.1] at hplace
    exact ⟨id, f, hid, hf, hplace⟩
  | func f => trivial
  | var v paramOf => trivial

/-! ## Expressions -/

theorem Generates.layout_eq {L : Layout} {g g' : Generator} {qs : List Request}
    (h : Generates L g g' [] qs) : g'.layout = g.layout := by
  calc g'.layout = ⟨g'.layout.funcs, g'.layout.vars⟩ := rfl
    _ = ⟨g.layout.funcs, g.layout.vars⟩ := by rw [h.funcs, h.vars, Table.insertAll_nil]

namespace Generate
variable {cx : Context} {g : Generator}

theorem succeeds_emitAt (op : Opcode) (n : Int) (r : Register) (d : Int) (g : Generator) :
    Succeeds (emitAt op n r d) g := ⟨_, _, exec_emitAt op n r d g⟩

theorem succeeds_emit (op : Opcode) (n : Int) (r : Register) (d : Int) (g : Generator) :
    Succeeds (emit op n r d) g :=
  (succeeds_emitAt op n r d g).bind fun _ g' _ => succeeds_pure () g'

theorem succeeds_registerFor (level : Nat) (g : Generator) : Succeeds (registerFor level) g := by
  unfold registerFor
  split
  · exact succeeds_pure _ g
  · refine Succeeds.bind ⟨g, g, rfl⟩ fun g₁ g₂ _ => ?_
    cases hr : Register.display? (g₁.level - level) with
    | some r =>
      simp only [hr]
      exact succeeds_pure r g₂
    | none =>
      simp only [hr]
      exact (succeeds_modify _ g₂).bind fun _ g' _ => succeeds_pure _ g'

theorem succeeds_access (op : Opcode) (size : Int) (a : Address) (g : Generator) :
    Succeeds (access op size a) g := by
  refine (succeeds_registerFor a.level g).bind fun r g₁ _ => ?_
  exact Succeeds.bind ⟨g₁, g₁, rfl⟩ fun _ g₂ _ => succeeds_emit ..

theorem succeeds_variable {β : Type} {site : Site} {name : String}
    {f : Var × Address → Generate β} (hu : (Event.ident site name).Known cx g.layout [])
    (hf : ∀ x, Succeeds (f x) g) :
    Succeeds (get >>= fun g => (liftM (g.variableOf cx site name) : Generate _) >>= f) g := by
  obtain ⟨id, v, hid, hv, hplace⟩ := hu
  obtain ⟨a, ha⟩ := hplace.resolve_right List.not_mem_nil
  have hfound : g.variableOf cx site name = .ok (v, a) :=
    Generator.variableOf_eq_ok.2 ⟨id, hid, hv, ha⟩
  obtain ⟨b, g', hb⟩ := hf (v, a)
  refine ⟨b, g', ?_⟩
  rw [exec_get_bind]
  exact exec_lift_bind_ok.2 ⟨(v, a), hfound, hb⟩

theorem succeeds_callee {β : Type} {site : Site} {name : String} {args : Nat}
    {f : Option Ty × Address → Generate β} (hu : (Event.call site name args).Known cx g.layout [])
    (hf : ∀ x, Succeeds (f x) g) :
    Succeeds (get >>= fun g => (liftM (g.calleeOf cx site name) : Generate _) >>= f) g := by
  obtain ⟨id, node, hid, hnode, hplace⟩ := hu
  obtain ⟨a, ha⟩ := hplace.resolve_right List.not_mem_nil
  have hfound : g.calleeOf cx site name = .ok (node.ret, a) :=
    Generator.calleeOf_eq_ok.2 ⟨id, node, hid, hnode, rfl, ha⟩
  obtain ⟨b, g', hb⟩ := hf (node.ret, a)
  refine ⟨b, g', ?_⟩
  rw [exec_get_bind]
  exact exec_lift_bind_ok.2 ⟨(node.ret, a), hfound, hb⟩

mutual

/-- An expression has code once everything it uses is known. -/
theorem succeeds_expr (cx : Context) : ∀ (e : Tree.Expr Site) {use : Use} {g : Generator},
    e.AssignsNames → (∀ u ∈ e.uses, u.Known cx g.layout []) → Succeeds (expr cx use e) g
  | .assign _ (.ident site name []) value, use, g, hnames, huses => by
    rw [expr]
    refine succeeds_variable (huses _ ?_) fun ⟨v, a⟩ => ?_
    · exact List.mem_cons_self
    refine Succeeds.bind ?_ fun _ g₁ _ => ?_
    · exact succeeds_expr cx value hnames.2.2 fun u hu => huses u (List.mem_append_right _ hu)
    refine (succeeds_access ..).bind fun _ g₂ _ => ?_
    exact succeeds_if fun _ => succeeds_access ..
  | .assign _ (.ident site name (index :: indices)) value, use, g, hnames, huses => by
    rw [expr]
    refine succeeds_variable (huses _ ?_) fun ⟨v, a⟩ => ?_
    · exact List.mem_cons_self
    refine Succeeds.bind ?_ fun _ g₁ hvalue => ?_
    · exact succeeds_expr cx value hnames.2.2 fun u hu => huses u (List.mem_append_right _ hu)
    refine Succeeds.if_bind (succeeds_if fun _ => succeeds_emit ..) fun _ g₂ hcopy => ?_
    refine (succeeds_access ..).bind fun _ g₃ hload => ?_
    refine Succeeds.bind ?_ fun _ g₄ _ => succeeds_emit ..
    have hg₁ := generates_expr cx default value hvalue
    have hg₂ := generates_if hcopy fun hcopy => generates_emit (L := default) hcopy
    have hg₃ := generates_access (L := default) cx hload
    refine succeeds_element cx _ hnames.2.1 fun u hu => ?_
    rw [((hg₁.trans hg₂).trans hg₃).layout_eq]
    exact huses u (List.mem_append_left _ (List.mem_cons_of_mem _ hu))
  | .assign _ (.assign _ _ _) _, use, g, ⟨⟨_, _, _, htarget⟩, _⟩, _ => nomatch htarget
  | .assign _ (.binary _ _ _ _) _, use, g, ⟨⟨_, _, _, htarget⟩, _⟩, _ => nomatch htarget
  | .assign _ (.literal _ _) _, use, g, ⟨⟨_, _, _, htarget⟩, _⟩, _ => nomatch htarget
  | .assign _ (.call _ _ _) _, use, g, ⟨⟨_, _, _, htarget⟩, _⟩, _ => nomatch htarget
  | .binary _ op lhs rhs, use, g, hnames, huses => by
    rw [expr.eq_def]
    refine Succeeds.bind ?_ fun _ g₁ hlhs => ?_
    · exact succeeds_expr cx lhs hnames.1 fun u hu => huses u (List.mem_append_left _ hu)
    refine Succeeds.bind ?_ fun _ g₂ _ => ?_
    · refine succeeds_expr cx rhs hnames.2 fun u hu => ?_
      rw [(generates_expr cx default lhs hlhs).layout_eq]
      exact huses u (List.mem_append_right _ hu)
    cases use with
    | value => exact succeeds_emit ..
    | effect => exact succeeds_emit ..
  | .ident site name indices, .effect, g, hnames, huses => by
    rw [expr]
    refine succeeds_variable (huses _ List.mem_cons_self) fun ⟨v, a⟩ => ?_
    exact succeeds_exprs cx indices hnames fun u hu => huses u (List.mem_cons_of_mem _ hu)
  | .ident site name [], .value, g, hnames, huses => by
    rw [expr]
    exact succeeds_variable (huses _ List.mem_cons_self) fun ⟨v, a⟩ => succeeds_access ..
  | .ident site name (index :: indices), .value, g, hnames, huses => by
    rw [expr]
    refine succeeds_variable (huses _ List.mem_cons_self) fun ⟨v, a⟩ => ?_
    refine (succeeds_access ..).bind fun _ g₁ hload => ?_
    refine Succeeds.bind ?_ fun _ g₂ _ => succeeds_emit ..
    refine succeeds_element cx _ hnames fun u hu => ?_
    rw [(generates_access (L := default) cx hload).layout_eq]
    exact huses u (List.mem_cons_of_mem _ hu)
  | .literal _ value, use, g, _, _ => by
    cases use with
    | value => exact succeeds_emit ..
    | effect => exact succeeds_pure () g
  | .call site name args, use, g, hnames, huses => by
    rw [expr]
    refine succeeds_callee (huses _ List.mem_cons_self) fun ⟨ret, a⟩ => ?_
    refine Succeeds.bind ?_ fun _ g₁ _ => ?_
    · exact succeeds_exprs cx args hnames fun u hu => huses u (List.mem_cons_of_mem _ hu)
    refine (succeeds_registerFor ..).bind fun r g₂ _ => ?_
    refine (succeeds_emit ..).bind fun _ g₃ _ => ?_
    cases use with
    | value => exact succeeds_pure () g₃
    | effect =>
      cases ret with
      | none => exact succeeds_pure () g₃
      | some ty => exact succeeds_emit ..

theorem succeeds_exprs (cx : Context) : ∀ (es : List (Tree.Expr Site)) {use : Use}
    {g : Generator}, Tree.Expr.AssignsNamesAll es →
    (∀ u ∈ Tree.Expr.usesAll es, u.Known cx g.layout []) → Succeeds (exprs cx use es) g
  | [], use, g, _, _ => succeeds_pure () g
  | e :: es, use, g, hnames, huses => by
    rw [exprs]
    refine Succeeds.bind ?_ fun _ g₁ he => ?_
    · exact succeeds_expr cx e hnames.1 fun u hu => huses u (List.mem_append_left _ hu)
    refine succeeds_exprs cx es hnames.2 fun u hu => ?_
    rw [(generates_expr cx default e he).layout_eq]
    exact huses u (List.mem_append_right _ hu)

theorem succeeds_element (cx : Context) : ∀ (es : List (Tree.Expr Site)) {g : Generator},
    Tree.Expr.AssignsNamesAll es →
    (∀ u ∈ Tree.Expr.usesAll es, u.Known cx g.layout []) → Succeeds (element cx es) g
  | [], g, _, _ => succeeds_pure () g
  | e :: es, g, hnames, huses => by
    rw [element]
    refine Succeeds.bind ?_ fun _ g₁ he => ?_
    · exact succeeds_expr cx e hnames.1 fun u hu => huses u (List.mem_append_left _ hu)
    refine (succeeds_emit ..).bind fun _ g₂ hadd => ?_
    refine succeeds_element cx es hnames.2 fun u hu => ?_
    have hg₁ := generates_expr cx default e he
    rw [(hg₁.trans (generates_emit hadd)).layout_eq]
    exact huses u (List.mem_append_right _ hu)

end

/-! ## Statements -/

theorem succeeds_declare (cx : Context) {v : Tree.Var} {init : Tree.Expr Site} {slot : Address}
    {b : Block} (hnames : init.AssignsNames)
    (hready : Ready cx g.layout (⟨b, .var v none⟩ :: init.usesIn b)) :
    Succeeds (declare cx v init slot) g := by
  refine Succeeds.bind ⟨_, _, rfl⟩ fun _ g₁ hv => ?_
  obtain ⟨-, hg₁⟩ := generates_param (L := default) hv
  have hcons : Ready cx g.layout ([⟨b, .var v none⟩] ++ init.usesIn b) := hready
  have hinit := hcons.right (.of_generates hg₁ (fun _ h => h) rfl)
  refine (succeeds_expr cx init hnames fun _ => hinit.uses).bind fun _ g₂ _ => ?_
  exact (succeeds_access ..).bind fun _ g₃ _ => succeeds_pure _ g₃

theorem extends_of_declare {v : Tree.Var} {init : Tree.Expr Site} {slot slot' : Address}
    {g' : Generator} (h : exec (declare cx v init slot) g = (.ok slot', g')) (b : Block) :
    g.layout.Extends g'.layout (⟨b, .var v none⟩ :: init.usesIn b) := by
  obtain ⟨-, hg'⟩ := generates_declare (L := default) cx h
  have hvars : declaredVarIds (⟨b, .var v none⟩ :: init.usesIn b) = [v.id] :=
    congrArg (v.id :: ·) (declaredVarIds_usesIn init b)
  refine .of_generates hg' ?_ (declaredFuncIds_usesIn init b)
  rw [hvars]
  exact fun _ h => h

theorem extends_of_block {ss : List Tree.Stmt} {slot slot' : Address} {g' : Generator}
    (h : exec (block cx ss slot) g = (.ok slot', g')) (b : Block) (i : Nat) :
    g.layout.Extends g'.layout (Stmt.visitsOf b i ss) := by
  obtain ⟨-, hg'⟩ := generates_block cx default ss h
  refine .of_generates hg' ?_ (declaredFuncIds_eq_nil (funcName?_stmtVisitsOf ss b i))
  rw [declaredVarIds_visitsOf, map_fst_placements]
  exact fun _ h => h

theorem extends_of_stmt {s : Tree.Stmt} {slot slot' : Address} {g' : Generator}
    (h : exec (stmt cx s slot) g = (.ok slot', g')) (b : Block) (i : Nat) :
    g.layout.Extends g'.layout (Stmt.visits b i s) := by
  obtain ⟨-, hg'⟩ := generates_stmt cx default s h
  refine .of_generates hg' ?_ (declaredFuncIds_eq_nil (funcName?_stmtVisits s b i))
  rw [declaredVarIds_visits, map_fst_placements]
  exact fun _ h => h

mutual

/-- A statement has code once everything is known that is used before it is declared in it. -/
theorem succeeds_stmt (cx : Context) : ∀ (s : Tree.Stmt) {b : Block} {i : Nat} {slot : Address}
    {g : Generator}, (∀ e ∈ s.exprs, e.AssignsNames) → Ready cx g.layout (Stmt.visits b i s) →
    Succeeds (stmt cx s slot) g
  | .decl v init, b, i, slot, g, hnames, hready => by
    rw [stmt]
    exact succeeds_declare cx (hnames init List.mem_cons_self) hready
  | .ifThen cond body, b, i, slot, g, hnames, hready => by
    rw [stmt]
    refine Succeeds.bind ?_ fun _ g₁ hcond => ?_
    · exact succeeds_expr cx cond (hnames cond List.mem_cons_self) fun _ => hready.left.uses
    refine (succeeds_emitAt ..).bind fun exit g₂ hexit => ?_
    have hg₂ := (generates_expr cx default cond hcond).trans (generates_emitAt hexit).2
    have hbody : Ready cx g₂.layout (Stmt.visitsOf (2 * i :: b) 0 body) :=
      hg₂.layout_eq ▸ hready.right (.usesIn _ cond b)
    refine Succeeds.bind ?_ fun _ g₃ _ => ?_
    · exact succeeds_block cx body (fun e he => hnames e (List.mem_cons_of_mem _ he)) hbody
    exact Succeeds.bind ⟨_, _, rfl⟩ fun _ g₄ _ => succeeds_pure _ g₄
  | .ifElse cond body orElse, b, i, slot, g, hnames, hready => by
    rw [stmt]
    refine Succeeds.bind ?_ fun _ g₁ hcond => ?_
    · exact succeeds_expr cx cond (hnames cond List.mem_cons_self) fun _ => hready.left.left.uses
    refine (succeeds_emitAt ..).bind fun exit g₂ hexit => ?_
    have hg₂ := (generates_expr cx default cond hcond).trans (generates_emitAt hexit).2
    have hbody : Ready cx g₂.layout (Stmt.visitsOf (2 * i :: b) 0 body) :=
      hg₂.layout_eq ▸ hready.left.right (.usesIn _ cond b)
    refine Succeeds.bind ?_ fun slot₁ g₃ hrun => ?_
    · exact succeeds_block cx body
        (fun e he => hnames e (List.mem_cons_of_mem _ (List.mem_append_left _ he))) hbody
    refine (succeeds_emitAt ..).bind fun skip g₄ hskip => ?_
    have hg₄ := (generates_emitAt (L := default) hskip).2
    have helse : Ready cx g₄.layout (Stmt.visitsOf ((2 * i + 1) :: b) 0 orElse) := by
      rw [hg₄.layout_eq]
      refine hready.right (.trans (.usesIn _ cond b) ?_)
      exact hg₂.layout_eq ▸ extends_of_block hrun _ 0
    refine Succeeds.bind ⟨_, _, rfl⟩ fun _ g₅ hpatch => ?_
    cases hpatch
    refine Succeeds.bind ?_ fun slot₂ g₆ _ => ?_
    · exact succeeds_block cx orElse
        (fun e he => hnames e (List.mem_cons_of_mem _ (List.mem_append_right _ he))) helse
    exact Succeeds.bind ⟨_, _, rfl⟩ fun _ g₇ _ => succeeds_pure _ g₇
  | .loop v init cond step body, b, i, slot, g, hnames, hready => by
    have hall : Ready cx g.layout ((⟨2 * i :: b, .var v none⟩ :: init.usesIn (2 * i :: b)) ++
        (cond.usesIn (2 * i :: b) ++ step.usesIn (2 * i :: b) ++
          Stmt.visitsOf (2 * i :: b) 0 body)) := by
      simpa only [Stmt.visits, List.cons_append, List.append_assoc] using hready
    rw [stmt]
    refine Succeeds.bind ?_ fun slot₁ g₁ hdecl => ?_
    · exact succeeds_declare cx (hnames init (by simp [Stmt.exprs])) hall.left
    have hrest := hall.right (extends_of_declare hdecl (2 * i :: b))
    refine Succeeds.bind ⟨_, _, rfl⟩ fun head g₁' hhead => ?_
    cases hhead
    refine Succeeds.bind ?_ fun _ g₂ hcond => ?_
    · exact succeeds_expr cx cond (hnames cond (by simp [Stmt.exprs])) fun _ => hrest.left.left.uses
    refine (succeeds_emitAt ..).bind fun exit g₃ hexit => ?_
    have hg₃ := (generates_expr cx default cond hcond).trans (generates_emitAt hexit).2
    have hbody : Ready cx g₃.layout (Stmt.visitsOf (2 * i :: b) 0 body) :=
      hg₃.layout_eq ▸ hrest.right (.trans (.usesIn _ cond _) (.usesIn _ step _))
    refine Succeeds.bind ?_ fun slot₂ g₄ hrun => ?_
    · exact succeeds_block cx body (fun e he => hnames e (by simp [Stmt.exprs, he])) hbody
    -- the step is resolved in the layout before the body, which only grows
    have hstep : Ready cx g₄.layout (step.usesIn (2 * i :: b)) := by
      refine Ready.grow (hrest.left.right (.usesIn _ cond _)) ?_
      obtain ⟨-, hg₄⟩ := generates_block cx default body hrun
      exact hg₃.layout_eq ▸ .of_generates hg₄ (fun _ h => nomatch h) rfl
    refine Succeeds.bind ?_ fun _ g₅ _ => ?_
    · exact succeeds_expr cx step (hnames step (by simp [Stmt.exprs])) fun _ => hstep.uses
    refine (succeeds_emit ..).bind fun _ g₆ _ => ?_
    exact Succeeds.bind ⟨_, _, rfl⟩ fun _ g₇ _ => succeeds_pure _ g₇
  | .ret none, b, i, slot, g, _, _ => by
    rw [stmt]
    refine Succeeds.bind ⟨g, g, rfl⟩ fun _ g₁ _ => ?_
    exact (succeeds_emit ..).bind fun _ g₂ _ => succeeds_pure _ g₂
  | .ret (some value), b, i, slot, g, hnames, hready => by
    rw [stmt]
    refine Succeeds.bind ?_ fun _ g₁ _ => ?_
    · exact succeeds_expr cx value (hnames value List.mem_cons_self) fun _ => hready.uses
    refine Succeeds.bind ⟨g₁, g₁, rfl⟩ fun _ g₂ _ => ?_
    exact (succeeds_emit ..).bind fun _ g₃ _ => succeeds_pure _ g₃
  | .eval e, b, i, slot, g, hnames, hready => by
    rw [stmt_eval]
    refine Succeeds.bind ?_ fun _ g₁ _ => succeeds_pure _ g₁
    exact succeeds_expr cx e (hnames e List.mem_cons_self) fun _ => hready.uses

theorem succeeds_block (cx : Context) : ∀ (ss : List Tree.Stmt) {b : Block} {i : Nat}
    {slot : Address} {g : Generator}, (∀ e ∈ Stmt.exprsOf ss, e.AssignsNames) →
    Ready cx g.layout (Stmt.visitsOf b i ss) → Succeeds (block cx ss slot) g
  | [], b, i, slot, g, _, _ => succeeds_pure _ g
  | s :: ss, b, i, slot, g, hnames, hready => by
    rw [block]
    refine Succeeds.bind ?_ fun _ g₁ hs => ?_
    · exact succeeds_stmt cx s (fun e he => hnames e (List.mem_append_left _ he)) hready.left
    exact succeeds_block cx ss (fun e he => hnames e (List.mem_append_right _ he))
      (hready.right (extends_of_stmt hs b i))

end

/-! ## Functions -/

theorem declaredVarIds_params (f : Tree.Func) (k : Nat) :
    declaredVarIds (f.params.map fun v => ⟨[k], .var v (some f.name)⟩) = f.params.map (·.id) := by
  rw [declaredVarIds, List.filterMap_map]
  exact congrFun List.filterMap_eq_map f.params

theorem declaredFuncIds_params (f : Tree.Func) (k : Nat) :
    declaredFuncIds (f.params.map fun v => ⟨[k], .var v (some f.name)⟩) = [] := by
  rw [declaredFuncIds, List.filterMap_map, List.filterMap_eq_nil_iff]
  exact fun _ _ => rfl

theorem declaredVarIds_funcVisits (f : Tree.Func) (k : Nat) :
    declaredVarIds (f.visits k) = f.vars.map (·.id) := by
  show declaredVarIds (f.params.map _ ++ Stmt.visitsOf [k] 0 f.body) = _
  rw [declaredVarIds_append, declaredVarIds_params, declaredVarIds_visitsOf, Func.vars,
    List.map_append]

theorem declaredFuncIds_funcVisits (f : Tree.Func) (k : Nat) :
    declaredFuncIds (f.visits k) = [f.id] := by
  show f.id :: declaredFuncIds (f.params.map _ ++ Stmt.visitsOf [k] 0 f.body) = _
  rw [declaredFuncIds_append, declaredFuncIds_params,
    declaredFuncIds_eq_nil (funcName?_stmtVisitsOf f.body [k] 0)]
  rfl

theorem succeeds_params (vs : List Tree.Var) (slot : Address) (g : Generator) :
    Succeeds (params vs slot) g := by
  induction vs generalizing slot g with
  | nil => exact succeeds_pure _ g
  | cons v vs ih => exact Succeeds.bind ⟨_, _, rfl⟩ fun slot₁ g₁ _ => ih slot₁ g₁

theorem extends_placeFunc (f : Tree.Func) (a : Address) (b : Block) (g : Generator) :
    g.layout.Extends (g.placeFunc f.id a).layout [⟨b, .func f⟩] where
  vars _ hid := hid.resolve_right List.not_mem_nil
  funcs _ hid := by
    have hinsert : (g.placeFunc f.id a).layout.funcs = g.layout.funcs.insertAll [(f.id, a)] := rfl
    rw [hinsert, Table.exists_get?_insertAll]
    exact hid

theorem extends_of_params {vs : List Tree.Var} {slot slot' : Address} {g' : Generator}
    (h : exec (params vs slot) g = (.ok slot', g')) {os : List Occurrence}
    (hvars : declaredVarIds os = vs.map (·.id)) (hfuncs : declaredFuncIds os = []) :
    g.layout.Extends g'.layout os := by
  obtain ⟨-, hg'⟩ := generates_params (L := default) h
  refine .of_generates hg' ?_ hfuncs
  rw [hvars, map_fst_placements]
  exact fun _ h => h

theorem succeeds_func (cx : Context) {f : Tree.Func} {k : Nat} {frame : Address}
    (hnames : ∀ e ∈ Stmt.exprsOf f.body, e.AssignsNames)
    (hready : Ready cx g.layout (f.visits k)) : Succeeds (func cx f frame) g := by
  have hall : Ready cx g.layout ([⟨[], .func f⟩] ++
      f.params.map (fun v => ⟨[k], .var v (some f.name)⟩) ++ Stmt.visitsOf [k] 0 f.body) := hready
  refine Succeeds.bind ⟨_, _, rfl⟩ fun entry g₀ hentry => ?_
  cases hentry
  refine (succeeds_modify _ _).bind fun _ g₁ hplace => ?_
  cases hplace
  refine (succeeds_modify _ _).bind fun _ g₂ hlevel => ?_
  cases hlevel
  refine (succeeds_params _ _ _).bind fun slot g₃ hparams => ?_
  refine (succeeds_modify _ _).bind fun _ g₄ hset => ?_
  cases hset
  refine Succeeds.if_bind (succeeds_if fun _ => succeeds_emit ..) fun _ g₅ hpush => ?_
  have hg₅ := generates_if hpush fun hpush => generates_emit (L := default) hpush
  have hbody : Ready cx g₅.layout (Stmt.visitsOf [k] 0 f.body) := by
    rw [hg₅.layout_eq]
    refine hall.right (.trans (extends_placeFunc f ⟨frame.level, g.segment.address⟩ [] g) ?_)
    exact extends_of_params hparams (declaredVarIds_params f k) (declaredFuncIds_params f k)
  refine Succeeds.bind (succeeds_block cx f.body hnames hbody) fun _ g₆ _ => ?_
  by_cases hret : f.endsInReturn
  · simp only [hret]
    exact (succeeds_modify _ _).bind fun _ g₇ _ => succeeds_pure _ g₇
  · simp only [hret]
    refine Succeeds.bind ⟨g₆, g₆, rfl⟩ fun _ g₇ _ => ?_
    refine (succeeds_emit ..).bind fun _ g₈ _ => ?_
    exact (succeeds_modify _ _).bind fun _ g₉ _ => succeeds_pure _ g₉

theorem extends_of_func {f : Tree.Func} {frame frame' : Address} {g' : Generator}
    (h : exec (func cx f frame) g = (.ok frame', g')) (k : Nat) :
    g.layout.Extends g'.layout (f.visits k) := by
  obtain ⟨-, hg'⟩ := generates_func cx default h
  refine ⟨fun id hid => ?_, fun id hid => ?_⟩
  · rw [hg'.vars, Table.exists_get?_insertAll, map_fst_placements]
    rwa [declaredVarIds_funcVisits] at hid
  · rw [hg'.funcs, Table.exists_get?_insertAll]
    rwa [declaredFuncIds_funcVisits] at hid

theorem succeeds_funcs (cx : Context) {fs : List Tree.Func} {k : Nat} {frame : Address}
    (hnames : ∀ f ∈ fs, ∀ e ∈ Stmt.exprsOf f.body, e.AssignsNames)
    (hready : Ready cx g.layout (Tree.visitsFrom k fs)) : Succeeds (funcs cx fs frame) g := by
  induction fs generalizing g k frame with
  | nil => exact succeeds_pure _ g
  | cons f fs ih =>
    refine Succeeds.bind ?_ fun frame₁ g₁ hf => ?_
    · exact succeeds_func cx (hnames f List.mem_cons_self) hready.left
    exact ih (fun f hf => hnames f (List.mem_cons_of_mem _ hf)) (hready.right (extends_of_func hf k))

theorem succeeds_program (cx : Context) {fs : List Tree.Func}
    (hnames : ∀ f ∈ fs, ∀ e ∈ Stmt.exprsOf f.body, e.AssignsNames)
    (hready : Ready cx ⟨∅, ∅⟩ (Tree.visitsFrom 0 fs)) :
    Succeeds (program cx fs .origin) .initial := by
  refine (succeeds_emitAt ..).bind fun entry g₁ hentry => ?_
  have hg₁ := (generates_emitAt (L := default) hentry).2
  refine Succeeds.bind ?_ fun frame g₂ hfuncs => ?_
  · refine succeeds_funcs cx hnames (k := 0) ?_
    rw [hg₁.layout_eq]
    exact hready
  refine Succeeds.bind ⟨g₂, g₂, rfl⟩ fun _ g₃ _ => ?_
  refine Succeeds.if_bind (succeeds_if fun _ => succeeds_emit ..) fun _ g₄ _ => ?_
  refine (succeeds_emitAt ..).bind fun halt g₅ _ => ?_
  split
  · exact Succeeds.bind ⟨_, _, rfl⟩ fun _ g₆ _ => succeeds_pure _ g₆
  · refine Succeeds.bind ⟨_, _, rfl⟩ fun _ g₆ _ => ?_
    exact Succeeds.bind ⟨_, _, rfl⟩ fun _ g₇ _ => succeeds_pure _ g₇

end Generate

/-! ## Programs -/

theorem mem_declaredVarIds {b : Block} {v : Tree.Var} {paramOf : Option String}
    {os : List Occurrence} (h : ⟨b, .var v paramOf⟩ ∈ os) : v.id ∈ declaredVarIds os :=
  List.mem_filterMap.2 ⟨_, h, rfl⟩

theorem mem_declaredFuncIds {b : Block} {f : Tree.Func} {os : List Occurrence}
    (h : ⟨b, .func f⟩ ∈ os) : f.id ∈ declaredFuncIds os :=
  List.mem_filterMap.2 ⟨_, h, rfl⟩

namespace Program
variable {p : Program} {R : Resolution}

theorem declaredVarIds_visits (p : Program) : declaredVarIds p.visits = p.vars.map (·.id) := by
  unfold visits vars
  generalize p.funcs = fs
  generalize 0 = k
  induction fs generalizing k with
  | nil => rfl
  | cons f fs ih =>
    rw [Tree.visitsFrom, declaredVarIds_append, Generate.declaredVarIds_funcVisits, ih,
      List.flatMap_cons, List.map_append]

theorem declaredFuncIds_visitsFrom (fs : List Tree.Func) (k : Nat) :
    declaredFuncIds (Tree.visitsFrom k fs) = fs.map (·.id) := by
  induction fs generalizing k with
  | nil => rfl
  | cons f fs ih =>
    rw [Tree.visitsFrom, declaredFuncIds_append, Generate.declaredFuncIds_funcVisits, ih,
      List.map_cons]
    rfl

theorem declaredFuncIds_visits (p : Program) : declaredFuncIds p.visits = p.funcs.map (·.id) :=
  declaredFuncIds_visitsFrom p.funcs 0

theorem ident_resolved_in_range (hwf : p.WellFormed) (hR : p.resolve = .ok R) {id : ExprId}
    {var : VarId} (h : R.idents.get? id = some var) : var ∈ p.vars.map (·.id) := by
  obtain ⟨before, o, ⟨after, hsplit⟩, site, name, v, -, -, rfl, hv⟩ :=
    (idents_get?_iff hwf hR id var).1 h
  obtain ⟨-, outer, ⟨-, paramOf, hdecl⟩, -⟩ := hv
  rw [← declaredVarIds_visits, hsplit, declaredVarIds_append]
  exact List.mem_append_left _ (mem_declaredVarIds hdecl)

theorem call_resolved_in_range (hwf : p.WellFormed) (hR : p.resolve = .ok R) {id : ExprId}
    {func : FuncId} (h : R.calls.get? id = some func) : func ∈ p.funcs.map (·.id) := by
  obtain ⟨before, o, ⟨after, hsplit⟩, site, name, args, f, -, -, rfl, hf⟩ :=
    (calls_get?_iff hwf hR id func).1 h
  obtain ⟨-, b, hdecl⟩ := hf
  rw [← declaredFuncIds_visits, hsplit, declaredFuncIds_append]
  exact List.mem_append_left _ (mem_declaredFuncIds hdecl)

/-- Whatever a visit meets after its resolution is known from what it met before. -/
theorem ready_visits (hwf : p.WellFormed) (hR : p.resolve = .ok R) :
    Ready ⟨p.nodes, R⟩ ⟨∅, ∅⟩ p.visits := by
  intro before o after hsplit
  have hscoped := wellScoped_iff.2 (resolve_eq_ok_iff.1 hR).1
  have hmeets : p.Meets before o := ⟨after, hsplit⟩
  obtain ⟨b, e⟩ := o
  cases e with
  | ident site name =>
    obtain ⟨v, hv⟩ := exists_denotes_of_visible (hscoped.idents hmeets)
    have hbinds : R.idents.get? site.id = some v.id :=
      (idents_get?_iff hwf hR _ _).2 ⟨before, _, hmeets, site, name, v, rfl, rfl, rfl, hv⟩
    have hrange := ident_resolved_in_range hwf hR hbinds
    rw [hwf.varIds, List.mem_range] at hrange
    obtain ⟨-, outer, ⟨-, paramOf, hdecl⟩, -⟩ := hv
    exact ⟨v.id, _, hbinds, Array.getElem?_eq_getElem hrange, .inr (mem_declaredVarIds hdecl)⟩
  | call site name args =>
    obtain ⟨-, f, hf, -⟩ := hscoped.calls hmeets
    have hbinds : R.calls.get? site.id = some f.id :=
      (calls_get?_iff hwf hR _ _).2 ⟨before, _, hmeets, site, name, args, f, rfl, rfl, rfl, hf⟩
    have hrange := call_resolved_in_range hwf hR hbinds
    rw [hwf.funcIds, List.mem_range] at hrange
    obtain ⟨-, b', hdecl⟩ := hf
    exact ⟨f.id, _, hbinds, Array.getElem?_eq_getElem hrange, .inr (mem_declaredFuncIds hdecl)⟩
  | func f => trivial
  | var v paramOf => trivial

theorem exists_generate {c : Cursor} (hp : ofTokens c = .ok p) (hR : p.resolve = .ok R) :
    ∃ o, p.generate R = .ok o := by
  have hnames : ∀ f ∈ p.funcs, ∀ e ∈ Stmt.exprsOf f.body, e.AssignsNames := by
    intro f hf e he
    exact assignsNames hp (List.mem_flatMap.2 ⟨f, hf, he⟩)
  obtain ⟨frame, g, hrun⟩ :=
    Generate.succeeds_program ⟨p.nodes, R⟩ hnames (ready_visits (ofTokens_wellFormed hp) hR)
  exact ⟨g.object, generate_eq_ok.2 ⟨frame, g, hrun, rfl⟩⟩

theorem exists_place_of_var {o : Object} (hwf : p.WellFormed) (ho : p.generate R = .ok o)
    {var : VarId} (h : var ∈ p.vars.map (·.id)) : ∃ a, o.layout.vars.get? var = some a := by
  rw [vars, ← Generate.map_fst_flatMap_placements p.funcs ⟨1, 0⟩] at h
  obtain ⟨e, he, rfl⟩ := List.mem_map.1 h
  exact ⟨e.2, (hwf.object_spec ho).2.2 e he⟩

theorem exists_place_of_func {o : Object} (hwf : p.WellFormed) (ho : p.generate R = .ok o)
    {func : FuncId} (h : func ∈ p.funcs.map (·.id)) : ∃ a, o.layout.funcs.get? func = some a := by
  rw [← Generate.map_fst_entries ⟨p.nodes, R⟩ o.layout 0 1] at h
  obtain ⟨e, he, rfl⟩ := List.mem_map.1 h
  exact ⟨e.2, (hwf.object_spec ho).2.1 e he⟩

end Program

/-- How compilation ends: with a text that declares no program, with a name that is misused, or as
the generation of code ends. -/
theorem compile_cases (text : String) :
    (∃ e, compile text = .error (.grammar e)) ∨ (∃ e, compile text = .error (.binding e)) ∨
      ∃ p R, Program.parse text = .ok p ∧ p.resolve = .ok R ∧
        compile text = ((p.generate R).mapError .unresolved).map fun o => (p, o) := by
  unfold compile Program.compile
  cases hp : Program.parse text with
  | error e => exact .inl ⟨e, rfl⟩
  | ok p =>
    cases hR : p.resolve with
    | error e =>
      refine .inr (.inl ⟨e, ?_⟩)
      simp [hR, Except.mapError, bind, Except.bind]
    | ok R =>
      refine .inr (.inr ⟨p, R, rfl, hR, ?_⟩)
      cases hg : p.generate R <;>
        simp [hR, hg, Except.mapError, bind, Except.bind, pure, Except.pure, Except.map]

theorem compile_eq_ok {text : String} {p : Program} {o : Object} (h : compile text = .ok (p, o)) :
    ∃ R, Program.parse text = .ok p ∧ p.resolve = .ok R ∧ p.generate R = .ok o := by
  rcases compile_cases text with ⟨e, he⟩ | ⟨e, he⟩ | ⟨p', R, hp, hR, hcompile⟩
  · cases h.symm.trans he
  · cases h.symm.trans he
  · cases hg : p'.generate R with
    | error e =>
      rw [hg] at hcompile
      cases h.symm.trans hcompile
    | ok o' =>
      rw [hg] at hcompile
      cases h.symm.trans hcompile
      exact ⟨R, hp, hR, hg⟩

theorem compile_eq_unresolved {text : String} {e : Unresolved}
    (h : compile text = .error (.unresolved e)) :
    ∃ p R, Program.parse text = .ok p ∧ p.resolve = .ok R ∧ p.generate R = .error e := by
  rcases compile_cases text with ⟨e', he⟩ | ⟨e', he⟩ | ⟨p, R, hp, hR, hcompile⟩
  · cases h.symm.trans he
  · cases h.symm.trans he
  · cases hg : p.generate R with
    | error e' =>
      rw [hg] at hcompile
      cases h.symm.trans hcompile
      exact ⟨p, R, hp, hR, hg⟩
    | ok o =>
      rw [hg] at hcompile
      cases h.symm.trans hcompile

namespace Program

/-- Whenever the names of a program can be resolved, it has code: every name is resolved to something
that has a place in the layout, and only names are assigned to. A place that was missing where it is
looked up would be an error, so each is there by then, and no text fails to compile for a name that
is not resolved. -/
theorem resolved_program_has_code (text : String) :
    (∀ p R, parse text = .ok p → p.resolve = .ok R → ∃ o, p.generate R = .ok o ∧
      (∀ id name indices pos, p.nodes.exprs[id]? = some (.ident name indices, pos) →
        ∃ var a, R.idents.get? id = some var ∧ o.layout.vars.get? var = some a) ∧
      (∀ id name args pos, p.nodes.exprs[id]? = some (.call name args, pos) →
        ∃ func a, R.calls.get? id = some func ∧ o.layout.funcs.get? func = some a) ∧
      ∀ (id target value : ExprId) (pos : Pos),
        p.nodes.exprs[id]? = some (.assign target value, pos) →
        ∃ name indices pos', p.nodes.exprs[target]? = some (.ident name indices, pos')) ∧
    ∀ e, PrimeLang.compile text ≠ .error (.unresolved e) := by
  refine ⟨fun p R hp hR => ?_, fun e he => ?_⟩
  · have hwf := ofTokens_wellFormed hp
    obtain ⟨o, ho⟩ := exists_generate hp hR
    refine ⟨o, ho, fun id name indices pos hnode => ?_, fun id name args pos hnode => ?_,
      fun id target value pos hnode => target_of_assign hp hnode⟩
    · obtain ⟨var, hvar⟩ := (exists_idents_get?_iff hwf hR id).2 ⟨name, indices, pos, hnode⟩
      obtain ⟨a, ha⟩ := exists_place_of_var hwf ho (ident_resolved_in_range hwf hR hvar)
      exact ⟨var, a, hvar, ha⟩
    · obtain ⟨func, hfunc⟩ := (exists_calls_get?_iff hwf hR id).2 ⟨name, args, pos, hnode⟩
      obtain ⟨a, ha⟩ := exists_place_of_func hwf ho (call_resolved_in_range hwf hR hfunc)
      exact ⟨func, a, hfunc, ha⟩
  · obtain ⟨p, R, hp, hR, hg⟩ := compile_eq_unresolved he
    obtain ⟨o, ho⟩ := exists_generate hp hR
    cases hg.symm.trans ho

/-- A variable in its own first value, a call of the function itself, and a loop whose step uses its
variable and whose body declares another one. -/
def loopingText : String :=
  "func f(int n) -> int \x7b int x := x; for int i := 0; i < n; i += 1 \x7b array a := n; " ++
    "a[i] += f(i); \x7d return x; \x7d"

theorem resolved_program_has_code_looping :
    ∃ p R o, parse loopingText = .ok p ∧ p.resolve = .ok R ∧ p.generate R = .ok o := by
  obtain ⟨p, R, hp, hR⟩ := exists_resolve_of_eval loopingText (by decide +kernel)
  obtain ⟨o, ho, -⟩ := (resolved_program_has_code loopingText).1 p R hp hR
  exact ⟨p, R, o, hp, hR, ho⟩

end Program
end PrimeLang
