import Mathlib.Data.List.Infix
import PrimeLang.Binding.Resolution
import PrimeLang.Proofs.Storing

/-! # Lexical visibility

A program is visited in one fixed order: a declaration before its first value, a name before its
indices or arguments, the step of a loop before its body. What is met on the way is a list of
occurrences, each with the block it stands in. A block is a path of numbers, innermost first, so one
block encloses another if its path is a suffix. What a name means is said by what was visited
before, without scopes: a variable is visible in all blocks that its own block encloses. -/

namespace PrimeLang

/-- Where a block is: its number in the block around it, the number of that block, and so on out to
the number of the function. -/
abbrev Block := List Nat

/-- What a visit meets. -/
inductive Event where
  | func (f : Tree.Func)
  /-- A declared variable; a parameter comes with the name of its function. -/
  | var (v : Tree.Var) (paramOf : Option String)
  | ident (site : Site) (name : String)
  | call (site : Site) (name : String) (args : Nat)

/-- Something that a visit meets in a block. -/
structure Occurrence where
  block : Block
  event : Event

/-! ## The order of visits -/

mutual

/-- The names that an expression uses, outer before inner and from left to right. -/
def Tree.Expr.uses : Tree.Expr Site → List Event
  | .assign _ target value => target.uses ++ value.uses
  | .binary _ _ lhs rhs => lhs.uses ++ rhs.uses
  | .ident site name indices => .ident site name :: usesAll indices
  | .literal _ _ => []
  | .call site name args => .call site name args.length :: usesAll args

def Tree.Expr.usesAll : List (Tree.Expr Site) → List Event
  | [] => []
  | e :: es => e.uses ++ usesAll es

end

/-- The names that an expression uses in a block. -/
def Tree.Expr.usesIn (b : Block) (e : Tree.Expr Site) : List Occurrence := e.uses.map (⟨b, ·⟩)

namespace Stmt

mutual

/-- What a visit meets in the `i`th statement of a block. The blocks inside it have the numbers `2i`
and `2i + 1`. -/
def visits (b : Block) (i : Nat) : Tree.Stmt → List Occurrence
  | .decl v init => ⟨b, .var v none⟩ :: init.usesIn b
  | .ifThen cond body => cond.usesIn b ++ visitsOf (2 * i :: b) 0 body
  | .ifElse cond body orElse =>
    cond.usesIn b ++ visitsOf (2 * i :: b) 0 body ++ visitsOf ((2 * i + 1) :: b) 0 orElse
  | .loop v init cond step body =>
    let inner := 2 * i :: b
    ⟨inner, .var v none⟩ :: (init.usesIn inner ++ cond.usesIn inner ++ step.usesIn inner ++
      visitsOf inner 0 body)
  | .ret none => []
  | .ret (some e) => e.usesIn b
  | .eval e => e.usesIn b

/-- What a visit meets in the statements of a block from the `i`th on. -/
def visitsOf (b : Block) (i : Nat) : List Tree.Stmt → List Occurrence
  | [] => []
  | s :: ss => visits b i s ++ visitsOf b (i + 1) ss

end

end Stmt

/-- What a visit meets in the `k`th function. Its parameters and its body are one block. -/
def Tree.Func.visits (k : Nat) (f : Tree.Func) : List Occurrence :=
  ⟨[], .func f⟩ :: (f.params.map (fun v => ⟨[k], .var v (some f.name)⟩) ++
    Stmt.visitsOf [k] 0 f.body)

/-- What a visit meets in functions from the `k`th on. -/
def Tree.visitsFrom (k : Nat) : List Tree.Func → List Occurrence
  | [] => []
  | f :: fs => f.visits k ++ visitsFrom (k + 1) fs

/-- What a visit of a program meets. -/
def Program.visits (p : Program) : List Occurrence := Tree.visitsFrom 0 p.funcs

/-! ## What names stand for -/

/-- The names and numbers of the variables that occurrences declare in `b`. -/
def declaredIn (b : Block) (os : List Occurrence) : Scope :=
  os.filterMap fun
    | ⟨b', .var v _⟩ => if b' = b then some (v.name, v.id) else none
    | _ => none

/-- The functions that occurrences declare, by name. -/
def declaredFuncs (os : List Occurrence) : List (String × Callee) :=
  os.filterMap fun
    | ⟨_, .func f⟩ => some (f.name, ⟨f.id, f.params.length⟩)
    | _ => none

section
variable (before : List Occurrence) (b : Block)

/-- `v` was declared, in a block that encloses `b`. -/
def VisibleFrom (outer : Block) (v : Tree.Var) : Prop :=
  outer <:+ b ∧ ∃ paramOf, ⟨outer, .var v paramOf⟩ ∈ before

/-- `v` is the variable called `name` that was declared in the innermost block around `b`. -/
def Denotes (name : String) (v : Tree.Var) : Prop :=
  v.name = name ∧ ∃ outer, VisibleFrom before b outer v ∧
    ∀ outer' v', VisibleFrom before b outer' v' → v'.name = name → outer' <:+ outer

/-- `f` was declared and is called `name`. -/
def DenotesFunc (name : String) (f : Tree.Func) : Prop :=
  f.name = name ∧ ∃ b, ⟨b, .func f⟩ ∈ before

/-- A variable called `name` is visible in `b`. -/
def Visible (name : String) : Prop := ∃ outer v, VisibleFrom before b outer v ∧ v.name = name

/-- What is wrong with an occurrence, given what was visited before. -/
inductive Violation : Occurrence → BindingError → Prop
  | duplicateFunction {b : Block} {f g : Tree.Func} :
    DenotesFunc before f.name g → Violation ⟨b, .func f⟩ (.duplicateFunction f.name f.pos)
  | duplicateParameter {b : Block} {v w : Tree.Var} {func : String} {paramOf : Option String} :
    ⟨b, .var w paramOf⟩ ∈ before → w.name = v.name →
    Violation ⟨b, .var v (some func)⟩ (.duplicateParameter v.name func v.pos)
  | duplicateVariable {b : Block} {v w : Tree.Var} {paramOf : Option String} :
    ⟨b, .var w paramOf⟩ ∈ before → w.name = v.name →
    Violation ⟨b, .var v none⟩ (.duplicateVariable v.name v.pos)
  | undefinedVariable {b : Block} {site : Site} {name : String} :
    ¬ Visible before b name → Violation ⟨b, .ident site name⟩ (.undefinedVariable name site.pos)
  | notAFunction {b : Block} {site : Site} {name : String} {args : Nat} :
    Visible before b name → Violation ⟨b, .call site name args⟩ (.notAFunction name site.pos)
  | undefinedFunction {b : Block} {site : Site} {name : String} {args : Nat} :
    ¬ Visible before b name → (∀ f, ¬ DenotesFunc before name f) →
    Violation ⟨b, .call site name args⟩ (.undefinedFunction name site.pos)
  | arity {b : Block} {site : Site} {name : String} {args : Nat} {f : Tree.Func} :
    ¬ Visible before b name → DenotesFunc before name f → f.params.length ≠ args →
    Violation ⟨b, .call site name args⟩ (.arity name f.params.length args site.pos)

end

/-! ## Uses and nodes -/

/-- The place of the name that is used, if a name is used. -/
def Event.site? : Event → Option Site
  | .ident site _ => some site
  | .call site _ _ => some site
  | _ => none

/-- What is met at a node under `site` that uses a name. -/
def Node.Expr.useAt? (site : Site) : Node.Expr → Option Event
  | .ident name _ => some (.ident site name)
  | .call name args => some (.call site name args.length)
  | _ => none

/-- What is met other than declarations. -/
def usesOf (os : List Occurrence) : List Event :=
  os.filterMap fun o => o.event.site?.map fun _ => o.event

@[simp] theorem usesOf_append (os os' : List Occurrence) :
    usesOf (os ++ os') = usesOf os ++ usesOf os' := List.filterMap_append

namespace Tree.Expr

mutual

theorem site?_of_mem_uses : ∀ (e : Tree.Expr Site) {u : Event}, u ∈ e.uses →
    ∃ site, u.site? = some site
  | .assign _ target value, u, hu => by
    rw [uses, List.mem_append] at hu
    exact hu.elim (site?_of_mem_uses target) (site?_of_mem_uses value)
  | .binary _ _ lhs rhs, u, hu => by
    rw [uses, List.mem_append] at hu
    exact hu.elim (site?_of_mem_uses lhs) (site?_of_mem_uses rhs)
  | .ident site name indices, u, hu => by
    rw [uses, List.mem_cons] at hu
    rcases hu with rfl | hu
    · exact ⟨site, rfl⟩
    · exact site?_of_mem_usesAll indices hu
  | .literal _ _, u, hu => by simp [uses] at hu
  | .call site name args, u, hu => by
    rw [uses, List.mem_cons] at hu
    rcases hu with rfl | hu
    · exact ⟨site, rfl⟩
    · exact site?_of_mem_usesAll args hu

theorem site?_of_mem_usesAll : ∀ (es : List (Tree.Expr Site)) {u : Event}, u ∈ usesAll es →
    ∃ site, u.site? = some site
  | [], u, hu => by simp [usesAll] at hu
  | e :: es, u, hu => by
    rw [usesAll, List.mem_append] at hu
    exact hu.elim (site?_of_mem_uses e) (site?_of_mem_usesAll es)

end

@[simp] theorem usesOf_usesIn (e : Tree.Expr Site) (b : Block) : usesOf (e.usesIn b) = e.uses := by
  rw [usesOf, usesIn, List.filterMap_map]
  rw [List.filterMap_congr (g := some), List.filterMap_some]
  intro u hu
  obtain ⟨site, hsite⟩ := site?_of_mem_uses e hu
  simp [hsite]

mutual

/-- Names are used in order at different nodes. -/
theorem sites_sublist_labels : ∀ e : Tree.Expr Site, (e.uses.filterMap Event.site?).Sublist e.labels
  | .assign _ target value => by
    rw [uses, labels, List.filterMap_append]
    exact ((sites_sublist_labels target).append (sites_sublist_labels value)).cons _
  | .binary _ _ lhs rhs => by
    rw [uses, labels, List.filterMap_append]
    exact ((sites_sublist_labels lhs).append (sites_sublist_labels rhs)).cons _
  | .ident site name indices => by
    rw [uses, labels]
    exact (sites_sublist_labelsAll indices).cons_cons site
  | .literal _ _ => by
    rw [uses]
    exact List.nil_sublist _
  | .call site name args => by
    rw [uses, labels]
    exact (sites_sublist_labelsAll args).cons_cons site

theorem sites_sublist_labelsAll : ∀ es : List (Tree.Expr Site),
    ((usesAll es).filterMap Event.site?).Sublist (labelsAll es)
  | [] => by
    rw [usesAll, labelsAll]
    exact .slnil
  | e :: es => by
    rw [usesAll, labelsAll, List.filterMap_append]
    exact (sites_sublist_labels e).append (sites_sublist_labelsAll es)

end

mutual

theorem node_of_mem_labels {ns : Nodes} {site : Site} : ∀ (e : Tree.Expr Site), e.Held ns →
    site ∈ e.labels → ∃ node, ns.exprs[site.id]? = some (node, site.pos)
  | .assign a target value, h, hs => by
    rw [labels, List.mem_cons, List.mem_append] at hs
    rcases hs with rfl | hs | hs
    · exact ⟨_, h.1⟩
    · exact node_of_mem_labels target h.2.1 hs
    · exact node_of_mem_labels value h.2.2 hs
  | .binary a op lhs rhs, h, hs => by
    rw [labels, List.mem_cons, List.mem_append] at hs
    rcases hs with rfl | hs | hs
    · exact ⟨_, h.1⟩
    · exact node_of_mem_labels lhs h.2.1 hs
    · exact node_of_mem_labels rhs h.2.2 hs
  | .ident a name indices, h, hs => by
    rw [labels, List.mem_cons] at hs
    rcases hs with rfl | hs
    · exact ⟨_, h.1⟩
    · exact node_of_mem_labelsAll indices h.2 hs
  | .literal a value, h, hs => by
    rw [labels, List.mem_singleton] at hs
    exact ⟨_, hs ▸ h⟩
  | .call a name args, h, hs => by
    rw [labels, List.mem_cons] at hs
    rcases hs with rfl | hs
    · exact ⟨_, h.1⟩
    · exact node_of_mem_labelsAll args h.2 hs

theorem node_of_mem_labelsAll {ns : Nodes} {site : Site} : ∀ (es : List (Tree.Expr Site)),
    HeldAll ns es → site ∈ labelsAll es → ∃ node, ns.exprs[site.id]? = some (node, site.pos)
  | [], _, hs => by simp [labelsAll] at hs
  | e :: es, h, hs => by
    rw [labelsAll, List.mem_append] at hs
    rcases hs with hs | hs
    · exact node_of_mem_labels e h.1 hs
    · exact node_of_mem_labelsAll es h.2 hs

end

section
variable {ns : Nodes} {u : Event}

/-- `u` is what the node under `site` is met as. -/
def UsedAt (ns : Nodes) (u : Event) (site : Site) : Prop :=
  ∃ node, ns.exprs[site.id]? = some (node, site.pos) ∧ node.useAt? site = some u

mutual

/-- What an expression uses are the nodes of its labels that use a name. -/
theorem mem_uses_iff : ∀ (e : Tree.Expr Site), e.Held ns →
    (u ∈ e.uses ↔ ∃ site ∈ e.labels, UsedAt ns u site)
  | .assign a target value, h => by
    have ha : ¬ UsedAt ns u a := by simp [UsedAt, h.1, Node.Expr.useAt?]
    simp only [uses, labels, List.mem_append, List.mem_cons, mem_uses_iff target h.2.1,
      mem_uses_iff value h.2.2, or_and_right, exists_or, exists_eq_left, ha, false_or]
  | .binary a op lhs rhs, h => by
    have ha : ¬ UsedAt ns u a := by simp [UsedAt, h.1, Node.Expr.useAt?]
    simp only [uses, labels, List.mem_append, List.mem_cons, mem_uses_iff lhs h.2.1,
      mem_uses_iff rhs h.2.2, or_and_right, exists_or, exists_eq_left, ha, false_or]
  | .ident a name indices, h => by
    have ha : UsedAt ns u a ↔ u = .ident a name := by simp [UsedAt, h.1, Node.Expr.useAt?, eq_comm]
    simp only [uses, labels, List.mem_cons, mem_usesAll_iff indices h.2, or_and_right, exists_or,
      exists_eq_left, ha]
  | .literal a value, h => by
    have ha : ¬ UsedAt ns u a := by
      unfold Held at h
      simp [UsedAt, h, Node.Expr.useAt?]
    simp [uses, labels, ha]
  | .call a name args, h => by
    have ha : UsedAt ns u a ↔ u = .call a name args.length := by
      simp [UsedAt, h.1, Node.Expr.useAt?, eq_comm]
    simp only [uses, labels, List.mem_cons, mem_usesAll_iff args h.2, or_and_right, exists_or,
      exists_eq_left, ha]

theorem mem_usesAll_iff : ∀ (es : List (Tree.Expr Site)), HeldAll ns es →
    (u ∈ usesAll es ↔ ∃ site ∈ labelsAll es, UsedAt ns u site)
  | [], _ => by simp [usesAll, labelsAll]
  | e :: es, h => by
    simp only [usesAll, labelsAll, List.mem_append, mem_uses_iff e h.1, mem_usesAll_iff es h.2,
      or_and_right, exists_or]

end

end

end Tree.Expr

mutual

theorem usesOf_stmtVisits : ∀ (s : Tree.Stmt) (b : Block) (i : Nat),
    usesOf (Stmt.visits b i s) = s.exprs.flatMap Tree.Expr.uses
  | .decl v init, b, i => by
    show usesOf (init.usesIn b) = _
    simp [Stmt.exprs]
  | .ifThen cond body, b, i => by
    simp [Stmt.visits, Stmt.exprs, usesOf_stmtVisitsOf body]
  | .ifElse cond body orElse, b, i => by
    simp [Stmt.visits, Stmt.exprs, usesOf_stmtVisitsOf body, usesOf_stmtVisitsOf orElse]
  | .loop v init cond step body, b, i => by
    show usesOf (init.usesIn _ ++ cond.usesIn _ ++ step.usesIn _ ++ Stmt.visitsOf _ 0 body) = _
    simp [Stmt.exprs, usesOf_stmtVisitsOf body]
  | .ret none, b, i => by simp [Stmt.visits, Stmt.exprs, usesOf]
  | .ret (some e), b, i => by simp [Stmt.visits, Stmt.exprs]
  | .eval e, b, i => by simp [Stmt.visits, Stmt.exprs]

theorem usesOf_stmtVisitsOf : ∀ (ss : List Tree.Stmt) (b : Block) (i : Nat),
    usesOf (Stmt.visitsOf b i ss) = (Stmt.exprsOf ss).flatMap Tree.Expr.uses
  | [], b, i => rfl
  | s :: ss, b, i => by
    simp [Stmt.visitsOf, Stmt.exprsOf, usesOf_stmtVisits s, usesOf_stmtVisitsOf ss]

end

theorem usesOf_funcVisits (f : Tree.Func) (k : Nat) :
    usesOf (f.visits k) = (Stmt.exprsOf f.body).flatMap Tree.Expr.uses := by
  have hparams : usesOf (f.params.map fun v => ⟨[k], .var v (some f.name)⟩) = [] := by
    rw [usesOf, List.filterMap_map, List.filterMap_eq_nil_iff]
    exact fun _ _ => rfl
  show usesOf (f.params.map _ ++ Stmt.visitsOf [k] 0 f.body) = _
  rw [usesOf_append, hparams, usesOf_stmtVisitsOf]
  rfl

theorem usesOf_visitsFrom (fs : List Tree.Func) (k : Nat) :
    usesOf (Tree.visitsFrom k fs) =
      (fs.flatMap fun f => Stmt.exprsOf f.body).flatMap Tree.Expr.uses := by
  induction fs generalizing k with
  | nil => rfl
  | cons f fs ih =>
    rw [Tree.visitsFrom, usesOf_append, usesOf_funcVisits, ih, List.flatMap_cons,
      List.flatMap_append]

theorem Tree.Expr.sites_sublist_flatMap_labels (es : List (Tree.Expr Site)) :
    ((es.flatMap uses).filterMap Event.site?).Sublist (es.flatMap labels) := by
  induction es with
  | nil => exact .slnil
  | cons e es ih =>
    rw [List.flatMap_cons, List.flatMap_cons, List.filterMap_append]
    exact (sites_sublist_labels e).append ih

namespace Program
variable {p : Program}

/-- A visit of a program meets the names that its expressions use, in order. -/
theorem usesOf_visits (p : Program) : usesOf p.visits = p.exprs.flatMap Tree.Expr.uses :=
  usesOf_visitsFrom p.funcs 0

theorem mem_usesOf_iff (hwf : p.WellFormed) {u : Event} :
    u ∈ usesOf p.visits ↔
      ∃ site ∈ p.exprs.flatMap Tree.Expr.labels, Tree.Expr.UsedAt p.nodes u site := by
  simp only [usesOf_visits, List.mem_flatMap]
  constructor
  · rintro ⟨e, he, hu⟩
    obtain ⟨site, hsite, hused⟩ := (Tree.Expr.mem_uses_iff e (hwf.held he)).1 hu
    exact ⟨site, ⟨e, he, hsite⟩, hused⟩
  · rintro ⟨site, ⟨e, he, hsite⟩, hused⟩
    exact ⟨e, he, (Tree.Expr.mem_uses_iff e (hwf.held he)).2 ⟨site, hsite, hused⟩⟩

/-- Every expression node is under one label of the trees. -/
theorem exists_label (hwf : p.WellFormed) {id : ExprId} {node : Node.Expr} {pos : Pos}
    (hnode : p.nodes.exprs[id]? = some (node, pos)) :
    ∃ site ∈ p.exprs.flatMap Tree.Expr.labels, site.id = id ∧ site.pos = pos := by
  have hid : id ∈ List.range p.nodes.exprs.size :=
    List.mem_range.2 (Array.getElem?_eq_some_iff.1 hnode).1
  obtain ⟨site, hsite, rfl⟩ := List.mem_map.1 (hwf.exprIds.mem_iff.2 hid)
  obtain ⟨e, he, hlabel⟩ := List.mem_flatMap.1 hsite
  obtain ⟨node', hnode'⟩ := Tree.Expr.node_of_mem_labels e (hwf.held he) hlabel
  rw [hnode] at hnode'
  cases hnode'
  exact ⟨site, hsite, rfl, rfl⟩

/-- What the nodes that use a name are met as. -/
theorem mem_usesOf_of_node (hwf : p.WellFormed) {id : ExprId} {node : Node.Expr} {pos : Pos}
    {u : Event} (hnode : p.nodes.exprs[id]? = some (node, pos))
    (hu : node.useAt? ⟨id, pos⟩ = some u) : u ∈ usesOf p.visits := by
  obtain ⟨⟨_, _⟩, hsite, rfl, rfl⟩ := exists_label hwf hnode
  exact (mem_usesOf_iff hwf).2 ⟨_, hsite, node, hnode, hu⟩

/-- No two uses of names are at the same node. -/
theorem nodup_sites (hwf : p.WellFormed) :
    (((usesOf p.visits).filterMap Event.site?).map Site.id).Nodup := by
  rw [usesOf_visits]
  exact hwf.nodup_exprIds.sublist ((Tree.Expr.sites_sublist_flatMap_labels _).map Site.id)

end Program
end PrimeLang
