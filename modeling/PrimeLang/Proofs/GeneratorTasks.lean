import PrimeLang.Proofs.StackLevels

/-! # Tasks of code generation

Code generation takes up the expressions and statements of a program one after the other, each in
the state that the ones before it have left. These are its tasks. On a run that succeeds there is
one for each expression and statement of the program in order, every task succeeds, and the finished
object code holds the code of the task from where it started. -/

namespace PrimeLang
open Machine Action

/-- Something that code is generated for, and the state that it starts in. -/
inductive Task where
  | expr (use : Use) (e : Tree.Expr Site) (g : Generator)
  | stmt (s : Tree.Stmt) (slot : Address) (g : Generator)

namespace Generate

/-- The tasks that follow an action, if it succeeds. -/
def after {α : Type} (x : Generate α) (g : Generator) (tasks : α → Generator → List Task) :
    List Task :=
  match exec x g with
  | (.ok a, g') => tasks a g'
  | (.error _, _) => []

mutual

/-- The tasks of an expression, itself among them. -/
def exprTasks (cx : Context) (use : Use) : Tree.Expr Site → Generator → List Task
  | e@(.assign _ (.ident site name []) value), g =>
    .expr use e g :: after (do (← get).variableOf cx site name) g fun _ g =>
      exprTasks cx .value value g
  | e@(.assign _ (.ident site name (index :: indices)) value), g =>
    .expr use e g :: after (do (← get).variableOf cx site name) g fun (_, a) g =>
      exprTasks cx .value value g ++
        after (do
          expr cx .value value
          if use = .value then emit .load integerSize .st (-integerSize)
          load addressSize a) g fun _ g => elementTasks cx (index :: indices) g
  | e@(.assign _ _ _), g => [.expr use e g]
  | e@(.binary _ _ lhs rhs), g =>
    .expr use e g ::
      (exprTasks cx .value lhs g ++
        after (expr cx .value lhs) g fun _ g => exprTasks cx .value rhs g)
  | e@(.ident site name indices), g =>
    .expr use e g :: after (do (← get).variableOf cx site name) g fun (_, a) g =>
      match use, indices with
      | .effect, indices => exprsTasks cx .effect indices g
      | .value, [] => []
      | .value, index :: indices =>
        after (load addressSize a) g fun _ g => elementTasks cx (index :: indices) g
  | e@(.literal _ _), g => [.expr use e g]
  | e@(.call site name args), g =>
    .expr use e g :: after (do (← get).calleeOf cx site name) g fun _ g =>
      exprsTasks cx .value args g

/-- The tasks of expressions in order. -/
def exprsTasks (cx : Context) (use : Use) : List (Tree.Expr Site) → Generator → List Task
  | [], _ => []
  | e :: es, g =>
    exprTasks cx use e g ++ after (expr cx use e) g fun _ g => exprsTasks cx use es g

/-- The tasks of indices. -/
def elementTasks (cx : Context) : List (Tree.Expr Site) → Generator → List Task
  | [], _ => []
  | index :: indices, g =>
    exprTasks cx .value index g ++
      after (do
        expr cx .value index
        callRoutine .add) g fun _ g => elementTasks cx indices g

end

/-- The tasks of the first value of a variable. -/
def declareTasks (cx : Context) (v : Tree.Var) (init : Tree.Expr Site) (slot : Address)
    (g : Generator) : List Task :=
  after (param v slot) g fun _ g => exprTasks cx .value init g

mutual

/-- The tasks of a statement, itself among them. -/
def stmtTasks (cx : Context) : Tree.Stmt → Address → Generator → List Task
  | s@(.decl v init), slot, g => .stmt s slot g :: declareTasks cx v init slot g
  | s@(.ifThen cond body), slot, g =>
    .stmt s slot g :: (exprTasks cx .value cond g ++
      after (do
        expr cx .value cond
        jumpIfFalse) g fun _ g => blockTasks cx body slot g)
  | s@(.ifElse cond body orElse), slot, g =>
    .stmt s slot g :: (exprTasks cx .value cond g ++
      after (do
        expr cx .value cond
        jumpIfFalse) g fun exit g =>
          blockTasks cx body slot g ++
            after (do
              let slot ← block cx body slot
              let _ ← emitAt .jump 0 .cb 0
              patchHere exit
              return slot) g fun slot g => blockTasks cx orElse slot g)
  | s@(.loop v init cond step body), slot, g =>
    .stmt s slot g :: (declareTasks cx v init slot g ++
      after (declare cx v init slot) g fun slot g =>
        exprTasks cx .value cond g ++
          after (do
            expr cx .value cond
            jumpIfFalse) g fun _ g =>
              blockTasks cx body slot g ++
                after (block cx body slot) g fun _ g => exprTasks cx .effect step g)
  | s@(.ret none), slot, g => [.stmt s slot g]
  | s@(.ret (some value)), slot, g => .stmt s slot g :: exprTasks cx .value value g
  | s@(.eval e), slot, g => .stmt s slot g :: exprTasks cx .effect e g

/-- The tasks of statements in order. -/
def blockTasks (cx : Context) : List Tree.Stmt → Address → Generator → List Task
  | [], _, _ => []
  | s :: ss, slot, g =>
    stmtTasks cx s slot g ++ after (stmt cx s slot) g fun slot g => blockTasks cx ss slot g

end

/-- What comes before the body of a function. -/
def enter (f : Tree.Func) (frame : Address) : Generate Address := do
  let entry ← here
  modify (Generator.placeFunc f.id ⟨frame.level, entry⟩)
  modify fun g => { g with level := g.level + 1 }
  let slot ← params f.params frame.nested
  modify fun g => { g with params := slot.displacement }
  let locals := Tree.storage f.body
  if 0 < locals then emit .push 0 .cb locals
  return slot

/-- The tasks of functions in order. -/
def funcsTasks (cx : Context) : List Tree.Func → Address → Generator → List Task
  | [], _, _ => []
  | f :: fs, frame, g =>
    (after (enter f frame) g fun slot g => blockTasks cx f.body slot g) ++
      after (func cx f frame) g fun frame g => funcsTasks cx fs frame g

/-- The tasks of a program. -/
def programTasks (cx : Context) (fs : List Tree.Func) : List Task :=
  after (emitAt .jump 0 .cb 0) .initial fun _ g => funcsTasks cx fs .origin g

end Generate

/-- All tasks in generating the code of a program. -/
def Program.tasks (p : Program) (R : Resolution) : List Task :=
  Generate.programTasks ⟨p.nodes, R⟩ p.funcs

namespace Task

/-- The tasks that a task is made of, itself among them. -/
def parts (cx : Context) : Task → List Task
  | expr use e g => Generate.exprTasks cx use e g
  | stmt s slot g => Generate.stmtTasks cx s slot g

/-- The task is a call that has to give a value, of a function without a result. -/
def isVoidCall (cx : Context) : Task → Bool
  | expr use (.call site _ _) _ => use = .value ∧ cx.CallsVoid site
  | _ => false

/-- How many calls in a task have to give a value, of functions without a result. -/
def voidCalls (cx : Context) (t : Task) : Nat := (t.parts cx).countP (isVoidCall cx)

theorem value_of_isVoidCall {cx : Context} {use : Use} {e : Tree.Expr Site} {g : Generator}
    (h : (expr use e g).isVoidCall cx = true) : use = .value := by
  cases e with
  | call site name args => exact (of_decide_eq_true h).1
  | _ => cases h

end Task

/-! ## Items

What is taken up does not depend on the states: it can be read off the program. -/

/-- A task without its state. -/
inductive Item where
  | expr (use : Use) (e : Tree.Expr Site)
  | stmt (s : Tree.Stmt)

def Task.item : Task → Item
  | expr use e _ => .expr use e
  | stmt s _ _ => .stmt s

namespace Code

mutual

/-- An expression and those in it, in the order in which code is generated for them. -/
def exprItems (use : Use) : Tree.Expr Site → List Item
  | e@(.assign _ (.ident _ _ indices) value) =>
    .expr use e :: (exprItems .value value ++ exprsItems .value indices)
  | e@(.assign _ _ _) => [.expr use e]
  | e@(.binary _ _ lhs rhs) => .expr use e :: (exprItems .value lhs ++ exprItems .value rhs)
  | e@(.ident _ _ indices) => .expr use e :: exprsItems use indices
  | e@(.literal _ _) => [.expr use e]
  | e@(.call _ _ args) => .expr use e :: exprsItems .value args

def exprsItems (use : Use) : List (Tree.Expr Site) → List Item
  | [] => []
  | e :: es => exprItems use e ++ exprsItems use es

end

mutual

/-- A statement, and the statements and expressions in it. -/
def stmtItems : Tree.Stmt → List Item
  | s@(.decl _ init) => .stmt s :: exprItems .value init
  | s@(.ifThen cond body) => .stmt s :: (exprItems .value cond ++ blockItems body)
  | s@(.ifElse cond body orElse) =>
    .stmt s :: (exprItems .value cond ++ (blockItems body ++ blockItems orElse))
  | s@(.loop _ init cond step body) =>
    .stmt s :: (exprItems .value init ++
      (exprItems .value cond ++ (blockItems body ++ exprItems .effect step)))
  | s@(.ret none) => [.stmt s]
  | s@(.ret (some value)) => .stmt s :: exprItems .value value
  | s@(.eval e) => .stmt s :: exprItems .effect e

def blockItems : List Tree.Stmt → List Item
  | [] => []
  | s :: ss => stmtItems s ++ blockItems ss

end

end Code

/-! ## Tasks and the object code -/

/-- The task succeeds, and the object code holds its code where it started. -/
def Task.Done (o : Object) (cx : Context) : Task → Prop
  | expr use e g => (∃ g', exec (Generate.expr cx use e) g = (.ok (), g')) ∧
      o.Holds g.segment.next (Code.expr (g.env cx o.layout) use e) ∧
      (g.env cx o.layout).Accountable o e
  | stmt s slot g => (∃ slot' g', exec (Generate.stmt cx s slot) g = (.ok slot', g')) ∧
      o.Holds g.segment.next (Code.stmt (g.env cx o.layout) g.segment.next s) ∧
      ∀ e ∈ s.exprs, (g.env cx o.layout).Accountable o e

/-- Tasks for the given items that are done, `v` of them calls that have to give a value and have no
result. -/
structure Covers (o : Object) (cx : Context) (ts : List Task) (items : List Item) (v : Nat) :
    Prop where
  done : ∀ t ∈ ts, t.Done o cx
  items_eq : ts.map Task.item = items
  count : ts.countP (Task.isVoidCall cx) = v

namespace Covers
variable {o : Object} {cx : Context} {t : Task} {ts ts' : List Task} {items items' : List Item}
  {v v' : Nat}

theorem nil : Covers o cx [] [] 0 := ⟨by simp, rfl, rfl⟩

theorem cons (ht : t.Done o cx) (hts : Covers o cx ts items v)
    (hv : (if t.isVoidCall cx then 1 else 0) + v = v') :
    Covers o cx (t :: ts) (t.item :: items) v' where
  done := List.forall_mem_cons.2 ⟨ht, hts.done⟩
  items_eq := by rw [List.map_cons, hts.items_eq]
  count := by rw [List.countP_cons, hts.count, Nat.add_comm, hv]

theorem append (hts : Covers o cx ts items v) (hts' : Covers o cx ts' items' v') :
    Covers o cx (ts ++ ts') (items ++ items') (v + v') where
  done := List.forall_mem_append.2 ⟨hts.done, hts'.done⟩
  items_eq := by rw [List.map_append, hts.items_eq, hts'.items_eq]
  count := by rw [List.countP_append, hts.count, hts'.count]

end Covers

namespace Generate
variable {cx : Context} {o : Object} {env : Code.Env} {g g' : Generator}

theorem after_eq {α : Type} {x : Generate α} {a : α} (h : exec x g = (.ok a, g'))
    (tasks : α → Generator → List Task) : after x g tasks = tasks a g' := by
  rw [after, h]

theorem func_eq_enter (cx : Context) (f : Tree.Func) (frame : Address) :
    func cx f frame = (do
      let slot ← enter f frame
      let _ ← block cx f.body slot
      if !f.endsInReturn then emit .ret 0 .cb (← get).params
      modify fun g => { g with level := g.level - 1 }
      return frame) := by
  by_cases h : 0 < Tree.storage f.body <;> simp [func, enter, h]

theorem exec_variableOf {site : Site} {name : String} {va : Var × Address}
    (h : g.variableOf cx site name = .ok va) :
    exec (do (← get).variableOf cx site name : Generate (Var × Address)) g = (.ok va, g) := by
  rw [exec_get_bind, exec_lift, h]

theorem exec_calleeOf {site : Site} {name : String} {ra : Option Ty × Address}
    (h : g.calleeOf cx site name = .ok ra) :
    exec (do (← get).calleeOf cx site name : Generate (Option Ty × Address)) g = (.ok ra, g) := by
  rw [exec_get_bind, exec_lift, h]

/-! ### Expressions -/

section
variable (cx : Context) (o : Object)

/-- Where the code of an expression is in the object code, its tasks are done. -/
def CoversExpr (e : Tree.Expr Site) : Prop :=
  ∀ {use : Use} {g g' : Generator} {u : Unit}, exec (expr cx use e) g = (.ok u, g') →
    o.Holds g.segment.next (Code.expr (g.env cx o.layout) use e) → e.AssignsNames →
    (g.env cx o.layout).Counts o e.uses →
    Covers o cx (exprTasks cx use e g) (Code.exprItems use e) (Code.voids cx use e)

/-- The same of expressions in order. -/
def CoversExprs (es : List (Tree.Expr Site)) : Prop :=
  ∀ {use : Use} {g g' : Generator} {u : Unit}, exec (exprs cx use es) g = (.ok u, g') →
    o.Holds g.segment.next (Code.exprs (g.env cx o.layout) use es) →
    Tree.Expr.AssignsNamesAll es → (g.env cx o.layout).Counts o (Tree.Expr.usesAll es) →
    Covers o cx (exprsTasks cx use es g) (Code.exprsItems use es) (Code.voidsAll cx use es)

/-- The same of indices that are added to an address. -/
def CoversElement (es : List (Tree.Expr Site)) : Prop :=
  ∀ {g g' : Generator} {u : Unit}, exec (element cx es) g = (.ok u, g') →
    o.Holds g.segment.next (Code.element (g.env cx o.layout) es) →
    Tree.Expr.AssignsNamesAll es → (g.env cx o.layout).Counts o (Tree.Expr.usesAll es) →
    Covers o cx (elementTasks cx es g) (Code.exprsItems .value es) (Code.voidsAll cx .value es)

end

section
variable {site label : Site} {name : String} {value lhs rhs index e : Tree.Expr Site}
variable {indices args es : List (Tree.Expr Site)}

theorem coversExpr_assign (hvalue : CoversExpr cx o value) :
    CoversExpr cx o (.assign label (.ident site name []) value) := by
  intro use g g' u h hholds hnames hcounts
  have hdone : Task.Done o cx (.expr use (.assign label (.ident site name []) value) g) :=
    ⟨⟨g', h⟩, hholds, hnames, hcounts⟩
  rw [expr, exec_get_bind] at h
  obtain ⟨⟨v, a⟩, hv, h⟩ := exec_lift_bind_ok.1 h
  obtain ⟨_, g₁, hrun, h⟩ := exec_bind_ok.1 h
  rw [Code.expr] at hholds
  obtain ⟨hholds, -⟩ := Object.holds_append_iff.1 hholds
  obtain ⟨hholds, -⟩ := Object.holds_append_iff.1 hholds
  have htasks := hvalue hrun hholds hnames.2.2 (hcounts.mono (List.subset_append_right _ _))
  rw [exprTasks, after_eq (exec_variableOf hv), Code.exprItems, Code.exprsItems, List.append_nil,
    Code.voids, Code.voidsAll]
  exact .cons hdone htasks (Nat.zero_add _)

theorem coversExpr_assignElement (hvalue : CoversExpr cx o value)
    (hindices : CoversElement cx o (index :: indices)) :
    CoversExpr cx o (.assign label (.ident site name (index :: indices)) value) := by
  intro use g g' u h hholds hnames hcounts
  have hdone : Task.Done o cx
      (.expr use (.assign label (.ident site name (index :: indices)) value) g) :=
    ⟨⟨g', h⟩, hholds, hnames, hcounts⟩
  rw [expr, exec_get_bind] at h
  obtain ⟨⟨v, a⟩, hv, h⟩ := exec_lift_bind_ok.1 h
  obtain ⟨_, g₁, hrun, h⟩ := exec_bind_ok.1 h
  obtain ⟨_, g₂, hcopy, h⟩ := exec_if_bind_ok.1 h
  obtain ⟨_, g₃, hload, h⟩ := exec_bind_ok.1 h
  obtain ⟨_, g₄, helement, h⟩ := exec_bind_ok.1 h
  have hg₁ := generates_expr cx o.layout value hrun
  have hg₂ := hg₁.trans (generates_if hcopy fun hcopy => generates_emit hcopy)
  have hg₃ := hg₂.trans
    (generates_loadArrayAt (L := o.layout) ((hg₂.variableOf_eq cx site name).trans hv) hload)
  rw [hg₂.env] at hg₃
  rw [Code.expr] at hholds
  obtain ⟨hholds, -⟩ := Object.holds_append_iff.1 hholds
  obtain ⟨hholds, hrest⟩ := Object.holds_append_iff.1 hholds
  obtain ⟨hholds, -⟩ := Object.holds_append_iff.1 hholds
  obtain ⟨hfirst, -⟩ := Object.holds_append_iff.1 hholds
  have hcounts' : (g.env cx o.layout).Counts o (Tree.Expr.usesAll (index :: indices)) :=
    hcounts.mono fun u hu => List.mem_append_left _ (List.mem_cons_of_mem _ hu)
  rw [← hg₃.next, ← hg₃.env cx] at hrest
  rw [← hg₃.env cx] at hcounts'
  -- the indices are taken up with the value and the array on the stack
  have hbefore : exec (do
      expr cx .value value
      if use = .value then emit .load integerSize .st (-integerSize)
      load addressSize a) g = (.ok (), g₃) :=
    exec_bind_ok.2 ⟨_, g₁, hrun, exec_if_bind_ok.2 ⟨_, g₂, hcopy, hload⟩⟩
  have htasks := hvalue hrun hfirst hnames.2.2 (hcounts.mono (List.subset_append_right _ _))
  have htasks' := hindices helement hrest hnames.2.1 hcounts'
  rw [exprTasks, after_eq (exec_variableOf hv)]
  show Covers o cx (_ :: (_ ++ after _ g _)) _ _
  rw [after_eq hbefore, Code.exprItems, Code.voids]
  exact .cons hdone (htasks.append htasks') (Nat.zero_add _)

theorem coversExpr_of_error {x : Unresolved}
    (he : ∀ use g, exec (expr cx use e) g = (.error x, g)) : CoversExpr cx o e := by
  intro use g g' u h
  rw [he] at h
  cases h

theorem coversExpr_binary (op : BinaryOp) (hlhs : CoversExpr cx o lhs)
    (hrhs : CoversExpr cx o rhs) : CoversExpr cx o (.binary label op lhs rhs) := by
  intro use g g' u h hholds hnames hcounts
  have hdone : Task.Done o cx (.expr use (.binary label op lhs rhs) g) :=
    ⟨⟨g', h⟩, hholds, hnames, hcounts⟩
  rw [expr.eq_def] at h
  obtain ⟨_, g₁, hrun, h⟩ := exec_bind_ok.1 h
  obtain ⟨_, g₂, hrun', h⟩ := exec_bind_ok.1 h
  have hg₁ := generates_expr cx o.layout lhs hrun
  rw [Code.expr] at hholds
  obtain ⟨hholds, -⟩ := Object.holds_append_iff.1 hholds
  obtain ⟨hleft, hright⟩ := Object.holds_append_iff.1 hholds
  rw [← hg₁.next, ← hg₁.env cx] at hright
  have hcounts' := hcounts.mono (List.subset_append_right _ _)
  rw [← hg₁.env cx] at hcounts'
  have htasks := hlhs hrun hleft hnames.1 (hcounts.mono (List.subset_append_left _ _))
  have htasks' := hrhs hrun' hright hnames.2 hcounts'
  rw [exprTasks, after_eq hrun, Code.exprItems, Code.voids]
  exact .cons hdone (htasks.append htasks') (Nat.zero_add _)

theorem coversExpr_ident (heffects : CoversExprs cx o indices)
    (helement : CoversElement cx o indices) : CoversExpr cx o (.ident site name indices) := by
  intro use g g' u h hholds hnames hcounts
  have hdone : Task.Done o cx (.expr use (.ident site name indices) g) :=
    ⟨⟨g', h⟩, hholds, hnames, hcounts⟩
  have hcounts' := hcounts.mono (List.subset_cons_self _ _)
  cases use with
  | effect =>
    rw [expr, exec_get_bind] at h
    obtain ⟨⟨v, a⟩, hv, h⟩ := exec_lift_bind_ok.1 h
    rw [Code.expr] at hholds
    rw [exprTasks, after_eq (exec_variableOf hv), Code.exprItems, Code.voids]
    exact .cons hdone (heffects h hholds hnames hcounts') (Nat.zero_add _)
  | value =>
    rw [expr.eq_def, exec_get_bind] at h
    obtain ⟨⟨v, a⟩, hv, h⟩ := exec_lift_bind_ok.1 h
    cases indices with
    | nil =>
      rw [exprTasks, after_eq (exec_variableOf hv), Code.exprItems, Code.exprsItems, Code.voids,
        Code.voidsAll]
      exact .cons hdone .nil (Nat.zero_add _)
    | cons index indices =>
      obtain ⟨_, g₁, hload, h⟩ := exec_bind_ok.1 h
      obtain ⟨_, g₂, hrun, h⟩ := exec_bind_ok.1 h
      have hg₁ := generates_loadArrayAt (L := o.layout) hv hload
      rw [Code.expr] at hholds
      obtain ⟨hholds, -⟩ := Object.holds_append_iff.1 hholds
      obtain ⟨-, hholds⟩ := Object.holds_append_iff.1 hholds
      rw [← hg₁.next, ← hg₁.env cx] at hholds
      rw [← hg₁.env cx] at hcounts'
      have htasks := helement hrun hholds hnames hcounts'
      rw [exprTasks, after_eq (exec_variableOf hv)]
      show Covers o cx (_ :: after _ g _) _ _
      rw [after_eq hload, Code.exprItems, Code.voids]
      exact .cons hdone htasks (Nat.zero_add _)

theorem coversExpr_literal (n : Int32) : CoversExpr cx o (.literal label n) := by
  intro use g g' u h hholds hnames hcounts
  rw [exprTasks, Code.exprItems, Code.voids]
  exact .cons ⟨⟨g', h⟩, hholds, hnames, hcounts⟩ .nil rfl

theorem coversExpr_call (hargs : CoversExprs cx o args) :
    CoversExpr cx o (.call site name args) := by
  intro use g g' u h hholds hnames hcounts
  have hdone : Task.Done o cx (.expr use (.call site name args) g) :=
    ⟨⟨g', h⟩, hholds, hnames, hcounts⟩
  rw [expr, exec_get_bind] at h
  obtain ⟨⟨ret, a⟩, hf, h⟩ := exec_lift_bind_ok.1 h
  obtain ⟨_, g₁, hrun, h⟩ := exec_bind_ok.1 h
  rw [Code.expr] at hholds
  obtain ⟨hholds, -⟩ := Object.holds_append_iff.1 hholds
  obtain ⟨hholds, -⟩ := Object.holds_append_iff.1 hholds
  have htasks := hargs hrun hholds hnames (hcounts.mono (List.subset_cons_self _ _))
  rw [exprTasks, after_eq (exec_calleeOf hf), Code.exprItems, Code.voids]
  exact .cons hdone htasks (by simp [Task.isVoidCall])

theorem coversExprs_cons (he : CoversExpr cx o e) (hes : CoversExprs cx o es) :
    CoversExprs cx o (e :: es) := by
  intro use g g' u h hholds hnames hcounts
  rw [exprs] at h
  obtain ⟨_, g₁, hrun, h⟩ := exec_bind_ok.1 h
  have hg₁ := generates_expr cx o.layout e hrun
  rw [Code.exprs] at hholds
  obtain ⟨hfirst, hrest⟩ := Object.holds_append_iff.1 hholds
  have hcounts' := hcounts.mono (List.subset_append_right _ _)
  rw [← hg₁.next, ← hg₁.env cx] at hrest
  rw [← hg₁.env cx] at hcounts'
  have htasks := he hrun hfirst hnames.1 (hcounts.mono (List.subset_append_left _ _))
  rw [exprsTasks, after_eq hrun, Code.exprsItems, Code.voidsAll]
  exact htasks.append (hes h hrest hnames.2 hcounts')

theorem coversElement_cons (he : CoversExpr cx o e) (hes : CoversElement cx o es) :
    CoversElement cx o (e :: es) := by
  intro g g' u h hholds hnames hcounts
  rw [element] at h
  obtain ⟨_, g₁, hrun, h⟩ := exec_bind_ok.1 h
  obtain ⟨_, g₂, hadd, h⟩ := exec_bind_ok.1 h
  have hg₂ := (generates_expr cx o.layout e hrun).trans (generates_callRoutine hadd)
  rw [Code.element] at hholds
  obtain ⟨hfirst, hrest⟩ := Object.holds_append_iff.1 hholds
  obtain ⟨hfirst, -⟩ := Object.holds_append_iff.1 hfirst
  have hcounts' := hcounts.mono (List.subset_append_right _ _)
  rw [← hg₂.next, ← hg₂.env cx] at hrest
  rw [← hg₂.env cx] at hcounts'
  have htasks := he hrun hfirst hnames.1 (hcounts.mono (List.subset_append_left _ _))
  rw [elementTasks, after_eq (exec_bind_ok.2 ⟨_, g₁, hrun, hadd⟩), Code.exprsItems, Code.voidsAll]
  exact htasks.append (hes h hrest hnames.2 hcounts')

end

mutual

theorem covers_expr (cx : Context) (o : Object) : ∀ e : Tree.Expr Site, CoversExpr cx o e
  | .assign _ (.ident _ _ []) value => coversExpr_assign (covers_expr cx o value)
  | .assign _ (.ident _ _ (index :: indices)) value =>
    coversExpr_assignElement (covers_expr cx o value) (covers_element cx o (index :: indices))
  | .assign _ (.assign ..) _ => coversExpr_of_error fun _ _ => rfl
  | .assign _ (.binary ..) _ => coversExpr_of_error fun _ _ => rfl
  | .assign _ (.literal ..) _ => coversExpr_of_error fun _ _ => rfl
  | .assign _ (.call ..) _ => coversExpr_of_error fun _ _ => rfl
  | .binary _ op lhs rhs => coversExpr_binary op (covers_expr cx o lhs) (covers_expr cx o rhs)
  | .ident _ _ indices =>
    coversExpr_ident (covers_exprs cx o indices) (covers_element cx o indices)
  | .literal _ n => coversExpr_literal n
  | .call _ _ args => coversExpr_call (covers_exprs cx o args)

theorem covers_exprs (cx : Context) (o : Object) :
    ∀ es : List (Tree.Expr Site), CoversExprs cx o es
  | [] => fun _ _ _ _ => .nil
  | e :: es => coversExprs_cons (covers_expr cx o e) (covers_exprs cx o es)

theorem covers_element (cx : Context) (o : Object) :
    ∀ es : List (Tree.Expr Site), CoversElement cx o es
  | [] => fun _ _ _ _ => .nil
  | e :: es => coversElement_cons (covers_expr cx o e) (covers_element cx o es)

end

/-! ### Statements -/

theorem covers_declare {v : Tree.Var} {init : Tree.Expr Site} {slot slot' : Address}
    (h : exec (declare cx v init slot) g = (.ok slot', g'))
    (hholds : o.Holds g.segment.next (Code.declare (g.env cx o.layout) v init))
    (haccount : (g.env cx o.layout).Accountable o init) :
    Covers o cx (declareTasks cx v init slot g) (Code.exprItems .value init)
      (Code.voids cx .value init) := by
  obtain ⟨_, g₁, hv, h⟩ := exec_bind_ok.1 h
  obtain ⟨_, g₂, hinit, h⟩ := exec_bind_ok.1 h
  obtain ⟨rfl, hg₁⟩ := generates_param (L := o.layout) hv
  obtain ⟨hholds, -⟩ := Object.holds_append_iff.1 hholds
  have hnext : g₁.segment.next = g.segment.next := hg₁.next
  rw [← hg₁.env cx, ← hnext] at hholds
  rw [← hg₁.env cx] at haccount
  rw [declareTasks, after_eq hv]
  exact covers_expr cx o init hinit hholds haccount.names haccount.counts

section
variable (cx : Context) (o : Object)

/-- Where the code of a statement is in the object code, its tasks are done. -/
def CoversStmt (s : Tree.Stmt) : Prop :=
  ∀ {slot slot' : Address} {g g' : Generator}, exec (stmt cx s slot) g = (.ok slot', g') →
    o.Holds g.segment.next (Code.stmt (g.env cx o.layout) g.segment.next s) →
    (∀ e ∈ s.exprs, (g.env cx o.layout).Accountable o e) →
    Covers o cx (stmtTasks cx s slot g) (Code.stmtItems s) (Code.stmtVoids cx s)

/-- The same of statements in order. -/
def CoversBlock (ss : List Tree.Stmt) : Prop :=
  ∀ {slot slot' : Address} {g g' : Generator}, exec (block cx ss slot) g = (.ok slot', g') →
    o.Holds g.segment.next (Code.block (g.env cx o.layout) g.segment.next ss) →
    (∀ e ∈ Stmt.exprsOf ss, (g.env cx o.layout).Accountable o e) →
    Covers o cx (blockTasks cx ss slot g) (Code.blockItems ss) (Code.blockVoids cx ss)

end

section
variable {body orElse ss : List Tree.Stmt} {s : Tree.Stmt}

theorem coversStmt_decl (v : Tree.Var) (init : Tree.Expr Site) :
    CoversStmt cx o (.decl v init) := by
  intro slot slot' g g' h hholds haccount
  have hdone : Task.Done o cx (.stmt (.decl v init) slot g) := ⟨⟨slot', g', h⟩, hholds, haccount⟩
  rw [stmt] at h
  rw [Code.stmt] at hholds
  rw [stmtTasks, Code.stmtItems, Code.stmtVoids]
  exact .cons hdone (covers_declare h hholds (haccount init List.mem_cons_self)) (Nat.zero_add _)

theorem coversStmt_ifThen (cond : Tree.Expr Site) (hbody : CoversBlock cx o body) :
    CoversStmt cx o (.ifThen cond body) := by
  intro slot slot' g g' h hholds haccount
  have hdone : Task.Done o cx (.stmt (.ifThen cond body) slot g) :=
    ⟨⟨slot', g', h⟩, hholds, haccount⟩
  obtain ⟨hc, hb⟩ := List.forall_mem_cons.1 haccount
  rw [stmt] at h
  obtain ⟨_, g₁, hcond, h⟩ := exec_bind_ok.1 h
  obtain ⟨exit, g₂, hexit, h⟩ := exec_bind_ok.1 h
  obtain ⟨_, g₃, hrun, h⟩ := exec_bind_ok.1 h
  have hg₁ := generates_expr cx o.layout cond hcond
  obtain ⟨henv, hnext⟩ := start_of_jumpIfFalse hg₁ hexit cx
  rw [Code.stmt] at hholds
  obtain ⟨hholdsc, -, hholdsb⟩ := Code.holds_guarded hholds
  rw [← hnext, ← henv] at hholdsb
  have htasks := covers_expr cx o cond hcond hholdsc hc.names hc.counts
  have htasks' := hbody hrun hholdsb (henv ▸ hb)
  rw [stmtTasks, after_eq (exec_bind_ok.2 ⟨_, g₁, hcond, hexit⟩), Code.stmtItems, Code.stmtVoids]
  exact .cons hdone (htasks.append htasks') (Nat.zero_add _)

theorem coversStmt_ifElse (cond : Tree.Expr Site) (hbody : CoversBlock cx o body)
    (helse : CoversBlock cx o orElse) : CoversStmt cx o (.ifElse cond body orElse) := by
  intro slot slot' g g' h hholds haccount
  have hdone : Task.Done o cx (.stmt (.ifElse cond body orElse) slot g) :=
    ⟨⟨slot', g', h⟩, hholds, haccount⟩
  obtain ⟨hc, haccount⟩ := List.forall_mem_cons.1 haccount
  obtain ⟨hb, he⟩ := List.forall_mem_append.1 haccount
  rw [stmt] at h
  obtain ⟨_, g₁, hcond, h⟩ := exec_bind_ok.1 h
  obtain ⟨exit, g₂, hexit, h⟩ := exec_bind_ok.1 h
  obtain ⟨slot₁, g₃, hrun, h⟩ := exec_bind_ok.1 h
  obtain ⟨skip, g₄, hskip, h⟩ := exec_bind_ok.1 h
  obtain ⟨_, g₅, hpatch, h⟩ := exec_bind_ok.1 h
  obtain ⟨_, g₆, hrun', h⟩ := exec_bind_ok.1 h
  have hg₁ := generates_expr cx o.layout cond hcond
  obtain ⟨henv, hnext⟩ := start_of_jumpIfFalse hg₁ hexit cx
  obtain ⟨-, hg₃⟩ := generates_block cx o.layout body hrun
  rw [henv, hnext] at hg₃
  obtain ⟨henv', hnext'⟩ := start_of_skip hg₁ hexit hg₃ hskip hpatch cx
  rw [Code.stmt] at hholds
  obtain ⟨hfirst, hsecond⟩ := Object.holds_append_iff.1 hholds
  rw [Code.length_guarded, List.length_append, List.length_singleton,
    ← Nat.add_assoc g.segment.next (_ + 1), ← Nat.add_assoc g.segment.next _ 1, ← hnext',
    ← henv'] at hsecond
  obtain ⟨hholdsc, -, hholdsb⟩ := Code.holds_guarded hfirst
  obtain ⟨hholdsb, -⟩ := Object.holds_append_iff.1 hholdsb
  rw [← hnext, ← henv] at hholdsb
  have hbefore : exec (do
      let slot ← block cx body slot
      let _ ← emitAt .jump 0 .cb 0
      patchHere exit
      return slot) g₂ = (.ok slot₁, g₅) :=
    exec_bind_ok.2 ⟨_, g₃, hrun, exec_bind_ok.2 ⟨_, g₄, hskip,
      exec_bind_ok.2 ⟨_, g₅, hpatch, rfl⟩⟩⟩
  have htasks := covers_expr cx o cond hcond hholdsc hc.names hc.counts
  have htasks₁ := hbody hrun hholdsb (henv ▸ hb)
  have htasks₂ := helse hrun' hsecond (henv' ▸ he)
  rw [stmtTasks, after_eq (exec_bind_ok.2 ⟨_, g₁, hcond, hexit⟩), after_eq hbefore,
    Code.stmtItems, Code.stmtVoids, Nat.add_assoc]
  exact .cons hdone (htasks.append (htasks₁.append htasks₂)) (Nat.zero_add _)

theorem coversStmt_loop (v : Tree.Var) (init cond step : Tree.Expr Site)
    (hbody : CoversBlock cx o body) : CoversStmt cx o (.loop v init cond step body) := by
  intro slot slot' g g' h hholds haccount
  have hdone : Task.Done o cx (.stmt (.loop v init cond step body) slot g) :=
    ⟨⟨slot', g', h⟩, hholds, haccount⟩
  obtain ⟨hi, haccount⟩ := List.forall_mem_cons.1 haccount
  obtain ⟨hc, haccount⟩ := List.forall_mem_cons.1 haccount
  obtain ⟨hs, hb⟩ := List.forall_mem_cons.1 haccount
  rw [stmt] at h
  obtain ⟨_, g₁, hdecl, h⟩ := exec_bind_ok.1 h
  obtain ⟨head, _, hhead, h⟩ := exec_bind_ok.1 h
  cases hhead
  obtain ⟨_, g₂, hcond, h⟩ := exec_bind_ok.1 h
  obtain ⟨exit, g₃, hexit, h⟩ := exec_bind_ok.1 h
  obtain ⟨_, g₄, hrun, h⟩ := exec_bind_ok.1 h
  obtain ⟨_, g₅, hstep, h⟩ := exec_bind_ok.1 h
  obtain ⟨-, hg₁⟩ := generates_declare (L := o.layout) cx hdecl
  have hg₂ := generates_expr cx o.layout cond hcond
  obtain ⟨henv, hnext⟩ := start_of_jumpIfFalse hg₂ hexit cx
  obtain ⟨-, hg₄⟩ := generates_block cx o.layout body hrun
  -- the code is the first value, the guard around body and step, and the jump back
  rw [Code.stmt] at hholds
  obtain ⟨hholdsi, hloop⟩ := Object.holds_append_iff.1 hholds
  rw [← hg₁.next, ← hg₁.env cx] at hloop
  obtain ⟨hholdsc, -, hloop⟩ := Code.holds_guarded hloop
  obtain ⟨hloop, -⟩ := Object.holds_append_iff.1 hloop
  rw [← hnext, ← henv] at hloop
  obtain ⟨hholdsb, hholdss⟩ := Object.holds_append_iff.1 hloop
  rw [← hg₄.next, ← hg₄.env cx] at hholdss
  rw [← hg₁.env cx] at hc hs hb
  rw [← henv, ← hg₄.env cx] at hs
  have htasks := covers_declare hdecl hholdsi hi
  have htasks₁ := covers_expr cx o cond hcond hholdsc hc.names hc.counts
  have htasks₂ := hbody hrun hholdsb (henv ▸ hb)
  have htasks₃ := covers_expr cx o step hstep hholdss hs.names hs.counts
  rw [stmtTasks, after_eq hdecl, after_eq (exec_bind_ok.2 ⟨_, g₂, hcond, hexit⟩), after_eq hrun,
    Code.stmtItems, Code.stmtVoids, Nat.add_assoc, Nat.add_assoc]
  exact .cons hdone (htasks.append (htasks₁.append (htasks₂.append htasks₃))) (Nat.zero_add _)

theorem coversStmt_leave : CoversStmt cx o (.ret none) := by
  intro slot slot' g g' h hholds haccount
  rw [stmtTasks, Code.stmtItems, Code.stmtVoids]
  exact .cons ⟨⟨slot', g', h⟩, hholds, haccount⟩ .nil rfl

theorem coversStmt_ret (value : Tree.Expr Site) : CoversStmt cx o (.ret (some value)) := by
  intro slot slot' g g' h hholds haccount
  have hdone : Task.Done o cx (.stmt (.ret (some value)) slot g) :=
    ⟨⟨slot', g', h⟩, hholds, haccount⟩
  have hvalue := haccount value List.mem_cons_self
  rw [stmt] at h
  obtain ⟨_, g₁, hrun, h⟩ := exec_bind_ok.1 h
  rw [Code.stmt] at hholds
  obtain ⟨hholds, -⟩ := Object.holds_append_iff.1 hholds
  have htasks := covers_expr cx o value hrun hholds hvalue.names hvalue.counts
  rw [stmtTasks, Code.stmtItems, Code.stmtVoids]
  exact .cons hdone htasks (Nat.zero_add _)

theorem coversStmt_eval (e : Tree.Expr Site) : CoversStmt cx o (.eval e) := by
  intro slot slot' g g' h hholds haccount
  have hdone : Task.Done o cx (.stmt (.eval e) slot g) := ⟨⟨slot', g', h⟩, hholds, haccount⟩
  have he := haccount e List.mem_cons_self
  rw [stmt_eval] at h
  obtain ⟨_, g₁, hrun, h⟩ := exec_bind_ok.1 h
  rw [Code.stmt] at hholds
  rw [stmtTasks, Code.stmtItems, Code.stmtVoids]
  exact .cons hdone (covers_expr cx o e hrun hholds he.names he.counts) (Nat.zero_add _)

theorem coversBlock_cons (hfirst : CoversStmt cx o s) (hrest : CoversBlock cx o ss) :
    CoversBlock cx o (s :: ss) := by
  intro slot slot' g g' h hholds haccount
  obtain ⟨hs, hss⟩ := List.forall_mem_append.1 haccount
  rw [block] at h
  obtain ⟨_, g₁, hrun, h⟩ := exec_bind_ok.1 h
  obtain ⟨-, hg₁⟩ := generates_stmt cx o.layout s hrun
  rw [Code.block] at hholds
  obtain ⟨hholds, hholds'⟩ := Object.holds_append_iff.1 hholds
  rw [← hg₁.next, ← hg₁.env cx] at hholds'
  rw [blockTasks, after_eq hrun, Code.blockItems, Code.blockVoids]
  exact (hfirst hrun hholds hs).append (hrest h hholds' (hg₁.env cx ▸ hss))

end

mutual

theorem covers_stmt (cx : Context) (o : Object) : ∀ s : Tree.Stmt, CoversStmt cx o s
  | .decl v init => coversStmt_decl v init
  | .ifThen cond body => coversStmt_ifThen cond (covers_block cx o body)
  | .ifElse cond body orElse =>
    coversStmt_ifElse cond (covers_block cx o body) (covers_block cx o orElse)
  | .loop v init cond step body => coversStmt_loop v init cond step (covers_block cx o body)
  | .ret none => coversStmt_leave
  | .ret (some value) => coversStmt_ret value
  | .eval e => coversStmt_eval e

theorem covers_block (cx : Context) (o : Object) : ∀ ss : List Tree.Stmt, CoversBlock cx o ss
  | [] => fun _ _ _ => .nil
  | s :: ss => coversBlock_cons (covers_stmt cx o s) (covers_block cx o ss)

end

/-! ### Functions -/

/-- Where the body of a function starts, and the environment of its code. -/
theorem start_of_enter (cx : Context) (L : Layout) {f : Tree.Func} {frame slot : Address}
    (h : exec (enter f frame) g = (.ok slot, g')) :
    g'.env cx L = Code.bodyEnv cx L g.level f ∧
      g'.segment.next = g.segment.next + (Code.space f.body).length := by
  obtain ⟨_, _, hentry, h⟩ := exec_bind_ok.1 h
  cases hentry
  obtain ⟨_, _, hplace, h⟩ := exec_bind_ok.1 h
  cases hplace
  obtain ⟨_, _, hlevel, h⟩ := exec_bind_ok.1 h
  cases hlevel
  obtain ⟨slot, g₁, hparams, h⟩ := exec_bind_ok.1 h
  obtain ⟨_, _, hset, h⟩ := exec_bind_ok.1 h
  cases hset
  obtain ⟨_, g₂, hpush, h⟩ := exec_if_bind_ok.1 h
  cases h
  obtain ⟨rfl, hg₁⟩ := generates_params (L := L) hparams
  have hg₂ := generates_if hpush fun hpush => generates_emit (L := L) hpush
  have hnext : g₁.segment.next = g.segment.next := hg₁.next
  constructor
  · rw [hg₂.env, Generator.env, hg₁.level]
    exact congrArg (Code.Env.mk cx L (g.level + 1)) (Int.zero_add _)
  · rw [hg₂.next]
    exact congrArg (· + _) hnext

theorem covers_funcs (cx : Context) (o : Object) {fs : List Tree.Func} {frame frame' : Address}
    (hlevel : g.level = 0) (h : exec (funcs cx fs frame) g = (.ok frame', g'))
    (hholds : o.Holds g.segment.next (Code.funcs cx o.layout 0 g.segment.next fs))
    (haccount : ∀ f ∈ fs, ∀ e ∈ Stmt.exprsOf f.body,
      (Code.bodyEnv cx o.layout 0 f).Accountable o e) :
    ∃ v, Covers o cx (funcsTasks cx fs frame g) (fs.flatMap fun f => Code.blockItems f.body) v := by
  induction fs generalizing g frame with
  | nil => exact ⟨0, .nil⟩
  | cons f fs ih =>
    obtain ⟨hf, hfs⟩ := List.forall_mem_cons.1 haccount
    obtain ⟨_, g₁, hrun, h⟩ := exec_bind_ok.1 h
    obtain ⟨-, hg₁⟩ := generates_func cx o.layout hrun
    obtain ⟨hfirst, hrest⟩ := Object.holds_append_iff.1 hholds
    rw [← hlevel, ← hg₁.next, hlevel] at hrest
    obtain ⟨v, hcovers⟩ := ih (hg₁.level.trans hlevel) h hrest hfs
    -- the body of the function is behind the space for its locals
    have hbody := hrun
    rw [func_eq_enter] at hbody
    obtain ⟨slot, g₂, henter, hbody⟩ := exec_bind_ok.1 hbody
    obtain ⟨_, g₃, hbody, -⟩ := exec_bind_ok.1 hbody
    obtain ⟨henv, hnext⟩ := start_of_enter cx o.layout henter
    rw [hlevel] at henv
    obtain ⟨hfirst, -⟩ := Object.holds_append_iff.1 hfirst
    obtain ⟨-, hfirst⟩ := Object.holds_append_iff.1 hfirst
    rw [← hnext, ← henv] at hfirst
    rw [← henv] at hf
    rw [funcsTasks, after_eq henter, after_eq hrun, List.flatMap_cons]
    exact ⟨_, (covers_block cx o f.body hbody hfirst hf).append hcovers⟩

end Generate

namespace Program
variable {p : Program} {R : Resolution} {o : Object}

theorem WellFormed.covers_tasks (hwf : p.WellFormed) (ho : p.generate R = .ok o)
    (hfull : ∀ c, .storeFull c ∉ o.warnings)
    (haccount : ∀ f ∈ p.funcs, ∀ e ∈ Stmt.exprsOf f.body,
      (Code.bodyEnv ⟨p.nodes, R⟩ o.layout 0 f).Accountable o e) :
    ∃ v, Covers o ⟨p.nodes, R⟩ (p.tasks R) (p.funcs.flatMap fun f => Code.blockItems f.body) v := by
  obtain ⟨frame, g, hrun, hobject⟩ := generate_eq_ok.1 ho
  obtain ⟨entry, halt, g₁, g₂, g₃, hentry, hfuncs, -⟩ := Generate.program_cases hrun
  obtain ⟨-, hg₁⟩ := Generate.generates_emitAt (L := o.layout) hentry
  have hnext : g₁.segment.next = 1 := hg₁.next
  have hprogram : o.Holds 0 (Code.program ⟨p.nodes, R⟩ o.layout p.funcs) := by
    intro k q hq
    rw [Nat.zero_add, ← Array.getElem?_toList, (hwf.code_eq ho hfull).1, List.getElem?_map, hq]
    rfl
  obtain ⟨hholds, -⟩ := Object.holds_append_iff.1 (Code.Each.cons_iff.1 hprogram).2
  rw [tasks, Generate.programTasks, Generate.after_eq hentry]
  rw [Nat.zero_add, ← hnext] at hholds
  exact Generate.covers_funcs _ o hg₁.level hfuncs hholds haccount

end Program
end PrimeLang
