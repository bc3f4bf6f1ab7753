import PrimeLang.Proofs.AcyclicNodes
import PrimeLang.Proofs.CodeOrigins
import PrimeLang.Proofs.FunctionRegions

/-! # Slots and storage

Code generation hands the next free slot on from statement to statement, whereas storage is added up
over the nodes of a block. For any nodes, with shared ones counted wherever they are referred to, a
visit takes as many slots as its statement has storage (`Nodes.slots_match_storage`). So the space
that a function makes for its locals is the space that they take. -/

namespace PrimeLang
open Action

theorem Action.succeeds_of_isOk {ε σ α : Type} {x : ExceptT ε (StateM σ) α} {s : σ}
    (h : (exec x s).1.isOk = true) : Succeeds x s := by
  rcases hx : exec x s with ⟨_ | a, s'⟩
  · rw [hx] at h
    cases h
  · exact ⟨a, s', hx⟩

/-! ## Declarations by nodes -/

namespace Node.Stmt

/-- The variable that a statement declares itself, if any. -/
def declared : Node.Stmt → List VarId
  | decl var _ | loop var _ _ _ _ => [var]
  | ifThen .. | ifElse .. | ret _ | eval _ => []

/-- The statements directly inside a statement, in order. -/
def inner : Node.Stmt → List StmtId
  | ifThen _ body | loop _ _ _ _ body => body
  | ifElse _ body orElse => body ++ orElse
  | decl .. | ret _ | eval _ => []

end Node.Stmt

namespace Nodes

/-- What is declared anywhere under statement nodes, and the words that it takes: for every node its
own variable and then all that is declared inside. -/
inductive Declares (ns : Nodes) : List StmtId → List Tree.Var → Nat → Prop
  | nil : ns.Declares [] [] 0
  | cons {id : StmtId} {node : Node.Stmt} {ids : List StmtId} {own vs ws : List Tree.Var}
    {m n : Nat} : ns.stmts[id]? = some node → node.declared.mapM ns.var? = some own →
    ns.Declares node.inner vs m → ns.Declares ids ws n →
    ns.Declares (id :: ids) (own ++ vs ++ ws) (Tree.words own + m + n)

variable {ns : Nodes} {ids : List StmtId} {vs ws : List Tree.Var} {m n : Nat}

/-- What is declared under nodes, and how many words it takes, is determined by the nodes. -/
theorem Declares.unique (h : ns.Declares ids vs m) (h' : ns.Declares ids ws n) :
    vs = ws ∧ m = n := by
  induction h generalizing ws n with
  | nil =>
    cases h'
    exact ⟨rfl, rfl⟩
  | cons hnode hown _ _ ihinner ihrest =>
    cases h' with
    | cons hnode' hown' hinner hrest =>
      cases hnode.symm.trans hnode'
      cases hown.symm.trans hown'
      obtain ⟨rfl, rfl⟩ := ihinner hinner
      obtain ⟨rfl, rfl⟩ := ihrest hrest
      exact ⟨rfl, rfl⟩

/-- Variables that are looked up are in the table. -/
theorem var?_of_mem_mapM {vars : List VarId} (h : vars.mapM ns.var? = some vs) {v : Tree.Var}
    (hv : v ∈ vs) : ns.var? v.id = some v := by
  induction vars generalizing vs with
  | nil =>
    cases h
    cases hv
  | cons id vars ih =>
    rw [List.mapM_cons] at h
    obtain ⟨w, hw, h⟩ := Option.bind_eq_some_iff.1 h
    obtain ⟨ws, hws, h⟩ := Option.bind_eq_some_iff.1 h
    cases h
    rcases List.mem_cons.1 hv with rfl | hv
    · rwa [id_of_var? hw]
    · exact ih hws hv

theorem Declares.var? (h : ns.Declares ids vs n) {v : Tree.Var} (hv : v ∈ vs) :
    ns.var? v.id = some v := by
  induction h with
  | nil => cases hv
  | cons _ hown _ _ ihinner ihrest =>
    simp only [List.mem_append] at hv
    rcases hv with (hv | hv) | hv
    · exact var?_of_mem_mapM hown hv
    · exact ihinner hv
    · exact ihrest hv

/-- The tree under a statement node, by the variable and the statements that the node refers to. -/
theorem exists_inner {id : StmtId} {s : Tree.Stmt} (h : ns.stmtWithin? (n + 1) id = some s) :
    ∃ node own ss, ns.stmts[id]? = some node ∧ node.declared.mapM ns.var? = some own ∧
      node.inner.mapM (ns.stmtWithin? n) = some ss ∧ s.decls = own ++ Stmt.declsOf ss := by
  simp only [stmtWithin?, Option.bind_eq_bind, Option.bind_eq_some_iff] at h
  obtain ⟨node, hnode, h⟩ := h
  cases node with
  | decl var init =>
    simp only [Option.bind_eq_some_iff] at h
    obtain ⟨v, hv, e, -, h⟩ := h
    cases h
    exact ⟨_, [v], [], hnode, by simp [Node.Stmt.declared, hv], rfl, rfl⟩
  | ifThen cond body =>
    simp only [Option.bind_eq_some_iff] at h
    obtain ⟨e, -, ss, hss, h⟩ := h
    cases h
    exact ⟨_, [], ss, hnode, rfl, hss, rfl⟩
  | ifElse cond body orElse =>
    simp only [Option.bind_eq_some_iff] at h
    obtain ⟨e, -, ss, hss, ss', hss', h⟩ := h
    cases h
    refine ⟨_, [], ss ++ ss', hnode, rfl, ?_, (Code.declsOf_append ss ss').symm⟩
    simp [Node.Stmt.inner, List.mapM_append, hss, hss']
  | loop var init cond step body =>
    simp only [Option.bind_eq_some_iff] at h
    obtain ⟨v, hv, e, -, e', -, e'', -, ss, hss, h⟩ := h
    cases h
    exact ⟨_, [v], ss, hnode, by simp [Node.Stmt.declared, hv], hss, rfl⟩
  | ret value =>
    cases value with
    | none =>
      cases h
      exact ⟨_, [], [], hnode, rfl, rfl, rfl⟩
    | some value =>
      simp only [Option.bind_eq_some_iff] at h
      obtain ⟨e, -, h⟩ := h
      cases h
      exact ⟨_, [], [], hnode, rfl, rfl, rfl⟩
  | eval e =>
    simp only [Option.bind_eq_some_iff] at h
    obtain ⟨e, -, h⟩ := h
    cases h
    exact ⟨_, [], [], hnode, rfl, rfl, rfl⟩

theorem declares_of_mapM {ss : List Tree.Stmt} (h : ids.mapM (ns.stmtWithin? n) = some ss) :
    ns.Declares ids (Stmt.declsOf ss) (Tree.words (Stmt.declsOf ss)) := by
  -- inner statements have a smaller bound, later ones are in a shorter list
  induction n generalizing ids ss with
  | zero =>
    cases ids with
    | nil =>
      cases h
      exact .nil
    | cons id ids => cases h
  | succ n ih =>
    induction ids generalizing ss with
    | nil =>
      cases h
      exact .nil
    | cons id ids ihids =>
      rw [List.mapM_cons] at h
      obtain ⟨s, hs, h⟩ := Option.bind_eq_some_iff.1 h
      obtain ⟨ss, hss, h⟩ := Option.bind_eq_some_iff.1 h
      cases h
      obtain ⟨node, own, inner, hnode, hown, hinner, hdecls⟩ := exists_inner hs
      rw [Stmt.declsOf, hdecls, Tree.words_append, Tree.words_append]
      exact .cons hnode hown (ih hinner) (ihids hss)

/-- Storage is what the declared variables take, and the trees under the nodes declare no others. -/
theorem declares_of_block? {ss : List Tree.Stmt} (h : ns.block? ids = some ss) :
    ns.Declares ids (Stmt.declsOf ss) (Tree.storage ss) := declares_of_mapM h

end Nodes

/-! ## Places -/

/-- The table `t'` is `t` with places for the variables `vs` in the words from `slot` on. -/
structure Table.Allots (t t' : Table Address) (vs : List Tree.Var) (slot : Address) (words : Nat) :
    Prop where
  inside : ∀ v ∈ vs, ∃ k : Nat, k + v.ty.size ≤ words ∧ t'.get? v.id = some (slot.offset k)
  others : ∀ id, id ∉ vs.map (·.id) → t'.get? id = t.get? id

/-- A variable that is declared several times has the last of its places. -/
theorem exists_get?_placements (t : Table Address) {vs : List Tree.Var} (slot : Address)
    {id : VarId} (h : id ∈ vs.map (·.id)) : ∃ v ∈ vs, v.id = id ∧ ∃ k : Nat,
      k + v.ty.size ≤ Tree.words vs ∧
        (t.insertAll (placements vs slot)).get? id = some (slot.offset k) := by
  induction vs generalizing t slot with
  | nil => cases h
  | cons v vs ih =>
    have hcons : t.insertAll (placements (v :: vs) slot) =
        (t.insert v.id slot).insertAll (placements vs (slot.offset v.ty.size)) := rfl
    rw [hcons, Tree.words_cons]
    by_cases hvs : id ∈ vs.map (·.id)
    · obtain ⟨w, hw, rfl, k, hk, hplace⟩ := ih (t.insert v.id slot) (slot.offset v.ty.size) hvs
      refine ⟨w, List.mem_cons_of_mem _ hw, rfl, v.ty.size + k, by omega, ?_⟩
      rw [hplace, Address.offset_offset, Int.natCast_add]
    · have hid : id = v.id := (List.mem_cons.1 h).resolve_right hvs
      refine ⟨v, List.mem_cons_self, hid.symm, 0, by omega, ?_⟩
      rw [Table.get?_insertAll_of_not_mem (by rwa [map_fst_placements]), Table.get?_insert,
        if_pos hid, Int.natCast_zero, Address.offset_zero]

theorem allots_placements (t : Table Address) {vs : List Tree.Var} (slot : Address)
    (hvs : ∀ v ∈ vs, ∀ w ∈ vs, v.id = w.id → v = w) :
    t.Allots (t.insertAll (placements vs slot)) vs slot (Tree.words vs) where
  inside v hv := by
    obtain ⟨w, hw, hid, hplace⟩ := exists_get?_placements t slot (List.mem_map_of_mem hv)
    cases hvs w hw v hv hid
    exact hplace
  others id hid := Table.get?_insertAll_of_not_mem (by rwa [map_fst_placements])

/-- What a visit of a statement does beside adding code: it gives the variables `vs` places in the
words from `slot` to `slot'`, and nothing else. -/
structure Generator.Threads (g g' : Generator) (slot slot' : Address) (vs : List Tree.Var)
    (words : Nat) : Prop where
  next : slot' = slot.offset words
  level : g'.level = g.level
  params : g'.params = g.params
  funcs : g'.layout.funcs = g.layout.funcs
  vars : g.layout.vars.Allots g'.layout.vars vs slot words

namespace Nodes
variable {ns : Nodes}

/-- A number stands for one variable. -/
theorem eq_of_var? {v w : Tree.Var} (hv : ns.var? v.id = some v) (hw : ns.var? w.id = some w)
    (hid : v.id = w.id) : v = w := by
  rw [hid] at hv
  exact Option.some.inj (hv.symm.trans hw)

/-! ## Visits -/

section
variable {id : StmtId} {s : Tree.Stmt} (hs : ns.stmt? id = some s)
include hs

theorem block?_singleton : ns.block? [id] = some [s] := by
  rw [block?, List.mapM_cons, hs]
  rfl

theorem storage?_singleton : ns.storage? [id] = some (Tree.words s.decls) := by
  rw [storage?, block?_singleton hs, Option.map_some, ← List.append_nil s.decls]
  rfl

theorem declares_stmt : ns.Declares [id] s.decls (Tree.words s.decls) := by
  rw [← List.append_nil s.decls]
  exact declares_of_block? (block?_singleton hs)

theorem threads_stmt (R : Resolution) {g g' : Generator} {slot slot' : Address}
    (h : exec (Generate.stmt ⟨ns, R⟩ s slot) g = (.ok slot', g')) :
    g.Threads g' slot slot' s.decls (Tree.words s.decls) := by
  obtain ⟨rfl, hg'⟩ := Generate.generates_stmt ⟨ns, R⟩ default s h
  refine ⟨rfl, hg'.level, hg'.params, hg'.funcs, ?_⟩
  rw [hg'.vars]
  exact allots_placements _ slot fun v hv w hw =>
    eq_of_var? ((declares_stmt hs).var? hv) ((declares_stmt hs).var? hw)

end

/-- The variables of a function are in the table. -/
theorem var?_of_func? {id : FuncId} {f : Tree.Func} (h : ns.func? id = some f) :
    ∃ node, ns.funcs[id]? = some node ∧ ns.block? node.body = some f.body ∧
      ∀ v ∈ f.vars, ns.var? v.id = some v := by
  obtain ⟨node, hnode, hparams, hbody, -, -, -⟩ := exists_of_func? h
  refine ⟨node, hnode, hbody, fun v hv => ?_⟩
  rcases List.mem_append.1 hv with hv | hv
  · exact var?_of_mem_mapM hparams hv
  · exact (declares_of_block? hbody).var? hv

/-- In nodes without cycles there is a tree under every node. Whatever names stand for and wherever
code generation stands, a visit of a statement that succeeds takes as many words from its slot on as
are declared under the node, which is the storage for it. Beside adding code it only gives places in
these words to the variables declared there. A visit of a function that succeeds ends in the frame
and at the level where it started, with the variables of the function in the words for its
parameters and its locals. -/
theorem slots_match_storage (ns : Nodes) (R : Resolution) :
    (ns.Acyclic → (∀ id < ns.stmts.size, ∃ s, ns.stmt? id = some s) ∧
      ∀ id < ns.funcs.size, ∃ f, ns.func? id = some f) ∧
    (∀ id s, ns.stmt? id = some s → ∃ words, ns.storage? [id] = some words ∧
      (∀ vs n, ns.Declares [id] vs n ↔ vs = s.decls ∧ n = words) ∧
      ∀ g g' slot slot', exec (Generate.stmt ⟨ns, R⟩ s slot) g = (.ok slot', g') →
        g.Threads g' slot slot' s.decls words) ∧
    ∀ id f, ns.func? id = some f → ∃ node words, ns.funcs[id]? = some node ∧
      ns.storage? node.body = some words ∧
      ∀ g g' frame frame', exec (Generate.func ⟨ns, R⟩ f frame) g = (.ok frame', g') →
        frame' = frame ∧ g'.level = g.level ∧
        g.layout.vars.Allots g'.layout.vars f.vars frame.nested (Tree.words f.params + words) := by
  refine ⟨fun h => ⟨fun _ => h.exists_stmt?, fun _ => h.exists_func?⟩, fun id s hs => ?_,
    fun id f hf => ?_⟩
  · refine ⟨_, storage?_singleton hs, fun vs n => ⟨fun h => h.unique (declares_stmt hs), ?_⟩,
      fun _ _ _ _ => threads_stmt hs R⟩
    rintro ⟨rfl, rfl⟩
    exact declares_stmt hs
  · obtain ⟨node, hnode, hbody, hvars⟩ := var?_of_func? hf
    refine ⟨node, Tree.storage f.body, hnode, by rw [storage?, hbody, Option.map_some], ?_⟩
    intro g g' frame frame' h
    obtain ⟨rfl, hg'⟩ := Generate.generates_func ⟨ns, R⟩ default h
    have hwords : Tree.words f.params + Tree.storage f.body = Tree.words f.vars :=
      (Tree.words_append f.params (Stmt.declsOf f.body)).symm
    refine ⟨rfl, hg'.level, ?_⟩
    rw [hg'.vars, hwords]
    exact allots_placements _ _ fun v hv w hw => eq_of_var? (hvars v hv) (hvars w hw)

/-- A function with one parameter twice and one statement twice. Both arms of the statement hold the
declaration of `a` and a loop, which holds it twice itself. The variable `b` of the loop is read
with two indices, also before the loop. -/
def sharedLoop : Nodes where
  funcs := #[⟨"f", [0, 0], none, [2, 2], ⟨0, 0, 0⟩⟩]
  vars := #[⟨.int, "a", ⟨1, 0, 1⟩⟩, ⟨.array, "b", ⟨2, 0, 2⟩⟩, ⟨.int, "c", ⟨3, 0, 3⟩⟩]
  stmts := #[.decl 0 0, .loop 1 0 1 2 [0, 0], .ifElse 1 [0, 1] [1, 0]]
  exprs := #[(.literal (-1), ⟨4, 0, 4⟩), (.ident "b" [0, 0], ⟨5, 0, 5⟩), (.assign 1 0, ⟨6, 0, 6⟩)]

/-- Code generation at a level out of reach of the outer ones, with places for `b` and `c`. -/
def deepGenerator : Generator where
  segment := .empty
  layout := ⟨Table.insert ∅ 0 ⟨0, 1⟩, (Table.insert ∅ 1 ⟨1, 0⟩).insert 2 ⟨4, 3⟩⟩
  level := 9
  params := -2

/-- The array of `sharedLoop` is the only name. -/
def sharedLoopNames : Resolution := ⟨∅, Table.insert ∅ 1 1⟩

theorem slots_match_storage_sharedLoop :
    sharedLoop.Acyclic ∧
    (∃ s g, sharedLoop.stmt? 2 = some s ∧
      exec (Generate.stmt ⟨sharedLoop, sharedLoopNames⟩ s ⟨3, -5⟩) deepGenerator =
        (.ok ⟨3, 3⟩, g) ∧
      g.level = 9 ∧ g.params = -2 ∧ g.layout.funcs.get? 0 = some ⟨0, 1⟩ ∧
      g.layout.vars.get? 2 = some ⟨4, 3⟩ ∧
      ∃ k : Nat, k < 8 ∧ g.layout.vars.get? 1 = some ⟨3, -5 + k⟩) ∧
    ∃ f g, sharedLoop.func? 0 = some f ∧
      exec (Generate.func ⟨sharedLoop, sharedLoopNames⟩ f ⟨2, 11⟩) deepGenerator =
        (.ok ⟨2, 11⟩, g) ∧ g.level = 9 := by
  have hacyclic : sharedLoop.Acyclic := by
    refine .of_lt (by decide) ?_ ?_
    · rintro (_ | _ | _ | id) child ⟨e, pos, he, hc⟩ <;> simp [sharedLoop] at he <;>
        obtain ⟨rfl, -⟩ := he <;> simp [Node.Expr.refs] at hc <;>
        rcases hc with rfl | rfl <;> decide
    · rintro (_ | _ | _ | id) child ⟨s, hs, hc⟩ <;> simp [sharedLoop] at hs <;> subst hs <;>
        simp [Node.Stmt.refs] at hc <;> rcases hc with rfl | rfl | rfl | rfl <;> decide
  obtain ⟨htrees, hstmts, hfuncs⟩ := slots_match_storage sharedLoop sharedLoopNames
  refine ⟨hacyclic, ?_, ?_⟩
  · obtain ⟨s, hs⟩ := (htrees hacyclic).1 2 (by decide)
    have heval : ((sharedLoop.stmt? 2).any fun s =>
        (exec (Generate.stmt ⟨sharedLoop, sharedLoopNames⟩ s ⟨3, -5⟩) deepGenerator).1.isOk &&
        s.decls.map (·.id) == [0, 1, 0, 0, 1, 0, 0, 0]) = true := by decide +kernel
    rw [hs, Option.any_some, Bool.and_eq_true] at heval
    obtain ⟨slot, g, hrun⟩ := succeeds_of_isOk heval.1
    have hids : s.decls.map (·.id) = [0, 1, 0, 0, 1, 0, 0, 0] := eq_of_beq heval.2
    obtain ⟨words, hwords, -, hthreads⟩ := hstmts 2 s hs
    cases hwords.symm.trans (by decide +kernel : sharedLoop.storage? [2] = some 8)
    obtain ⟨rfl, hlevel, hparams, hlayout, hvars⟩ := hthreads _ _ _ _ hrun
    obtain ⟨v, hv, hid⟩ : ∃ v ∈ s.decls, v.id = 1 := List.mem_map.1 (by rw [hids]; decide)
    obtain ⟨k, hk, hplace⟩ := hvars.inside v hv
    have hsize : 0 < v.ty.size := by cases v.ty <;> decide
    rw [hid] at hplace
    refine ⟨s, g, hs, hrun, hlevel, hparams, by rw [hlayout]; rfl, ?_, k, by omega, hplace⟩
    rw [hvars.others 2 (by rw [hids]; decide)]
    rfl
  · obtain ⟨f, hf⟩ := (htrees hacyclic).2 0 (by decide)
    have heval : ((sharedLoop.func? 0).any fun f =>
        (exec (Generate.func ⟨sharedLoop, sharedLoopNames⟩ f ⟨2, 11⟩) deepGenerator).1.isOk) =
          true := by decide +kernel
    rw [hf, Option.any_some] at heval
    obtain ⟨frame, g, hrun⟩ := succeeds_of_isOk heval
    obtain ⟨_, _, -, -, hframe⟩ := hfuncs 0 f hf
    obtain ⟨rfl, hlevel, -⟩ := hframe _ _ _ _ hrun
    exact ⟨f, g, hf, hrun, hlevel⟩

end Nodes
end PrimeLang
