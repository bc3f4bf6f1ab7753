import PrimeLang.Proofs.SlotStorage

/-! # The layout of frames

Below the link data of a frame are the parameters of its function, above it the locals. Every
variable of a function has a word of its own there, and the code of the function reaches no
others. -/

namespace PrimeLang
open Machine

/-! ## Displacements in a frame -/

namespace Layout

/-- The displacement of a variable in a frame with that many parameters. -/
def displacement? (L : Layout) (params : Nat) (id : VarId) : Option Int :=
  (L.vars.get? id).map (Generate.frameDisplacement params)

/-- The frame of a function: its parameters and its locals have the slots from the first one on, in
order. As displacements these are the words right below the link data and right above it. -/
structure Frame (L : Layout) (params locals : List VarId) : Prop where
  nodup : (params ++ locals).Nodup
  slots : (params ++ locals).map L.vars.get? =
    (List.range (params ++ locals).length).map fun i => some ⟨1, i⟩
  below : ∀ id ∈ params, ∃ d, L.displacement? params.length id = some d ∧
    -params.length ≤ d ∧ d ≤ -1
  above : ∀ id ∈ locals, ∃ d, L.displacement? params.length id = some d ∧
    linkSize ≤ d ∧ d ≤ linkSize + locals.length - 1
  distinct : ∀ id ∈ params ++ locals, ∀ id' ∈ params ++ locals,
    L.displacement? params.length id = L.displacement? params.length id' → id = id'

variable {L : Layout} {id : VarId} {i : Nat}

theorem displacement?_of_slot (h : L.vars.get? id = some ⟨1, i⟩) (params : Nat) :
    L.displacement? params id =
      some (if i < params then (i : Int) - params else linkSize + i - params) := by
  rw [displacement?, h, Option.map_some, Generate.frameDisplacement, if_neg Nat.one_ne_zero]
  simp only [Int.ofNat_lt]

theorem Frame.of_slots {params locals : List VarId} (hnodup : (params ++ locals).Nodup)
    (hslots : ∀ (i : Nat) (id : VarId), (params ++ locals)[i]? = some id →
      L.vars.get? id = some ⟨1, i⟩) : L.Frame params locals where
  nodup := hnodup
  slots := by
    apply List.ext_getElem?
    intro i
    rw [List.getElem?_map, List.getElem?_map]
    cases hid : (params ++ locals)[i]? with
    | none =>
      rw [List.getElem?_eq_none_iff] at hid
      rw [List.getElem?_eq_none (by rwa [List.length_range])]
      rfl
    | some id =>
      rw [List.getElem?_range (List.getElem?_eq_some_iff.1 hid).1, Option.map_some, Option.map_some,
        hslots i id hid]
  below id hid := by
    obtain ⟨i, hi⟩ := List.getElem?_of_mem hid
    have hlt := (List.getElem?_eq_some_iff.1 hi).1
    have hslot := hslots i id (by rw [List.getElem?_append_left hlt, hi])
    rw [displacement?_of_slot hslot, if_pos hlt]
    exact ⟨_, rfl, by omega, by omega⟩
  above id hid := by
    obtain ⟨i, hi⟩ := List.getElem?_of_mem hid
    have hlt := (List.getElem?_eq_some_iff.1 hi).1
    have hslot := hslots (params.length + i) id (by
      rw [List.getElem?_append_right (Nat.le_add_right _ _), Nat.add_sub_cancel_left, hi])
    rw [displacement?_of_slot hslot, if_neg (by omega)]
    exact ⟨_, rfl, by omega, by omega⟩
  distinct id hid id' hid' heq := by
    obtain ⟨i, hi⟩ := List.getElem?_of_mem hid
    obtain ⟨j, hj⟩ := List.getElem?_of_mem hid'
    rw [displacement?_of_slot (hslots i id hi), displacement?_of_slot (hslots j id' hj),
      Option.some.injEq, linkSize] at heq
    have hij : i = j := by
      split at heq <;> split at heq <;> omega
    subst hij
    exact Option.some.inj (hi.symm.trans hj)

end Layout

/-! ## What code does to its frame -/

/-- The code of the `k`th function makes space for its locals first and only then. What it loads or
stores, other than a copy of the word on top of the stack, are variables in its own frame. -/
structure Object.UsesFrame (o : Object) (k : FuncId) (params locals : List VarId) : Prop where
  space : 0 < locals.length →
    ∃ i, o.code[o.entry k]? = some i ∧ i.op = .push ∧ i.d.toInt = locals.length
  push : ∀ a i, o.entry k ≤ a → a < o.entry (k + 1) → o.code[a]? = some i → i.op = .push →
    a = o.entry k ∧ 0 < locals.length
  access : ∀ a i, o.entry k ≤ a → a < o.entry (k + 1) → o.code[a]? = some i →
    i.op = .load ∨ i.op = .store → i = ⟨.load, .st, 1, -1⟩ ∨
      i.r = .lb ∧ ∃ id ∈ params ++ locals, o.layout.displacement? params.length id = some i.d.toInt

namespace Code
variable {cx : Context} {L : Layout} {f : Tree.Func} {q : Request}

/-- The request needs no new space, and what it loads or stores is in the frame of `f`. -/
def InFrame (L : Layout) (f : Tree.Func) (q : Request) : Prop :=
  match q.op with
  | .push => False
  | .load | .store => q = ⟨.load, integerSize, .st, -integerSize⟩ ∨
      q.r = .lb ∧ ∃ v ∈ f.vars, L.displacement? f.params.length v.id = some q.d
  | _ => True

theorem InFrame.op_ne_push (h : InFrame L f q) : q.op ≠ .push := by
  intro hop
  rw [InFrame, hop] at h
  exact h

theorem InFrame.access (h : InFrame L f q) (hop : q.op = .load ∨ q.op = .store) :
    q = ⟨.load, integerSize, .st, -integerSize⟩ ∨
      q.r = .lb ∧ ∃ v ∈ f.vars, L.displacement? f.params.length v.id = some q.d := by
  rw [InFrame] at h
  rcases hop with hop | hop
  · rwa [hop] at h
  · rwa [hop] at h

theorem inFrame_access {op : Opcode} (hop : op = .load ∨ op = .store) {v : Tree.Var}
    (hv : v ∈ f.vars) {a : Address} (ha : L.vars.get? v.id = some a) (hlevel : a.level = 1)
    (size : Int) : InFrame L f ((bodyEnv cx L 0 f).access op size a) := by
  have hplace : (bodyEnv cx L 0 f).register a.level = .lb ∧ ∃ v ∈ f.vars,
      L.displacement? f.params.length v.id =
        some (Generate.frameDisplacement (bodyEnv cx L 0 f).params a) := by
    refine ⟨by rw [hlevel]; rfl, v, hv, ?_⟩
    rw [Layout.displacement?, ha, bodyEnv, Tree.words_eq_length]
    rfl
  rcases hop with rfl | rfl
  · exact .inr hplace
  · exact .inr hplace

/-- What the code of a function has behind the space for its locals. -/
theorem inFrame_of_mem_bodyCode {start : Nat}
    (hslot : ∀ v ∈ f.vars, ∃ a, L.vars.get? v.id = some a ∧ a.level = 1)
    (hident : ∀ e ∈ Stmt.exprsOf f.body, ∀ site name, .ident site name ∈ e.uses →
      ∃ v ∈ f.vars, cx.resolution.idents.get? site.id = some v.id)
    (h : q ∈ bodyCode (bodyEnv cx L 0 f) start f) : InFrame L f q := by
  obtain ⟨c, n, hbody, hall⟩ := bodyCode_spec (bodyEnv cx L 0 f) start f
  rw [hbody, List.mem_append, List.mem_singleton] at h
  rcases h with h | rfl
  · cases hall q h with
    | expr he hq =>
      cases hq with
      | @access op site name size hop huse =>
        obtain ⟨v, hv, hid⟩ := hident _ he site name huse
        obtain ⟨a, ha, hlevel⟩ := hslot v hv
        have hplace : (bodyEnv cx L 0 f).placeAt site = a := by
          show ((cx.resolution.idents.get? site.id).bind L.vars.get?).getD default = a
          rw [hid, Option.bind_some, ha]
          rfl
        rw [hplace]
        exact inFrame_access hop hv ha hlevel size
      | copy => exact .inl rfl
      | indirect hop => rcases hop with rfl | rfl <;> trivial
      | literal | routine | call | pop => trivial
    | @declare v hv =>
      have hv : v ∈ f.vars := List.mem_append_right _ hv
      obtain ⟨a, ha, hlevel⟩ := hslot v hv
      have hplace : ((bodyEnv cx L 0 f).layout.vars.get? v.id).getD default = a := by
        show (L.vars.get? v.id).getD default = a
        rw [ha]
        rfl
      rw [hplace]
      exact inFrame_access (.inr rfl) hv ha hlevel _
    | jumpIfFalse | jump | ret => trivial
  · trivial

theorem getElem?_func_zero (start : Nat) (h : 0 < Tree.storage f.body) :
    (func cx L 0 start f)[0]? = some ⟨.push, 0, .cb, Tree.storage f.body⟩ := by
  rw [func, funcBody_eq, space, if_pos h]
  rfl

end Code

theorem Tree.storage_eq_length (ss : List Tree.Stmt) :
    Tree.storage ss = (Stmt.declsOf ss).length := Tree.words_eq_length (Stmt.declsOf ss)

namespace Program
variable {p : Program} {R : Resolution} {o : Object} {k : Nat} {f : Tree.Func}

theorem WellFormed.frame (hwf : p.WellFormed) (ho : p.generate R = .ok o) (hf : f ∈ p.funcs) :
    o.layout.Frame (f.params.map (·.id)) ((Stmt.declsOf f.body).map (·.id)) := by
  have hids : f.params.map (·.id) ++ (Stmt.declsOf f.body).map (·.id) = f.vars.map (·.id) :=
    List.map_append.symm
  apply Layout.Frame.of_slots
  · have hnodup : (p.vars.map (·.id)).Nodup := hwf.varIds ▸ List.nodup_range
    rw [vars, List.map_flatMap] at hnodup
    rw [hids]
    exact (List.pairwise_flatMap.1 hnodup).1 f hf
  · intro i id hid
    rw [hids, List.getElem?_map] at hid
    obtain ⟨v, hv, rfl⟩ := Option.map_eq_some_iff.1 hid
    exact hwf.slot ho hf hv

/-- Unless something is lost, the region of a function holds its code with all operands. -/
theorem WellFormed.codeAt_entry (hwf : p.WellFormed) (hR : p.resolve = .ok R)
    (ho : p.generate R = .ok o) (hc : o.Complete) (hf : p.funcs[k]? = some f) :
    CodeAt o.code (o.entry k) (Code.func ⟨p.nodes, R⟩ o.layout 0 (o.entry k) f) := by
  obtain ⟨start, hstart, hcode⟩ := (hwf.loaded hR ho hc).entry f (List.mem_of_getElem? hf)
  rw [hwf.id_eq hf, (hwf.regions ho hc.storeFull_not_mem).place hf] at hstart
  cases hstart
  exact hcode

/-- Names and declarations in a function are of variables in its frame. -/
theorem WellFormed.inFrame (hwf : p.WellFormed) (hR : p.resolve = .ok R) (ho : p.generate R = .ok o)
    (hf : f ∈ p.funcs) {start : Nat} {q : Request}
    (hq : q ∈ Code.bodyCode (Code.bodyEnv ⟨p.nodes, R⟩ o.layout 0 f) start f) :
    Code.InFrame o.layout f q := by
  refine Code.inFrame_of_mem_bodyCode (fun v hv => ?_) (fun e he site name huse => ?_) hq
  · obtain ⟨i, hi⟩ := List.getElem?_of_mem hv
    exact ⟨_, hwf.slot ho hf hi, rfl⟩
  · exact ident_resolved_locally hwf hR hf he huse

theorem WellFormed.usesFrame (hwf : p.WellFormed) (hR : p.resolve = .ok R)
    (ho : p.generate R = .ok o) (hc : o.Complete) (hf : p.funcs[k]? = some f) :
    o.UsesFrame k (f.params.map (·.id)) ((Stmt.declsOf f.body).map (·.id)) := by
  have hmem := List.mem_of_getElem? hf
  have hregions := hwf.regions ho hc.storeFull_not_mem
  have hat := hwf.codeAt_entry hR ho hc hf
  have hlocals : ((Stmt.declsOf f.body).map (·.id)).length = Tree.storage f.body := by
    rw [List.length_map, Tree.storage_eq_length]
  refine ⟨fun hpos => ?_, fun a i hlo hhi hi hop => ?_, fun a i hlo hhi hi hop => ?_⟩
  · rw [hlocals] at hpos ⊢
    obtain ⟨hcode, hfits⟩ := hat 0 _ (Code.getElem?_func_zero (o.entry k) hpos)
    exact ⟨_, hcode, rfl, Request.toInt_d_instruction hfits⟩
  · obtain ⟨q, hq, rfl⟩ := hregions.exists_request hf hlo hhi hi
    rcases Code.getElem?_func hq with ⟨ha, hpos, -⟩ | hq
    · exact ⟨by omega, hlocals ▸ hpos⟩
    · exact absurd hop (hwf.inFrame hR ho hmem hq).op_ne_push
  · obtain ⟨q, hq, rfl⟩ := hregions.exists_request hf hlo hhi hi
    have hfits := (hat _ q hq).2
    rcases Code.getElem?_func hq with ⟨-, -, rfl⟩ | hq
    · rcases hop with hop | hop <;> cases hop
    · rcases (hwf.inFrame hR ho hmem hq).access hop with rfl | ⟨hr, v, hv, hd⟩
      · exact .inl rfl
      · refine .inr ⟨hr, v.id, ?_, ?_⟩
        · rw [← List.map_append]
          exact List.mem_map_of_mem hv
        · rw [List.length_map, hd, Request.toInt_d_instruction hfits]

/-- No frame is out of reach. -/
theorem outOfReach_not_mem (ho : p.generate R = .ok o) (up : Nat) :
    .outOfReach up ∉ o.warnings := by
  obtain ⟨frame, g, hrun, rfl⟩ := generate_eq_ok.1 ho
  intro hw
  rcases (Generate.warned_program hrun).1 _ hw with hlost | hnone
  · cases hlost
  · cases hnone

/-- Every function has a frame with a word for each of its parameters and for each variable that is
declared under the nodes of its body, and every name in it stands for one of them. Unless some code
was lost, the code of the function makes space for just these locals and stays in this frame. No
frame is ever out of reach. -/
theorem frame_layout_exact {text : String} (hcompile : PrimeLang.compile text = .ok (p, o)) :
    (∀ up, .outOfReach up ∉ o.warnings) ∧
    ∃ R, p.resolve = .ok R ∧ ∀ k node, p.nodes.funcs[k]? = some node →
      ∃ locals, p.nodes.varsOf? k = some (node.params ++ locals) ∧
        p.nodes.storage? node.body = some locals.length ∧
        (∃ vs, p.nodes.Declares node.body vs locals.length ∧ vs.map (·.id) = locals) ∧
        o.layout.Frame node.params locals ∧
        (∀ body, p.nodes.block? node.body = some body → ∀ e ∈ Stmt.exprsOf body,
          ∀ site name, .ident site name ∈ e.uses →
            ∃ id ∈ node.params ++ locals, R.idents.get? site.id = some id) ∧
        (o.Complete →
          o.layout.funcs.get? k = some ⟨0, o.entry k⟩ ∧ o.UsesFrame k node.params locals) := by
  obtain ⟨R, hp, hR, ho⟩ := compile_eq_ok hcompile
  have hwf := ofTokens_wellFormed hp
  refine ⟨outOfReach_not_mem ho, R, hR, fun k node hnode => ?_⟩
  obtain ⟨f, hf, hfunc, hunfolds⟩ := hwf.exists_func_of_node hnode
  have hmem := List.mem_of_getElem? hf
  have hvars : node.params ++ (Stmt.declsOf f.body).map (·.id) = f.vars.map (·.id) := by
    rw [← hunfolds.params]
    exact List.map_append.symm
  refine ⟨(Stmt.declsOf f.body).map (·.id), ?_, ?_, ⟨Stmt.declsOf f.body, ?_, rfl⟩, ?_,
    fun body hbody e he site name huse => ?_, fun hc => ⟨?_, ?_⟩⟩
  · rw [Nodes.varsOf?, hfunc, hvars]
    rfl
  · rw [Nodes.storage?, hunfolds.body, List.length_map, ← Tree.storage_eq_length]
    rfl
  · rw [List.length_map, ← Tree.storage_eq_length]
    exact Nodes.declares_of_block? hunfolds.body
  · rw [← hunfolds.params]
    exact hwf.frame ho hmem
  · cases hunfolds.body.symm.trans hbody
    obtain ⟨v, hv, hid⟩ := ident_resolved_locally hwf hR hmem he huse
    rw [hvars]
    exact ⟨v.id, List.mem_map_of_mem hv, hid⟩
  · exact (hwf.regions ho hc.storeFull_not_mem).place hf
  · rw [← hunfolds.params]
    exact hwf.usesFrame hR ho hc hf

/-- Locals in both arms of a branch and in a loop, and an assignment to an element whose value is
used. -/
def localsText : String :=
  "func f(int a, int b) -> int \x7b if a \x7b int c := b; \x7d else \x7b array d := a; " ++
    "return d[a] := b; \x7d for int i := a; i; i -= 1 \x7b int e := i; \x7d return b; \x7d"

theorem frame_layout_exact_locals :
    ∃ p o, PrimeLang.compile localsText = .ok (p, o) ∧ o.Complete ∧
      o.layout.Frame [0, 1] [2, 3, 4, 5] ∧ o.UsesFrame 0 [0, 1] [2, 3, 4, 5] := by
  obtain ⟨p, o, hcompile, heval⟩ := exists_compile_of_eval localsText
    (fun (p, o) => decide (o.Complete ∧ p.nodes.funcs[0]?.map (·.params) = some [0, 1] ∧
      p.nodes.varsOf? 0 = some ([0, 1] ++ [2, 3, 4, 5]))) (by decide +kernel)
  obtain ⟨hc, hparams, hvars⟩ := of_decide_eq_true heval
  obtain ⟨node, hnode, hparams⟩ := Option.map_eq_some_iff.1 hparams
  obtain ⟨-, R, -, hfuncs⟩ := frame_layout_exact hcompile
  obtain ⟨locals, hvars', -, -, hframe, -, huses⟩ := hfuncs 0 node hnode
  rw [hparams] at hvars' hframe huses
  cases List.append_cancel_left (Option.some.inj (hvars.symm.trans hvars'))
  exact ⟨p, o, hcompile, hc, hframe, (huses hc).2⟩

end Program
end PrimeLang
