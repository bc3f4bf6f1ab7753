import PrimeLang.Proofs.LoadedCode

/-! # The regions of functions

The code of a program is a jump, the code of its functions one after the other, and a halt. Nothing
of it was ever rewritten, as far as the result tells: it is code by structure. The entries of the
functions cut it into one region for each function. -/

namespace PrimeLang
open Machine

/-! ## Where functions start -/

namespace Code

section
variable (cx : Context) (L : Layout) (level start : Nat)

theorem funcs_append (fs fs' : List Tree.Func) :
    funcs cx L level start (fs ++ fs') = funcs cx L level start fs ++
      funcs cx L level (start + (funcs cx L level start fs).length) fs' := by
  induction fs generalizing start with
  | nil => rfl
  | cons f fs ih =>
    rw [List.cons_append, funcs, funcs, ih, List.append_assoc, List.length_append, Nat.add_assoc]

/-- The address of the first instruction of the `k`th function, if the code of the functions is at
`start`; for the number of functions, the address behind their code. -/
def startOf (fs : List Tree.Func) (k : Nat) : Nat :=
  start + (funcs cx L level start (fs.take k)).length

theorem startOf_length (fs : List Tree.Func) :
    startOf cx L level start fs fs.length = start + (funcs cx L level start fs).length := by
  rw [startOf, List.take_length]

theorem startOf_le (fs : List Tree.Func) (k : Nat) :
    startOf cx L level start fs k ≤ start + (funcs cx L level start fs).length := by
  conv => rhs; rw [← List.take_append_drop k fs, funcs_append, List.length_append]
  exact Nat.add_le_add_left (Nat.le_add_right ..) start

theorem startOf_cons_succ (f : Tree.Func) (fs : List Tree.Func) (k : Nat) :
    startOf cx L level start (f :: fs) (k + 1) =
      startOf cx L level (start + (func cx L level start f).length) fs k := by
  rw [startOf, List.take_succ_cons, funcs, List.length_append, startOf, Nat.add_assoc]

end

section
variable {cx : Context} {L : Layout} {level start : Nat} {fs : List Tree.Func} {k : Nat}
variable {f : Tree.Func}

theorem startOf_succ (h : fs[k]? = some f) :
    startOf cx L level start fs (k + 1) = startOf cx L level start fs k +
      (func cx L level (startOf cx L level start fs k) f).length := by
  obtain ⟨hk, rfl⟩ := List.getElem?_eq_some_iff.1 h
  rw [startOf, List.take_succ_eq_append_getElem hk, funcs_append, List.length_append, funcs, funcs,
    List.append_nil, ← Nat.add_assoc]
  rfl

/-- The code of a function lies between that of the functions before and after it. -/
theorem funcs_eq_append (h : fs[k]? = some f) :
    funcs cx L level start fs = funcs cx L level start (fs.take k) ++
      (func cx L level (startOf cx L level start fs k) f ++
        funcs cx L level (startOf cx L level start fs (k + 1)) (fs.drop (k + 1))) := by
  rw [startOf_succ h]
  obtain ⟨hk, rfl⟩ := List.getElem?_eq_some_iff.1 h
  conv => lhs; rw [← List.take_append_drop k fs, List.drop_eq_getElem_cons hk]
  rw [funcs_append, funcs]
  rfl

theorem getElem?_funcs (h : fs[k]? = some f) {i : Nat} {q : Request}
    (hq : (func cx L level (startOf cx L level start fs k) f)[i]? = some q) :
    (funcs cx L level start fs)[(funcs cx L level start (fs.take k)).length + i]? = some q := by
  have hi := (List.getElem?_eq_some_iff.1 hq).1
  rw [funcs_eq_append h, List.getElem?_append_right (Nat.le_add_right _ _),
    Nat.add_sub_cancel_left, List.getElem?_append_left hi, hq]

theorem mem_entries (h : fs[k]? = some f) :
    (f.id, ⟨level, Segment.addressOf (startOf cx L level start fs k)⟩) ∈
      entries cx L level start fs := by
  induction fs generalizing start k with
  | nil => cases h
  | cons g fs ih =>
    cases k with
    | zero =>
      cases h
      exact List.mem_cons_self
    | succ k =>
      rw [startOf_cons_succ]
      exact List.mem_cons_of_mem _ (ih h)

end

end Code

/-! ## The code of a program -/

theorem Object.Complete.storeFull_not_mem {o : Object} (h : o.Complete) (c : Int) :
    .storeFull c ∉ o.warnings := by
  intro hw
  cases h _ hw

theorem Nodes.lt_of_entry? {ns : Nodes} {main : FuncId} (h : ns.entry? = some main) :
    main < ns.funcs.size := (Array.findIdx?_eq_some_iff_getElem.1 h).1

namespace Program
variable {p : Program} {R : Resolution} {o : Object}

/-- Functions that are numbered in order have their place as number. -/
theorem id_of_getElem? {fs : List Tree.Func} {n k : Nat} {f : Tree.Func}
    (hids : fs.map (·.id) = List.range n) (h : fs[k]? = some f) : f.id = k := by
  have hget : (fs.map (·.id))[k]? = (List.range n)[k]? := congrArg (·[k]?) hids
  rw [List.getElem?_map, h] at hget
  obtain ⟨hk, hid⟩ := List.getElem?_eq_some_iff.1 hget.symm
  rwa [List.getElem_range, eq_comm] at hid

theorem WellFormed.id_eq (hwf : p.WellFormed) {k : Nat} {f : Tree.Func} (h : p.funcs[k]? = some f) :
    f.id = k := id_of_getElem? hwf.funcIds h

theorem WellFormed.length_funcs (hwf : p.WellFormed) : p.funcs.length = p.nodes.funcs.size := by
  rw [← List.length_map (·.id), hwf.funcIds, List.length_range]

theorem WellFormed.exists_func (hwf : p.WellFormed) {k : Nat} (h : k < p.nodes.funcs.size) :
    ∃ f, p.funcs[k]? = some f := by
  rw [← hwf.length_funcs] at h
  exact ⟨_, List.getElem?_eq_getElem h⟩

/-- As long as the code store is not full, all code is there. -/
theorem WellFormed.code_eq (hwf : p.WellFormed) (ho : p.generate R = .ok o)
    (hfull : ∀ c, .storeFull c ∉ o.warnings) :
    o.code.toList = (Code.program ⟨p.nodes, R⟩ o.layout p.funcs).map Request.instruction ∧
      o.code.size ≤ codeCapacity := by
  obtain ⟨⟨s, hcode, hwarnings, hholds⟩, -, -⟩ := hwf.object_spec ho
  have hlen : (Code.program ⟨p.nodes, R⟩ o.layout p.funcs).length ≤ codeCapacity := by
    apply Nat.le_of_not_lt
    intro hlt
    exact hfull _ (hwarnings ▸ hholds.full hlt)
  constructor
  · rw [← hcode, hholds.code, List.take_of_length_le (by rwa [List.length_map])]
  · rw [← hcode, hholds.size_code]
    exact Nat.min_le_left _ _

theorem WellFormed.size_code (hwf : p.WellFormed) (ho : p.generate R = .ok o)
    (hfull : ∀ c, .storeFull c ∉ o.warnings) :
    o.code.size = 1 + (Code.funcs ⟨p.nodes, R⟩ o.layout 0 1 p.funcs).length + 1 := by
  rw [← Array.length_toList, (hwf.code_eq ho hfull).1, List.length_map, Code.program,
    List.length_cons, List.length_append, List.length_singleton, Nat.add_comm 1]

/-- The functions, and the halt behind them, start within the code store. -/
theorem WellFormed.addressOf_start (hwf : p.WellFormed) (ho : p.generate R = .ok o)
    (hfull : ∀ c, .storeFull c ∉ o.warnings) {a : Nat}
    (ha : a ≤ 1 + (Code.funcs ⟨p.nodes, R⟩ o.layout 0 1 p.funcs).length) :
    Segment.addressOf a = a := by
  have hsize := hwf.size_code ho hfull
  have hsmall := (hwf.code_eq ho hfull).2
  exact Segment.addressOf_of_le_capacity (by omega)

/-- Every function is where its code starts. -/
theorem WellFormed.func_place (hwf : p.WellFormed) (ho : p.generate R = .ok o)
    (hfull : ∀ c, .storeFull c ∉ o.warnings) {k : Nat} {f : Tree.Func}
    (hf : p.funcs[k]? = some f) : o.layout.funcs.get? f.id =
      some ⟨0, Code.startOf ⟨p.nodes, R⟩ o.layout 0 1 p.funcs k⟩ := by
  have hplace := (hwf.object_spec ho).2.1 _ (Code.mem_entries hf)
  rwa [hwf.addressOf_start ho hfull (Code.startOf_le ..)] at hplace

/-- The first jump leads to the entry function or, where there is none, to the halt. -/
theorem WellFormed.program_eq (hwf : p.WellFormed) (ho : p.generate R = .ok o)
    (hfull : ∀ c, .storeFull c ∉ o.warnings) :
    ∃ entry : Nat, Code.program ⟨p.nodes, R⟩ o.layout p.funcs =
        Code.jump entry :: (Code.funcs ⟨p.nodes, R⟩ o.layout 0 1 p.funcs ++ [⟨.halt, 0, .cb, 0⟩]) ∧
      (∀ main, p.nodes.entry? = some main → o.layout.funcs.get? main = some ⟨0, entry⟩) ∧
      (p.nodes.entry? = none →
        entry = 1 + (Code.funcs ⟨p.nodes, R⟩ o.layout 0 1 p.funcs).length) := by
  cases hentry : p.nodes.entry? with
  | none =>
    refine ⟨1 + (Code.funcs ⟨p.nodes, R⟩ o.layout 0 1 p.funcs).length, ?_, ?_, fun _ => rfl⟩
    · simp only [Code.program, Code.jump, hentry, Option.bind_none]
    · intro main hmain
      cases hmain
  | some main =>
    obtain ⟨f, hf⟩ := hwf.exists_func (Nodes.lt_of_entry? hentry)
    have hplace := hwf.func_place ho hfull hf
    rw [hwf.id_eq hf] at hplace
    have haddr := hwf.addressOf_start ho hfull (Code.startOf_le _ _ _ _ _ main)
    refine ⟨Code.startOf ⟨p.nodes, R⟩ o.layout 0 1 p.funcs main, ?_, fun id hid => ?_, fun h => ?_⟩
    · simp only [Code.program, Code.jump, hentry, Option.bind_some, hplace, haddr]
    · cases hid
      exact hplace
    · cases h

/-- Whenever the names of a program can be resolved, there is code for it, and unless the code store
is full that is code by structure: a jump, the code of the functions, each put together from the
code of its parts for the address where it starts, and a halt. The jump leads to the entry function
or, where there is none, to the halt. The functions are where their code starts. -/
theorem generated_code_eq_structural {text : String} (hp : parse text = .ok p)
    (hR : p.resolve = .ok R) : ∃ o, p.generate R = .ok o ∧ ((∀ c, .storeFull c ∉ o.warnings) →
      ∃ entry : Nat,
        o.code.toList = (Code.jump entry :: (Code.funcs ⟨p.nodes, R⟩ o.layout 0 1 p.funcs ++
          [⟨.halt, 0, .cb, 0⟩])).map Request.instruction ∧
        (∀ main, p.nodes.entry? = some main → o.layout.funcs.get? main = some ⟨0, entry⟩) ∧
        (p.nodes.entry? = none →
          entry = 1 + (Code.funcs ⟨p.nodes, R⟩ o.layout 0 1 p.funcs).length) ∧
        ∀ k f, p.funcs[k]? = some f → o.layout.funcs.get? f.id =
          some ⟨0, (1 + (Code.funcs ⟨p.nodes, R⟩ o.layout 0 1 (p.funcs.take k)).length : Nat)⟩) := by
  have hwf := ofTokens_wellFormed hp
  obtain ⟨o, ho⟩ := exists_generate hp hR
  refine ⟨o, ho, fun hfull => ?_⟩
  obtain ⟨entry, hprogram, hmain, hnone⟩ := hwf.program_eq ho hfull
  refine ⟨entry, ?_, hmain, hnone, fun k f hf => hwf.func_place ho hfull hf⟩
  rw [(hwf.code_eq ho hfull).1, hprogram]

theorem exists_compile_of_eval (text : String) (P : Program × Object → Bool)
    (h : (PrimeLang.compile text).toOption.any P = true) :
    ∃ p o, PrimeLang.compile text = .ok (p, o) ∧ P (p, o) = true := by
  cases hc : PrimeLang.compile text with
  | error e =>
    rw [hc] at h
    cases h
  | ok po =>
    rw [hc] at h
    exact ⟨po.1, po.2, rfl, h⟩

/-- Branches in both arms of a branch in a loop. -/
def branchingText : String :=
  "func f(int n) \x7b for int i := 0; i < n; i += 1 \x7b if i \x7b if n \x7b return; \x7d \x7d " ++
    "else \x7b if n \x7b f(i); \x7d else \x7b \x7d \x7d \x7d \x7d func main() \x7b f(4); \x7d"

theorem generated_code_eq_structural_branching :
    ∃ p R o, parse branchingText = .ok p ∧ p.resolve = .ok R ∧ p.generate R = .ok o ∧
      (∀ c, .storeFull c ∉ o.warnings) ∧
      ∃ entry : Nat, o.code.toList = (Code.jump entry ::
        (Code.funcs ⟨p.nodes, R⟩ o.layout 0 1 p.funcs ++ [⟨.halt, 0, .cb, 0⟩])).map
          Request.instruction := by
  obtain ⟨p, o, hcompile, hcomplete⟩ :=
    exists_compile_of_eval branchingText (fun (_, o) => decide o.Complete) (by decide +kernel)
  obtain ⟨R, hp, hR, ho⟩ := compile_eq_ok hcompile
  obtain ⟨o', ho', hcode⟩ := generated_code_eq_structural hp hR
  cases ho.symm.trans ho'
  have hfull := (of_decide_eq_true hcomplete).storeFull_not_mem
  obtain ⟨entry, hcode, -⟩ := hcode hfull
  exact ⟨p, R, o, hp, hR, ho, hfull, entry, hcode⟩

end Program

/-! ## Regions -/

/-- Where the code of a function starts; for a number that no function has, where the program
halts. -/
def Object.entry (o : Object) (k : FuncId) : Nat :=
  ((o.layout.funcs.get? k).map (·.displacement.toNat)).getD (o.code.size - 1)

/-- The entries of the functions cut the code between the first instruction and the halt into one
region for each function, which holds its code by structure. -/
structure Object.Regions (o : Object) (cx : Context) (fs : List Tree.Func) : Prop where
  first : o.entry 0 = 1
  size : o.code.size = o.entry fs.length + 1
  small : o.code.size ≤ codeCapacity
  halt : o.code[o.entry fs.length]? = some (Request.instruction ⟨.halt, 0, .cb, 0⟩)
  place : ∀ {k : Nat} {f : Tree.Func}, fs[k]? = some f → o.layout.funcs.get? k = some ⟨0, o.entry k⟩
  next : ∀ {k : Nat} {f : Tree.Func}, fs[k]? = some f →
    o.entry (k + 1) = o.entry k + (Code.func cx o.layout 0 (o.entry k) f).length
  code : ∀ {k : Nat} {f : Tree.Func}, fs[k]? = some f → ∀ {i : Nat} {q : Request},
    (Code.func cx o.layout 0 (o.entry k) f)[i]? = some q →
    o.code[o.entry k + i]? = some q.instruction

namespace Object.Regions
variable {o : Object} {cx : Context} {fs : List Tree.Func} {k : Nat} {f : Tree.Func}

/-- What is in the region of a function was asked for in its code. -/
theorem exists_request (h : o.Regions cx fs) (hf : fs[k]? = some f) {a : Nat} {i : Instruction}
    (hlo : o.entry k ≤ a) (hhi : a < o.entry (k + 1)) (hi : o.code[a]? = some i) :
    ∃ q, (Code.func cx o.layout 0 (o.entry k) f)[a - o.entry k]? = some q ∧ i = q.instruction := by
  rw [h.next hf] at hhi
  have hq := List.getElem?_eq_getElem (Nat.sub_lt_left_of_lt_add hlo hhi)
  have hcode := h.code hf hq
  rw [Nat.add_sub_cancel' hlo, hi] at hcode
  exact ⟨_, hq, Option.some.inj hcode⟩

/-- Behind the first instruction there is nothing but regions. -/
theorem exists_region (h : o.Regions cx fs) {a n : Nat} (hn : n ≤ fs.length) (hlo : 0 < a)
    (hhi : a < o.entry n) : ∃ k f, fs[k]? = some f ∧ o.entry k ≤ a ∧ a < o.entry (k + 1) := by
  induction n with
  | zero =>
    rw [h.first] at hhi
    omega
  | succ n ih =>
    by_cases ha : a < o.entry n
    · exact ih (Nat.le_of_succ_le hn) ha
    · exact ⟨n, _, List.getElem?_eq_getElem hn, Nat.le_of_not_lt ha, hhi⟩

/-- Entries do not decrease. -/
theorem entry_le (h : o.Regions cx fs) {j k : Nat} (hjk : j ≤ k) (hk : k ≤ fs.length) :
    o.entry j ≤ o.entry k := by
  induction hjk with
  | refl => exact Nat.le_refl _
  | step _ ih =>
    rw [h.next (List.getElem?_eq_getElem hk)]
    exact Nat.le_trans (ih (Nat.le_of_succ_le hk)) (Nat.le_add_right _ _)

end Object.Regions

/-- What is looked up by numbers has these numbers. -/
theorem Nodes.map_id_of_mapM {α : Type} {look : Nat → Option α} {id : α → Nat}
    (hid : ∀ {k a}, look k = some a → id a = k) {ks : List Nat} {as : List α}
    (h : ks.mapM look = some as) : as.map id = ks := by
  induction ks generalizing as with
  | nil =>
    cases h
    rfl
  | cons k ks ih =>
    rw [List.mapM_cons] at h
    obtain ⟨a, ha, h⟩ := Option.bind_eq_some_iff.1 h
    obtain ⟨as', has', h⟩ := Option.bind_eq_some_iff.1 h
    cases h
    rw [List.map_cons, ih has', hid ha]

theorem Nodes.id_of_var? {ns : Nodes} {id : VarId} {v : Tree.Var} (h : ns.var? id = some v) :
    v.id = id := by
  obtain ⟨-, -, rfl⟩ := Option.map_eq_some_iff.1 h
  rfl

/-- What the tree of a function takes from its node. -/
structure Nodes.Unfolds (ns : Nodes) (node : Node.Func) (f : Tree.Func) : Prop where
  name : f.name = node.name
  params : f.params.map (·.id) = node.params
  body : ns.block? node.body = some f.body

namespace Program
variable {p : Program} {R : Resolution} {o : Object}

theorem WellFormed.exists_func_of_node (hwf : p.WellFormed) {k : Nat} {node : Node.Func}
    (hnode : p.nodes.funcs[k]? = some node) :
    ∃ f, p.funcs[k]? = some f ∧ p.nodes.func? k = some f ∧ p.nodes.Unfolds node f := by
  obtain ⟨f, hf⟩ := hwf.exists_func (Array.getElem?_eq_some_iff.1 hnode).1
  have htree := hwf.func? f (List.mem_of_getElem? hf)
  rw [hwf.id_eq hf] at htree
  obtain ⟨node', hnode', hparams, hbody, hname, -, -⟩ := Nodes.exists_of_func? htree
  cases hnode.symm.trans hnode'
  exact ⟨f, hf, htree, hname, Nodes.map_id_of_mapM Nodes.id_of_var? hparams, hbody⟩

/-- Only functions have a place. -/
theorem WellFormed.func_place_eq_none (hwf : p.WellFormed) (ho : p.generate R = .ok o) :
    o.layout.funcs.get? p.funcs.length = none := by
  obtain ⟨frame, g, hrun, rfl⟩ := generate_eq_ok.1 ho
  refine Option.eq_none_iff_forall_ne_some.2 fun a ha => ?_
  have hmem := (Generate.funcs_program hrun p.funcs.length).1 ⟨a, ha⟩
  rw [hwf.funcIds, hwf.length_funcs, List.mem_range] at hmem
  exact Nat.lt_irrefl _ hmem

theorem WellFormed.entry_eq (hwf : p.WellFormed) (ho : p.generate R = .ok o)
    (hfull : ∀ c, .storeFull c ∉ o.warnings) {k : Nat} (hk : k ≤ p.funcs.length) :
    o.entry k = Code.startOf ⟨p.nodes, R⟩ o.layout 0 1 p.funcs k := by
  rcases Nat.lt_or_eq_of_le hk with hk | rfl
  · have hf := List.getElem?_eq_getElem hk
    have hplace := hwf.func_place ho hfull hf
    rw [hwf.id_eq hf] at hplace
    rw [Object.entry, hplace]
    rfl
  · rw [Object.entry, hwf.func_place_eq_none ho, hwf.size_code ho hfull, Code.startOf_length]
    rfl

theorem WellFormed.regions (hwf : p.WellFormed) (ho : p.generate R = .ok o)
    (hfull : ∀ c, .storeFull c ∉ o.warnings) : o.Regions ⟨p.nodes, R⟩ p.funcs where
  first := hwf.entry_eq ho hfull (Nat.zero_le _)
  size := by
    rw [hwf.size_code ho hfull, hwf.entry_eq ho hfull (Nat.le_refl _), Code.startOf_length]
  small := (hwf.code_eq ho hfull).2
  halt := by
    rw [hwf.entry_eq ho hfull (Nat.le_refl _), Code.startOf_length, Nat.add_comm,
      ← Array.getElem?_toList, (hwf.code_eq ho hfull).1, List.getElem?_map, Code.program,
      List.getElem?_cons_succ, List.getElem?_append_right (Nat.le_refl _), Nat.sub_self]
    rfl
  place {k f} hf := by
    have hk := (List.getElem?_eq_some_iff.1 hf).1
    have hplace := hwf.func_place ho hfull hf
    rwa [hwf.id_eq hf, ← hwf.entry_eq ho hfull (Nat.le_of_lt hk)] at hplace
  next {k f} hf := by
    have hk := (List.getElem?_eq_some_iff.1 hf).1
    rw [hwf.entry_eq ho hfull hk, hwf.entry_eq ho hfull (Nat.le_of_lt hk), Code.startOf_succ hf]
  code {k f} hf {i q} hq := by
    have hk := (List.getElem?_eq_some_iff.1 hf).1
    rw [hwf.entry_eq ho hfull (Nat.le_of_lt hk)] at hq ⊢
    have hfuncs := Code.getElem?_funcs hf hq
    have hlt := (List.getElem?_eq_some_iff.1 hfuncs).1
    rw [← Array.getElem?_toList, (hwf.code_eq ho hfull).1, List.getElem?_map, Code.startOf,
      Nat.add_assoc, Nat.add_comm 1, Code.program, List.getElem?_cons_succ,
      List.getElem?_append_left hlt, hfuncs]
    rfl

end Program
end PrimeLang
