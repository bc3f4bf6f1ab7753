import Mathlib.Algebra.Group.Nat.Defs
import Mathlib.Data.List.Forall2
import PrimeLang.Object.Dump
import PrimeLang.Proofs.CodeOrigins
import PrimeLang.Proofs.FunctionRegions

/-! # Dumps and listings

A dump finds the head of a function by the address where its code starts, so it would lose a head if
two functions started at one address. None do: the code of a function is never empty, and addresses
go on where the code store is full. They do so up to the greatest word, which code for shared nodes
gets past. -/

namespace PrimeLang
open Machine Action

/-! ## Where functions start -/

namespace Code
variable {cx : Context} {L : Layout} {level start : Nat} {fs : List Tree.Func}

theorem length_func_pos (f : Tree.Func) : 0 < (func cx L level start f).length := by
  obtain ⟨c, n, hbody, -⟩ := bodyCode_spec (bodyEnv cx L level f) start f
  rw [func, funcBody_eq, hbody, List.length_append, List.length_append, List.length_singleton]
  omega

/-- Every function starts behind those before it. -/
theorem startOf_lt_startOf {j k : Nat} (hjk : j < k) (hk : k ≤ fs.length) :
    startOf cx L level start fs j < startOf cx L level start fs k := by
  have hsucc {i : Nat} (hi : i < fs.length) :
      startOf cx L level start fs i < startOf cx L level start fs (i + 1) := by
    rw [startOf_succ (List.getElem?_eq_getElem hi)]
    exact Nat.lt_add_of_pos_right (length_func_pos _)
  induction hjk with
  | refl => exact hsucc hk
  | step _ ih => exact (ih (Nat.le_of_succ_le hk)).trans (hsucc hk)

end Code

/-- The functions `fs` are numbered in order, start at rising addresses, and are all that has a
place. -/
structure Object.Entries (o : Object) (fs : List Tree.Func) (entry : Nat → Nat) : Prop where
  ids : fs.map (·.id) = List.range fs.length
  place : ∀ k, o.layout.funcs.get? k = if k < fs.length then some ⟨0, entry k⟩ else none
  lt : ∀ {j k : Nat}, j < k → k < fs.length → entry j < entry k

namespace Program
variable {ns : Nodes} {p : Program} {R : Resolution} {o : Object}

theorem ids_of_ofNodes? (hp : ofNodes? ns = some p) :
    p.funcs.map (·.id) = List.range ns.funcs.size := by
  obtain ⟨fs, hfs, rfl⟩ := Option.map_eq_some_iff.1 hp
  refine Nodes.map_id_of_mapM (fun {k f} hf => ?_) hfs
  obtain ⟨_, -, -, -, -, -, hid⟩ := Nodes.exists_of_func? hf
  exact hid

theorem ids_eq_range (hp : ofNodes? ns = some p) :
    p.funcs.map (·.id) = List.range p.funcs.length := by
  have hids := ids_of_ofNodes? hp
  rw [hids, ← List.length_map (·.id), hids, List.length_range]

/-- Whatever names stand for, functions have the addresses where their code starts. -/
theorem place_of_ofNodes? (hp : ofNodes? ns = some p) (ho : p.generate R = .ok o) (k : Nat) :
    o.layout.funcs.get? k = if k < p.funcs.length then
      some ⟨0, Segment.addressOf (Code.startOf ⟨p.nodes, R⟩ default 0 1 p.funcs k)⟩ else none := by
  have hids := ids_eq_range hp
  obtain ⟨frame, g, hrun, rfl⟩ := generate_eq_ok.1 ho
  have hsome := Generate.funcs_program hrun k
  rw [hids, List.mem_range] at hsome
  split
  · next hk =>
    have hf := List.getElem?_eq_getElem hk
    have hnodup : (p.funcs.map (·.id)).Nodup := hids ▸ List.nodup_range
    rw [← Generate.map_fst_entries ⟨p.nodes, R⟩ default 0 1] at hnodup
    have hplace := Table.has_insertAll (t := ∅) hnodup _ (Code.mem_entries hf)
    rw [← (Generate.layout_program hrun).1, id_of_getElem? hids hf] at hplace
    exact hplace
  · next hk =>
    refine Option.eq_none_iff_forall_ne_some.2 fun a ha => ?_
    exact hk (hsome.1 ⟨a, ha⟩)

/-- How many instructions code generation asks for. -/
def requested (p : Program) (R : Resolution) : Nat :=
  (exec (Generate.program ⟨p.nodes, R⟩ p.funcs .origin) .initial).2.segment.next

theorem startOf_lt_requested (ho : p.generate R = .ok o) (k : Nat) :
    Code.startOf ⟨p.nodes, R⟩ default 0 1 p.funcs k < p.requested R := by
  obtain ⟨frame, g, hrun, rfl⟩ := generate_eq_ok.1 ho
  have hle := Code.startOf_le ⟨p.nodes, R⟩ default 0 1 p.funcs k
  rw [requested, hrun, Generate.next_program hrun]
  omega

/-- As long as all numbers of instructions are addresses, functions start one behind the other. -/
theorem entries_of_ofNodes? (hp : ofNodes? ns = some p) (ho : p.generate R = .ok o)
    (hfew : p.requested R ≤ Segment.addressLimit) :
    o.Entries p.funcs (Code.startOf ⟨p.nodes, R⟩ default 0 1 p.funcs) where
  ids := ids_eq_range hp
  place k := by
    have hlt := Nat.lt_of_lt_of_le (startOf_lt_requested ho k) hfew
    rw [place_of_ofNodes? hp ho, Segment.addressOf_of_lt hlt]
  lt hjk hk := Code.startOf_lt_startOf hjk (Nat.le_of_lt hk)

end Program

/-! ## Heads -/

/-- The entries with rising numbers are those that are found. -/
theorem Table.mem_toList {α : Type} (t : Table α) {k : Nat} {a : α} :
    (k, a) ∈ t.toList ↔ t.get? k = some a := by
  obtain ⟨es, hsorted⟩ := t
  rw [toList, List.mem_reverse, get?]
  induction es with
  | nil => simp
  | cons e es ih =>
    obtain ⟨j, b⟩ := e
    obtain ⟨hhead, hrest⟩ := List.pairwise_cons.1 hsorted
    rw [List.mem_cons, lookup_entry, ih hrest]
    split
    · next hk =>
      subst hk
      rw [Option.some.injEq, or_iff_left, Prod.ext_iff, and_iff_right rfl, eq_comm]
      intro hlookup
      exact Nat.lt_irrefl k (hhead (k, a) ((ih hrest).2 hlookup))
    · next hk =>
      rw [or_iff_right]
      intro heq
      cases heq
      exact hk rfl

namespace Object
variable {o : Object} {fs : List Tree.Func} {entry : Nat → Nat}

/-- In whatever order places are gone through, the head at an address is that of the function that
starts there. -/
theorem Entries.headAt_eq_some (h : o.Entries fs entry) {places : List (FuncId × Address)}
    (hplaces : places.Perm o.layout.funcs.toList) {address k : Nat} :
    headAt places address = some k ↔ k < fs.length ∧ entry k = address := by
  have hmem {k : Nat} {a : Address} :
      (k, a) ∈ places ↔ k < fs.length ∧ a = ⟨0, entry k⟩ := by
    rw [hplaces.mem_iff, Table.mem_toList, h.place]
    split <;> simp_all [eq_comm]
  -- no two functions start at one address
  have hinj {j k : Nat} (hj : j < fs.length) (hk : k < fs.length) (hjk : entry j = entry k) :
      j = k := by
    rcases Nat.lt_trichotomy j k with hlt | heq | hlt
    · exact absurd hjk (Nat.ne_of_lt (h.lt hlt hk))
    · exact heq
    · exact absurd hjk.symm (Nat.ne_of_lt (h.lt hlt hj))
  constructor
  · intro hhead
    obtain ⟨⟨_, a⟩, hfind, rfl⟩ := Option.map_eq_some_iff.1 hhead
    obtain ⟨hk, rfl⟩ := hmem.1 (List.mem_reverse.1 (List.mem_of_find?_eq_some hfind))
    have hdisplacement := of_decide_eq_true (List.find?_some hfind :)
    exact ⟨hk, Int.ofNat.inj hdisplacement⟩
  · rintro ⟨hk, rfl⟩
    have hplace : (k, (⟨0, entry k⟩ : Address)) ∈ places.reverse :=
      List.mem_reverse.2 (hmem.2 ⟨hk, rfl⟩)
    obtain ⟨⟨j, a⟩, hfind⟩ :
        ∃ e, places.reverse.find? (·.2.displacement = (entry k : Int)) = some e :=
      Option.isSome_iff_exists.1 (List.find?_isSome.2 ⟨_, hplace, decide_eq_true rfl⟩)
    obtain ⟨hj, rfl⟩ := hmem.1 (List.mem_reverse.1 (List.mem_of_find?_eq_some hfind))
    have hdisplacement := of_decide_eq_true (List.find?_some hfind :)
    rw [headAt, hfind, Option.map_some, hinj hj hk (Int.ofNat.inj hdisplacement)]

end Object

/-! ## Rows -/

namespace DumpRow

def func? : DumpRow → Option Tree.Func
  | head f => some f
  | code _ _ => none

def inst? : DumpRow → Option (Nat × Instruction)
  | head _ => none
  | code address i => some (address, i)

/-- The lines for code from `start` on, if `head` tells which function starts at an address. -/
def ofCode (head : Nat → Option Tree.Func) (start : Nat) : List Instruction → List DumpRow
  | [] => []
  | i :: is => (head start).toList.map .head ++ code start i :: ofCode head (start + 1) is

variable {head : Nat → Option Tree.Func} {start : Nat} {is : List Instruction}

theorem flatten_mapIdx_eq_ofCode : (is.mapIdx fun k i =>
    (head (start + k)).toList.map DumpRow.head ++ [.code (start + k) i]).flatten =
      ofCode head start is := by
  induction is generalizing start with
  | nil => rfl
  | cons i is ih =>
    rw [List.mapIdx_cons, List.flatten_cons, ofCode, ← ih, Nat.add_zero, List.append_assoc,
      List.singleton_append]
    simp only [Nat.add_assoc, Nat.add_comm 1]

/-- Heads are no instructions. -/
theorem filterMap_inst?_ofCode :
    (ofCode head start is).filterMap inst? = is.mapIdx fun k i => (start + k, i) := by
  induction is generalizing start with
  | nil => rfl
  | cons i is ih =>
    have hheads : ((head start).toList.map DumpRow.head).filterMap inst? = [] := by
      cases head start <;> rfl
    have hcode : inst? (.code start i) = some (start, i) := rfl
    rw [ofCode, List.filterMap_append, hheads, List.nil_append, List.filterMap_cons_some hcode, ih,
      List.mapIdx_cons]
    simp only [Nat.add_zero, Nat.add_assoc, Nat.add_comm 1]

theorem filterMap_func?_ofCode :
    (ofCode head start is).filterMap func? = (List.range' start is.length).filterMap head := by
  induction is generalizing start with
  | nil => rfl
  | cons i is ih =>
    have hheads : ((head start).toList.map DumpRow.head).filterMap func? = (head start).toList := by
      cases head start <;> rfl
    rw [ofCode, List.filterMap_append, hheads, List.filterMap_cons_none rfl, ih, List.length_cons,
      List.range'_succ, List.filterMap_cons]
    cases head start <;> rfl

/-- A head stands directly before the instruction at its address. -/
theorem getElem?_succ_ofCode {f : Tree.Func} {n : Nat}
    (h : (ofCode head start is)[n]? = some (.head f)) :
    ∃ address i, (ofCode head start is)[n + 1]? = some (.code address i) ∧
      head address = some f := by
  induction is generalizing start n with
  | nil => cases h
  | cons i is ih =>
    rw [ofCode] at h ⊢
    cases hhead : head start with
    | none =>
      rw [hhead] at h
      cases n with
      | zero => cases h
      | succ n => exact ih h
    | some g =>
      rw [hhead] at h
      match n with
      | 0 =>
        cases h
        exact ⟨start, i, rfl, hhead⟩
      | 1 => cases h
      | n + 2 => exact ih h

end DumpRow

/-! ## Lines -/

/-- The number that hexadecimal digits stand for, capitals being those from ten on. -/
def hexNumber (digits : List Char) : Nat :=
  digits.foldl (fun n c => 16 * n + (c.toNat - if c.isDigit then 48 else 55)) 0

theorem hexNumber_append_singleton (digits : List Char) (c : Char) :
    hexNumber (digits ++ [c]) = 16 * hexNumber digits + hexNumber [c] := by
  rw [hexNumber, List.foldl_append]
  simp [hexNumber]

theorem hexNumber_toUpper_digitChar : ∀ d < 16, hexNumber [(Nat.digitChar d).toUpper] = d := by
  decide

theorem hexNumber_toDigits (n : Nat) : hexNumber ((Nat.toDigits 16 n).map Char.toUpper) = n := by
  induction n using Nat.strongRecOn with
  | ind n ih =>
    by_cases hn : n < 16
    · rw [Nat.toDigits_of_lt_base hn]
      exact hexNumber_toUpper_digitChar n hn
    · have hlast : n % 16 < 16 := Nat.mod_lt n (by decide)
      have hdigits := Nat.toDigits_append_toDigits (by decide : 1 < 16)
        (by omega : 0 < n / 16) hlast
      rw [Nat.div_add_mod, Nat.toDigits_of_lt_base hlast] at hdigits
      rw [← hdigits, List.map_append, List.map_singleton, hexNumber_append_singleton,
        ih (n / 16) (by omega), hexNumber_toUpper_digitChar _ hlast, Nat.div_add_mod]

theorem hexNumber_hex4 (n : Nat) : hexNumber (hex4 n).toList = n := by
  have hzeros (k : Nat) (digits : List Char) :
      hexNumber (List.replicate k '0' ++ digits) = hexNumber digits := by
    induction k with
    | zero => rfl
    | succ k ih => exact ih
  rw [hex4, padLeft, fill, String.toList_append, String.toList_ofList, String.toList_ofList, hzeros,
    hexNumber_toDigits]

theorem four_le_length_hex4 (n : Nat) : 4 ≤ (hex4 n).length := by
  rw [hex4, padLeft, fill, String.length_append, String.length_ofList, List.length_replicate]
  omega

/-- What a line of a dump tells: the name and the signature of a function, or the address of an
instruction in four or more hexadecimal digits, its operation and its operands. -/
inductive DumpRow.Reads : String → DumpRow → Prop where
  | head (f : Tree.Func) :
    Reads ("+--------+ \x1b[32m" ++ f.name ++ "\x1b[39m : " ++
      ("(" ++ ", ".intercalate (f.params.map fun v => v.ty.name ++ " " ++ v.name) ++ ")" ++
        f.ret.elim "" (" -> " ++ ·.name))) (.head f)
  | code {digits : String} {address : Nat} (i : Instruction) :
    4 ≤ digits.length → hexNumber digits.toList = address →
    Reads ("| 0x" ++ digits ++ " : " ++
      ("\x1b[31m" ++ padRight 7 i.op.name ++ "\x1b[34m" ++ i.operands ++ "\x1b[39m"))
      (.code address i)

namespace DumpRow

theorem reads_text (row : DumpRow) : Reads row.text row := by
  cases row with
  | head f =>
    have hsignature : f.signature =
        "(" ++ ", ".intercalate (f.params.map fun v => v.ty.name ++ " " ++ v.name) ++ ")" ++
          f.ret.elim "" (" -> " ++ ·.name) := by
      unfold Tree.Func.signature signature
      rw [List.map_map]
      cases f.ret with
      | none => exact String.append_empty.symm
      | some ty => exact String.append_assoc
    have htext : (head f).text =
        "+--------+ \x1b[32m" ++ f.name ++ "\x1b[39m : " ++ f.signature := rfl
    rw [htext, hsignature]
    exact .head f
  | code address i => exact .code i (four_le_length_hex4 address) (hexNumber_hex4 address)

theorem framed_eq (rows : List DumpRow) : framed rows =
    "+-[Code]-+------------------------------------------------------------------------\n" ++
      String.join ((rows.map text).map (· ++ "\n")) ++
      "+--------+------------------------------------------------------------------------\n" := by
  rw [framed, List.map_append, List.map_append, String.join_append, String.join_append]
  rfl

end DumpRow

/-- What `rows` show of the code: every instruction, with addresses from 0 on; the heads of the
functions that start in the code, in order; and each head directly before the instruction where its
function starts. -/
structure Object.Shown (o : Object) (fs : List Tree.Func) (entry : Nat → Nat)
    (rows : List DumpRow) : Prop where
  insts : rows.filterMap DumpRow.inst? = o.code.toList.mapIdx fun address i => (address, i)
  heads : rows.filterMap DumpRow.func? = fs.filter (entry ·.id < o.code.size)
  next : ∀ {n : Nat} {f : Tree.Func}, rows[n]? = some (.head f) →
    ∃ i, rows[n + 1]? = some (.code (entry f.id) i)

namespace Object.Entries
variable {o : Object} {fs : List Tree.Func} {entry : Nat → Nat}

theorem id_eq (h : o.Entries fs entry) {k : Nat} {f : Tree.Func} (hf : fs[k]? = some f) :
    f.id = k := Program.id_of_getElem? h.ids hf

/-- The heads by address are those of the functions by where they start. -/
theorem head_eq_some (h : o.Entries fs entry) {places : List (FuncId × Address)}
    (hplaces : places.Perm o.layout.funcs.toList) {address : Nat} {f : Tree.Func} :
    (headAt places address).bind (fs[·]?) = some f ↔ f ∈ fs ∧ entry f.id = address := by
  rw [Option.bind_eq_some_iff]
  constructor
  · rintro ⟨k, hk, hf⟩
    rw [h.id_eq hf]
    exact ⟨List.mem_of_getElem? hf, ((h.headAt_eq_some hplaces).1 hk).2⟩
  · rintro ⟨hf, haddress⟩
    obtain ⟨k, hk⟩ := List.mem_iff_getElem?.1 hf
    rw [h.id_eq hk] at haddress
    have hlt := (List.getElem?_eq_some_iff.1 hk).1
    exact ⟨k, (h.headAt_eq_some hplaces).2 ⟨hlt, haddress⟩, hk⟩

theorem pairwise (h : o.Entries fs entry) : fs.Pairwise (entry ·.id < entry ·.id) := by
  refine List.pairwise_iff_getElem.2 fun j k hj hk hjk => ?_
  rw [h.id_eq (List.getElem?_eq_getElem hj), h.id_eq (List.getElem?_eq_getElem hk)]
  exact h.lt hjk hk

/-- Going through the addresses is going through the functions. -/
theorem filterMap_range (h : o.Entries fs entry) {head : Nat → Option Tree.Func}
    (hhead : ∀ {address f}, head address = some f ↔ f ∈ fs ∧ entry f.id = address) (m : Nat) :
    (List.range m).filterMap head = fs.filter (entry ·.id < m) := by
  have hfilter : (fs.filter (entry ·.id < m)).Pairwise (entry ·.id < entry ·.id) :=
    h.pairwise.filter _
  have hrange : ((List.range m).filterMap head).Pairwise (entry ·.id < entry ·.id) := by
    refine List.pairwise_filterMap.2 (List.pairwise_lt_range.imp fun hab f hf g hg => ?_)
    rwa [(hhead.1 hf).2, (hhead.1 hg).2]
  have hnodup {l : List Tree.Func} (hl : l.Pairwise (entry ·.id < entry ·.id)) : l.Nodup :=
    hl.imp (S := (· ≠ ·)) fun hlt heq => Nat.ne_of_lt hlt (congrArg (entry ·.id) heq)
  -- both are sorted by address and have the same members
  refine List.Perm.eq_of_pairwise (fun f g _ _ hfg hgf => absurd hfg (Nat.lt_asymm hgf))
    hrange hfilter ((List.perm_ext_iff_of_nodup (hnodup hrange) (hnodup hfilter)).2 fun f => ?_)
  rw [List.mem_filterMap, List.mem_filter, decide_eq_true_iff]
  constructor
  · rintro ⟨address, hlt, hf⟩
    obtain ⟨hmem, rfl⟩ := hhead.1 hf
    exact ⟨hmem, List.mem_range.1 hlt⟩
  · rintro ⟨hmem, hlt⟩
    exact ⟨_, List.mem_range.2 hlt, hhead.2 ⟨hmem, rfl⟩⟩

/-- The rows of a dump do not depend on the order of the layout, and show all of the code. -/
theorem exists_rows {p : Program} (h : o.Entries p.funcs entry) : ∃ rows,
    (∀ places, places.Perm o.layout.funcs.toList → o.dumpRows p places = rows) ∧
      o.Shown p.funcs entry rows := by
  obtain ⟨head, hhead⟩ : ∃ head : Nat → Option Tree.Func,
      ∀ {address f}, head address = some f ↔ f ∈ p.funcs ∧ entry f.id = address :=
    ⟨_, h.head_eq_some (.refl _)⟩
  refine ⟨DumpRow.ofCode head 0 o.code.toList, fun places hplaces => ?_, ?_, ?_, fun hn => ?_⟩
  · have hsame : (fun address => (headAt places address).bind (p.funcs[·]?)) = head :=
      funext fun address => Option.ext fun f => (h.head_eq_some hplaces).trans hhead.symm
    rw [dumpRows, ← DumpRow.flatten_mapIdx_eq_ofCode, ← hsame]
    simp only [Nat.zero_add]
  · simp only [DumpRow.filterMap_inst?_ofCode, Nat.zero_add]
  · rw [DumpRow.filterMap_func?_ofCode, ← List.range_eq_range', h.filterMap_range hhead,
      Array.length_toList]
  · obtain ⟨address, i, hnext, hf⟩ := DumpRow.getElem?_succ_ofCode hn
    obtain ⟨-, rfl⟩ := hhead.1 hf
    exact ⟨i, hnext⟩

/-- A listing has all functions. -/
theorem listing_funcs {p : Program} (h : o.Entries p.funcs entry) :
    (Listing.ofObject p o).funcs =
      p.funcs.map fun f => ⟨f.name, f.signature, ⟨0, entry f.id⟩⟩ := by
  rw [Listing.ofObject, ← List.filterMap_eq_map]
  refine List.filterMap_congr fun f hf => ?_
  obtain ⟨k, hk⟩ := List.mem_iff_getElem?.1 hf
  rw [h.place, Function.comp_apply, h.id_eq hk, if_pos (List.getElem?_eq_some_iff.1 hk).1,
    Option.map_some]

end Object.Entries

/-- If there is code for nodes, whatever names stand for, and all numbers of instructions are
addresses, then functions start at addresses that rise in the order of the functions. A dump has a
line for each instruction with its address and one for the head of each function that starts in the
code, in order and each in its place, whatever the order of the layout. A listing has all functions
in order with their places, and the instructions with the same addresses. -/
theorem Program.dumps_cover_code {ns : Nodes} {p : Program} {R : Resolution} {o : Object}
    (hp : ofNodes? ns = some p) (ho : p.generate R = .ok o)
    (hfew : p.requested R ≤ Segment.addressLimit) :
    ∃ entry rows lines, p.funcs.length = ns.funcs.size ∧ o.Entries p.funcs entry ∧
      (∀ places, places.Perm o.layout.funcs.toList → o.dumpRows p places = rows) ∧
      List.Forall₂ DumpRow.Reads lines rows ∧
      o.dump p =
        "+-[Code]-+------------------------------------------------------------------------\n" ++
          String.join (lines.map (· ++ "\n")) ++
          "+--------+------------------------------------------------------------------------\n" ∧
      o.Shown p.funcs entry rows ∧
      (Listing.ofObject p o).funcs =
        p.funcs.map (fun f => ⟨f.name, f.signature, ⟨0, entry f.id⟩⟩) ∧
      (Listing.ofObject p o).code =
        (rows.filterMap DumpRow.inst?).map fun (address, i) => ⟨address, i.text, i⟩ := by
  have hentries := entries_of_ofNodes? hp ho hfew
  obtain ⟨rows, hrows, hshown⟩ := hentries.exists_rows
  refine ⟨_, rows, rows.map DumpRow.text, ?_, hentries, hrows, ?_, ?_, hshown,
    hentries.listing_funcs, ?_⟩
  · rw [← List.length_map (·.id), ids_of_ofNodes? hp, List.length_range]
  · rw [List.forall₂_map_left_iff, List.forall₂_same]
    exact fun row _ => row.reads_text
  · rw [Object.dump, hrows _ (.refl _), DumpRow.framed_eq]
  · rw [hshown.insts]
    refine List.ext_getElem? fun n => ?_
    rw [Listing.ofObject, List.getElem?_map, List.getElem?_mapIdx, List.getElem?_mapIdx,
      Option.map_map]
    rfl

/-- Two functions with one parameter and one body, which returns `x`. -/
def sharedBody : Nodes where
  funcs := #[⟨"f", [0], some .int, [0], ⟨0, 0, 0⟩⟩, ⟨"g", [0], some .int, [0], ⟨9, 1, 0⟩⟩]
  vars := #[⟨.int, "a", ⟨3, 0, 3⟩⟩]
  stmts := #[.ret (some 0)]
  exprs := #[(.ident "x" [], ⟨6, 0, 6⟩)]

theorem Program.dumps_cover_code_sharedBody : ∃ p o entry rows,
    ofNodes? sharedBody = some p ∧ p.generate ⟨∅, Table.insert ∅ 0 0⟩ = .ok o ∧
      p.requested ⟨∅, Table.insert ∅ 0 0⟩ = 6 ∧ o.Entries p.funcs entry ∧ entry 1 = 3 ∧
      o.dumpRows p [(1, ⟨0, 3⟩), (0, ⟨0, 1⟩)] = rows ∧ o.Shown p.funcs entry rows ∧
      (rows.filterMap DumpRow.inst?).length = 6 := by
  have heval : ((ofNodes? sharedBody).any fun p =>
      (p.generate ⟨∅, Table.insert ∅ 0 0⟩).toOption.any fun o =>
        decide (o.layout.funcs.toList = [(0, ⟨0, 1⟩), (1, ⟨0, 3⟩)] ∧ o.code.size = 6 ∧
          p.requested ⟨∅, Table.insert ∅ 0 0⟩ = 6)) = true := by
    decide +kernel
  obtain ⟨p, hp, heval⟩ := (Option.any_eq_true _ _).1 heval
  cases ho : p.generate ⟨∅, Table.insert ∅ 0 0⟩ with
  | error e =>
    rw [ho] at heval
    cases heval
  | ok o =>
    rw [ho] at heval
    obtain ⟨hlist, hsize, hrequested⟩ := of_decide_eq_true (heval :)
    obtain ⟨entry, rows, -, -, hentries, hrows, -, -, hshown, -⟩ :=
      dumps_cover_code hp ho (hrequested ▸ by decide)
    have hplace : o.layout.funcs.get? 1 = some ⟨0, 3⟩ := by
      rw [← Table.mem_toList, hlist]
      decide
    refine ⟨p, o, entry, rows, hp, ho, hrequested, hentries, ?_, hrows _ ?_, hshown, ?_⟩
    · rw [hentries.place] at hplace
      split at hplace
      · exact Int.ofNat_inj.1 (congrArg Address.displacement (Option.some.inj hplace))
      · cases hplace
    · rw [hlist]
      exact .swap ..
    · rw [hshown.insts, List.length_mapIdx, Array.length_toList, hsize]

/-! ## More code than addresses -/

/-- A number, and sums of the node before with itself. -/
def doublingNode : Nat → Node.Expr
  | 0 => .literal 1
  | k + 1 => .binary .add k k

/-- Two functions. The first one evaluates a number that is doubled `n` times over, with one node
for each sum; the second one does nothing. -/
def doubling (n : Nat) : Nodes where
  funcs := #[⟨"f", [], none, [0], ⟨0, 0, 0⟩⟩, ⟨"g", [], none, [], ⟨0, 0, 0⟩⟩]
  vars := #[]
  stmts := #[.eval n]
  exprs := (Array.range (n + 1)).map fun k => (doublingNode k, ⟨0, 0, 0⟩)

/-- The tree under the `k`th node. -/
def doubled : Nat → Tree.Expr Site
  | 0 => .literal ⟨0, ⟨0, 0, 0⟩⟩ 1
  | k + 1 => .binary ⟨k + 1, ⟨0, 0, 0⟩⟩ .add (doubled k) (doubled k)

/-- The functions as trees. -/
def doublingFuncs (n : Nat) : List Tree.Func :=
  [{ name := "f", pos := ⟨0, 0, 0⟩, params := [], ret := none, id := 0
     body := [.eval (doubled n)] },
    { name := "g", pos := ⟨0, 0, 0⟩, params := [], ret := none, id := 1, body := [] }]

theorem exprWithin?_doubling {n k m : Nat} (hk : k ≤ n) (hm : k < m) :
    (doubling n).exprWithin? m k = some (doubled k) := by
  have hnode {k : Nat} (hk : k ≤ n) :
      (doubling n).exprs[k]? = some (doublingNode k, ⟨0, 0, 0⟩) := by
    simp [doubling, Nat.lt_succ_of_le hk]
  induction k generalizing m with
  | zero =>
    obtain ⟨m, rfl⟩ : ∃ i, m = i + 1 := ⟨m - 1, by omega⟩
    rw [Nodes.exprWithin?, hnode hk]
    rfl
  | succ k ih =>
    obtain ⟨m, rfl⟩ : ∃ i, m = i + 1 := ⟨m - 1, by omega⟩
    rw [Nodes.exprWithin?, hnode hk]
    simp [doublingNode, ih (Nat.le_of_succ_le hk) (Nat.lt_of_succ_lt_succ hm), doubled]

theorem ofNodes?_doubling (n : Nat) :
    Program.ofNodes? (doubling n) = some ⟨doubling n, doublingFuncs n⟩ := by
  have hexpr : (doubling n).expr? n = some (doubled n) := by
    have hsize : (doubling n).exprs.size = n + 1 := by simp [doubling]
    rw [Nodes.expr?, hsize]
    exact exprWithin?_doubling (Nat.le_refl n) (Nat.lt_succ_self n)
  have hstmt : (doubling n).stmt? 0 = some (.eval (doubled n)) := by
    have hnode : (doubling n).stmts[0]? = some (.eval n) := rfl
    show (doubling n).stmtWithin? 1 0 = _
    rw [Nodes.stmtWithin?, hnode]
    simp [hexpr]
  have hf : (doubling n).func? 0 = (doublingFuncs n)[0]? := by
    have hnode : (doubling n).funcs[0]? = some ⟨"f", [], none, [0], ⟨0, 0, 0⟩⟩ := rfl
    rw [Nodes.func?, hnode]
    simp [Nodes.block?, hstmt, doublingFuncs]
  have hg : (doubling n).func? 1 = (doublingFuncs n)[1]? := rfl
  have hids : List.range (doubling n).funcs.size = [0, 1] := rfl
  rw [Program.ofNodes?, Nodes.funcs?, hids]
  simp [hf, hg, doublingFuncs]

theorem length_doubled (env : Code.Env) (n : Nat) :
    (Code.expr env .value (doubled n)).length + 1 = 2 ^ (n + 1) := by
  induction n with
  | zero => rfl
  | succ n ih =>
    rw [doubled, Code.expr, List.length_append, List.length_append, List.length_singleton]
    omega

theorem uses_doubled (n : Nat) : (doubled n).uses = [] := by
  induction n with
  | zero => rfl
  | succ n ih =>
    rw [doubled, Tree.Expr.uses, ih]
    rfl

theorem assignsNames_doubled (n : Nat) : (doubled n).AssignsNames := by
  induction n with
  | zero => trivial
  | succ n ih => exact ⟨ih, ih⟩

/-- No names stand in the way of code for doublings. -/
theorem exists_generate_doubling (n : Nat) :
    ∃ o, Program.generate ⟨doubling n, doublingFuncs n⟩ ⟨∅, ∅⟩ = .ok o := by
  have hnames : ∀ f ∈ doublingFuncs n, ∀ e ∈ Stmt.exprsOf f.body, e.AssignsNames := by
    simp [doublingFuncs, Stmt.exprsOf, Stmt.exprs, assignsNames_doubled]
  have hvisits : ∀ o ∈ Tree.visitsFrom 0 (doublingFuncs n), ∃ f, o.event = .func f := by
    simp [doublingFuncs, Tree.visitsFrom, Tree.Func.visits, Stmt.visitsOf, Stmt.visits,
      Tree.Expr.usesIn, uses_doubled]
  have hready : Ready ⟨doubling n, ⟨∅, ∅⟩⟩ ⟨∅, ∅⟩ (Tree.visitsFrom 0 (doublingFuncs n)) := by
    intro before o after hsplit
    obtain ⟨f, hf⟩ := hvisits o (hsplit ▸ List.mem_append_right _ List.mem_cons_self)
    rw [hf]
    trivial
  obtain ⟨frame, g, hrun⟩ := Generate.succeeds_program _ hnames hready
  exact ⟨g.object, Program.generate_eq_ok.2 ⟨frame, g, hrun, rfl⟩⟩

/-- The second function starts behind the code for all the sums and a return. -/
theorem startOf_doubling (cx : Context) (L : Layout) (n : Nat) :
    Code.startOf cx L 0 1 (doublingFuncs (n + 1)) 1 = 1 + 2 ^ (n + 2) := by
  have heffect (env : Code.Env) :
      (Code.expr env .effect (doubled (n + 1))).length + 1 = 2 ^ (n + 2) := by
    have hlen := length_doubled env n
    rw [doubled, Code.expr, List.length_append, List.length_append, List.length_singleton,
      Nat.pow_succ]
    omega
  have hspace : Code.space [.eval (doubled (n + 1))] = [] := rfl
  simp [Code.startOf, doublingFuncs, Code.funcs, Code.func, Code.funcBody, hspace, Code.block,
    Code.stmt, Func.endsInReturn, Stmt.isReturn, heffect]

/-- Thirty doublings ask for so much code that the second function has an address below that of the
first one. -/
theorem Program.entries_fall_doubling : ∃ p o a b,
    ofNodes? (doubling 30) = some p ∧ p.generate ⟨∅, ∅⟩ = .ok o ∧
      o.layout.funcs.get? 0 = some a ∧ o.layout.funcs.get? 1 = some b ∧
      b.displacement < a.displacement := by
  obtain ⟨o, ho⟩ := exists_generate_doubling 30
  have hplace := place_of_ofNodes? (ofNodes?_doubling 30) ho
  refine ⟨_, o, _, _, ofNodes?_doubling 30, ho, hplace 0, hplace 1, ?_⟩
  rw [startOf_doubling]
  decide

end PrimeLang
