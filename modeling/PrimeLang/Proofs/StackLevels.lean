import PrimeLang.Proofs.StackEffect

/-! # Levels of the stack

The effects of all instructions before an address add up to a level. In the code of a statement
jumps lead between addresses where the levels agree, so along every control path the stack is as
high as the levels say. -/

namespace PrimeLang
open Machine

namespace Code

/-- What is asked for from the address `a` on satisfies `P` at its address. -/
def Each (P : Nat → Request → Prop) (a : Nat) (qs : List Request) : Prop :=
  ∀ k q, qs[k]? = some q → P (a + k) q

namespace Each
variable {P : Nat → Request → Prop} {a : Nat} {q : Request} {qs qs' : List Request}

theorem nil : Each P a [] := by
  intro k q hk
  cases hk

theorem cons_iff : Each P a (q :: qs) ↔ P a q ∧ Each P (a + 1) qs := by
  constructor
  · intro h
    refine ⟨h 0 q rfl, fun k q' hk => ?_⟩
    rw [Nat.add_assoc, Nat.add_comm 1]
    exact h (k + 1) q' hk
  · intro ⟨hq, hqs⟩ k q' hk
    cases k with
    | zero =>
      cases hk
      exact hq
    | succ k =>
      rw [Nat.add_comm k, ← Nat.add_assoc]
      exact hqs k q' hk

theorem append_iff : Each P a (qs ++ qs') ↔ Each P a qs ∧ Each P (a + qs.length) qs' := by
  induction qs generalizing a with
  | nil => exact ⟨fun h => ⟨.nil, h⟩, fun h => h.2⟩
  | cons q qs ih =>
    rw [List.cons_append, cons_iff, cons_iff, ih, and_assoc, List.length_cons, Nat.add_assoc,
      Nat.add_comm 1]

theorem singleton (hq : P a q) : Each P a [q] := cons_iff.2 ⟨hq, .nil⟩

theorem of_forall (h : ∀ q ∈ qs, ∀ a, P a q) : Each P a qs :=
  fun _ q hq => h q (List.mem_of_getElem? hq) _

end Each
end Code

namespace Object
variable {o : Object} {ns : Nodes} {a : Nat} {i : Instruction} {qs : List Request}

/-- From the address `a` on the code is what `qs` ask for. -/
def Holds (o : Object) : Nat → List Request → Prop :=
  Code.Each fun a q => o.code[a]? = some q.instruction

theorem holds_append_iff {qs' : List Request} :
    o.Holds a (qs ++ qs') ↔ o.Holds a qs ∧ o.Holds (a + qs.length) qs' := Code.Each.append_iff

theorem Holds.end_le (h : o.Holds a qs) (hne : qs ≠ []) : a + qs.length ≤ o.code.size := by
  have hpos := List.length_pos_iff.2 hne
  have hlast := h (qs.length - 1) _ (List.getElem?_eq_getElem (by omega))
  have hlt := (Array.getElem?_eq_some_iff.1 hlast).1
  omega

/-- What the instructions before an address add to the stack one after the other. -/
def level (o : Object) (ns : Nodes) (a : Nat) : Int := o.rise ns (o.code.toList.take a)

theorem level_succ (hi : o.code[a]? = some i) :
    o.level ns (a + 1) = o.level ns a + o.effect ns i := by
  rw [level, List.take_add_one, Array.getElem?_toList, hi, rise_append]
  show _ + (_ + 0) = _
  rw [Int.add_zero, level]

theorem Holds.level (h : o.Holds a qs) :
    o.level ns (a + qs.length) = o.level ns a + o.rise ns (qs.map Request.instruction) := by
  induction qs generalizing a with
  | nil => exact (Int.add_zero _).symm
  | cons q qs ih =>
    obtain ⟨hq, hqs⟩ := Code.Each.cons_iff.1 h
    rw [List.length_cons, Nat.add_comm qs.length, ← Nat.add_assoc, ih hqs, level_succ hq,
      List.map_cons, rise_cons, Int.add_assoc]

theorem Holds.level_of_accounts {env : Code.Env} {need net : Int} (h : o.Holds a qs)
    (haccounts : env.Accounts o need qs net 0) :
    o.level env.cx.nodes (a + qs.length) = o.level env.cx.nodes a + net := by
  rw [h.level, haccounts.rise]
  omega

/-- A request at the address `a` of a piece of code from `lo` to `hi` that starts at the level
`base`: a return finds just its own words above that level, and a jump leads to where the level
fits. -/
structure Steady (o : Object) (ns : Nodes) (base : Int) (lo hi a : Nat) (q : Request) : Prop where
  ret : q.op = .ret → o.level ns a = base + q.instruction.n.toInt
  jump : q.op = .jump ∨ q.op = .jumpIf → ∃ target : Nat, q.instruction.d.toInt = target ∧
    lo ≤ target ∧ target ≤ hi ∧ o.level ns target = o.level ns a + o.effect ns q.instruction

/-- One step of a control path between `lo` and `hi`, with the height of the stack. A call comes
back behind it. -/
inductive Climbs (o : Object) (ns : Nodes) (lo hi : Nat) : Nat × Int → Nat × Int → Prop
  | next {a : Nat} {h : Int} {i : Instruction} : lo ≤ a → a < hi → o.code[a]? = some i →
    i.op ≠ .jump → i.op ≠ .ret → i.op ≠ .halt → Climbs o ns lo hi (a, h) (a + 1, h + o.effect ns i)
  | jump {a target : Nat} {h : Int} {i : Instruction} : lo ≤ a → a < hi → o.code[a]? = some i →
    i.op = .jump ∨ i.op = .jumpIf → i.d.toInt = target →
    Climbs o ns lo hi (a, h) (target, h + o.effect ns i)

/-- Along a path through steady code the stack is as high as the levels say. -/
theorem height_eq_level {lo hi : Nat} {h : Int} (hhi : lo + qs.length = hi) (hholds : o.Holds lo qs)
    (hsteady : Code.Each (o.Steady ns (o.level ns lo) lo hi) lo qs)
    (hpath : Relation.ReflTransGen (o.Climbs ns lo hi) (lo, 0) (a, h)) :
    lo ≤ a ∧ a ≤ hi ∧ o.level ns a = o.level ns lo + h := by
  generalize hx : (a, h) = x at hpath
  induction hpath generalizing a h with
  | refl =>
    cases hx
    exact ⟨Nat.le_refl _, by omega, (Int.add_zero _).symm⟩
  | tail _ hstep ih =>
    cases hx
    cases hstep with
    | @next a h i hlo hlt hi =>
      obtain ⟨-, -, hlevel⟩ := ih rfl
      rw [level_succ hi, hlevel, Int.add_assoc]
      exact ⟨by omega, hlt, rfl⟩
    | @jump a target h i hlo hlt hi hop htarget =>
      obtain ⟨-, -, hlevel⟩ := ih rfl
      obtain ⟨k, rfl⟩ := Nat.exists_eq_add_of_le hlo
      obtain ⟨q, hq⟩ : ∃ q, qs[k]? = some q := ⟨_, List.getElem?_eq_getElem (by omega)⟩
      cases hi.symm.trans (hholds k q hq)
      obtain ⟨target', htarget', hle, hle', hfits⟩ := (hsteady k q hq).jump hop
      cases Int.ofNat_inj.1 (htarget.symm.trans htarget')
      rw [hfits, hlevel, Int.add_assoc]
      exact ⟨hle, hle', rfl⟩

end Object

/-! ## Statements -/

namespace Code
variable {o : Object} {env : Env} {base : Int} {lo hi start : Nat}

/-- Within an expression control just goes on. -/
theorem steady_expr (use : Use) (e : Tree.Expr Site) :
    Each (o.Steady env.cx.nodes base lo hi) start (expr env use e) := by
  apply Each.of_forall
  intro q hq a
  have hop : q.op ≠ .ret ∧ q.op ≠ .jump ∧ q.op ≠ .jumpIf := by
    cases ofExpr_expr env e hq with
    | access _ hop _ => rcases hop with rfl | rfl <;> simp [Env.access]
    | indirect hop => rcases hop with rfl | rfl <;> simp
    | copy | literal | routine | call | pop => simp [routine, Env.callAt, pop]
  exact ⟨fun hret => absurd hret hop.1, fun hjump => absurd hjump (not_or.2 hop.2)⟩

theorem steady_jump {q : Request} {target : Nat} (hd : q.d = Segment.addressOf target)
    (hret : q.op ≠ .ret) (hlo : lo ≤ target) (hhi : target ≤ hi) (hsmall : hi ≤ codeCapacity)
    (hlevel : o.level env.cx.nodes target =
      o.level env.cx.nodes start + o.effect env.cx.nodes q.instruction) :
    o.Steady env.cx.nodes base lo hi start q where
  ret hop := absurd hop hret
  jump _ := ⟨target, Request.toInt_d_of_addressOf hd (Nat.le_trans hhi hsmall), hlo, hhi, hlevel⟩

theorem steady_ret {n : Int} (hlevel : o.level env.cx.nodes start =
      base + (ret env n).instruction.n.toInt) :
    o.Steady env.cx.nodes base lo hi start (ret env n) where
  ret _ := hlevel
  jump hop := by rcases hop with hop | hop <;> cases hop

theorem steady_declare (v : Tree.Var) (init : Tree.Expr Site) :
    Each (o.Steady env.cx.nodes base lo hi) start (declare env v init) := by
  refine Each.append_iff.2 ⟨steady_expr .value init, .singleton ⟨fun hop => ?_, fun hop => ?_⟩⟩
  · cases hop
  · rcases hop with hop | hop <;> cases hop

/-! Conditions and what they guard, with the levels where their parts start. -/

section
variable {c b d : List Request}

theorem holds_guarded (h : o.Holds start (guarded start c b)) :
    o.Holds start c ∧
      o.code[start + c.length]? =
        some (jumpIfFalse (start + c.length + 1 + b.length)).instruction ∧
      o.Holds (start + c.length + 1) b := by
  obtain ⟨hc, hjb⟩ := Object.holds_append_iff.1 h
  exact ⟨hc, Each.cons_iff.1 hjb⟩

theorem level_guarded (h : o.Holds start (guarded start c b)) (hc : env.Accounts o 0 c 1 0) :
    o.level env.cx.nodes (start + c.length) = o.level env.cx.nodes start + 1 ∧
      o.level env.cx.nodes (start + c.length + 1) = o.level env.cx.nodes start := by
  obtain ⟨hholds, hjump, -⟩ := holds_guarded h
  have hlevel := hholds.level_of_accounts hc
  refine ⟨hlevel, ?_⟩
  rw [Object.level_succ hjump, hlevel]
  exact Int.add_neg_cancel_right _ 1

theorem steady_guarded (h : o.Holds start (guarded start c b)) (hc : env.Accounts o 0 c 1 0)
    (hb : env.Accounts o 0 b 0 0) (hlo : lo ≤ start)
    (hhi : start + c.length + 1 + b.length ≤ hi) (hsmall : hi ≤ codeCapacity)
    (hsteady : Each (o.Steady env.cx.nodes base lo hi) start c)
    (hsteady' : Each (o.Steady env.cx.nodes base lo hi) (start + c.length + 1) b) :
    Each (o.Steady env.cx.nodes base lo hi) start (guarded start c b) := by
  obtain ⟨hlevel, hlevel'⟩ := level_guarded h hc
  refine Each.append_iff.2 ⟨hsteady, Each.cons_iff.2 ⟨?_, hsteady'⟩⟩
  refine steady_jump rfl (by simp [jumpIfFalse]) (by omega) hhi hsmall ?_
  rw [(holds_guarded h).2.2.level_of_accounts hb, hlevel', hlevel]
  show _ + 0 = _ + 1 + -1
  omega

/-- Two alternatives, where the first one skips over the second. -/
theorem steady_alternatives {other : Nat} (hother : start + c.length + 1 + (b.length + 1) = other)
    (h : o.Holds start (guarded start c (b ++ [jump (other + d.length)]) ++ d))
    (hc : env.Accounts o 0 c 1 0) (hb : env.Accounts o 0 b 0 0) (hd : env.Accounts o 0 d 0 0)
    (hlo : lo ≤ start) (hhi : other + d.length ≤ hi) (hsmall : hi ≤ codeCapacity)
    (hsteady : Each (o.Steady env.cx.nodes base lo hi) start c)
    (hfirst : o.Holds (start + c.length + 1) b →
      o.level env.cx.nodes (start + c.length + 1) = o.level env.cx.nodes start →
      Each (o.Steady env.cx.nodes base lo hi) (start + c.length + 1) b)
    (hsecond : o.Holds other d → o.level env.cx.nodes other = o.level env.cx.nodes start →
      Each (o.Steady env.cx.nodes base lo hi) other d) :
    Each (o.Steady env.cx.nodes base lo hi) start
      (guarded start c (b ++ [jump (other + d.length)]) ++ d) := by
  obtain ⟨hguarded, hholds⟩ := Object.holds_append_iff.1 h
  have hbj := hb.append (accounts_jump (other + d.length)) (by decide)
  have hend : start + (guarded start c (b ++ [jump (other + d.length)])).length = other := by
    rw [length_guarded, List.length_append, List.length_singleton]
    omega
  have hlevel := hguarded.level_of_accounts (accounts_guarded start hc hbj)
  rw [hend, Int.add_zero] at hlevel
  rw [hend] at hholds
  obtain ⟨hbody, -⟩ := Object.holds_append_iff.1 (holds_guarded hguarded).2.2
  have hlevel' := (level_guarded hguarded hc).2
  have hjump : o.Steady env.cx.nodes base lo hi (start + c.length + 1 + b.length)
      (jump (other + d.length)) := by
    refine steady_jump rfl (by simp [jump]) (by omega) hhi hsmall ?_
    rw [hholds.level_of_accounts hd, hlevel, hbody.level_of_accounts hb, hlevel']
    exact (Int.add_zero _).symm
  refine Each.append_iff.2 ⟨?_, ?_⟩
  · refine steady_guarded hguarded hc hbj hlo ?_ hsmall hsteady
      (Each.append_iff.2 ⟨hfirst hbody hlevel', .singleton hjump⟩)
    rw [List.length_append, List.length_singleton]
    omega
  · rw [hend]
    exact hsecond hholds hlevel

/-- A loop, which jumps back to its condition. -/
theorem steady_loop (h : o.Holds start (guarded start c (b ++ d ++ [jump start])))
    (hc : env.Accounts o 0 c 1 0) (hb : env.Accounts o 0 b 0 0) (hd : env.Accounts o 0 d 0 0)
    (hlo : lo ≤ start) (hhi : start + c.length + 1 + (b.length + d.length + 1) ≤ hi)
    (hsmall : hi ≤ codeCapacity)
    (hsteady : Each (o.Steady env.cx.nodes base lo hi) start c)
    (hbody : o.Holds (start + c.length + 1) b →
      o.level env.cx.nodes (start + c.length + 1) = o.level env.cx.nodes start →
      Each (o.Steady env.cx.nodes base lo hi) (start + c.length + 1) b)
    (hstep : Each (o.Steady env.cx.nodes base lo hi) (start + c.length + 1 + b.length) d) :
    Each (o.Steady env.cx.nodes base lo hi) start (guarded start c (b ++ d ++ [jump start])) := by
  have hbd := hb.append hd (by decide)
  obtain ⟨hholds, -⟩ := Object.holds_append_iff.1 (holds_guarded h).2.2
  have hlevel := (level_guarded h hc).2
  refine steady_guarded h hc (hbd.append (accounts_jump start) (by decide)) hlo ?_ hsmall hsteady
    (Each.append_iff.2 ⟨Each.append_iff.2 ⟨?_, hstep⟩, .singleton ?_⟩)
  · rw [List.length_append, List.length_append, List.length_singleton]
    omega
  · exact hbody (Object.holds_append_iff.1 hholds).1 hlevel
  · refine steady_jump rfl (by simp [jump]) hlo (by omega) hsmall ?_
    rw [hholds.level_of_accounts hbd, hlevel]
    show _ = _ + (0 + 0) + 0
    omega

end

mutual

/-- Returns in a statement find just their own words above its start, and jumps lead between equal
levels. -/
theorem steady_stmt (o : Object) (env : Env) : ∀ (s : Tree.Stmt) {start lo hi : Nat},
    (∀ e ∈ s.exprs, env.Accountable o e) → stmtVoids env.cx s = 0 →
    o.Holds start (stmt env start s) → lo ≤ start → start + (stmt env start s).length ≤ hi →
    hi ≤ codeCapacity →
    Each (o.Steady env.cx.nodes (o.level env.cx.nodes start) lo hi) start (stmt env start s)
  | .decl v init, start, lo, hi, h, hv, hholds, hlo, hhi, hsmall => by
    rw [stmt]
    exact steady_declare v init
  | .ifThen cond body, start, lo, hi, h, hv, hholds, hlo, hhi, hsmall => by
    obtain ⟨hcond, hbody⟩ := List.forall_mem_cons.1 h
    rw [stmtVoids] at hv
    obtain ⟨hvcond, hvbody⟩ := Nat.add_eq_zero_iff.1 hv
    have hc := hvcond ▸ hcond.accounts .value
    have hb := fun start => hvbody ▸ accounts_block o env body start hbody
    rw [stmt] at hholds hhi ⊢
    rw [length_guarded] at hhi
    refine steady_guarded hholds hc (hb _) hlo (by omega) hsmall (steady_expr .value cond) ?_
    rw [← (level_guarded hholds hc).2]
    exact steady_block o env body hbody hvbody (holds_guarded hholds).2.2 (by omega) (by omega)
      hsmall
  | .ifElse cond body orElse, start, lo, hi, h, hv, hholds, hlo, hhi, hsmall => by
    obtain ⟨hcond, h⟩ := List.forall_mem_cons.1 h
    obtain ⟨hbody, helse⟩ := List.forall_mem_append.1 h
    rw [stmtVoids] at hv
    obtain ⟨hv, hvelse⟩ := Nat.add_eq_zero_iff.1 hv
    obtain ⟨hvcond, hvbody⟩ := Nat.add_eq_zero_iff.1 hv
    have hc := hvcond ▸ hcond.accounts .value
    have hb := fun start => hvbody ▸ accounts_block o env body start hbody
    have hd := fun start => hvelse ▸ accounts_block o env orElse start helse
    rw [stmt] at hholds hhi ⊢
    rw [List.length_append, length_guarded, List.length_append, List.length_singleton] at hhi
    refine steady_alternatives rfl hholds hc (hb _) (hd _) hlo (by omega) hsmall
      (steady_expr .value cond) (fun hholds hlevel => ?_) (fun hholds hlevel => ?_)
    · rw [← hlevel]
      exact steady_block o env body hbody hvbody hholds (by omega) (by omega) hsmall
    · rw [← hlevel]
      exact steady_block o env orElse helse hvelse hholds (by omega) (by omega) hsmall
  | .loop v init cond step body, start, lo, hi, h, hv, hholds, hlo, hhi, hsmall => by
    obtain ⟨hinit, h⟩ := List.forall_mem_cons.1 h
    obtain ⟨hcond, h⟩ := List.forall_mem_cons.1 h
    obtain ⟨hstep, hbody⟩ := List.forall_mem_cons.1 h
    rw [stmtVoids] at hv
    obtain ⟨hv, hvstep⟩ := Nat.add_eq_zero_iff.1 hv
    obtain ⟨hv, hvbody⟩ := Nat.add_eq_zero_iff.1 hv
    obtain ⟨hvinit, hvcond⟩ := Nat.add_eq_zero_iff.1 hv
    have hi' := hvinit ▸ accounts_declare (v := v) hinit
    have hc := hvcond ▸ hcond.accounts .value
    have hb := fun start => hvbody ▸ accounts_block o env body start hbody
    rw [stmt] at hholds hhi ⊢
    rw [List.length_append, length_guarded, List.length_append, List.length_append,
      List.length_singleton] at hhi
    obtain ⟨hdecl, hloop⟩ := Object.holds_append_iff.1 hholds
    have hhead := hdecl.level_of_accounts hi'
    rw [Int.add_zero] at hhead
    refine Each.append_iff.2 ⟨steady_declare v init, ?_⟩
    refine steady_loop hloop hc (hb _) (hvstep ▸ hstep.accounts .effect) (by omega) (by omega)
      hsmall (steady_expr .value cond) (fun hholds hlevel => ?_) (steady_expr .effect step)
    rw [← hhead, ← hlevel]
    exact steady_block o env body hbody hvbody hholds (by omega) (by omega) hsmall
  | .ret none, start, lo, hi, h, hv, hholds, hlo, hhi, hsmall =>
    .singleton (steady_ret (Int.add_zero _).symm)
  | .ret (some value), start, lo, hi, h, hv, hholds, hlo, hhi, hsmall => by
    rw [stmtVoids] at hv
    have hc := hv ▸ (h value List.mem_cons_self).accounts .value
    rw [stmt] at hholds ⊢
    obtain ⟨hvalue, -⟩ := Object.holds_append_iff.1 hholds
    refine Each.append_iff.2 ⟨steady_expr .value value, .singleton (steady_ret ?_)⟩
    exact hvalue.level_of_accounts hc
  | .eval e, start, lo, hi, h, hv, hholds, hlo, hhi, hsmall => by
    rw [stmt]
    exact steady_expr .effect e

theorem steady_block (o : Object) (env : Env) : ∀ (ss : List Tree.Stmt) {start lo hi : Nat},
    (∀ e ∈ Stmt.exprsOf ss, env.Accountable o e) → blockVoids env.cx ss = 0 →
    o.Holds start (block env start ss) → lo ≤ start → start + (block env start ss).length ≤ hi →
    hi ≤ codeCapacity →
    Each (o.Steady env.cx.nodes (o.level env.cx.nodes start) lo hi) start (block env start ss)
  | [], _, _, _, _, _, _, _, _, _ => .nil
  | s :: ss, start, lo, hi, h, hv, hholds, hlo, hhi, hsmall => by
    obtain ⟨hs, hss⟩ := List.forall_mem_append.1 h
    rw [blockVoids] at hv
    obtain ⟨hvs, hvss⟩ := Nat.add_eq_zero_iff.1 hv
    have hc := hvs ▸ accounts_stmt o env s start hs
    rw [block] at hholds hhi ⊢
    rw [List.length_append] at hhi
    obtain ⟨hfirst, hrest⟩ := Object.holds_append_iff.1 hholds
    have hlevel := hfirst.level_of_accounts hc
    rw [Int.add_zero] at hlevel
    refine Each.append_iff.2 ⟨?_, ?_⟩
    · exact steady_stmt o env s hs hvs hfirst hlo (by omega) hsmall
    · rw [← hlevel]
      exact steady_block o env ss hss hvss hrest (by omega) (by omega) hsmall

end

/-- Along every path through a statement without calls that lack a result, the stack is never lower
than at its start, instructions find what they take off, returns find just their own words, and the
end is as high as the start. -/
theorem stmt_heights {s : Tree.Stmt} (haccount : ∀ e ∈ s.exprs, env.Accountable o e)
    (hv : stmtVoids env.cx s = 0) (hholds : o.Holds lo (stmt env lo s))
    (hhi : lo + (stmt env lo s).length = hi) (hsize : o.code.size ≤ codeCapacity) {a : Nat}
    {h : Int} (hpath : Relation.ReflTransGen (o.Climbs env.cx.nodes lo hi) (lo, 0) (a, h)) :
    lo ≤ a ∧ a ≤ hi ∧ 0 ≤ h ∧ (a = hi → h = 0) ∧
      ∀ i, a < hi → o.code[a]? = some i →
        o.takes env.cx.nodes i ≤ h ∧ (i.op = .ret → h = i.n.toInt) := by
  have haccounts := hv ▸ accounts_stmt o env s lo haccount
  have hsteady :
      Each (o.Steady env.cx.nodes (o.level env.cx.nodes lo) lo hi) lo (stmt env lo s) := by
    by_cases hnil : stmt env lo s = []
    · rw [hnil]
      exact .nil
    · have hend := hholds.end_le hnil
      exact steady_stmt o env s haccount hv hholds (Nat.le_refl _) (Nat.le_of_eq hhi) (by omega)
  obtain ⟨hlo, hle, hlevel⟩ := Object.height_eq_level hhi hholds hsteady hpath
  obtain ⟨k, rfl⟩ := Nat.exists_eq_add_of_le hlo
  have hsound := haccounts.sound rfl (Int.le_refl 0)
  -- the height is what the code up to here adds
  have hheight : h = o.rise env.cx.nodes (((stmt env lo s).map Request.instruction).take k) := by
    rw [← List.take_append_drop k (stmt env lo s)] at hholds
    have hprefix : o.level env.cx.nodes _ = _ := (Object.holds_append_iff.1 hholds).1.level
    rw [List.length_take_of_le (by omega), hlevel, List.map_take] at hprefix
    omega
  refine ⟨hlo, hle, ?_, fun hend => ?_, fun i hlt hi => ?_⟩
  · have hnonneg := hsound.le_rise_take k
    omega
  · have htotal := hholds.level_of_accounts haccounts
    rw [hhi, ← hend, hlevel] at htotal
    omega
  · obtain ⟨q, hq⟩ : ∃ q, (stmt env lo s)[k]? = some q :=
      ⟨_, List.getElem?_eq_getElem (by omega)⟩
    cases hi.symm.trans (hholds k q hq)
    refine ⟨?_, fun hop => ?_⟩
    · have htakes := hsound.takes_le (k := k) (by rw [List.getElem?_map, hq]; rfl)
      omega
    · have hret := (hsteady k q hq).ret hop
      omega

end Code
end PrimeLang
