import PrimeLang.Proofs.ParserSound
import PrimeLang.Proofs.Visibility

/-! # Targets of assignments

The grammar lets values be assigned only to variables and to elements of variables. -/

namespace PrimeLang

namespace Tree.Expr
variable {α β : Type}

mutual

/-- Every assignment is to a variable or to an element of one. -/
def AssignsNames : Expr α → Prop
  | assign _ target value =>
    (∃ a name indices, target = ident a name indices) ∧ target.AssignsNames ∧ value.AssignsNames
  | binary _ _ lhs rhs => lhs.AssignsNames ∧ rhs.AssignsNames
  | ident _ _ indices => AssignsNamesAll indices
  | literal _ _ => True
  | call _ _ args => AssignsNamesAll args

def AssignsNamesAll : List (Expr α) → Prop
  | [] => True
  | e :: es => e.AssignsNames ∧ AssignsNamesAll es

end

theorem assignsNamesAll_iff {es : List (Expr α)} :
    AssignsNamesAll es ↔ ∀ e ∈ es, e.AssignsNames := by
  induction es with
  | nil => simp [AssignsNamesAll]
  | cons e es ih => rw [AssignsNamesAll, ih, List.forall_mem_cons]

mutual

theorem assignsNames_of_map {f : α → β} : ∀ e : Expr α, (e.map f).AssignsNames → e.AssignsNames
  | assign _ target value, h => by
    obtain ⟨⟨a, name, indices, htarget⟩, ht, hv⟩ := h
    refine ⟨?_, assignsNames_of_map target ht, assignsNames_of_map value hv⟩
    cases target with
    | ident a' name' indices' => exact ⟨a', name', indices', rfl⟩
    | _ => exact nomatch htarget
  | binary _ _ lhs rhs, h => ⟨assignsNames_of_map lhs h.1, assignsNames_of_map rhs h.2⟩
  | ident _ _ indices, h => assignsNamesAll_of_map indices h
  | literal _ _, _ => trivial
  | call _ _ args, h => assignsNamesAll_of_map args h

theorem assignsNamesAll_of_map {f : α → β} : ∀ es : List (Expr α),
    AssignsNamesAll (mapAll f es) → AssignsNamesAll es
  | [], _ => trivial
  | e :: es, h => ⟨assignsNames_of_map e h.1, assignsNamesAll_of_map es h.2⟩

end

end Tree.Expr

namespace Grammar
open Tree.Expr

mutual

theorem Expression.assignsNames {ts : List Token} {e : Tree.Expr Pos} :
    Expression ts e → e.AssignsNames
  | .term h => h.assignsNames
  | .assign ht _ he => ⟨⟨_, _, _, rfl⟩, ht.assignsNames, he.assignsNames⟩
  | .update ht _ _ he => ⟨⟨_, _, _, rfl⟩, ht.assignsNames, ht.assignsNames, he.assignsNames⟩

theorem Term.assignsNames {tiers : List Tier} {ts : List Token} {e : Tree.Expr Pos} :
    Term tiers ts e → e.AssignsNames
  | .operand h => h.assignsNames
  | .binary hl _ hr => ⟨hl.assignsNames, hr.assignsNames⟩
  | .paren _ h _ => h.assignsNames
  | .var _ => trivial
  | .element _ _ h _ => ⟨h.assignsNames, trivial⟩
  | .call _ _ hargs _ _ => assignsNamesAll_iff.2 fun e he => by
    obtain ⟨a, ha, rfl⟩ := List.mem_map.1 he
    exact (hargs a ha).assignsNames
  | .literal _ _ => trivial

end

end Grammar

namespace Stmt
variable {ε ε' β β' : Type}

theorem mem_exprsOf {e : ε} {ss : List (Stmt ε β)} :
    e ∈ exprsOf ss ↔ ∃ s ∈ ss, e ∈ s.exprs := by
  induction ss with
  | nil => simp [exprsOf]
  | cons s ss ih => simp [exprsOf, ih]

mutual

theorem exprs_map (f : ε → ε') (g : β → β') : ∀ s : Stmt ε β, (s.map f g).exprs = s.exprs.map f
  | decl _ _ => rfl
  | ifThen _ body => by simp [map, exprs, exprsOf_mapAll f g body]
  | ifElse _ body orElse => by
    simp [map, exprs, exprsOf_mapAll f g body, exprsOf_mapAll f g orElse]
  | loop _ _ _ _ body => by simp [map, exprs, exprsOf_mapAll f g body]
  | ret value => by cases value <;> rfl
  | eval _ => rfl

theorem exprsOf_mapAll (f : ε → ε') (g : β → β') : ∀ ss : List (Stmt ε β),
    exprsOf (mapAll f g ss) = (exprsOf ss).map f
  | [] => rfl
  | s :: ss => by simp [mapAll, exprsOf, exprs_map f g s, exprsOf_mapAll f g ss]

end

end Stmt

namespace Grammar

mutual

theorem Statement.assignsNames {ts : List Token} {s : Stmt (Tree.Expr Pos) Var} :
    Statement ts s → ∀ e ∈ s.exprs, e.AssignsNames
  | .decl _ _ hinit _, e, he => List.mem_singleton.1 he ▸ hinit.assignsNames
  | .ifThen _ hcond hbody, e, he => by
    rcases List.mem_cons.1 he with rfl | he
    · exact hcond.assignsNames
    · exact hbody.assignsNames e he
  | .ifElse _ hcond hbody _ helse, e, he => by
    rcases List.mem_cons.1 he with rfl | he
    · exact hcond.assignsNames
    · exact (List.mem_append.1 he).elim (hbody.assignsNames e) (helse.assignsNames e)
  | .loop _ _ _ hinit _ hcond _ hstep hbody, e, he => by
    rcases List.mem_cons.1 he with rfl | he
    · exact hinit.assignsNames
    · rcases List.mem_cons.1 he with rfl | he
      · exact hcond.assignsNames
      · rcases List.mem_cons.1 he with rfl | he
        · exact hstep.assignsNames
        · exact hbody.assignsNames e he
  | .ret _ _, e, he => nomatch he
  | .retValue _ h _, e, he => List.mem_singleton.1 he ▸ h.assignsNames
  | .eval h _, e, he => List.mem_singleton.1 he ▸ h.assignsNames

theorem Block.assignsNames {ts : List Token} {ss : List (Stmt (Tree.Expr Pos) Var)} :
    Block ts ss → ∀ e ∈ Stmt.exprsOf ss, e.AssignsNames
  | .intro _ hitems _, e, he => by
    obtain ⟨s, hs, he⟩ := Stmt.mem_exprsOf.1 he
    obtain ⟨i, hi, rfl⟩ := List.mem_map.1 hs
    exact (hitems i hi).assignsNames e he

end

theorem Program.assignsNames {ts : List Token} {fs : List (Func (Tree.Expr Pos) Var)}
    (h : Program ts fs) {f : Func (Tree.Expr Pos) Var} (hf : f ∈ fs) {e : Tree.Expr Pos}
    (he : e ∈ Stmt.exprsOf f.body) : e.AssignsNames := by
  cases h with
  | intro hitems _ =>
    obtain ⟨i, hi, rfl⟩ := List.mem_map.1 hf
    obtain ⟨ts, f⟩ := i
    cases hitems _ hi with
    | intro _ _ _ _ _ _ _ hbody => exact hbody.assignsNames e he

end Grammar

theorem Source.exists_grammar_of_parse {c : Cursor} {gs : List Source.Func}
    (h : Source.parse c = .ok gs) :
    ∃ ts, Grammar.Program ts (gs.map (Func.map Source.Expr.tree (fun v => v))) := by
  unfold Source.parse at h
  cases hrun : Source.Parse.program (c.rest.length + 1) c with
  | error e => simp [hrun, Except.map] at h
  | ok r =>
    rw [hrun] at h
    cases h
    obtain ⟨ts, -, hts⟩ := Source.Parse.program_sound _ hrun
    exact ⟨ts, hts⟩

theorem Program.assignsNames {c : Cursor} {p : Program} (hp : ofTokens c = .ok p)
    {e : Tree.Expr Site} (he : e ∈ p.exprs) : e.AssignsNames := by
  obtain ⟨gs, hgs, rfl⟩ := ofTokens_eq_ok.1 hp
  obtain ⟨ts, hts⟩ := Source.exists_grammar_of_parse hgs
  rw [← ofSource_funcs] at hts
  obtain ⟨f, hf, he⟩ := List.mem_flatMap.1 he
  refine Tree.Expr.assignsNames_of_map (f := Site.pos) e (hts.assignsNames (List.mem_map_of_mem hf) ?_)
  rw [Func.map, Stmt.exprsOf_mapAll]
  exact List.mem_map_of_mem he

namespace Tree.Expr
variable {ns : Nodes} {id target value : ExprId} {pos : Pos}

mutual

/-- Under the target of an assignment there is a name. -/
theorem target_of_mem_labels (hnode : ns.exprs[id]? = some (.assign target value, pos)) :
    ∀ e : Expr Site, e.Held ns → e.AssignsNames → id ∈ e.labels.map Site.id →
      ∃ name indices pos', ns.exprs[target]? = some (.ident name indices, pos')
  | assign a t v, hheld, hnames, hid => by
    rw [labels, List.map_cons, List.mem_cons, List.map_append, List.mem_append] at hid
    rcases hid with rfl | hid | hid
    · obtain ⟨site, name, indices, rfl⟩ := hnames.1
      cases hnode.symm.trans hheld.1
      exact ⟨_, _, _, hheld.2.1.1⟩
    · exact target_of_mem_labels hnode t hheld.2.1 hnames.2.1 hid
    · exact target_of_mem_labels hnode v hheld.2.2 hnames.2.2 hid
  | binary a op lhs rhs, hheld, hnames, hid => by
    rw [labels, List.map_cons, List.mem_cons, List.map_append, List.mem_append] at hid
    rcases hid with rfl | hid | hid
    · cases hnode.symm.trans hheld.1
    · exact target_of_mem_labels hnode lhs hheld.2.1 hnames.1 hid
    · exact target_of_mem_labels hnode rhs hheld.2.2 hnames.2 hid
  | ident a name indices, hheld, hnames, hid => by
    rw [labels, List.map_cons, List.mem_cons] at hid
    rcases hid with rfl | hid
    · cases hnode.symm.trans hheld.1
    · exact target_of_mem_labelsAll hnode indices hheld.2 hnames hid
  | literal a w, hheld, _, hid => by
    rw [labels, List.map_singleton, List.mem_singleton] at hid
    subst hid
    cases hnode.symm.trans hheld
  | call a name args, hheld, hnames, hid => by
    rw [labels, List.map_cons, List.mem_cons] at hid
    rcases hid with rfl | hid
    · cases hnode.symm.trans hheld.1
    · exact target_of_mem_labelsAll hnode args hheld.2 hnames hid

theorem target_of_mem_labelsAll (hnode : ns.exprs[id]? = some (.assign target value, pos)) :
    ∀ es : List (Expr Site), HeldAll ns es → AssignsNamesAll es →
      id ∈ (labelsAll es).map Site.id →
      ∃ name indices pos', ns.exprs[target]? = some (.ident name indices, pos')
  | [], _, _, hid => by simp [labelsAll] at hid
  | e :: es, hheld, hnames, hid => by
    rw [labelsAll, List.map_append, List.mem_append] at hid
    rcases hid with hid | hid
    · exact target_of_mem_labels hnode e hheld.1 hnames.1 hid
    · exact target_of_mem_labelsAll hnode es hheld.2 hnames.2 hid

end

end Tree.Expr

/-- Every assignment of a program is to a name. -/
theorem Program.target_of_assign {c : Cursor} {p : Program} (hp : ofTokens c = .ok p)
    {id target value : ExprId} {pos : Pos}
    (hnode : p.nodes.exprs[id]? = some (.assign target value, pos)) :
    ∃ name indices pos', p.nodes.exprs[target]? = some (.ident name indices, pos') := by
  have hwf := ofTokens_wellFormed hp
  obtain ⟨site, hsite, rfl, -⟩ := exists_label hwf hnode
  obtain ⟨e, he, hlabel⟩ := List.mem_flatMap.1 hsite
  exact Tree.Expr.target_of_mem_labels hnode e (hwf.held he) (assignsNames hp he)
    (List.mem_map_of_mem hlabel)

end PrimeLang
