import PrimeLang.Proofs.ParserComplete

/-! # Where assignments stand in a text

The tokens of a target or of a value nest brackets, and whatever could begin or end an expression
stands inside brackets there (`Grammar.fenced_term`). So the tokens around an assignment symbol have
only one division into a target and a value that stand as an expression. In a derived program every
assignment symbol is the operator of such an expression, for which any other tokens of the same tree
can be put (`Grammar.focus_of_program`), or it belongs to a declaration. -/

namespace PrimeLang

namespace Token.Kind

/-- By how much a token changes the number of open brackets. -/
def nesting : Kind → Int
  | symbol .lparen | symbol .lbracket => 1
  | symbol .rparen | symbol .rbracket => -1
  | _ => 0

/-- An expression can begin behind a token of this kind, and no operand does within another. -/
def opensExpr : Kind → Bool
  | symbol .lparen | symbol .lbracket | symbol .comma | symbol .semicolon | symbol .assign
  | symbol .lbrace | symbol .rbrace | keyword .if_ | keyword .return_ => true
  | _ => false

/-- An expression can end before a token of this kind. -/
def closesExpr : Kind → Bool
  | symbol .rparen | symbol .rbracket | symbol .comma | symbol .semicolon | symbol .lbrace => true
  | _ => false

/-- Expressions have tokens of this kind. -/
def inExpr : Kind → Bool
  | symbol _ | ident | number => true
  | _ => false

end Token.Kind

namespace Grammar

/-! ## Brackets -/

/-- By how much tokens change the number of open brackets. -/
def nesting (ts : List Token) : Int := ts.foldr (fun t n => t.kind.nesting + n) 0

@[simp] theorem nesting_nil : nesting [] = 0 := rfl

@[simp] theorem nesting_cons (t : Token) (ts : List Token) :
    nesting (t :: ts) = t.kind.nesting + nesting ts := rfl

@[simp] theorem nesting_append (ts us : List Token) :
    nesting (ts ++ us) = nesting ts + nesting us := by
  induction ts with
  | nil => simp
  | cons t ts ih => simp [ih, Int.add_assoc]

/-- A token of a list of two parts is in one of them. -/
theorem append_eq_append_cons {α : Type} {xs ys l r : List α} {a : α}
    (h : xs ++ ys = l ++ a :: r) :
    (∃ r', xs = l ++ a :: r' ∧ r = r' ++ ys) ∨ ∃ l', l = xs ++ l' ∧ ys = l' ++ a :: r := by
  rcases List.append_eq_append_iff.1 h with ⟨l', rfl, rfl⟩ | ⟨r', rfl, hr⟩
  · exact .inr ⟨l', rfl, rfl⟩
  · cases r' with
    | nil => exact .inr ⟨[], by simp, by simpa using hr.symm⟩
    | cons b r' =>
      obtain ⟨rfl, rfl⟩ := List.cons.inj hr
      exact .inl ⟨r', rfl, rfl⟩

/-- The tokens lead from `i` open brackets to `j`, and those behind which an expression can begin,
or before which it can end, stand inside `n` open brackets at least. -/
structure Fenced (n i j : Int) (ts : List Token) : Prop where
  change : i + nesting ts = j
  opens : ∀ l t r, ts = l ++ t :: r → t.kind.opensExpr → n ≤ i + nesting (l ++ [t])
  closes : ∀ l t r, ts = l ++ t :: r → t.kind.closesExpr → n ≤ i + nesting l
  kinds : ∀ t ∈ ts, t.kind.inExpr

namespace Fenced
variable {n i j : Int} {ts us : List Token}

theorem nil : Fenced n i i [] := ⟨by simp, by simp, by simp, by simp⟩

theorem single {t : Token} {k : Token.Kind} (ht : t.kind = k) (hchange : i + k.nesting = j)
    (hopens : k.opensExpr → n ≤ j) (hcloses : k.closesExpr → n ≤ i) (hkind : k.inExpr) :
    Fenced n i j [t] := by
  subst ht
  have hsplit : ∀ l u r, [t] = l ++ u :: r → l = [] ∧ u = t := by
    intro l u r h
    simp only [List.cons_eq_append_iff, List.cons.injEq, List.nil_eq, List.append_eq_nil_iff] at h
    rcases h with ⟨rfl, rfl, -⟩ | ⟨l', rfl, -, h⟩
    · exact ⟨rfl, rfl⟩
    · cases h
  refine ⟨by simpa using hchange, fun l u r h hu => ?_, fun l u r h hu => ?_, fun u hu => ?_⟩
  · obtain ⟨rfl, rfl⟩ := hsplit l u r h
    simpa [hchange] using hopens hu
  · obtain ⟨rfl, rfl⟩ := hsplit l u r h
    simpa using hcloses hu
  · rwa [List.mem_singleton.1 hu]

theorem append {k : Int} (hts : Fenced n i j ts) (hus : Fenced n j k us) :
    Fenced n i k (ts ++ us) where
  change := by rw [nesting_append, ← Int.add_assoc, hts.change, hus.change]
  opens l t r h ht := by
    rcases append_eq_append_cons h with ⟨r', hl, -⟩ | ⟨l', rfl, hr⟩
    · exact hts.opens l t r' hl ht
    · rw [List.append_assoc, nesting_append, ← Int.add_assoc, hts.change]
      exact hus.opens l' t r hr ht
  closes l t r h ht := by
    rcases append_eq_append_cons h with ⟨r', hl, -⟩ | ⟨l', rfl, hr⟩
    · exact hts.closes l t r' hl ht
    · rw [nesting_append, ← Int.add_assoc, hts.change]
      exact hus.closes l' t r hr ht
  kinds t ht := (List.mem_append.1 ht).elim (hts.kinds t) (hus.kinds t)

theorem mono {m : Int} (h : Fenced n i j ts) (hm : m ≤ n) : Fenced m i j ts where
  change := h.change
  opens l t r hts ht := Int.le_trans hm (h.opens l t r hts ht)
  closes l t r hts ht := Int.le_trans hm (h.closes l t r hts ht)
  kinds := h.kinds

theorem shift (m : Int) (h : Fenced n i j ts) : Fenced (n + m) (i + m) (j + m) ts where
  change := by rw [Int.add_right_comm, h.change]
  opens l t r hts ht := by
    rw [Int.add_right_comm]
    exact Int.add_le_add_right (h.opens l t r hts ht) m
  closes l t r hts ht := by
    rw [Int.add_right_comm]
    exact Int.add_le_add_right (h.closes l t r hts ht) m
  kinds := h.kinds

/-- Brackets fence in what they enclose. -/
theorem bracket {l r : Token} (h : Fenced 0 0 0 ts)
    (hl : l.kind = .symbol .lparen ∨ l.kind = .symbol .lbracket)
    (hr : r.kind = .symbol .rparen ∨ r.kind = .symbol .rbracket) :
    Fenced 1 0 0 (l :: (ts ++ [r])) := by
  have hopen : Fenced 1 0 1 [l] := by
    rcases hl with hl | hl <;> exact single hl rfl (by decide) (by decide) rfl
  have hclose : Fenced 1 1 0 [r] := by
    rcases hr with hr | hr <;> exact single hr rfl (by decide) (by decide) rfl
  exact hopen.append ((h.shift 1).append hclose)

theorem joined {items : List (List Token)} (hitems : ∀ ts ∈ items, Fenced 0 0 0 ts)
    (h : Joined items ts) : Fenced 0 0 0 ts := by
  induction h with
  | nil => exact nil
  | one => exact hitems _ List.mem_cons_self
  | cons hcomma _ ih =>
    have hsep := single hcomma (n := 0) (i := 0) rfl (by decide) (by decide) rfl
    refine (hitems _ List.mem_cons_self).append (hsep.append (ih fun ts hts => ?_))
    exact hitems ts (List.mem_cons_of_mem _ hts)

end Fenced

theorem fenced_name {x : Token} (hx : x.kind = .ident ∨ x.kind = .number) : Fenced 1 0 0 [x] := by
  rcases hx with hx | hx <;> exact .single hx rfl (by decide) (by decide) rfl

theorem fenced_operator {t : Token} {b : BinaryOp} (ht : t.kind = .symbol (.operator b)) :
    Fenced 1 0 0 [t] :=
  .single ht rfl (by simp [Token.Kind.opensExpr]) (by simp [Token.Kind.closesExpr]) rfl

/-- The symbol of an assignment opens no brackets. -/
theorem fenced_assignment {t : Token} {o : Option BinaryOp}
    (ht : Source.Parse.assignmentOf t.kind = some o) : Fenced 0 0 0 [t] := by
  rcases Source.Parse.assignmentOf_eq_some.1 ht with ⟨ht, -⟩ | ⟨s, b, ht, hs, -⟩
  · exact .single ht rfl (by decide) (by decide) rfl
  · refine .single ht ?_ (fun _ => Int.le_refl 0) (fun _ => Int.le_refl 0) rfl
    cases s <;> first | rfl | cases hs

mutual

theorem fenced_expression {ts : List Token} {e : Tree.Expr Pos} :
    Expression ts e → Fenced 0 0 0 ts
  | .term h => (fenced_term h).mono Int.one_nonneg
  | .assign htarget hop hvalue => by
    have hsymbol := fenced_assignment (Source.Parse.assignmentOf_eq_some.2 (.inl ⟨hop, rfl⟩))
    exact ((fenced_term htarget).mono Int.one_nonneg).append
      (hsymbol.append ((fenced_term hvalue).mono Int.one_nonneg))
  | .update htarget hop hs hvalue => by
    have hsymbol :=
      fenced_assignment (Source.Parse.assignmentOf_eq_some.2 (.inr ⟨_, _, hop, hs, rfl⟩))
    exact ((fenced_term htarget).mono Int.one_nonneg).append
      (hsymbol.append ((fenced_term hvalue).mono Int.one_nonneg))

theorem fenced_term {tiers : List Tier} {ts : List Token} {e : Tree.Expr Pos} :
    Term tiers ts e → Fenced 1 0 0 ts
  | .operand h => fenced_term h
  | .binary hlhs hop hrhs =>
    (fenced_term hlhs).append ((fenced_operator hop).append (fenced_term hrhs))
  | .paren hl he hr => (fenced_expression he).bracket (.inl hl) (.inl hr)
  | .var hx => fenced_name (.inl hx)
  | .element hx hl he hr =>
    (fenced_name (.inl hx)).append ((fenced_expression he).bracket (.inr hl) (.inr hr))
  | .call hx hl hargs hjoin hr => by
    refine (fenced_name (.inl hx)).append (Fenced.bracket ?_ (.inl hl) (.inl hr))
    refine Fenced.joined (fun ts hts => ?_) hjoin
    obtain ⟨a, ha, rfl⟩ := List.mem_map.1 hts
    exact fenced_expression (hargs a ha)
  | .literal hx _ => fenced_name (.inr hx)

end

/-! ## Targets and values -/

/-- An expression can begin behind the tokens. -/
def OpensAfter (ts : List Token) : Prop := ∀ t ∈ ts.getLast?, t.kind.opensExpr

/-- An expression can end before the tokens. -/
def ClosesBefore (ts : List Token) : Prop := ∀ t ∈ ts.head?, t.kind.closesExpr

/-- Where an operand is cut into two, and the second part is one too, no expression can begin
between them. -/
theorem Fenced.eq_nil_of_opensAfter {l xs ts : List Token} (h : Fenced 1 0 0 (xs ++ ts))
    (hts : Fenced 1 0 0 ts) (hopens : OpensAfter (l ++ xs)) : xs = [] := by
  rcases List.eq_nil_or_concat xs with rfl | ⟨ys, y, rfl⟩
  · rfl
  · rw [List.concat_eq_append] at h hopens
    -- the brackets before `ts` are all closed, but `y` stands inside one
    have hdeep := h.opens ys y ts (by simp) (hopens y (by simp))
    have hchange := h.change
    rw [nesting_append] at hchange
    have hchange' := hts.change
    omega

/-- Where an operand is cut into two, and the first part is one too, no expression can end between
them. -/
theorem Fenced.eq_nil_of_closesBefore {ts xs r : List Token} (h : Fenced 1 0 0 (ts ++ xs))
    (hts : Fenced 1 0 0 ts) (hcloses : ClosesBefore (xs ++ r)) : xs = [] := by
  cases xs with
  | nil => rfl
  | cons x xs =>
    have hdeep := h.closes ts x xs rfl (hcloses x (by simp))
    have hchange := hts.change
    omega

theorem Fenced.eq_of_opensAfter {before before' ts ts' : List Token} (hts : Fenced 1 0 0 ts)
    (hts' : Fenced 1 0 0 ts') (hbefore : OpensAfter before) (hbefore' : OpensAfter before')
    (h : before ++ ts = before' ++ ts') : before = before' ∧ ts = ts' := by
  rcases List.append_eq_append_iff.1 h with ⟨xs, rfl, rfl⟩ | ⟨xs, rfl, rfl⟩
  · cases hts.eq_nil_of_opensAfter hts' hbefore'
    simp
  · cases hts'.eq_nil_of_opensAfter hts hbefore
    simp

theorem Fenced.eq_of_closesBefore {ts ts' after after' : List Token} (hts : Fenced 1 0 0 ts)
    (hts' : Fenced 1 0 0 ts') (hafter : ClosesBefore after) (hafter' : ClosesBefore after')
    (h : ts ++ after = ts' ++ after') : ts = ts' ∧ after = after' := by
  rcases List.append_eq_append_iff.1 h with ⟨xs, rfl, rfl⟩ | ⟨xs, rfl, rfl⟩
  · cases hts'.eq_nil_of_closesBefore hts hafter
    simp
  · cases hts.eq_nil_of_closesBefore hts' hafter'
    simp

/-! ## Assignments in derivations -/

/-- A target and a value around the symbol of an assignment, and the tree of the whole. -/
inductive Assignment : List Token → Token → List Token → Tree.Expr Pos → Prop
  | assign {ts us : List Token} {op : Token} {pos : Pos} {name : String}
      {indices : List (Tree.Expr Pos)} {e : Tree.Expr Pos} :
    Term tiers ts (.ident pos name indices) → op.kind = .symbol .assign → Term tiers us e →
    Assignment ts op us (.assign op.pos (.ident pos name indices) e)
  | update {ts us : List Token} {op : Token} {s : Symbol} {b : BinaryOp} {pos : Pos}
      {name : String} {indices : List (Tree.Expr Pos)} {e : Tree.Expr Pos} :
    Term tiers ts (.ident pos name indices) → op.kind = .symbol s → s.update? = some b →
    Term tiers us e →
    Assignment ts op us (.assign op.pos (.ident pos name indices)
      (.binary op.pos b (.ident pos name indices) e))

theorem Assignment.terms {ts us : List Token} {op : Token} {e : Tree.Expr Pos}
    (h : Assignment ts op us e) : (∃ e, Term tiers ts e) ∧ ∃ e, Term tiers us e := by
  cases h with
  | assign htarget _ hvalue => exact ⟨⟨_, htarget⟩, ⟨_, hvalue⟩⟩
  | update htarget _ _ hvalue => exact ⟨⟨_, htarget⟩, ⟨_, hvalue⟩⟩

/-- What the symbol of an assignment does in tokens with the property `Y`: it is part of an
expression, for which other tokens of the same tree can be put, or of a declaration. -/
inductive Focus (Y : List Token → Prop) : List Token → Token → List Token → Prop
  | expression {before ts us after : List Token} {op : Token} {e : Tree.Expr Pos} :
    Assignment ts op us e → OpensAfter before → ClosesBefore after →
    (∀ ws, Expression ws e → Y (before ++ (ws ++ after))) →
    Focus Y (before ++ ts) op (us ++ after)
  | declaration {before after : List Token} {t x op : Token} {ty : Ty} :
    t.kind = .keyword (.type ty) → op.kind = .symbol .assign →
    Focus Y (before ++ [t] ++ [x]) op after

/-- Between `before` and `after`, each symbol of an assignment in `ts` has its part. -/
def Focuses (Y : List Token → Prop) (before ts after : List Token) : Prop :=
  ∀ l op r, ts = l ++ op :: r → (Source.Parse.assignmentOf op.kind).isSome →
    Focus Y (before ++ l) op (r ++ after)

namespace Focuses
variable {Y : List Token → Prop} {before ts us after : List Token}

theorem append (hts : Focuses Y before ts (us ++ after)) (hus : Focuses Y (before ++ ts) us after) :
    Focuses Y before (ts ++ us) after := by
  intro l op r h hop
  rcases append_eq_append_cons h with ⟨r', hl, rfl⟩ | ⟨l', rfl, hr⟩
  · rw [List.append_assoc]
    exact hts l op r' hl hop
  · rw [← List.append_assoc]
    exact hus l' op r hr hop

/-- Without symbols of assignments there is nothing to say. -/
theorem of_forall (h : ∀ t ∈ ts, Source.Parse.assignmentOf t.kind = none) :
    Focuses Y before ts after := by
  rintro l op r rfl hop
  rw [h op (by simp)] at hop
  cases hop

theorem cons {t : Token} {k : Token.Kind} (ht : t.kind = k)
    (hk : Source.Parse.assignmentOf k = none) (hts : Focuses Y (before ++ [t]) ts after) :
    Focuses Y before (t :: ts) after := by
  have hhead : Focuses Y before [t] (ts ++ after) := by
    refine of_forall fun u hu => ?_
    rw [List.mem_singleton.1 hu, ht, hk]
  exact hhead.append hts

theorem last {t : Token} {k : Token.Kind} (ht : t.kind = k)
    (hk : Source.Parse.assignmentOf k = none) : Focuses Y before [t] after :=
  cons ht hk (of_forall (by simp))

/-- The symbol of an assignment itself, before tokens that have their parts. -/
theorem symbol {op : Token} (hop : Focus Y before op (ts ++ after))
    (hts : Focuses Y (before ++ [op]) ts after) : Focuses Y before (op :: ts) after := by
  intro l t r h ht
  rcases List.cons_eq_append_iff.1 h with ⟨rfl, hr⟩ | ⟨l', rfl, hr⟩
  · obtain ⟨rfl, rfl⟩ := List.cons.inj hr
    rwa [List.append_nil]
  · have hfocus := hts l' t r hr ht
    rwa [List.append_assoc] at hfocus

end Focuses

theorem OpensAfter.append {ts us : List Token} (hts : OpensAfter ts) (hus : OpensAfter us) :
    OpensAfter (ts ++ us) := by
  intro t ht
  rw [List.getLast?_append, Option.mem_def, Option.or_eq_some_iff] at ht
  rcases ht with ht | ⟨-, ht⟩
  · exact hus t ht
  · exact hts t ht

theorem opensAfter_concat {ts : List Token} {t : Token} {k : Token.Kind} (ht : t.kind = k)
    (hk : k.opensExpr) : OpensAfter (ts ++ [t]) := by
  intro u hu
  obtain rfl : t = u := by simpa using hu
  rwa [ht]

theorem closesBefore_cons {ts : List Token} {t : Token} {k : Token.Kind} (ht : t.kind = k)
    (hk : k.closesExpr) : ClosesBefore (t :: ts) := by
  intro u hu
  cases hu
  rwa [ht]

theorem closesBefore_block {ts rest : List Token} {body : List (Stmt (Tree.Expr Pos) Var)}
    (h : Block ts body) : ClosesBefore (ts ++ rest) := by
  cases h with
  | intro hl => exact closesBefore_cons hl rfl

/-- Phrases between commas, for one of which other tokens can be put. -/
theorem focuses_joined {β : Type} {P : List Token → β → Prop} {Y : List Token → Prop}
    {items : List (List Token × β)} (hitems : ∀ i ∈ items, P i.1 i.2)
    (hfocus : ∀ i ∈ items, ∀ before after, OpensAfter before → ClosesBefore after →
      (∀ ws, P ws i.2 → Y (before ++ (ws ++ after))) → Focuses Y before i.1 after)
    {ts before after : List Token} (hjoin : Joined (items.map Prod.fst) ts)
    (hbefore : OpensAfter before) (hafter : ClosesBefore after)
    (hY : ∀ (items' : List (List Token × β)) ws, (∀ i ∈ items', P i.1 i.2) →
      items'.map Prod.snd = items.map Prod.snd → Joined (items'.map Prod.fst) ws →
      Y (before ++ (ws ++ after))) : Focuses Y before ts after := by
  induction items generalizing ts before with
  | nil =>
    cases hjoin
    exact .of_forall (by simp)
  | cons i items ih =>
    cases items with
    | nil =>
      cases hjoin
      refine hfocus i List.mem_cons_self _ _ hbefore hafter fun ws hws => ?_
      exact hY [(ws, i.2)] ws (by simpa using hws) rfl .one
    | cons j items =>
      cases hjoin with
      | @cons _ _ vs _ comma hcomma hjoin =>
      have hi := hitems i List.mem_cons_self
      have hrest : ∀ k ∈ j :: items, P k.1 k.2 := fun k hk => hitems k (List.mem_cons_of_mem _ hk)
      refine .append ?_ (.cons hcomma rfl ?_)
      · refine hfocus i List.mem_cons_self _ _ hbefore (closesBefore_cons hcomma rfl)
          fun ws hws => ?_
        have := hY ((ws, i.2) :: j :: items) (ws ++ comma :: vs)
          (List.forall_mem_cons.2 ⟨hws, hrest⟩) rfl (.cons hcomma hjoin)
        simpa using this
      · refine ih hrest (fun k hk => hfocus k (List.mem_cons_of_mem _ hk)) hjoin
          (opensAfter_concat hcomma rfl) fun items' ws hitems' hsnd hjoin' => ?_
        -- what is put for the rest is not empty either, so that the comma can stay
        obtain ⟨k, items', rfl⟩ : ∃ k rest, items' = k :: rest := by
          cases items' with
          | nil => cases hsnd
          | cons k rest => exact ⟨k, rest, rfl⟩
        have := hY (i :: k :: items') (i.1 ++ comma :: ws) (List.forall_mem_cons.2 ⟨hi, hitems'⟩)
          (congrArg (i.2 :: ·) hsnd) (.cons hcomma hjoin')
        simpa using this

section
variable {Y : List Token → Prop}

mutual

theorem focuses_expression {ts : List Token} {e : Tree.Expr Pos} : Expression ts e →
    ∀ {before after : List Token}, OpensAfter before → ClosesBefore after →
      (∀ ws, Expression ws e → Y (before ++ (ws ++ after))) → Focuses Y before ts after
  | .term h, before, after, _, _, hY => focuses_term h fun ws hws => hY ws (.term hws)
  | .assign htarget hop hvalue, before, after, hbefore, hafter, hY => by
    refine .append (focuses_term htarget fun ws hws => ?_) (.symbol ?_ ?_)
    · simpa using hY _ (.assign hws hop hvalue)
    · exact .expression (.assign htarget hop hvalue) hbefore hafter hY
    · refine focuses_term hvalue fun ws hws => ?_
      simpa using hY _ (.assign htarget hop hws)
  | .update htarget hop hs hvalue, before, after, hbefore, hafter, hY => by
    refine .append (focuses_term htarget fun ws hws => ?_) (.symbol ?_ ?_)
    · simpa using hY _ (.update hws hop hs hvalue)
    · exact .expression (.update htarget hop hs hvalue) hbefore hafter hY
    · refine focuses_term hvalue fun ws hws => ?_
      simpa using hY _ (.update htarget hop hs hws)

theorem focuses_term {tiers : List Tier} {ts : List Token} {e : Tree.Expr Pos} :
    Term tiers ts e → ∀ {before after : List Token},
      (∀ ws, Term tiers ws e → Y (before ++ (ws ++ after))) → Focuses Y before ts after
  | .operand h, before, after, hY => focuses_term h fun ws hws => hY ws (.operand hws)
  | .binary hlhs hop hrhs, before, after, hY => by
    refine .append (focuses_term hlhs fun ws hws => ?_)
      (.cons hop rfl (focuses_term hrhs fun ws hws => ?_))
    · simpa using hY _ (.binary hws hop hrhs)
    · simpa using hY _ (.binary hlhs hop hws)
  | .paren hl he hr, before, after, hY => by
    refine .cons hl rfl (.append (focuses_expression he (opensAfter_concat hl rfl)
      (closesBefore_cons hr rfl) fun ws hws => ?_) (.last hr rfl))
    simpa using hY _ (.paren hl hws hr)
  | .var hx, before, after, hY => .last hx rfl
  | .element hx hl he hr, before, after, hY => by
    refine .cons hx rfl (.cons hl rfl (.append (focuses_expression he (opensAfter_concat hl rfl)
      (closesBefore_cons hr rfl) fun ws hws => ?_) (.last hr rfl)))
    simpa using hY _ (.element hx hl hws hr)
  | .call hx hl hargs hjoin hr, before, after, hY => by
    refine .cons hx rfl (.cons hl rfl (.append (focuses_joined hargs ?_ hjoin
      (opensAfter_concat hl rfl) (closesBefore_cons hr rfl) fun args' ws hargs' hsnd hjoin' => ?_)
      (.last hr rfl)))
    · exact fun a ha before after => focuses_expression (hargs a ha)
    · have hcall := Term.call hx hl hargs' hjoin' hr
      rw [hsnd] at hcall
      simpa using hY _ hcall
  | .literal hx _, before, after, hY => .last hx rfl

end

/-! ## Statements and functions -/

/-- There is a last token, and an expression can begin behind it. -/
def EndsOpening (ts : List Token) : Prop := ∃ t ∈ ts.getLast?, t.kind.opensExpr

theorem endsOpening_singleton {t : Token} {k : Token.Kind} (ht : t.kind = k) (hk : k.opensExpr) :
    EndsOpening [t] := ⟨t, rfl, ht ▸ hk⟩

theorem EndsOpening.append_left {us : List Token} (h : EndsOpening us) (ts : List Token) :
    EndsOpening (ts ++ us) := by
  obtain ⟨t, ht, hk⟩ := h
  refine ⟨t, ?_, hk⟩
  rw [List.getLast?_append, ht]
  rfl

theorem EndsOpening.cons {us : List Token} (h : EndsOpening us) (t : Token) :
    EndsOpening (t :: us) := h.append_left [t]

theorem EndsOpening.opensAfter {ts : List Token} (h : EndsOpening ts) : OpensAfter ts := by
  obtain ⟨t, ht, hk⟩ := h
  intro u hu
  cases ht.symm.trans hu
  exact hk

theorem endsOpening_block {ts : List Token} {body : List (Stmt (Tree.Expr Pos) Var)}
    (h : Block ts body) : EndsOpening ts := by
  cases h with
  | intro _ _ hr => exact ((endsOpening_singleton hr rfl).append_left _).cons _

theorem endsOpening_statement {ts : List Token} {s : Stmt (Tree.Expr Pos) Var}
    (h : Statement ts s) : EndsOpening ts := by
  cases h with
  | decl _ _ _ hsemi =>
    exact (((endsOpening_singleton hsemi rfl).append_left _).cons _).append_left _
  | ifThen _ _ hbody => exact ((endsOpening_block hbody).append_left _).cons _
  | ifElse _ _ _ _ horElse =>
    exact ((((endsOpening_block horElse).cons _).append_left _).append_left _).cons _
  | loop _ _ _ _ _ _ _ _ hbody =>
    refine .cons (.append_left (.cons (.append_left ?_ _) _) _) _
    exact .cons (.append_left (.cons ((endsOpening_block hbody).append_left _) _) _) _
  | ret _ hsemi => exact (endsOpening_singleton hsemi rfl).cons _
  | retValue _ _ hsemi => exact ((endsOpening_singleton hsemi rfl).append_left _).cons _
  | eval _ hsemi => exact (endsOpening_singleton hsemi rfl).append_left _

theorem endsOpening_function {ts : List Token} {f : Func (Tree.Expr Pos) Var}
    (h : Function ts f) : EndsOpening ts := by
  cases h with
  | intro _ _ _ _ _ _ _ hbody =>
    refine .cons (.cons (.cons (.append_left (.cons ?_ _) _) _) _) _
    exact (endsOpening_block hbody).append_left _

/-- Phrases one after another, for one of which other tokens can be put. -/
theorem focuses_flatten {β : Type} {P : List Token → β → Prop} {items : List (List Token × β)}
    (hitems : ∀ i ∈ items, P i.1 i.2) (hopens : ∀ ts b, P ts b → OpensAfter ts)
    (hfocus : ∀ i ∈ items, ∀ before after, OpensAfter before →
      (∀ ws, P ws i.2 → Y (before ++ (ws ++ after))) → Focuses Y before i.1 after)
    {before after : List Token} (hbefore : OpensAfter before)
    (hY : ∀ items' : List (List Token × β), (∀ i ∈ items', P i.1 i.2) →
      items'.map Prod.snd = items.map Prod.snd →
      Y (before ++ ((items'.map Prod.fst).flatten ++ after))) :
    Focuses Y before (items.map Prod.fst).flatten after := by
  induction items generalizing before with
  | nil => exact .of_forall (by simp)
  | cons i items ih =>
    obtain ⟨hi, hrest⟩ := List.forall_mem_cons.1 hitems
    rw [List.map_cons, List.flatten_cons]
    refine .append (hfocus i List.mem_cons_self _ _ hbefore fun ws hws => ?_) ?_
    · have := hY ((ws, i.2) :: items) (List.forall_mem_cons.2 ⟨hws, hrest⟩) rfl
      simpa using this
    · refine ih hrest (fun k hk => hfocus k (List.mem_cons_of_mem _ hk))
        (hbefore.append (hopens _ _ hi)) fun items' hitems' hsnd => ?_
      have := hY (i :: items') (List.forall_mem_cons.2 ⟨hi, hitems'⟩) (congrArg (i.2 :: ·) hsnd)
      simpa using this

mutual

theorem focuses_statement {ts : List Token} {s : Stmt (Tree.Expr Pos) Var} : Statement ts s →
    ∀ {before after : List Token}, OpensAfter before →
      (∀ ws, Statement ws s → Y (before ++ (ws ++ after))) → Focuses Y before ts after
  | .decl hparam hop hinit hsemi, before, after, hbefore, hY => by
    cases hparam with
    | intro ht hx =>
    refine .cons ht rfl (.cons hx rfl (.symbol ?_ (.append (focuses_expression hinit
      (opensAfter_concat hop rfl) (closesBefore_cons hsemi rfl) fun ws hws => ?_)
      (.last hsemi rfl))))
    · exact .declaration ht hop
    · simpa using hY _ (.decl (.intro ht hx) hop hws hsemi)
  | .ifThen hk hcond hbody, before, after, hbefore, hY => by
    refine .cons hk rfl (.append (focuses_expression hcond (opensAfter_concat hk rfl)
      (closesBefore_block hbody) fun ws hws => ?_) (focuses_block hbody fun ws hws => ?_))
    · simpa using hY _ (.ifThen hk hws hbody)
    · simpa using hY _ (.ifThen hk hcond hws)
  | .ifElse hk hcond hbody hl horElse, before, after, hbefore, hY => by
    refine .cons hk rfl (.append (focuses_expression hcond (opensAfter_concat hk rfl) ?_
      fun ws hws => ?_) (.append (focuses_block hbody fun ws hws => ?_)
      (.cons hl rfl (focuses_block horElse fun ws hws => ?_))))
    · rw [List.append_assoc]
      exact closesBefore_block hbody
    · simpa using hY _ (.ifElse hk hws hbody hl horElse)
    · simpa using hY _ (.ifElse hk hcond hws hl horElse)
    · simpa using hY _ (.ifElse hk hcond hbody hl hws)
  | .loop hk hparam hop hinit hsemi hcond hsemi' hstep hbody, before, after, hbefore, hY => by
    cases hparam with
    | intro ht hx =>
    have hparam := Parameter.intro ht hx
    refine .cons hk rfl (.cons ht rfl (.cons hx rfl (.symbol ?_ (.append (focuses_expression hinit
      (opensAfter_concat hop rfl) (closesBefore_cons hsemi rfl) fun ws hws => ?_)
      (.cons hsemi rfl (.append (focuses_expression hcond (opensAfter_concat hsemi rfl)
      (closesBefore_cons hsemi' rfl) fun ws hws => ?_) (.cons hsemi' rfl (.append
      (focuses_expression hstep (opensAfter_concat hsemi' rfl) (closesBefore_block hbody)
      fun ws hws => ?_) (focuses_block hbody fun ws hws => ?_)))))))))
    · exact .declaration ht hop
    · simpa using hY _ (.loop hk hparam hop hws hsemi hcond hsemi' hstep hbody)
    · simpa using hY _ (.loop hk hparam hop hinit hsemi hws hsemi' hstep hbody)
    · simpa using hY _ (.loop hk hparam hop hinit hsemi hcond hsemi' hws hbody)
    · simpa using hY _ (.loop hk hparam hop hinit hsemi hcond hsemi' hstep hws)
  | .ret hk hsemi, before, after, hbefore, hY => .cons hk rfl (.last hsemi rfl)
  | .retValue hk he hsemi, before, after, hbefore, hY => by
    refine .cons hk rfl (.append (focuses_expression he (opensAfter_concat hk rfl)
      (closesBefore_cons hsemi rfl) fun ws hws => ?_) (.last hsemi rfl))
    simpa using hY _ (.retValue hk hws hsemi)
  | .eval he hsemi, before, after, hbefore, hY => by
    refine .append (focuses_expression he hbefore (closesBefore_cons hsemi rfl) fun ws hws => ?_)
      (.last hsemi rfl)
    simpa using hY _ (.eval hws hsemi)

theorem focuses_block {ts : List Token} {body : List (Stmt (Tree.Expr Pos) Var)} :
    Block ts body → ∀ {before after : List Token},
      (∀ ws, Block ws body → Y (before ++ (ws ++ after))) → Focuses Y before ts after
  | .intro hl hitems hr, before, after, hY => by
    refine .cons hl rfl (.append (focuses_flatten hitems
      (fun _ _ h => (endsOpening_statement h).opensAfter) ?_ (opensAfter_concat hl rfl)
      fun items' hitems' hsnd => ?_) (.last hr rfl))
    · exact fun i hi before after => focuses_statement (hitems i hi)
    · have hblock := Block.intro hl hitems' hr
      rw [hsnd] at hblock
      simpa using hY _ hblock

end

theorem focuses_function {ts : List Token} {f : Func (Tree.Expr Pos) Var} (h : Function ts f)
    {before after : List Token} (hY : ∀ ws, Function ws f → Y (before ++ (ws ++ after))) :
    Focuses Y before ts after := by
  cases h with
  | @intro _ x _ _ _ _ _ _ _ _ hk hx hl hparams hjoin hr hresult hbody =>
  have hname : Source.Parse.assignmentOf x.kind = none := by
    rcases hx with hx | hx <;> rw [hx] <;> rfl
  refine .cons hk rfl (.cons rfl hname (.cons hl rfl (.append (focuses_joined hparams ?_ hjoin
    (opensAfter_concat hl rfl) (closesBefore_cons hr rfl) fun params' ws hparams' hsnd hjoin' => ?_)
    (.cons hr rfl (.append ?_ (focuses_block hbody fun ws hws => ?_))))))
  · rintro ⟨ts, v⟩ hi before after _ _ _
    cases hparams _ hi with
    | intro ht hx => exact .cons ht rfl (.last hx rfl)
  · have hfunc := Function.intro hk hx hl hparams' hjoin' hr hresult hbody
    rw [hsnd] at hfunc
    simpa using hY _ hfunc
  · cases hresult with
    | none => exact .of_forall (by simp)
    | some harrow ht => exact .cons harrow rfl (.last ht rfl)
  · simpa using hY _ (.intro hk hx hl hparams hjoin hr hresult hws)

end

/-- In a derived program, every symbol of an assignment has its part. -/
theorem focus_of_program {l r : List Token} {op : Token} {fs : List (Func (Tree.Expr Pos) Var)}
    (h : Program (l ++ op :: r) fs) (hop : (Source.Parse.assignmentOf op.kind).isSome) :
    Focus (fun ws => Program ws fs) l op r := by
  generalize hts : l ++ op :: r = ts at h
  cases h with
  | intro hitems heof =>
  next eof items =>
  have hfocuses : Focuses (fun ws => Program ws (items.map Prod.snd)) []
      ((items.map Prod.fst).flatten ++ [eof]) [] := by
    refine .append (focuses_flatten hitems (fun _ _ h => (endsOpening_function h).opensAfter) ?_
      (by simp [OpensAfter]) fun items' hitems' hsnd => ?_) (.last heof rfl)
    · exact fun i hi before after _ hY => focuses_function (hitems i hi) hY
    · rw [← hsnd]
      simpa using Program.intro hitems' heof
  simpa using hfocuses l op r hts.symm hop

end Grammar
end PrimeLang
