import PrimeLang.Proofs.ParserSound

/-! # The parser accepts what can be derived

A phrase is read whole where the tokens after it cannot continue it, and where the bound on loops
and nesting is above the number of tokens left. Together with soundness this makes the parser agree
with the grammar, so that a token list has one abstract tree at most. -/

namespace PrimeLang
namespace Source
open Token (Kind)

namespace Parse
variable {α β : Type}

/-! ## Reading a given phrase -/

/-- From any place before `ts ++ rest`, `p` reads `ts` and returns `a`. -/
def Takes (p : Parse α) (ts rest : List Token) (a : α) : Prop :=
  ∀ c : Cursor, c.rest = ts ++ rest → ∃ c' : Cursor, p c = .ok (a, c') ∧ c'.rest = rest

/-- From any place before `ts ++ rest`, `p` reads `ts` and returns what `view` takes for `b`. -/
def Reads (p : Parse α) (view : α → β) (ts rest : List Token) (b : β) : Prop :=
  ∃ a, view a = b ∧ Takes p ts rest a

/-- The next token, if there is one, has no kind in `p`. -/
def Stops (p : Kind → Bool) (rest : List Token) : Prop := ∀ t ∈ rest.head?, p t.kind = false

namespace Takes
variable {ts us rest : List Token} {t : Token} {a : α} {b : β}

theorem pure (a : α) (rest : List Token) : Takes (pure a) [] rest a :=
  fun c hc => ⟨c, pure_ok.2 ⟨rfl, rfl⟩, hc⟩

theorem bind {p : Parse α} {f : α → Parse β} (hp : Takes p ts (us ++ rest) a)
    (hf : Takes (f a) us rest b) : Takes (p >>= f) (ts ++ us) rest b := by
  intro c hc
  obtain ⟨c₁, h₁, hc₁⟩ := hp c (by rw [hc, List.append_assoc])
  obtain ⟨c₂, h₂, hc₂⟩ := hf c₁ hc₁
  exact ⟨c₂, bind_ok.2 ⟨a, c₁, h₁, h₂⟩, hc₂⟩

/-- A first step that reads one token. -/
theorem cons {p : Parse α} {f : α → Parse β} (hp : Takes p [t] (us ++ rest) a)
    (hf : Takes (f a) us rest b) : Takes (p >>= f) (t :: us) rest b := hp.bind hf

/-- A first step that only looks ahead. -/
theorem peek {p : Parse α} {f : α → Parse β} (hp : Takes p [] (us ++ rest) a)
    (hf : Takes (f a) us rest b) : Takes (p >>= f) us rest b := hp.bind hf

/-- A last step that reads nothing. -/
theorem last {p : Parse α} {f : α → Parse β} (hp : Takes p ts rest a)
    (hf : Takes (f a) [] rest b) : Takes (p >>= f) ts rest b :=
  List.append_nil ts ▸ hp.bind hf

theorem map {p : Parse α} (f : α → β) (hp : Takes p ts rest a) :
    Takes (f <$> p) ts rest (f a) := by
  rw [map_eq_pure_bind]
  exact hp.last (.pure _ _)

end Takes

section
variable {rest : List Token} {t : Token} {k : Kind}

theorem takes_expect {p : Kind → Bool} (expected : String) (hp : p t.kind) :
    Takes (expect expected p) [t] rest t := by
  rintro ⟨_, last⟩ rfl
  exact ⟨⟨rest, t.pos⟩, by simp [expect, Cursor.expect, Cursor.nextIf?, Cursor.nextIs,
    Cursor.peek?, Cursor.next?, hp], rfl⟩

theorem takes_kind (hk : t.kind = k) : Takes (kind k) [t] rest t :=
  takes_expect _ (beq_iff_eq.2 hk)

theorem takes_symbol {s : Symbol} (hk : t.kind = .symbol s) : Takes (symbol s) [t] rest t :=
  takes_kind hk

theorem takes_keyword {w : Keyword} (hk : t.kind = .keyword w) : Takes (keyword w) [t] rest t :=
  takes_kind hk

theorem takes_skip (hk : t.kind = k) : Takes (skip k) [t] rest true := by
  rintro ⟨_, last⟩ rfl
  exact ⟨⟨rest, t.pos⟩, by simp [skip, Cursor.nextIf?, Cursor.nextIs, Cursor.peek?, Cursor.next?,
    hk], rfl⟩

theorem takes_skip_false (hk : Stops (· == k) rest) : Takes (skip k) [] rest false := by
  rintro ⟨rest, last⟩ rfl
  refine ⟨⟨rest, last⟩, ?_, rfl⟩
  have hno : (Cursor.mk rest last).nextIs (· == k) = false := by
    cases rest with
    | nil => rfl
    | cons t rest => exact hk t rfl
  simp [skip, Cursor.nextIf?, hno]

theorem takes_nextIs (hk : t.kind = k) : Takes (nextIs k) [] (t :: rest) true := by
  rintro ⟨_, last⟩ rfl
  exact ⟨⟨t :: rest, last⟩, by simp [nextIs, Cursor.nextIs, Cursor.peek?, hk], rfl⟩

theorem takes_nextIs_false (hk : Stops (· == k) rest) : Takes (nextIs k) [] rest false := by
  rintro ⟨rest, last⟩ rfl
  refine ⟨⟨rest, last⟩, ?_, rfl⟩
  cases rest with
  | nil => rfl
  | cons t rest => simp [nextIs, Cursor.nextIs, Cursor.peek?, hk t rfl]

theorem takes_nextWith {f : Kind → Option α} {a : α} (ha : f t.kind = some a) :
    Takes (nextWith f) [t] rest (some (a, t)) := by
  rintro ⟨_, last⟩ rfl
  exact ⟨⟨rest, t.pos⟩, by simp [nextWith, Cursor.next?, ha], rfl⟩

theorem takes_nextWith_none {f : Kind → Option α} (hf : Stops (fun k => (f k).isSome) rest) :
    Takes (nextWith f) [] rest none := by
  rintro ⟨rest, last⟩ rfl
  refine ⟨⟨rest, last⟩, ?_, rfl⟩
  cases rest with
  | nil => rfl
  | cons t rest =>
    have hno : f t.kind = none := by simpa using hf t rfl
    simp [nextWith, Cursor.next?, hno]

end

/-! ## Repetitions -/

/-- The kinds between items and after the last one. -/
def separates (close : Symbol) (k : Kind) : Prop := k = .symbol .comma ∨ k = .symbol close

section
variable {item : Parse α} {view : α → β} {close : Symbol} {N : Nat} {rest : List Token} {r : Token}
  (hclose : close ≠ .comma) (hr : r.kind = .symbol close)
include hclose hr

/-- What is joined to the first phrase starts with a comma, and is read as the further items. -/
theorem reads_commaItems {items : List (List Token × β)}
    (hitem : ∀ i ∈ items, ∀ us, (∀ t ∈ us.head?, separates close t.kind) →
      (i.1 ++ us).length < N → Reads item view i.1 us i.2)
    {ts us : List Token} (hjoin : Grammar.Joined (ts :: items.map Prod.fst) us)
    (hN : (us ++ r :: rest).length ≤ N) :
    ∃ vs, us = ts ++ vs ∧ (∀ t ∈ (vs ++ r :: rest).head?, separates close t.kind) ∧
      ∀ n, vs.length ≤ n →
        Reads (commaItems item n) (List.map view) vs (r :: rest) (items.map Prod.snd) := by
  induction items generalizing ts us with
  | nil =>
    cases hjoin
    refine ⟨[], (List.append_nil _).symm, by simp [separates, hr], fun n _ => ⟨[], rfl, ?_⟩⟩
    cases n with
    | zero => exact .pure _ _
    | succ n => exact Takes.peek (takes_skip_false (by simp [Stops, hr, hclose])) (.pure _ _)
  | cons i items ih =>
    cases hjoin with | cons hcomma hjoin => ?_
    next vs comma =>
    simp only [List.length_append, List.length_cons] at hN
    obtain ⟨ws, rfl, hsep, hreads⟩ := ih (fun j hj => hitem j (List.mem_cons_of_mem _ hj)) hjoin
      (by simp only [List.length_append, List.length_cons]; omega)
    refine ⟨comma :: (i.1 ++ ws), rfl, by simp [separates, hcomma], fun n hn => ?_⟩
    simp only [List.length_append, List.length_cons] at hN hn
    obtain ⟨a, ha, hitem⟩ := hitem i List.mem_cons_self (ws ++ r :: rest) hsep
      (by simp only [List.length_append, List.length_cons]; omega)
    obtain ⟨n, rfl⟩ : ∃ m, n = m + 1 := ⟨n - 1, by omega⟩
    obtain ⟨as, has, hitems⟩ := hreads n (by omega)
    refine ⟨a :: as, by rw [List.map_cons, ha, has, List.map_cons], ?_⟩
    rw [commaItems]
    refine Takes.cons (takes_skip hcomma) (Takes.bind ?_ (hitems.last (.pure _ _)))
    exact hitem

/-- Items between commas are read up to the closing symbol, which none of them starts with. -/
theorem reads_commaList {items : List (List Token × β)}
    (hitem : ∀ i ∈ items, ∀ us, (∀ t ∈ us.head?, separates close t.kind) →
      (i.1 ++ us).length < N → Reads item view i.1 us i.2)
    (hstart : ∀ i ∈ items, ∃ t ts, i.1 = t :: ts ∧ t.kind ≠ .symbol close)
    {ts : List Token} (hjoin : Grammar.Joined (items.map Prod.fst) ts) {n : Nat}
    (hN : (ts ++ r :: rest).length < N) (hn : ts.length ≤ n) :
    Reads (commaList n item close) (List.map view) ts (r :: rest) (items.map Prod.snd) := by
  cases items with
  | nil =>
    cases hjoin
    exact ⟨[], rfl, Takes.peek (takes_nextIs hr) (.pure _ _)⟩
  | cons i items =>
    obtain ⟨t, us, hi, ht⟩ := hstart i List.mem_cons_self
    obtain ⟨vs, rfl, hsep, hreads⟩ := reads_commaItems hclose hr
      (fun j hj => hitem j (List.mem_cons_of_mem _ hj)) hjoin (Nat.le_of_lt hN)
    simp only [List.length_append, List.length_cons] at hN hn
    obtain ⟨a, ha, hitem⟩ := hitem i List.mem_cons_self (vs ++ r :: rest) hsep
      (by simp only [List.length_append, List.length_cons]; omega)
    obtain ⟨as, has, hitems⟩ := hreads n (by omega)
    refine ⟨a :: as, by rw [List.map_cons, ha, has, List.map_cons], ?_⟩
    have hno : Stops (· == .symbol close) (i.1 ++ vs ++ r :: rest) := by simp [Stops, hi, ht]
    exact Takes.peek (takes_nextIs_false hno) (hitem.bind (hitems.last (.pure _ _)))

end

/-- Items are read one by one where none of them starts with the closing symbol. -/
theorem reads_itemsUntil {item : Parse α} {view : α → β} {close : Symbol} {P : Kind → Prop}
    (hclose : P (.symbol close)) {N : Nat} {rest : List Token} {r : Token}
    (hr : r.kind = .symbol close) {items : List (List Token × β)}
    (hitem : ∀ i ∈ items, ∀ us, (∀ t ∈ us.head?, P t.kind) → (i.1 ++ us).length < N →
      Reads item view i.1 us i.2)
    (hstart : ∀ i ∈ items, ∃ t ts, i.1 = t :: ts ∧ t.kind ≠ .symbol close ∧ P t.kind)
    {n : Nat} (hN : ((items.map Prod.fst).flatten ++ r :: rest).length < N)
    (hn : (items.map Prod.fst).flatten.length < n) :
    Reads (itemsUntil item close n) (List.map view) (items.map Prod.fst).flatten (r :: rest)
      (items.map Prod.snd) := by
  induction items generalizing n with
  | nil =>
    obtain ⟨n, rfl⟩ : ∃ m, n = m + 1 := ⟨n - 1, by omega⟩
    exact ⟨[], rfl, Takes.peek (takes_nextIs hr) (.pure _ _)⟩
  | cons i items ih =>
    obtain ⟨t, ts, hi, ht, -⟩ := hstart i List.mem_cons_self
    have hlen : i.1.length = ts.length + 1 := by rw [hi, List.length_cons]
    simp only [List.map_cons, List.flatten_cons, List.length_append, List.length_cons] at hN hn
    obtain ⟨n, rfl⟩ : ∃ m, n = m + 1 := ⟨n - 1, by omega⟩
    have hfollow : ∀ t ∈ ((items.map Prod.fst).flatten ++ r :: rest).head?, P t.kind := by
      cases items with
      | nil => simpa [hr] using hclose
      | cons j items =>
        obtain ⟨t, ts, hj, -, ht⟩ := hstart j (by simp)
        simpa [hj] using ht
    obtain ⟨a, ha, hitem'⟩ := hitem i List.mem_cons_self _ hfollow
      (by simp only [List.length_append, List.length_cons]; omega)
    obtain ⟨as, has, hitems⟩ := ih (n := n) (fun j hj => hitem j (List.mem_cons_of_mem _ hj))
      (fun j hj => hstart j (List.mem_cons_of_mem _ hj))
      (by simp only [List.length_append, List.length_cons]; omega) (by omega)
    refine ⟨a :: as, by rw [List.map_cons, ha, has, List.map_cons], ?_⟩
    have hno : Stops (· == .symbol close)
        (i.1 ++ (items.map Prod.fst).flatten ++ r :: rest) := by
      simp [Stops, hi, ht]
    exact Takes.peek (takes_nextIs_false hno) (hitem'.bind (hitems.last (.pure _ _)))

/-! ## Expressions -/

/-- The kinds that continue a phrase between operators of the given tiers. -/
def continues (tiers : List Tier) : Kind → Bool
  | .symbol .lparen | .symbol .lbracket => true
  | .symbol (.operator b) => b.tier ∈ tiers
  | _ => false

/-- The kinds that continue an expression. -/
def continuesExpr (k : Kind) : Bool := continues Grammar.tiers k || (assignmentOf k).isSome

/-- The operands between operators of the loosest of the given tiers. -/
def operandAt (n : Nat) (tiers : List Tier) : Parse Expr :=
  tiers.foldr (chain n) (primary n (expr n))

theorem continues_of_cons {tier : Tier} {tighter : List Tier} {rest : List Token}
    (h : Stops (continues (tier :: tighter)) rest) : Stops (continues tighter) rest := by
  intro t ht
  have := h t ht
  unfold continues at this ⊢
  split <;> simp_all

/-- The tokens of a phrase are read up to a point of the chain of its loosest tier that has rounds
enough left for what may follow. -/
def Reaches (n : Nat) : List Tier → List Token → Tree.Expr Pos → Prop
  | [], ts, e => ∀ rest, (ts ++ rest).length ≤ n → Stops (continues []) rest →
      Reads (primary n (expr n)) Expr.tree ts rest e
  | tier :: tighter, ts, e => ∀ rest, (ts ++ rest).length ≤ n → Stops (continues tighter) rest →
      ∃ s k, s.tree = e ∧ n ≤ k + ts.length ∧ ∀ c : Cursor, c.rest = ts ++ rest →
        ∃ c' : Cursor, c'.rest = rest ∧
          operandAt n (tier :: tighter) c = chainFrom tier (operandAt n tighter) k s c'

theorem takes_chainFrom_stop {tier : Tier} {tighter : List Tier} {rest : List Token}
    (h : Stops (continues (tier :: tighter)) rest) (operand : Parse Expr) (k : Nat) (s : Expr) :
    Takes (chainFrom tier operand k s) [] rest s := by
  cases k with
  | zero => exact .pure _ _
  | succ k =>
    refine Takes.peek (takes_nextWith_none fun t ht => ?_) (.pure _ _)
    rw [Option.isSome_eq_false_iff, Option.isNone_iff_eq_none, Option.eq_none_iff_forall_ne_some]
    intro op hop
    obtain ⟨hk, rfl⟩ := operatorOf_eq_some.1 hop
    have := h t ht
    simp [hk, continues] at this

theorem Reaches.reads {n : Nat} {tiers : List Tier} {ts rest : List Token} {e : Tree.Expr Pos}
    (h : Reaches n tiers ts e) (hn : (ts ++ rest).length ≤ n)
    (hstop : Stops (continues tiers) rest) : Reads (operandAt n tiers) Expr.tree ts rest e := by
  cases tiers with
  | nil => exact h rest hn hstop
  | cons tier tighter =>
    obtain ⟨s, k, hs, -, h⟩ := h rest hn (continues_of_cons hstop)
    refine ⟨s, hs, fun c hc => ?_⟩
    obtain ⟨c', hc', hrun⟩ := h c hc
    rw [hrun]
    exact takes_chainFrom_stop hstop _ k s c' hc'

theorem reaches_operand {n : Nat} {tier : Tier} {tighter : List Tier} {ts : List Token}
    {e : Tree.Expr Pos} (h : Reaches n tighter ts e) : Reaches n (tier :: tighter) ts e := by
  intro rest hn hstop
  obtain ⟨s, hs, htakes⟩ := h.reads hn hstop
  refine ⟨s, n, hs, Nat.le_add_right .., fun c hc => ?_⟩
  obtain ⟨c', hrun, hc'⟩ := htakes c hc
  refine ⟨c', hc', ?_⟩
  show chain n tier (operandAt n tighter) c = _
  simp [chain, bind, StateT.bind, hrun, Except.bind]

theorem reaches_binary {n : Nat} {tighter : List Tier} {ts us : List Token} {op : Token}
    {b : BinaryOp} {lhs rhs : Tree.Expr Pos} (hb : b.tier ∉ tighter)
    (hlhs : Reaches n (b.tier :: tighter) ts lhs) (hop : op.kind = .symbol (.operator b))
    (hrhs : Reaches n tighter us rhs) :
    Reaches n (b.tier :: tighter) (ts ++ op :: us) (.binary op.pos b lhs rhs) := by
  intro rest hn hstop
  simp only [List.append_assoc, List.cons_append, List.length_append, List.length_cons] at hn
  obtain ⟨l, k, rfl, hk, hl⟩ := hlhs (op :: (us ++ rest)) (by simpa using hn)
    (by simp [Stops, hop, continues, hb])
  obtain ⟨r, rfl, hr⟩ := hrhs.reads (by rw [List.length_append]; omega) hstop
  obtain ⟨k, rfl⟩ : ∃ m, k = m + 1 := ⟨k - 1, by omega⟩
  refine ⟨.binary b op.pos l r, k, by rw [Expr.tree], ?_, fun c hc => ?_⟩
  · simp only [List.length_append, List.length_cons]
    omega
  obtain ⟨c₁, hc₁, hrun⟩ := hl c (by simpa using hc)
  obtain ⟨c₂, hnext, hc₂⟩ := takes_nextWith (f := operatorOf b.tier)
    (operatorOf_eq_some.2 ⟨hop, rfl⟩) c₁ hc₁
  obtain ⟨c₃, hoperand, hc₃⟩ := hr c₂ hc₂
  refine ⟨c₃, hc₃, ?_⟩
  rw [hrun, chainFrom]
  simp [bind, StateT.bind, hnext, Except.bind, hoperand]

/-- The kinds that an expression starts with. -/
def startsExpr (k : Kind) : Prop := k = .symbol .lparen ∨ k = .ident ∨ k = .number

mutual

theorem starts_expression {ts : List Token} {e : Tree.Expr Pos} :
    Grammar.Expression ts e → ∃ t us, ts = t :: us ∧ startsExpr t.kind
  | .term h => starts_term h
  | .assign h _ _ | .update h _ _ _ => by
    obtain ⟨t, us, rfl, ht⟩ := starts_term h
    exact ⟨t, _, rfl, ht⟩

theorem starts_term {tiers : List Tier} {ts : List Token} {e : Tree.Expr Pos} :
    Grammar.Term tiers ts e → ∃ t us, ts = t :: us ∧ startsExpr t.kind
  | .operand h => starts_term h
  | .binary h _ _ => by
    obtain ⟨t, us, rfl, ht⟩ := starts_term h
    exact ⟨t, _, rfl, ht⟩
  | .paren hl _ _ => ⟨_, _, rfl, .inl hl⟩
  | .var hx | .element hx _ _ _ | .call hx _ _ _ _ => ⟨_, _, rfl, .inr (.inl hx)⟩
  | .literal hx _ => ⟨_, _, rfl, .inr (.inr hx)⟩

end

section
variable {n : Nat} {rest : List Token} {x l r : Token}

theorem takes_primary_ident {ts : List Token} {s : Expr} (hx : x.kind = .ident)
    (h : Takes (named n (expr n) x) ts rest s) : Takes (primary n (expr n)) (x :: ts) rest s := by
  refine Takes.peek (takes_skip_false (by simp [Stops, hx])) ?_
  exact Takes.peek (takes_nextIs hx) (Takes.cons (takes_kind hx) h)

theorem takes_primary_literal {w : Int32} (hx : x.kind = .number)
    (hw : Grammar.Numeral x.spelling.toList w.toInt) :
    Takes (primary n (expr n)) [x] rest (.literal w x.pos) := by
  refine Takes.peek (takes_skip_false (by simp [Stops, hx])) ?_
  refine Takes.peek (takes_nextIs_false (by simp [Stops, hx])) ?_
  refine Takes.peek (takes_nextIs hx) ((takes_kind hx).last ?_)
  rw [literal, word?_eq_some_iff.2 hw]
  exact .pure _ _

theorem takes_primary_paren {ts : List Token} {s : Expr} (hl : l.kind = .symbol .lparen)
    (h : Takes (expr n) ts (r :: rest) s) (hr : r.kind = .symbol .rparen) :
    Takes (primary n (expr n)) (l :: (ts ++ [r])) rest s :=
  Takes.cons (takes_skip hl) (Takes.bind h ((takes_symbol hr).last (.pure _ _)))

theorem takes_named_var (hstop : Stops (continues []) rest) :
    Takes (named n (expr n) x) [] rest (.var x.spelling x.pos) := by
  refine Takes.peek (takes_skip_false fun t ht => ?_) ?_
  · have := hstop t ht
    rw [beq_eq_false_iff_ne]
    intro hk
    simp [hk, continues] at this
  refine Takes.peek (takes_skip_false fun t ht => ?_) (.pure _ _)
  have := hstop t ht
  rw [beq_eq_false_iff_ne]
  intro hk
  simp [hk, continues] at this

theorem takes_named_element {ts : List Token} {s : Expr} (hl : l.kind = .symbol .lbracket)
    (h : Takes (expr n) ts (r :: rest) s) (hr : r.kind = .symbol .rbracket) :
    Takes (named n (expr n) x) (l :: (ts ++ [r])) rest (.element x.spelling x.pos s) := by
  refine Takes.peek (takes_skip_false (by simp [Stops, hl])) ?_
  exact Takes.cons (takes_skip hl) (Takes.bind h ((takes_symbol hr).last (.pure _ _)))

theorem takes_named_call {ts : List Token} {args : List Expr} (hl : l.kind = .symbol .lparen)
    (h : Takes (commaList n (expr n) .rparen) ts (r :: rest) args)
    (hr : r.kind = .symbol .rparen) :
    Takes (named n (expr n) x) (l :: (ts ++ [r])) rest (.call x.spelling x.pos args) :=
  Takes.cons (takes_skip hl) (Takes.bind h ((takes_symbol hr).last (.pure _ _)))

end

theorem stops_cons {p : Kind → Bool} {t : Token} {k : Kind} {rest : List Token} (ht : t.kind = k)
    (hk : p k = false) : Stops p (t :: rest) := by
  intro t' ht'
  cases ht'
  rw [ht, hk]

theorem stops_of_separates {rest : List Token}
    (h : ∀ t ∈ rest.head?, separates .rparen t.kind) : Stops continuesExpr rest := by
  intro t ht
  rcases h t ht with hk | hk <;> rw [hk] <;> rfl

/-- `ts` is read as an expression wherever it ends. -/
def ReadsExpr (ts : List Token) (e : Tree.Expr Pos) : Prop :=
  ∀ ⦃n : Nat⦄ ⦃rest : List Token⦄, Stops continuesExpr rest → (ts ++ rest).length < n →
    Reads (expr n) Expr.tree ts rest e

theorem stops_continues {rest : List Token} (h : Stops continuesExpr rest) :
    Stops (continues Grammar.tiers) rest :=
  fun t ht => (Bool.or_eq_false_iff.1 (h t ht)).1

theorem readsExpr_term {ts : List Token} {e : Tree.Expr Pos}
    (h : ∀ n, Reaches n Grammar.tiers ts e) : ReadsExpr ts e := by
  intro n rest hstop hn
  obtain ⟨n, rfl⟩ : ∃ m, n = m + 1 := ⟨n - 1, by omega⟩
  obtain ⟨s, hs, htakes⟩ := (h n).reads (Nat.le_of_lt_succ hn) (stops_continues hstop)
  refine ⟨s, hs, htakes.last (Takes.peek (takes_nextWith_none fun t ht => ?_) (.pure _ _))⟩
  exact (Bool.or_eq_false_iff.1 (hstop t ht)).2

/-- A target and a value around an assignment symbol. -/
theorem readsExpr_assign {ts us : List Token} {op : Token} {o : Option BinaryOp} {pos : Pos}
    {name : String} {indices : List (Tree.Expr Pos)} {e e' : Tree.Expr Pos}
    (htarget : ∀ n, Reaches n Grammar.tiers ts (.ident pos name indices))
    (hop : assignmentOf op.kind = some o) (hvalue : ∀ n, Reaches n Grammar.tiers us e)
    (htree : ∀ t v : Expr, t.tree = .ident pos name indices → v.tree = e →
      (Expr.assign o op.pos t v).tree = e') : ReadsExpr (ts ++ op :: us) e' := by
  intro n rest hstop hn
  obtain ⟨n, rfl⟩ : ∃ m, n = m + 1 := ⟨n - 1, by omega⟩
  simp only [List.length_append, List.length_cons] at hn
  have hstop' : Stops (continues Grammar.tiers) (op :: us ++ rest) := by
    intro t ht
    cases ht
    rcases assignmentOf_eq_some.1 hop with ⟨hk, -⟩ | ⟨s, b, hk, hs, -⟩
    · rw [hk]
      rfl
    · rw [hk]
      cases s <;> first | rfl | exact nomatch hs
  obtain ⟨t, ht, htakes⟩ := (htarget n).reads
    (by simp only [List.length_append, List.length_cons]; omega) hstop'
  obtain ⟨v, hv, hvtakes⟩ := (hvalue n).reads (by rw [List.length_append]; omega)
    (stops_continues hstop)
  refine ⟨.assign o op.pos t v, htree t v ht hv, ?_⟩
  refine Takes.bind htakes (Takes.cons (takes_nextWith hop) ?_)
  have hvar : t.isVariable = true := isVariable_iff.2 ⟨pos, name, indices, ht⟩
  rw [hvar]
  exact hvtakes.last (.pure _ _)

section
variable {n : Nat} {x l r : Token} {ts : List Token} {e : Tree.Expr Pos}

theorem reaches_paren (hl : l.kind = .symbol .lparen) (he : ReadsExpr ts e)
    (hr : r.kind = .symbol .rparen) : Reaches n [] (l :: (ts ++ [r])) e := by
  intro rest hn hstop
  simp only [List.length_append, List.length_cons, List.length_nil] at hn
  obtain ⟨s, hs, htakes⟩ := @he n (r :: rest) (stops_cons hr rfl)
    (by simp only [List.length_append, List.length_cons]; omega)
  exact ⟨s, hs, takes_primary_paren hl htakes hr⟩

theorem reaches_element (hx : x.kind = .ident) (hl : l.kind = .symbol .lbracket)
    (he : ReadsExpr ts e) (hr : r.kind = .symbol .rbracket) :
    Reaches n [] (x :: l :: (ts ++ [r])) (.ident x.pos x.spelling [e]) := by
  intro rest hn hstop
  simp only [List.length_append, List.length_cons, List.length_nil] at hn
  obtain ⟨s, rfl, htakes⟩ := @he n (r :: rest) (stops_cons hr rfl)
    (by simp only [List.length_append, List.length_cons]; omega)
  exact ⟨_, rfl, takes_primary_ident hx (takes_named_element hl htakes hr)⟩

theorem reaches_call {args : List (List Token × Tree.Expr Pos)} (hx : x.kind = .ident)
    (hl : l.kind = .symbol .lparen) (hargs : ∀ a ∈ args, Grammar.Expression a.1 a.2)
    (hreads : ∀ a ∈ args, ReadsExpr a.1 a.2) (hjoin : Grammar.Joined (args.map Prod.fst) ts)
    (hr : r.kind = .symbol .rparen) :
    Reaches n [] (x :: l :: (ts ++ [r])) (.call x.pos x.spelling (args.map Prod.snd)) := by
  intro rest hn hstop
  simp only [List.length_append, List.length_cons, List.length_nil] at hn
  have hstart : ∀ a ∈ args, ∃ t us, a.1 = t :: us ∧ t.kind ≠ .symbol .rparen := by
    intro a ha
    obtain ⟨t, us, hts, ht⟩ := starts_expression (hargs a ha)
    refine ⟨t, us, hts, ?_⟩
    rcases ht with ht | ht | ht <;> rw [ht] <;> decide
  obtain ⟨ss, hss, htakes⟩ := @reads_commaList _ _ (expr n) Expr.tree _ n rest r (by decide) hr
    args (fun a ha us hus => hreads a ha (stops_of_separates hus)) hstart ts hjoin n
    (by simp only [List.length_append, List.length_cons]; omega) (by omega)
  refine ⟨_, ?_, takes_primary_ident hx (takes_named_call hl htakes hr)⟩
  rw [Expr.tree, Expr.treeAll_eq_map, hss]

end

theorem nodup_tiers : Grammar.tiers.Nodup := by decide

mutual

/-- Every derived expression is read whole. -/
theorem reads_expression {ts : List Token} {e : Tree.Expr Pos} :
    Grammar.Expression ts e → ReadsExpr ts e
  | .term h => readsExpr_term (reaches_term h nodup_tiers)
  | .assign htarget hop hvalue => by
    refine readsExpr_assign (reaches_term htarget nodup_tiers)
      (assignmentOf_eq_some.2 (.inl ⟨hop, rfl⟩)) (reaches_term hvalue nodup_tiers) ?_
    intro t v ht hv
    rw [Expr.tree, ht, hv]
  | .update htarget hop hb hvalue => by
    refine readsExpr_assign (reaches_term htarget nodup_tiers)
      (assignmentOf_eq_some.2 (.inr ⟨_, _, hop, hb, rfl⟩)) (reaches_term hvalue nodup_tiers) ?_
    intro t v ht hv
    rw [Expr.tree, ht, hv]

theorem reaches_term {tiers : List Tier} {ts : List Token} {e : Tree.Expr Pos} :
    Grammar.Term tiers ts e → tiers.Nodup → ∀ n, Reaches n tiers ts e
  | .operand h, hnodup, n => reaches_operand (reaches_term h (List.nodup_cons.1 hnodup).2 n)
  | .binary hlhs hop hrhs, hnodup, n =>
    reaches_binary (List.nodup_cons.1 hnodup).1 (reaches_term hlhs hnodup n) hop
      (reaches_term hrhs (List.nodup_cons.1 hnodup).2 n)
  | .paren hl he hr, _, _ => reaches_paren hl (reads_expression he) hr
  | .var hx, _, _ =>
    fun _ _ hstop => ⟨_, rfl, takes_primary_ident hx (takes_named_var hstop)⟩
  | .element hx hl he hr, _, _ => reaches_element hx hl (reads_expression he) hr
  | .call hx hl hargs hjoin hr, _, _ =>
    reaches_call hx hl hargs (fun a ha => reads_expression (hargs a ha)) hjoin hr
  | .literal hx hw, _, _ => fun _ _ _ => ⟨_, rfl, takes_primary_literal hx hw⟩

end

/-! ## Statements and functions -/

theorem takes_peek {rest : List Token} : Takes peek [] rest rest.head? := by
  rintro ⟨rest, last⟩ rfl
  exact ⟨⟨rest, last⟩, rfl, rfl⟩

theorem takes_type {t : Token} {ty : Ty} {rest : List Token} (ht : t.kind = .keyword (.type ty)) :
    Takes type [t] rest ty :=
  (takes_nextWith (type?_eq_some.2 ht)).last (.pure _ _)

theorem takes_var {ts rest : List Token} {v : Var} (h : Grammar.Parameter ts v) :
    Takes var ts rest v := by
  cases h with
  | intro ht hx => exact Takes.cons (takes_type ht) ((takes_kind hx).last (.pure _ _))

theorem starts_parameter {ts : List Token} {v : Var} (h : Grammar.Parameter ts v) :
    ∃ t us, ts = t :: us ∧ ∃ ty, t.kind = .keyword (.type ty) := by
  cases h with
  | intro ht => exact ⟨_, _, rfl, _, ht⟩

/-- The next token does not continue a conditional. -/
def NoElse (rest : List Token) : Prop := ∀ t ∈ rest.head?, t.kind ≠ .keyword .else_

def ReadsStmt (ts : List Token) (s : PrimeLang.Stmt (Tree.Expr Pos) Var) : Prop :=
  ∀ ⦃n : Nat⦄ ⦃rest : List Token⦄, NoElse rest → (ts ++ rest).length < n →
    Reads (stmt n) spelledOut ts rest s

def ReadsBlock (ts : List Token) (body : List (PrimeLang.Stmt (Tree.Expr Pos) Var)) : Prop :=
  ∀ ⦃n : Nat⦄ ⦃rest : List Token⦄, (ts ++ rest).length ≤ n →
    Reads (block n (stmt n)) (List.map spelledOut) ts rest body

theorem starts_statement {ts : List Token} {s : PrimeLang.Stmt (Tree.Expr Pos) Var}
    (h : Grammar.Statement ts s) :
    ∃ t us, ts = t :: us ∧ t.kind ≠ .symbol .rbrace ∧ t.kind ≠ .keyword .else_ := by
  cases h with
  | decl hparam =>
    obtain ⟨t, us, rfl, ty, ht⟩ := starts_parameter hparam
    exact ⟨t, _, rfl, by simp [ht], by simp [ht]⟩
  | ifThen hk | ifElse hk | loop hk | ret hk | retValue hk =>
    exact ⟨_, _, rfl, by simp [hk], by simp [hk]⟩
  | eval he =>
    obtain ⟨t, us, rfl, ht⟩ := starts_expression he
    refine ⟨t, _, rfl, ?_⟩
    rcases ht with ht | ht | ht <;> simp [ht]

theorem readsBlock {l r : Token} {items : List (List Token × PrimeLang.Stmt (Tree.Expr Pos) Var)}
    (hl : l.kind = .symbol .lbrace) (hitems : ∀ i ∈ items, Grammar.Statement i.1 i.2)
    (hreads : ∀ i ∈ items, ReadsStmt i.1 i.2) (hr : r.kind = .symbol .rbrace) :
    ReadsBlock (l :: ((items.map Prod.fst).flatten ++ [r])) (items.map Prod.snd) := by
  intro n rest hn
  simp only [List.length_append, List.length_cons, List.length_nil] at hn
  obtain ⟨body, hbody, htakes⟩ := @reads_itemsUntil _ _ (stmt n) spelledOut .rbrace
    (· ≠ .keyword .else_) (by decide) n rest r hr items
    (fun i hi us hus => hreads i hi hus) (fun i hi => starts_statement (hitems i hi)) n
    (by simp only [List.length_append, List.length_cons]; omega) (by omega)
  exact ⟨body, hbody, Takes.cons (takes_symbol hl)
    (Takes.bind htakes ((takes_symbol hr).last (.pure _ _)))⟩

section
variable {n : Nat} {rest ts us vs : List Token} {k op semi l : Token} {v : Var}
  {init cond : Tree.Expr Pos} {body : List (PrimeLang.Stmt (Tree.Expr Pos) Var)}

/-- A variable, its first value and a semicolon. -/
theorem reads_binding (hparam : Grammar.Parameter ts v) (hop : op.kind = .symbol .assign)
    (hinit : Grammar.Expression us init) (hsemi : semi.kind = .symbol .semicolon)
    (hn : (us ++ semi :: rest).length < n) :
    Reads (binding n) (Prod.map (fun v => v) Expr.tree) (ts ++ op :: (us ++ [semi])) rest
      (v, init) := by
  obtain ⟨s, rfl, htakes⟩ := reads_expression hinit (stops_cons hsemi rfl) hn
  exact ⟨(v, s), rfl, Takes.bind (takes_var hparam) (Takes.cons (takes_symbol hop)
    (Takes.bind htakes ((takes_symbol hsemi).last (.pure _ _))))⟩

theorem readsStmt_decl (hparam : Grammar.Parameter ts v) (hop : op.kind = .symbol .assign)
    (hinit : Grammar.Expression us init) (hsemi : semi.kind = .symbol .semicolon) :
    ReadsStmt (ts ++ op :: (us ++ [semi])) (.decl v init) := by
  intro n rest _ hn
  obtain ⟨n, rfl⟩ : ∃ m, n = m + 1 := ⟨n - 1, by omega⟩
  simp only [List.length_append, List.length_cons, List.length_nil] at hn
  obtain ⟨⟨v, s⟩, hb, htakes⟩ := @reads_binding n rest _ _ _ _ _ _ hparam hop hinit hsemi
    (by simp only [List.length_append, List.length_cons]; omega)
  cases hb
  refine ⟨.decl v s, by simp [spelledOut, PrimeLang.Stmt.map], Takes.peek takes_peek ?_⟩
  cases hparam with
  | intro ht =>
    simp only [List.cons_append, List.head?_cons, Option.map_some, ht]
    exact Takes.last htakes (.pure _ _)

theorem stops_block {p : Kind → Bool} (hp : p (.symbol .lbrace) = false)
    (h : Grammar.Block us body) : Stops p (us ++ rest) := by
  cases h with
  | intro hl => exact stops_cons hl hp

theorem readsStmt_ifThen (hk : k.kind = .keyword .if_) (hcond : Grammar.Expression ts cond)
    (hblock : Grammar.Block us body) (hbody : ReadsBlock us body) :
    ReadsStmt (k :: (ts ++ us)) (.ifThen cond body) := by
  intro n rest helse hn
  obtain ⟨n, rfl⟩ : ∃ m, n = m + 1 := ⟨n - 1, by omega⟩
  simp only [List.length_append, List.length_cons] at hn
  obtain ⟨c, rfl, hctakes⟩ := @reads_expression _ _ hcond n (us ++ rest) (stops_block rfl hblock)
    (by simp only [List.length_append]; omega)
  obtain ⟨b, rfl, hbtakes⟩ := @hbody n rest (by rw [List.length_append]; omega)
  refine ⟨.ifThen c b, by simp [spelledOut, PrimeLang.Stmt.map, mapAll_eq_map],
    Takes.peek takes_peek ?_⟩
  simp only [List.cons_append, List.head?_cons, Option.map_some, hk]
  refine Takes.cons (takes_keyword hk) (Takes.bind hctakes (Takes.last hbtakes ?_))
  exact Takes.peek (takes_skip_false fun t ht => beq_eq_false_iff_ne.2 (helse t ht)) (.pure _ _)

theorem readsStmt_ifElse {orElse : List (PrimeLang.Stmt (Tree.Expr Pos) Var)}
    (hk : k.kind = .keyword .if_) (hcond : Grammar.Expression ts cond)
    (hblock : Grammar.Block us body) (hbody : ReadsBlock us body) (hl : l.kind = .keyword .else_)
    (horElse : ReadsBlock vs orElse) :
    ReadsStmt (k :: (ts ++ (us ++ l :: vs))) (.ifElse cond body orElse) := by
  intro n rest _ hn
  obtain ⟨n, rfl⟩ : ∃ m, n = m + 1 := ⟨n - 1, by omega⟩
  simp only [List.length_append, List.length_cons] at hn
  obtain ⟨c, rfl, hctakes⟩ := @reads_expression _ _ hcond n (us ++ l :: vs ++ rest)
    (by rw [List.append_assoc]; exact stops_block rfl hblock)
    (by simp only [List.length_append, List.length_cons]; omega)
  obtain ⟨b, rfl, hbtakes⟩ := @hbody n (l :: vs ++ rest)
    (by simp only [List.length_append, List.length_cons]; omega)
  obtain ⟨e, rfl, hetakes⟩ := @horElse n rest (by rw [List.length_append]; omega)
  refine ⟨.ifElse c b e, by simp [spelledOut, PrimeLang.Stmt.map, mapAll_eq_map],
    Takes.peek takes_peek ?_⟩
  simp only [List.cons_append, List.head?_cons, Option.map_some, hk]
  exact Takes.cons (takes_keyword hk) (Takes.bind hctakes (Takes.bind hbtakes
    (Takes.cons (takes_skip hl) (Takes.last hetakes (.pure _ _)))))

theorem readsStmt_loop {ws xs : List Token} {semi' : Token} {step : Tree.Expr Pos}
    (hk : k.kind = .keyword .for_) (hparam : Grammar.Parameter ts v)
    (hop : op.kind = .symbol .assign) (hinit : Grammar.Expression us init)
    (hsemi : semi.kind = .symbol .semicolon) (hcond : Grammar.Expression vs cond)
    (hsemi' : semi'.kind = .symbol .semicolon) (hstep : Grammar.Expression ws step)
    (hblock : Grammar.Block xs body) (hbody : ReadsBlock xs body) :
    ReadsStmt (k :: (ts ++ op :: (us ++ semi :: (vs ++ semi' :: (ws ++ xs)))))
      (.loop v init cond step body) := by
  intro n rest _ hn
  obtain ⟨n, rfl⟩ : ∃ m, n = m + 1 := ⟨n - 1, by omega⟩
  simp only [List.length_append, List.length_cons] at hn
  obtain ⟨⟨v, i⟩, hb, hitakes⟩ := @reads_binding n (vs ++ semi' :: (ws ++ xs) ++ rest) _ _ _ _ _ _
    hparam hop hinit hsemi (by simp only [List.length_append, List.length_cons]; omega)
  cases hb
  obtain ⟨c, rfl, hctakes⟩ := @reads_expression _ _ hcond n (semi' :: (ws ++ xs) ++ rest)
    (stops_cons hsemi' rfl) (by simp only [List.length_append, List.length_cons]; omega)
  obtain ⟨s, rfl, hstakes⟩ := @reads_expression _ _ hstep n (xs ++ rest) (stops_block rfl hblock)
    (by simp only [List.length_append]; omega)
  obtain ⟨b, rfl, hbtakes⟩ := @hbody n rest (by rw [List.length_append]; omega)
  refine ⟨.loop v i c s b, by simp [spelledOut, PrimeLang.Stmt.map, mapAll_eq_map],
    Takes.peek takes_peek ?_⟩
  simp only [List.cons_append, List.head?_cons, Option.map_some, hk]
  have hts : ts ++ op :: (us ++ semi :: (vs ++ semi' :: (ws ++ xs))) =
      ts ++ op :: (us ++ [semi]) ++ (vs ++ semi' :: (ws ++ xs)) := by simp
  rw [hts]
  exact Takes.cons (takes_keyword hk) (Takes.bind hitakes (Takes.bind hctakes
    (Takes.cons (takes_symbol hsemi') (Takes.bind hstakes (Takes.last hbtakes (.pure _ _))))))

theorem readsStmt_ret (hk : k.kind = .keyword .return_)
    (hsemi : semi.kind = .symbol .semicolon) : ReadsStmt [k, semi] (.ret none) := by
  intro n rest _ hn
  obtain ⟨n, rfl⟩ : ∃ m, n = m + 1 := ⟨n - 1, by omega⟩
  refine ⟨.ret none, by simp [spelledOut, PrimeLang.Stmt.map], Takes.peek takes_peek ?_⟩
  simp only [List.cons_append, List.head?_cons, Option.map_some, hk]
  exact Takes.cons (takes_keyword hk) (Takes.peek (takes_nextIs hsemi)
    (Takes.peek (.pure _ _) ((takes_symbol hsemi).last (.pure _ _))))

theorem readsStmt_retValue (hk : k.kind = .keyword .return_)
    (he : Grammar.Expression ts init) (hsemi : semi.kind = .symbol .semicolon) :
    ReadsStmt (k :: (ts ++ [semi])) (.ret (some init)) := by
  intro n rest _ hn
  obtain ⟨n, rfl⟩ : ∃ m, n = m + 1 := ⟨n - 1, by omega⟩
  simp only [List.length_append, List.length_cons, List.length_nil] at hn
  obtain ⟨s, rfl, htakes⟩ := @reads_expression _ _ he n (semi :: rest) (stops_cons hsemi rfl)
    (by simp only [List.length_append, List.length_cons]; omega)
  refine ⟨.ret (some s), by simp [spelledOut, PrimeLang.Stmt.map], Takes.peek takes_peek ?_⟩
  simp only [List.cons_append, List.head?_cons, Option.map_some, hk]
  have hno : Stops (· == .symbol .semicolon) (ts ++ [semi] ++ rest) := by
    obtain ⟨t, us, rfl, ht⟩ := starts_expression he
    rcases ht with ht | ht | ht <;> exact stops_cons ht rfl
  exact Takes.cons (takes_keyword hk) (Takes.peek (takes_nextIs_false hno)
    (Takes.bind (htakes.map some) ((takes_symbol hsemi).last (.pure _ _))))

theorem readsStmt_eval (he : Grammar.Expression ts init)
    (hsemi : semi.kind = .symbol .semicolon) : ReadsStmt (ts ++ [semi]) (.eval init) := by
  intro n rest _ hn
  obtain ⟨n, rfl⟩ : ∃ m, n = m + 1 := ⟨n - 1, by omega⟩
  obtain ⟨s, rfl, htakes⟩ := @reads_expression _ _ he (n + 1) (semi :: rest)
    (stops_cons hsemi rfl) (by simpa using hn)
  refine ⟨.eval s, by simp [spelledOut, PrimeLang.Stmt.map], Takes.peek takes_peek ?_⟩
  have hrun : Takes (exprStmt (n + 1)) (ts ++ [semi]) rest (.eval s) :=
    Takes.bind htakes ((takes_symbol hsemi).last (.pure _ _))
  obtain ⟨t, us, rfl, ht⟩ := starts_expression he
  rcases ht with ht | ht | ht <;>
    simpa only [List.cons_append, List.head?_cons, Option.map_some, ht] using hrun

end

mutual

/-- Every derived statement is read whole. -/
theorem reads_statement {ts : List Token} {s : PrimeLang.Stmt (Tree.Expr Pos) Var} :
    Grammar.Statement ts s → ReadsStmt ts s
  | .decl hparam hop hinit hsemi => readsStmt_decl hparam hop hinit hsemi
  | .ifThen hk hcond hbody => readsStmt_ifThen hk hcond hbody (reads_block hbody)
  | .ifElse hk hcond hbody hl horElse =>
    readsStmt_ifElse hk hcond hbody (reads_block hbody) hl (reads_block horElse)
  | .loop hk hparam hop hinit hsemi hcond hsemi' hstep hbody =>
    readsStmt_loop hk hparam hop hinit hsemi hcond hsemi' hstep hbody (reads_block hbody)
  | .ret hk hsemi => readsStmt_ret hk hsemi
  | .retValue hk he hsemi => readsStmt_retValue hk he hsemi
  | .eval he hsemi => readsStmt_eval he hsemi

theorem reads_block {ts : List Token} {body : List (PrimeLang.Stmt (Tree.Expr Pos) Var)} :
    Grammar.Block ts body → ReadsBlock ts body
  | .intro hl hitems hr => readsBlock hl hitems (fun i hi => reads_statement (hitems i hi)) hr

end

/-- The optional type of a result, before a body. -/
theorem takes_result {us vs rest : List Token} {ret : Option Ty} {q : Option Ty → Parse α} {a : α}
    (h : Grammar.Result us ret) (hstop : Stops (· == .symbol .arrow) (vs ++ rest))
    (hq : Takes (q ret) vs rest a) :
    Takes (skip (.symbol .arrow) >>= fun b => if b then some <$> type >>= q else pure none >>= q)
      (us ++ vs) rest a := by
  cases h with
  | none => exact Takes.peek (takes_skip_false hstop) (Takes.peek (.pure _ _) hq)
  | some harrow ht =>
    exact Takes.cons (takes_skip harrow) (Takes.cons ((takes_type ht).map some) hq)

theorem reads_function {ts : List Token} {f : PrimeLang.Func (Tree.Expr Pos) Var} {n : Nat}
    {rest : List Token} (h : Grammar.Function ts f) (hn : (ts ++ rest).length ≤ n) :
    Reads (func n) (PrimeLang.Func.map Expr.tree (fun v => v)) ts rest f := by
  cases h with
  | intro hk hx hl hparams hjoin hr hresult hbody =>
  next k x l r ts us vs params ret body =>
  simp only [List.length_append, List.length_cons] at hn
  have hstart : ∀ i ∈ params, ∃ t us, i.1 = t :: us ∧ t.kind ≠ .symbol .rparen := by
    intro i hi
    obtain ⟨t, us, hts, ty, ht⟩ := starts_parameter (hparams i hi)
    exact ⟨t, us, hts, by simp [ht]⟩
  obtain ⟨ws, hws, hptakes⟩ := @reads_commaList _ _ var (fun v => v) .rparen n
    (us ++ vs ++ rest) r (by decide) hr params
    (fun i hi us _ _ => ⟨i.2, rfl, takes_var (hparams i hi)⟩) hstart ts hjoin n
    (by simp only [List.length_append, List.length_cons]; omega) (by omega)
  obtain ⟨b, rfl, hbtakes⟩ := @reads_block _ _ hbody n rest (by rw [List.length_append]; omega)
  have hname : isFuncName x.kind = true := by
    rcases hx with hx | hx <;> rw [hx] <;> rfl
  refine ⟨⟨x.spelling, x.pos, ws, ret, b⟩, ?_, ?_⟩
  · simp [PrimeLang.Func.map, mapAll_eq_map, ← hws]
  · exact Takes.cons (takes_keyword hk) (Takes.cons (takes_expect _ hname) (Takes.cons
      (takes_symbol hl) (Takes.bind hptakes (Takes.cons (takes_symbol hr)
      (takes_result hresult (stops_block rfl hbody) (Takes.last hbtakes (.pure _ _)))))))

theorem starts_function {ts : List Token} {f : PrimeLang.Func (Tree.Expr Pos) Var}
    (h : Grammar.Function ts f) : ∃ t us, ts = t :: us ∧ t.kind = .keyword .func := by
  cases h with
  | intro hk => exact ⟨_, _, rfl, hk⟩

theorem reads_funcs {items : List (List Token × PrimeLang.Func (Tree.Expr Pos) Var)}
    (hitems : ∀ i ∈ items, Grammar.Function i.1 i.2) {rest : List Token} {n : Nat}
    (hstop : Stops (· == .keyword .func) rest)
    (hn : ((items.map Prod.fst).flatten ++ rest).length < n) :
    Reads (funcs n) (List.map (PrimeLang.Func.map Expr.tree (fun v => v)))
      (items.map Prod.fst).flatten rest (items.map Prod.snd) := by
  induction items generalizing n with
  | nil =>
    obtain ⟨n, rfl⟩ : ∃ m, n = m + 1 := ⟨n - 1, by omega⟩
    exact ⟨[], rfl, Takes.peek (takes_nextIs_false hstop) (.pure _ _)⟩
  | cons i items ih =>
    simp only [List.map_cons, List.flatten_cons, List.length_append] at hn
    obtain ⟨n, rfl⟩ : ∃ m, n = m + 1 := ⟨n - 1, by omega⟩
    obtain ⟨t, ts, hi, ht⟩ := starts_function (hitems i List.mem_cons_self)
    have hlen : i.1.length = ts.length + 1 := by rw [hi, List.length_cons]
    obtain ⟨f, hf, hftakes⟩ := @reads_function i.1 i.2 n ((items.map Prod.fst).flatten ++ rest)
      (hitems i List.mem_cons_self) (by simp only [List.length_append]; omega)
    obtain ⟨fs, hfs, hfstakes⟩ := ih (n := n) (fun j hj => hitems j (List.mem_cons_of_mem _ hj))
      (by rw [List.length_append]; omega)
    refine ⟨f :: fs, by rw [List.map_cons, hf, hfs, List.map_cons], ?_⟩
    have hnext : Takes (nextIs (.keyword .func)) [] (i.1 ++ (items.map Prod.fst).flatten ++ rest)
        true := by
      rw [hi]
      exact takes_nextIs ht
    exact Takes.peek hnext (Takes.bind hftakes (hfstakes.last (.pure _ _)))

/-- Every derived program is accepted. -/
theorem reads_program {ts : List Token} {fs : List (PrimeLang.Func (Tree.Expr Pos) Var)} {n : Nat}
    (h : Grammar.Program ts fs) (hn : ts.length < n) :
    Reads (program n) (List.map (PrimeLang.Func.map Expr.tree (fun v => v))) ts [] fs := by
  cases h with
  | intro hitems heof =>
  obtain ⟨fs, hfs, htakes⟩ := @reads_funcs _ hitems [_] n (stops_cons heof rfl) hn
  refine ⟨fs, hfs, Takes.bind htakes ((takes_expect _ (by rw [heof]; rfl)).last (.pure _ _))⟩

end Parse

/-! ## The parser and the grammar -/

/-- A derivation that starts at the first token ends at the last one, where the end of the text is
marked. -/
theorem rest_eq_nil_of_program {body ts rest : List Token} {eof : Token}
    {fs : List (PrimeLang.Func (Tree.Expr Pos) Var)} (hbody : ∀ t ∈ body, t.kind ≠ .eof)
    (h : Grammar.Program ts fs) (hts : body ++ [eof] = ts ++ rest) : rest = [] := by
  cases h with
  | intro hitems heof =>
  next e _ =>
  rcases List.eq_nil_or_concat rest with rfl | ⟨us, u, rfl⟩
  · rfl
  · rw [List.concat_eq_append, ← List.append_assoc] at hts
    have hmem : e ∈ body := by rw [(List.append_inj' hts rfl).1]; simp
    exact absurd heof (hbody e hmem)

/-- The functions of an accepted token list are those of a derivation from all its tokens, if the
end of the text is marked once. -/
theorem parse_eq_ok_iff {body : List Token} {eof : Token} (heof : eof.kind = .eof)
    (hbody : ∀ t ∈ body, t.kind ≠ .eof) {fs : List (PrimeLang.Func (Tree.Expr Pos) Var)} :
    (∃ gs, parse (.ofTokens (body ++ [eof])) = .ok gs ∧
        gs.map (PrimeLang.Func.map Expr.tree (fun v => v)) = fs) ↔
      Grammar.Program ((body ++ [eof]).filter (·.kind ≠ .comment)) fs := by
  constructor
  · rintro ⟨gs, h, rfl⟩
    rw [parse] at h
    cases hrun : Parse.program ((Cursor.ofTokens (body ++ [eof])).rest.length + 1)
        (.ofTokens (body ++ [eof])) with
    | error e => simp [hrun, Except.map] at h
    | ok r =>
      obtain ⟨gs', c'⟩ := r
      rw [hrun] at h
      cases h
      obtain ⟨ts, hts, hprogram⟩ := Parse.program_sound _ hrun
      have hsplit : (body ++ [eof]).filter (·.kind ≠ .comment) =
          body.filter (·.kind ≠ .comment) ++ [eof] := by simp [heof]
      have hnil := rest_eq_nil_of_program (fun t ht => hbody t (List.mem_filter.1 ht).1) hprogram
        (hsplit.symm.trans hts)
      rw [hnil, List.append_nil] at hts
      rw [← hts] at hprogram
      exact hprogram
  · intro h
    obtain ⟨gs, hgs, htakes⟩ := Parse.reads_program h (Nat.lt_succ_self _)
    obtain ⟨c', hrun, -⟩ := htakes (.ofTokens (body ++ [eof])) (List.append_nil _).symm
    exact ⟨gs, by rw [parse]; exact congrArg (Except.map Prod.fst) hrun, hgs⟩

end Source

/-- A run of digits spells a word if its value is at most the largest one. -/
theorem Grammar.Digits.exists_word_iff {cs : List Char} {n : Nat} (h : Digits cs n) :
    (∃ w : Int32, Numeral cs w.toInt) ↔ n ≤ 2147483647 := by
  have hn : ∀ i, Numeral cs i ↔ i = n := by
    intro i
    rw [← integer?_eq_some_iff, integer?_eq_some_iff.2 (.unsigned h), Option.some.injEq, eq_comm]
  simp only [hn]
  constructor
  · rintro ⟨w, hw⟩
    have hle : w.toInt ≤ Int32.maxValue.toInt := w.toInt_le
    rw [hw] at hle
    exact Int.ofNat_le.1 hle
  · intro hle
    exact ⟨Int32.ofInt n, Int32.toInt_ofInt_of_le (by omega) (by omega)⟩

namespace Program

/-- The parser accepts exactly the programs of the grammar. What it stores unfolds to the abstract
tree of the derivation, in which no node occurs twice, and that tree is unique. -/
theorem ofTokens_accepts_exactly_grammar {body : List Token} {eof : Token}
    (heof : eof.kind = .eof) (hbody : ∀ t ∈ body, t.kind ≠ .eof) :
    let ts := (body ++ [eof]).filter (·.kind ≠ .comment)
    ((∃ p, ofTokens (.ofTokens (body ++ [eof])) = .ok p) ↔ ∃ fs, Grammar.Program ts fs) ∧
    (∀ p fs, ofTokens (.ofTokens (body ++ [eof])) = .ok p → Grammar.Program ts fs →
      p.nodes.funcs? = some p.funcs ∧
      p.funcs.map (·.toFunc.map (Tree.Expr.map Site.pos) (·.toVar)) = fs ∧
      ((p.exprs.flatMap Tree.Expr.labels).map Site.id).Nodup) ∧
    (∀ fs fs', Grammar.Program ts fs → Grammar.Program ts fs' → fs = fs') ∧
    (∀ cs n, Grammar.Digits cs n →
      ((∃ w : Int32, Grammar.Numeral cs w.toInt) ↔ n ≤ 2147483647)) := by
  intro ts
  have hiff := @Source.parse_eq_ok_iff body eof heof hbody
  have hunique : ∀ fs fs', Grammar.Program ts fs → Grammar.Program ts fs' → fs = fs' := by
    intro fs fs' h h'
    obtain ⟨gs, hgs, rfl⟩ := hiff.2 h
    obtain ⟨gs', hgs', rfl⟩ := hiff.2 h'
    cases hgs.symm.trans hgs'
    rfl
  refine ⟨⟨?_, ?_⟩, ?_, hunique, fun cs n h => h.exists_word_iff⟩
  · rintro ⟨p, hp⟩
    obtain ⟨gs, hgs, -⟩ := ofTokens_eq_ok.1 hp
    exact ⟨_, hiff.1 ⟨gs, hgs, rfl⟩⟩
  · rintro ⟨fs, hfs⟩
    obtain ⟨gs, hgs, -⟩ := hiff.2 hfs
    exact ⟨_, ofTokens_eq_ok.2 ⟨gs, hgs, rfl⟩⟩
  · intro p fs hp hfs
    obtain ⟨gs, hgs, rfl⟩ := ofTokens_eq_ok.1 hp
    have hwf := ofSource_wellFormed gs
    refine ⟨hwf.funcs?, ?_, hwf.nodup_exprIds⟩
    rw [ofSource_funcs]
    exact hunique _ _ (hiff.1 ⟨gs, hgs, rfl⟩) hfs

/-- `func main(int x) { (x) += 007; }` with a comment before the last brace. -/
def updateTokens : List Token :=
  [(.keyword .func, "func", 0), (.keyword .main, "main", 5), (.symbol .lparen, "(", 9),
    (.keyword (.type .int), "int", 10), (.ident, "x", 14), (.symbol .rparen, ")", 15),
    (.symbol .lbrace, "\x7b", 17), (.symbol .lparen, "(", 19), (.ident, "x", 20),
    (.symbol .rparen, ")", 21), (.symbol .addAssign, "+=", 23), (.number, "007", 26),
    (.symbol .semicolon, ";", 29), (.comment, "// sum", 31), (.symbol .rbrace, "\x7d", 38)].map
    fun (kind, spelling, col) => ⟨kind, spelling, col, 0, col⟩

theorem ofTokens_accepts_updateTokens :
    (∀ t ∈ updateTokens, t.kind ≠ .eof) ∧
      ∃! fs, Grammar.Program
        (List.filter (·.kind ≠ .comment) (updateTokens ++ [⟨.eof, "", 39, 0, 39⟩])) fs := by
  have hbody : ∀ t ∈ updateTokens, t.kind ≠ .eof := by decide
  obtain ⟨hiff, -, hunique, -⟩ :=
    @ofTokens_accepts_exactly_grammar updateTokens ⟨.eof, "", 39, 0, 39⟩ rfl hbody
  obtain ⟨fs, hfs⟩ := hiff.1 ⟨_, rfl⟩
  exact ⟨hbody, fs, hfs, fun fs' hfs' => hunique _ _ hfs' hfs⟩

end Program
end PrimeLang
