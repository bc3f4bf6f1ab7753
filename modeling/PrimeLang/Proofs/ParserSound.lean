import PrimeLang.Proofs.Grammar
import PrimeLang.Proofs.Storing

/-! # The parser derives what it accepts

Whatever the parser reads is a phrase of the grammar, and the tree it builds is the abstract tree
of that phrase once compound assignments are spelled out (`Source.Parse.program_sound`). The bounds
on loops and nesting play no part here: a loop that stops early has read a shorter phrase. -/

namespace PrimeLang

/-! ## Numerals -/

theorem digitsValue_eq_ofDigits (cs : List Char) :
    digitsValue cs = Nat.ofDigits 10 (cs.reverse.map fun c => c.toNat - '0'.toNat) := by
  rw [digitsValue, Nat.ofDigits_eq_foldr, List.foldr_map, List.foldr_reverse]
  congr 1
  funext n c
  exact Nat.add_comm ..

theorem natural?_eq_some_iff {cs : List Char} {n : Nat} :
    natural? cs = some n ↔ Grammar.Digits cs n := by
  unfold natural?
  split
  · next h =>
    rw [Option.some.injEq, digitsValue_eq_ofDigits]
    exact ⟨fun hn => ⟨h.1, List.all_eq_true.1 h.2, hn.symm⟩, fun hn => hn.value.symm⟩
  · next h =>
    refine ⟨fun hn => (nomatch hn), fun hn => ?_⟩
    exact absurd ⟨hn.ne_nil, List.all_eq_true.2 hn.isDigit⟩ h

theorem integer?_eq_some_iff {cs : List Char} {i : Int} :
    integer? cs = some i ↔ Grammar.Numeral cs i := by
  constructor
  · intro h
    unfold integer? at h
    split at h
    · obtain ⟨n, hn, rfl⟩ := Option.map_eq_some_iff.1 h
      exact .plus (natural?_eq_some_iff.1 hn)
    · simp only [Option.map_eq_some_iff, Option.bind_eq_bind, Option.bind_eq_some_iff,
        Option.pure_def, Option.some.injEq] at h
      obtain ⟨_, ⟨n, hn, rfl⟩, rfl⟩ := h
      exact .minus (natural?_eq_some_iff.1 hn)
    · obtain ⟨n, hn, rfl⟩ := Option.map_eq_some_iff.1 h
      exact .unsigned (natural?_eq_some_iff.1 hn)
  · intro h
    cases h with
    | plus h | minus h => simp [integer?, natural?_eq_some_iff.2 h]
    | unsigned h =>
      have hn := natural?_eq_some_iff.2 h
      unfold integer?
      split
      · exact absurd (h.isDigit '+' List.mem_cons_self) (by decide)
      · exact absurd (h.isDigit '-' List.mem_cons_self) (by decide)
      · rw [hn, Option.map_some, Int.ofNat_eq_natCast]

/-- A spelling is read as the word whose value it spells. -/
theorem word?_eq_some_iff {cs : List Char} {w : Int32} :
    word? cs = some w ↔ Grammar.Numeral cs w.toInt := by
  rw [← integer?_eq_some_iff, word?, Option.bind_eq_bind, Option.bind_eq_some_iff]
  constructor
  · rintro ⟨i, hi, h⟩
    split at h
    · next hr =>
      cases h
      rw [hi, Int32.toInt_ofInt_of_le hr.1 (Int.lt_of_le_of_lt hr.2 (by decide))]
    · exact nomatch h
  · intro h
    refine ⟨w.toInt, h, ?_⟩
    rw [if_pos ⟨w.minValue_le_toInt, w.toInt_le⟩, Int32.ofInt_toInt]

theorem Source.Expr.treeAll_eq_map (es : List Source.Expr) :
    treeAll es = es.map tree := by
  induction es with
  | nil => rfl
  | cons e es ih => rw [treeAll, ih, List.map_cons]

namespace Source.Parse
open Token (Kind)
variable {α β : Type} {c c' : Cursor}

/-! ## Steps of the parser -/

theorem bind_ok {p : Parse α} {f : α → Parse β} {b : β} :
    (p >>= f) c = .ok (b, c') ↔ ∃ a c₁, p c = .ok (a, c₁) ∧ f a c₁ = .ok (b, c') := by
  show (StateT.bind p f) c = _ ↔ _
  unfold StateT.bind
  cases h : p c with
  | error e => simp [bind, Except.bind]
  | ok r =>
    obtain ⟨a, c₁⟩ := r
    simp [bind, Except.bind]

theorem pure_ok {a b : α} : (pure a : Parse α) c = .ok (b, c') ↔ a = b ∧ c = c' := by
  show Except.ok (a, c) = _ ↔ _
  rw [Except.ok.injEq, Prod.mk.injEq]

theorem map_ok {p : Parse α} {f : α → β} {b : β} :
    (f <$> p) c = .ok (b, c') ↔ ∃ a, p c = .ok (a, c') ∧ f a = b := by
  rw [map_eq_pure_bind, bind_ok]
  constructor
  · rintro ⟨a, c₁, hp, h⟩
    obtain ⟨rfl, rfl⟩ := pure_ok.1 h
    exact ⟨a, hp, rfl⟩
  · rintro ⟨a, hp, rfl⟩
    exact ⟨a, c', hp, pure_ok.2 ⟨rfl, rfl⟩⟩

theorem ite_ok {b : Bool} {p q : Parse α} {r : Except SyntaxError (α × Cursor)} :
    (if b then p else q) c = r ↔ (b = true ∧ p c = r) ∨ (b = false ∧ q c = r) := by
  cases b <;> simp

theorem not_unexpected_ok {expected : String} {a : α} :
    unexpected expected c ≠ .ok (a, c') := nofun

theorem expect_ok {expected : String} {p : Kind → Bool} {t : Token}
    (h : expect expected p c = .ok (t, c')) : p t.kind ∧ c.rest = t :: c'.rest := by
  unfold expect Cursor.expect Cursor.nextIf? at h
  split at h
  · next r hr =>
    cases h
    split at hr
    · next hp =>
      obtain ⟨rest, last⟩ := c
      cases rest with
      | nil => exact nomatch hr
      | cons t' rest =>
        cases hr
        exact ⟨hp, rfl⟩
    · exact nomatch hr
  · exact nomatch h

theorem kind_ok {k : Kind} {t : Token} (h : kind k c = .ok (t, c')) :
    t.kind = k ∧ c.rest = t :: c'.rest := by
  obtain ⟨hk, hr⟩ := expect_ok h
  exact ⟨eq_of_beq hk, hr⟩

theorem symbol_ok {s : Symbol} {t : Token} (h : symbol s c = .ok (t, c')) :
    t.kind = .symbol s ∧ c.rest = t :: c'.rest := kind_ok h

theorem keyword_ok {k : Keyword} {t : Token} (h : keyword k c = .ok (t, c')) :
    t.kind = .keyword k ∧ c.rest = t :: c'.rest := kind_ok h

theorem nextIs_ok {k : Kind} {b : Bool} (h : nextIs k c = .ok (b, c')) : c' = c := by
  cases h
  rfl

theorem skip_ok {k : Kind} {b : Bool} (h : skip k c = .ok (b, c')) :
    (b = true ∧ ∃ t, t.kind = k ∧ c.rest = t :: c'.rest) ∨ (b = false ∧ c' = c) := by
  unfold skip Cursor.nextIf? at h
  split at h
  · next t c₁ hr =>
    cases h
    split at hr
    · next hk =>
      obtain ⟨rest, last⟩ := c
      cases rest with
      | nil => exact nomatch hr
      | cons t' rest =>
        cases hr
        exact .inl ⟨rfl, t, eq_of_beq hk, rfl⟩
    · exact nomatch hr
  · cases h
    exact .inr ⟨rfl, rfl⟩

theorem nextWith_ok {f : Kind → Option α} {o : Option (α × Token)}
    (h : nextWith f c = .ok (o, c')) :
    (∃ a t, o = some (a, t) ∧ f t.kind = some a ∧ c.rest = t :: c'.rest) ∨
      (o = none ∧ c' = c) := by
  unfold nextWith at h
  split at h
  · next t c₁ hr =>
    split at h
    · next a ha =>
      cases h
      obtain ⟨rest, last⟩ := c
      cases rest with
      | nil => exact nomatch hr
      | cons t' rest =>
        cases hr
        exact .inl ⟨a, t, rfl, ha, rfl⟩
    · cases h
      exact .inr ⟨rfl, rfl⟩
  · cases h
    exact .inr ⟨rfl, rfl⟩

/-! ## Repetitions -/

/-- Whatever `p` reads is a phrase of `P`. -/
def Sound (p : Parse α) (P : List Token → α → Prop) : Prop :=
  ∀ ⦃c c' : Cursor⦄ ⦃a : α⦄, p c = .ok (a, c') → ∃ ts, c.rest = ts ++ c'.rest ∧ P ts a

theorem itemsUntil_sound {item : Parse α} {P : List Token → α → Prop} (hitem : Sound item P)
    {close : Symbol} {n : Nat} {as : List α} (h : itemsUntil item close n c = .ok (as, c')) :
    ∃ items : List (List Token × α), (∀ i ∈ items, P i.1 i.2) ∧
      c.rest = (items.map Prod.fst).flatten ++ c'.rest ∧ as = items.map Prod.snd := by
  induction n generalizing c as with
  | zero =>
    obtain ⟨rfl, rfl⟩ := pure_ok.1 h
    exact ⟨[], by simp, rfl, rfl⟩
  | succ n ih =>
    rw [itemsUntil, bind_ok] at h
    obtain ⟨b, c₁, h₁, h⟩ := h
    obtain rfl := nextIs_ok h₁
    rw [ite_ok] at h
    rcases h with ⟨-, h⟩ | ⟨-, h⟩
    · obtain ⟨rfl, rfl⟩ := pure_ok.1 h
      exact ⟨[], by simp, rfl, rfl⟩
    · simp only [bind_ok, pure_ok] at h
      obtain ⟨a, c₂, h₂, as, c₃, h₃, rfl, rfl⟩ := h
      obtain ⟨ts, hts, hP⟩ := hitem h₂
      obtain ⟨items, hitems, hrest, rfl⟩ := ih h₃
      refine ⟨(ts, a) :: items, ?_, by simp [hts, hrest], rfl⟩
      rintro i hi
      rcases List.mem_cons.1 hi with rfl | hi
      · exact hP
      · exact hitems i hi

theorem commaItems_sound {item : Parse α} {P : List Token → α → Prop} (hitem : Sound item P)
    {n : Nat} {as : List α} (h : commaItems item n c = .ok (as, c')) :
    ∃ (items : List (List Token × α)) (us : List Token), (∀ i ∈ items, P i.1 i.2) ∧
      c.rest = us ++ c'.rest ∧ as = items.map Prod.snd ∧
      ∀ ts, Grammar.Joined (ts :: items.map Prod.fst) (ts ++ us) := by
  induction n generalizing c as with
  | zero =>
    obtain ⟨rfl, rfl⟩ := pure_ok.1 h
    exact ⟨[], [], by simp, rfl, rfl, fun ts => by simpa using .one⟩
  | succ n ih =>
    rw [commaItems, bind_ok] at h
    obtain ⟨b, c₁, h₁, h⟩ := h
    rcases skip_ok h₁ with ⟨rfl, comma, hcomma, hc⟩ | ⟨rfl, rfl⟩
    · simp only [if_true, bind_ok, pure_ok] at h
      obtain ⟨a, c₂, h₂, as, c₃, h₃, rfl, rfl⟩ := h
      obtain ⟨ts, hts, hP⟩ := hitem h₂
      obtain ⟨items, us, hitems, hrest, rfl, hjoin⟩ := ih h₃
      refine ⟨(ts, a) :: items, comma :: (ts ++ us), ?_, by simp [hc, hts, hrest], rfl,
        fun ts' => .cons hcomma (hjoin ts)⟩
      intro i hi
      rcases List.mem_cons.1 hi with rfl | hi
      · exact hP
      · exact hitems i hi
    · obtain ⟨rfl, rfl⟩ := pure_ok.1 h
      exact ⟨[], [], by simp, rfl, rfl, fun ts => by simpa using .one⟩

theorem commaList_sound {item : Parse α} {P : List Token → α → Prop} (hitem : Sound item P)
    {n : Nat} {close : Symbol} {as : List α} (h : commaList n item close c = .ok (as, c')) :
    ∃ (items : List (List Token × α)) (ts : List Token), (∀ i ∈ items, P i.1 i.2) ∧
      c.rest = ts ++ c'.rest ∧ as = items.map Prod.snd ∧
      Grammar.Joined (items.map Prod.fst) ts := by
  rw [commaList, bind_ok] at h
  obtain ⟨b, c₁, h₁, h⟩ := h
  obtain rfl := nextIs_ok h₁
  rw [ite_ok] at h
  rcases h with ⟨-, h⟩ | ⟨-, h⟩
  · obtain ⟨rfl, rfl⟩ := pure_ok.1 h
    exact ⟨[], [], by simp, rfl, rfl, .nil⟩
  · simp only [bind_ok, pure_ok] at h
    obtain ⟨a, c₂, h₂, as, c₃, h₃, rfl, rfl⟩ := h
    obtain ⟨ts, hts, hP⟩ := hitem h₂
    obtain ⟨items, us, hitems, hrest, rfl, hjoin⟩ := commaItems_sound hitem h₃
    refine ⟨(ts, a) :: items, ts ++ us, ?_, by simp [hts, hrest], rfl, hjoin ts⟩
    intro i hi
    rcases List.mem_cons.1 hi with rfl | hi
    · exact hP
    · exact hitems i hi

/-! ## Expressions -/

theorem operatorOf_eq_some {tier : Tier} {k : Kind} {op : BinaryOp} :
    operatorOf tier k = some op ↔ k = .symbol (.operator op) ∧ op.tier = tier := by
  unfold operatorOf
  split
  · split <;> grind
  · next h =>
    refine ⟨fun h' => (nomatch h'), fun h' => ?_⟩
    exact absurd h'.1 (h op)

/-- Operators of a tier are added on the right, so what was read before stays the left operand. -/
theorem chainFrom_sound {operand : Parse Expr} {tier : Tier} {tighter : List Tier}
    (hoperand : Sound operand fun ts s => Grammar.Term tighter ts s.tree) {n : Nat} {lhs s : Expr}
    {ts : List Token} (hlhs : Grammar.Term (tier :: tighter) ts lhs.tree)
    (h : chainFrom tier operand n lhs c = .ok (s, c')) :
    ∃ us, c.rest = us ++ c'.rest ∧ Grammar.Term (tier :: tighter) (ts ++ us) s.tree := by
  induction n generalizing c lhs ts with
  | zero =>
    obtain ⟨rfl, rfl⟩ := pure_ok.1 h
    exact ⟨[], rfl, by simpa using hlhs⟩
  | succ n ih =>
    rw [chainFrom, bind_ok] at h
    obtain ⟨o, c₁, h₁, h⟩ := h
    rcases nextWith_ok h₁ with ⟨op, t, rfl, hop, hc⟩ | ⟨rfl, rfl⟩
    · simp only [bind_ok] at h
      obtain ⟨rhs, c₂, h₂, h⟩ := h
      obtain ⟨us, hus, hrhs⟩ := hoperand h₂
      obtain ⟨hk, rfl⟩ := operatorOf_eq_some.1 hop
      have hbinary : Grammar.Term (op.tier :: tighter) (ts ++ t :: us)
          (Expr.binary op t.pos lhs rhs).tree := by
        rw [Expr.tree]
        exact .binary hlhs hk hrhs
      obtain ⟨vs, hvs, hs⟩ := ih hbinary h
      exact ⟨t :: (us ++ vs), by simp [hc, hus, hvs], by simpa using hs⟩
    · obtain ⟨rfl, rfl⟩ := pure_ok.1 h
      exact ⟨[], rfl, by simpa using hlhs⟩

theorem chain_sound {operand : Parse Expr} {tighter : List Tier}
    (hoperand : Sound operand fun ts s => Grammar.Term tighter ts s.tree) (n : Nat) (tier : Tier) :
    Sound (chain n tier operand) fun ts s => Grammar.Term (tier :: tighter) ts s.tree := by
  intro c c' s h
  rw [chain, bind_ok] at h
  obtain ⟨lhs, c₁, h₁, h⟩ := h
  obtain ⟨ts, hts, hlhs⟩ := hoperand h₁
  obtain ⟨us, hus, hs⟩ := chainFrom_sound hoperand (.operand hlhs) h
  exact ⟨ts ++ us, by simp [hts, hus], hs⟩

section
variable {expr : Parse Expr} (hexpr : Sound expr fun ts s => Grammar.Expression ts s.tree)
include hexpr

theorem named_sound {n : Nat} {x : Token} {s : Expr} (hx : x.kind = .ident)
    (h : named n expr x c = .ok (s, c')) :
    ∃ ts, c.rest = ts ++ c'.rest ∧ Grammar.Term [] (x :: ts) s.tree := by
  rw [named, bind_ok] at h
  obtain ⟨b, c₁, h₁, h⟩ := h
  rcases skip_ok h₁ with ⟨rfl, l, hl, hc⟩ | ⟨rfl, rfl⟩
  · simp only [if_true, bind_ok, pure_ok] at h
    obtain ⟨args, c₂, h₂, r, c₃, h₃, rfl, rfl⟩ := h
    obtain ⟨items, ts, hitems, hts, rfl, hjoin⟩ := commaList_sound hexpr h₂
    obtain ⟨hr, hrest⟩ := symbol_ok h₃
    refine ⟨l :: (ts ++ [r]), by simp [hc, hts, hrest], ?_⟩
    have hargs : ∀ a ∈ items.map fun i => (i.1, i.2.tree), Grammar.Expression a.1 a.2 := by
      intro a ha
      obtain ⟨i, hi, rfl⟩ := List.mem_map.1 ha
      exact hitems i hi
    have hcall := Grammar.Term.call hx hl hargs (by simpa [Function.comp_def] using hjoin) hr
    simpa [Expr.tree, Expr.treeAll_eq_map, Function.comp_def] using hcall
  simp only [Bool.false_eq_true, if_false, bind_ok] at h
  obtain ⟨b, c₂, h₂, h⟩ := h
  rcases skip_ok h₂ with ⟨rfl, l, hl, hc⟩ | ⟨rfl, rfl⟩
  · simp only [if_true, bind_ok, pure_ok] at h
    obtain ⟨index, c₃, h₃, r, c₄, h₄, rfl, rfl⟩ := h
    obtain ⟨ts, hts, hindex⟩ := hexpr h₃
    obtain ⟨hr, hrest⟩ := symbol_ok h₄
    exact ⟨l :: (ts ++ [r]), by simp [hc, hts, hrest], .element hx hl hindex hr⟩
  · obtain ⟨rfl, rfl⟩ := pure_ok.1 h
    exact ⟨[], rfl, .var hx⟩

theorem primary_sound (n : Nat) :
    Sound (primary n expr) fun ts s => Grammar.Term [] ts s.tree := by
  intro c c' s h
  rw [primary, bind_ok] at h
  obtain ⟨b, c₁, h₁, h⟩ := h
  rcases skip_ok h₁ with ⟨rfl, l, hl, hc⟩ | ⟨rfl, rfl⟩
  · simp only [if_true, bind_ok, pure_ok] at h
    obtain ⟨inner, c₂, h₂, r, c₃, h₃, rfl, rfl⟩ := h
    obtain ⟨ts, hts, hinner⟩ := hexpr h₂
    obtain ⟨hr, hrest⟩ := symbol_ok h₃
    exact ⟨l :: (ts ++ [r]), by simp [hc, hts, hrest], .paren hl hinner hr⟩
  simp only [Bool.false_eq_true, if_false, bind_ok] at h
  obtain ⟨b, c₂, h₂, h⟩ := h
  obtain rfl := nextIs_ok h₂
  rw [ite_ok] at h
  rcases h with ⟨-, h⟩ | ⟨-, h⟩
  · rw [bind_ok] at h
    obtain ⟨x, c₃, h₃, h⟩ := h
    obtain ⟨hx, hc⟩ := kind_ok h₃
    obtain ⟨ts, hts, hs⟩ := named_sound hexpr hx h
    exact ⟨x :: ts, by simp [hc, hts], hs⟩
  rw [bind_ok] at h
  obtain ⟨b, c₃, h₃, h⟩ := h
  obtain rfl := nextIs_ok h₃
  rw [ite_ok] at h
  rcases h with ⟨-, h⟩ | ⟨-, h⟩
  · rw [bind_ok] at h
    obtain ⟨x, c₄, h₄, h⟩ := h
    obtain ⟨hx, hc⟩ := kind_ok h₄
    cases hw : word? x.spelling.toList with
    | none =>
      rw [literal, hw] at h
      exact nomatch h
    | some w =>
      rw [literal, hw] at h
      obtain ⟨rfl, rfl⟩ := pure_ok.1 h
      exact ⟨[x], hc, .literal hx (word?_eq_some_iff.1 hw)⟩
  · exact absurd h not_unexpected_ok

theorem binary_sound (n : Nat) :
    Sound (binary n expr) fun ts s => Grammar.Term Grammar.tiers ts s.tree := by
  have h := primary_sound hexpr n
  exact chain_sound (chain_sound (chain_sound (chain_sound h n _) n _) n _) n _

end

theorem assignmentOf_eq_some {k : Kind} {o : Option BinaryOp} :
    assignmentOf k = some o ↔
      k = .symbol .assign ∧ o = none ∨ ∃ s b, k = .symbol s ∧ s.update? = some b ∧ o = some b := by
  cases k with
  | symbol s => cases s <;> simp [assignmentOf, Symbol.update?, eq_comm]
  | _ => simp [assignmentOf]

theorem isVariable_iff {s : Expr} :
    s.isVariable ↔ ∃ pos name indices, s.tree = .ident pos name indices := by
  cases s with
  | assign op pos target value => cases op <;> simp [Expr.isVariable, Expr.tree]
  | _ => simp [Expr.isVariable, Expr.tree]

theorem assignment_sound {operand : Parse Expr}
    (hoperand : Sound operand fun ts s => Grammar.Term Grammar.tiers ts s.tree) :
    Sound (assignment operand) fun ts s => Grammar.Expression ts s.tree := by
  intro c c' s h
  simp only [assignment, bind_ok] at h
  obtain ⟨target, c₁, h₁, o, c₂, h₂, h⟩ := h
  obtain ⟨ts, hts, htarget⟩ := hoperand h₁
  rcases nextWith_ok h₂ with ⟨op, t, rfl, hop, hc⟩ | ⟨rfl, rfl⟩
  · rw [ite_ok] at h
    rcases h with ⟨hv, h⟩ | ⟨-, h⟩
    · simp only [bind_ok, pure_ok] at h
      obtain ⟨value, c₃, h₃, rfl, rfl⟩ := h
      obtain ⟨us, hus, hvalue⟩ := hoperand h₃
      obtain ⟨pos, name, indices, htree⟩ := isVariable_iff.1 hv
      rw [htree] at htarget
      refine ⟨ts ++ t :: us, by simp [hts, hc, hus], ?_⟩
      rcases assignmentOf_eq_some.1 hop with ⟨hk, rfl⟩ | ⟨s, b, hk, hb, rfl⟩
      · rw [Expr.tree, htree]
        exact .assign htarget hk hvalue
      · rw [Expr.tree, htree]
        exact .update htarget hk hb hvalue
    · exact nomatch h
  · obtain ⟨rfl, rfl⟩ := pure_ok.1 h
    exact ⟨ts, hts, .term htarget⟩

theorem expr_sound (n : Nat) : Sound (expr n) fun ts s => Grammar.Expression ts s.tree := by
  induction n with
  | zero => exact fun _ _ _ h => absurd h not_unexpected_ok
  | succ n ih => exact assignment_sound (binary_sound ih n)

/-! ## Statements and functions -/

theorem type?_eq_some {k : Kind} {ty : Ty} : k.type? = some ty ↔ k = .keyword (.type ty) := by
  cases k with
  | keyword k => cases k <;> simp [Kind.type?]
  | _ => simp [Kind.type?]

theorem type_ok {ty : Ty} (h : type c = .ok (ty, c')) :
    ∃ t : Token, t.kind = .keyword (.type ty) ∧ c.rest = t :: c'.rest := by
  rw [type, bind_ok] at h
  obtain ⟨o, c₁, h₁, h⟩ := h
  rcases nextWith_ok h₁ with ⟨ty', t, rfl, hty, hc⟩ | ⟨rfl, rfl⟩
  · obtain ⟨rfl, rfl⟩ := pure_ok.1 h
    exact ⟨t, type?_eq_some.1 hty, hc⟩
  · exact absurd h not_unexpected_ok

theorem var_sound : Sound var Grammar.Parameter := by
  intro c c' v h
  simp only [var, bind_ok, pure_ok] at h
  obtain ⟨ty, c₁, h₁, x, c₂, h₂, rfl, rfl⟩ := h
  obtain ⟨t, ht, hc⟩ := type_ok h₁
  obtain ⟨hx, hrest⟩ := kind_ok h₂
  exact ⟨[t, x], by simp [hc, hrest], .intro ht hx⟩

/-- A statement over source expressions, with compound assignments spelled out. -/
abbrev spelledOut (s : Stmt) : PrimeLang.Stmt (Tree.Expr Pos) Var := s.map Expr.tree (fun v => v)

theorem mapAll_eq_map {ε ε' β β' : Type} (f : ε → ε') (g : β → β')
    (ss : List (PrimeLang.Stmt ε β)) :
    PrimeLang.Stmt.mapAll f g ss = ss.map (PrimeLang.Stmt.map f g) := by
  induction ss with
  | nil => rfl
  | cons s ss ih => rw [PrimeLang.Stmt.mapAll, ih, List.map_cons]

theorem block_sound {stmt : Parse Stmt} {n : Nat}
    (hstmt : Sound stmt fun ts s => Grammar.Statement ts (spelledOut s)) :
    Sound (block n stmt) fun ts body => Grammar.Block ts (body.map spelledOut) := by
  intro c c' body h
  simp only [block, bind_ok, pure_ok] at h
  obtain ⟨l, c₁, h₁, body, c₂, h₂, r, c₃, h₃, rfl, rfl⟩ := h
  obtain ⟨hl, hc⟩ := symbol_ok h₁
  obtain ⟨items, hitems, hrest, rfl⟩ := itemsUntil_sound hstmt h₂
  obtain ⟨hr, hrest'⟩ := symbol_ok h₃
  refine ⟨l :: ((items.map Prod.fst).flatten ++ [r]), by simp [hc, hrest, hrest'], ?_⟩
  have hall : ∀ i ∈ items.map fun i => (i.1, spelledOut i.2), Grammar.Statement i.1 i.2 := by
    intro i hi
    obtain ⟨j, hj, rfl⟩ := List.mem_map.1 hi
    exact hitems j hj
  simpa [Function.comp_def] using Grammar.Block.intro hl hall hr

/-- A variable, its first value and a semicolon. -/
theorem binding_sound (n : Nat) {v : Var} {init : Expr} (h : binding n c = .ok ((v, init), c')) :
    ∃ ts us op semi, c.rest = ts ++ op :: (us ++ semi :: c'.rest) ∧ Grammar.Parameter ts v ∧
      op.kind = .symbol .assign ∧ Grammar.Expression us init.tree ∧
      semi.kind = .symbol .semicolon := by
  simp only [binding, bind_ok, pure_ok] at h
  obtain ⟨v, c₁, h₁, op, c₂, h₂, init, c₃, h₃, semi, c₄, h₄, hv, rfl⟩ := h
  cases hv
  obtain ⟨ts, hts, hparam⟩ := var_sound h₁
  obtain ⟨hop, hc₁⟩ := symbol_ok h₂
  obtain ⟨us, hus, hinit⟩ := expr_sound n h₃
  obtain ⟨hsemi, hc₃⟩ := symbol_ok h₄
  exact ⟨ts, us, op, semi, by simp [hts, hc₁, hus, hc₃], hparam, hop, hinit, hsemi⟩

theorem ifStmt_sound {stmt : Parse Stmt} {n : Nat}
    (hstmt : Sound stmt fun ts s => Grammar.Statement ts (spelledOut s)) :
    Sound (ifStmt n stmt) fun ts s => Grammar.Statement ts (spelledOut s) := by
  intro c c' s h
  simp only [ifStmt, bind_ok] at h
  obtain ⟨k, c₁, h₁, cond, c₂, h₂, body, c₃, h₃, b, c₄, h₄, h⟩ := h
  obtain ⟨hk, hc⟩ := keyword_ok h₁
  obtain ⟨ts, hts, hcond⟩ := expr_sound n h₂
  obtain ⟨us, hus, hbody⟩ := block_sound hstmt h₃
  rcases skip_ok h₄ with ⟨rfl, l, hl, hc₃⟩ | ⟨rfl, rfl⟩
  · simp only [if_true, bind_ok, pure_ok] at h
    obtain ⟨orElse, c₅, h₅, rfl, rfl⟩ := h
    obtain ⟨vs, hvs, horElse⟩ := block_sound hstmt h₅
    refine ⟨k :: (ts ++ (us ++ l :: vs)), by simp [hc, hts, hus, hc₃, hvs], ?_⟩
    simp only [spelledOut, PrimeLang.Stmt.map, mapAll_eq_map]
    exact .ifElse hk hcond hbody hl horElse
  · obtain ⟨rfl, rfl⟩ := pure_ok.1 h
    refine ⟨k :: (ts ++ us), by simp [hc, hts, hus], ?_⟩
    simp only [spelledOut, PrimeLang.Stmt.map, mapAll_eq_map]
    exact .ifThen hk hcond hbody

theorem forStmt_sound {stmt : Parse Stmt} {n : Nat}
    (hstmt : Sound stmt fun ts s => Grammar.Statement ts (spelledOut s)) :
    Sound (forStmt n stmt) fun ts s => Grammar.Statement ts (spelledOut s) := by
  intro c c' s h
  simp only [forStmt, bind_ok, pure_ok] at h
  obtain ⟨k, c₁, h₁, ⟨v, init⟩, c₂, h₂, cond, c₃, h₃, semi', c₄, h₄, step, c₅, h₅, body, c₆, h₆,
    rfl, rfl⟩ := h
  obtain ⟨hk, hc⟩ := keyword_ok h₁
  obtain ⟨ts, us, op, semi, hc₁, hparam, hop, hinit, hsemi⟩ := binding_sound n h₂
  obtain ⟨vs, hvs, hcond⟩ := expr_sound n h₃
  obtain ⟨hsemi', hc₃⟩ := symbol_ok h₄
  obtain ⟨ws, hws, hstep⟩ := expr_sound n h₅
  obtain ⟨xs, hxs, hbody⟩ := block_sound hstmt h₆
  refine ⟨k :: (ts ++ op :: (us ++ semi :: (vs ++ semi' :: (ws ++ xs)))),
    by simp [hc, hc₁, hvs, hc₃, hws, hxs], ?_⟩
  simp only [spelledOut, PrimeLang.Stmt.map, mapAll_eq_map]
  exact .loop hk hparam hop hinit hsemi hcond hsemi' hstep hbody

theorem returnStmt_sound (n : Nat) :
    Sound (returnStmt n) fun ts s => Grammar.Statement ts (spelledOut s) := by
  intro c c' s h
  simp only [returnStmt, bind_ok] at h
  obtain ⟨k, c₁, h₁, b, c₂, h₂, h⟩ := h
  obtain ⟨hk, hc⟩ := keyword_ok h₁
  obtain rfl := nextIs_ok h₂
  rw [ite_ok] at h
  rcases h with ⟨-, h⟩ | ⟨-, h⟩
  · simp only [bind_ok, pure_ok] at h
    obtain ⟨_, _, ⟨rfl, rfl⟩, semi, c₃, h₃, rfl, rfl⟩ := h
    obtain ⟨hsemi, hc₃⟩ := symbol_ok h₃
    exact ⟨[k, semi], by simp [hc, hc₃], .ret hk hsemi⟩
  · simp only [bind_ok, map_ok, pure_ok] at h
    obtain ⟨_, c₃, ⟨e, he, rfl⟩, semi, c₄, h₄, rfl, rfl⟩ := h
    obtain ⟨ts, hts, hvalue⟩ := expr_sound n he
    obtain ⟨hsemi, hc₃⟩ := symbol_ok h₄
    exact ⟨k :: (ts ++ [semi]), by simp [hc, hts, hc₃], .retValue hk hvalue hsemi⟩

theorem exprStmt_sound (n : Nat) :
    Sound (exprStmt n) fun ts s => Grammar.Statement ts (spelledOut s) := by
  intro c c' s h
  simp only [exprStmt, bind_ok, pure_ok] at h
  obtain ⟨e, c₁, h₁, semi, c₂, h₂, rfl, rfl⟩ := h
  obtain ⟨ts, hts, he⟩ := expr_sound n h₁
  obtain ⟨hsemi, hc⟩ := symbol_ok h₂
  exact ⟨ts ++ [semi], by simp [hts, hc], .eval he hsemi⟩

theorem declStmt_sound (n : Nat) :
    Sound (declStmt n) fun ts s => Grammar.Statement ts (spelledOut s) := by
  intro c c' s h
  simp only [declStmt, bind_ok, pure_ok] at h
  obtain ⟨⟨v, init⟩, c₁, h₁, rfl, rfl⟩ := h
  obtain ⟨ts, us, op, semi, hc, hparam, hop, hinit, hsemi⟩ := binding_sound n h₁
  exact ⟨ts ++ op :: (us ++ [semi]), by simp [hc], .decl hparam hop hinit hsemi⟩

theorem stmt_sound (n : Nat) : Sound (stmt n) fun ts s => Grammar.Statement ts (spelledOut s) := by
  induction n with
  | zero => exact fun _ _ _ h => absurd h not_unexpected_ok
  | succ n ih =>
    intro c c' s h
    rw [stmt, bind_ok] at h
    obtain ⟨o, c₁, h₁, h⟩ := h
    cases h₁
    cases hk : c.peek?.map Token.kind with
    | none =>
      rw [hk] at h
      exact absurd h not_unexpected_ok
    | some k =>
      rw [hk] at h
      cases k with
      | keyword k =>
        cases k with
        | type ty => exact declStmt_sound n h
        | if_ => exact ifStmt_sound ih h
        | for_ => exact forStmt_sound ih h
        | return_ => exact returnStmt_sound n h
        | _ => exact exprStmt_sound _ h
      | _ => exact exprStmt_sound _ h

/-- The optional type of a result, before a body. -/
theorem result_sound {b : Bool} {k : Option Ty → Parse α} {a : α} {c₁ : Cursor}
    (hskip : skip (.symbol .arrow) c = .ok (b, c₁))
    (h : (if b then some <$> type >>= k else pure none >>= k) c₁ = .ok (a, c')) :
    ∃ us ret c₂, c.rest = us ++ c₂.rest ∧ Grammar.Result us ret ∧ k ret c₂ = .ok (a, c') := by
  rw [ite_ok] at h
  rcases skip_ok hskip with ⟨rfl, arrow, harrow, hc⟩ | ⟨rfl, rfl⟩
  · simp only [Bool.true_eq_false, false_and, or_false, true_and, bind_ok, map_ok] at h
    obtain ⟨_, c₂, ⟨ty, hty, rfl⟩, h⟩ := h
    obtain ⟨t, ht, hc₁⟩ := type_ok hty
    exact ⟨[arrow, t], some ty, c₂, by simp [hc, hc₁], .some harrow ht, h⟩
  · simp only [Bool.false_eq_true, false_and, false_or, true_and, bind_ok, pure_ok] at h
    obtain ⟨_, _, ⟨rfl, rfl⟩, h⟩ := h
    exact ⟨[], none, _, rfl, .none, h⟩

theorem func_sound (n : Nat) :
    Sound (func n) fun ts f => Grammar.Function ts (f.map Expr.tree (fun v => v)) := by
  intro c c' f h
  simp only [func, bind_ok (p := keyword _), bind_ok (p := expect _ _), bind_ok (p := symbol _),
    bind_ok (p := commaList _ _ _), bind_ok (p := skip _)] at h
  obtain ⟨k, c₁, h₁, x, c₂, h₂, l, c₃, h₃, params, c₄, h₄, r, c₅, h₅, b, c₆, h₆, h⟩ := h
  obtain ⟨hk, hc⟩ := keyword_ok h₁
  obtain ⟨hx, hc₁⟩ := expect_ok h₂
  obtain ⟨hl, hc₂⟩ := symbol_ok h₃
  obtain ⟨items, ts, hitems, hts, rfl, hjoin⟩ := commaList_sound var_sound h₄
  obtain ⟨hr, hc₄⟩ := symbol_ok h₅
  obtain ⟨us, ret, c₇, hus, hresult, h⟩ := result_sound h₆ h
  simp only [bind_ok, pure_ok] at h
  obtain ⟨body, c₈, h₈, rfl, rfl⟩ := h
  obtain ⟨vs, hvs, hbody⟩ := block_sound (stmt_sound n) h₈
  refine ⟨k :: x :: l :: (ts ++ r :: (us ++ vs)), by simp [hc, hc₁, hc₂, hts, hc₄, hus, hvs], ?_⟩
  have hname : x.kind = .ident ∨ x.kind = .keyword .main := by
    simpa [isFuncName, Bool.or_eq_true, beq_iff_eq] using hx
  simpa [PrimeLang.Func.map, mapAll_eq_map, Function.comp_def, spelledOut] using
    Grammar.Function.intro hk hname hl hitems hjoin hr hresult hbody

theorem funcs_sound {n : Nat} {fs : List Func} (h : funcs n c = .ok (fs, c')) :
    ∃ items : List (List Token × Func),
      (∀ i ∈ items, Grammar.Function i.1 (i.2.map Expr.tree (fun v => v))) ∧
      c.rest = (items.map Prod.fst).flatten ++ c'.rest ∧ fs = items.map Prod.snd := by
  induction n generalizing c fs with
  | zero =>
    obtain ⟨rfl, rfl⟩ := pure_ok.1 h
    exact ⟨[], by simp, rfl, rfl⟩
  | succ n ih =>
    rw [funcs, bind_ok] at h
    obtain ⟨b, c₁, h₁, h⟩ := h
    obtain rfl := nextIs_ok h₁
    rw [ite_ok] at h
    rcases h with ⟨-, h⟩ | ⟨-, h⟩
    · simp only [bind_ok, pure_ok] at h
      obtain ⟨f, c₂, h₂, fs, c₃, h₃, rfl, rfl⟩ := h
      obtain ⟨ts, hts, hf⟩ := func_sound n h₂
      obtain ⟨items, hitems, hrest, rfl⟩ := ih h₃
      refine ⟨(ts, f) :: items, ?_, by simp [hts, hrest], rfl⟩
      intro i hi
      rcases List.mem_cons.1 hi with rfl | hi
      · exact hf
      · exact hitems i hi
    · obtain ⟨rfl, rfl⟩ := pure_ok.1 h
      exact ⟨[], by simp, rfl, rfl⟩

/-- What the parser accepts is a program, and the tree is that of its derivation. -/
theorem program_sound (n : Nat) :
    Sound (program n) fun ts fs =>
      Grammar.Program ts (fs.map (PrimeLang.Func.map Expr.tree (fun v => v))) := by
  intro c c' fs h
  simp only [program, bind_ok, pure_ok] at h
  obtain ⟨fs, c₁, h₁, eof, c₂, h₂, rfl, rfl⟩ := h
  obtain ⟨items, hitems, hrest, rfl⟩ := funcs_sound h₁
  obtain ⟨heof, hc⟩ := expect_ok h₂
  refine ⟨(items.map Prod.fst).flatten ++ [eof], by simp [hrest, hc], ?_⟩
  have hall : ∀ i ∈ items.map fun i => (i.1, i.2.map Expr.tree (fun v => v)),
      Grammar.Function i.1 i.2 := by
    intro i hi
    obtain ⟨j, hj, rfl⟩ := List.mem_map.1 hi
    exact hitems j hj
  simpa [Function.comp_def] using Grammar.Program.intro hall (eq_of_beq heof)

end Source.Parse
end PrimeLang
