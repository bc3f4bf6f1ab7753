import PrimeLang.Proofs.ParserComplete
import PrimeLang.Proofs.ParserPlaces

/-! # One token of lookahead

What a parser does is decided by the tokens that it reads and by the one after them. If it fails, it
has read the start of a phrase and blames the next token (`Source.Parse.Predictive`). The bounds on
loops and nesting are part of the statement, since the same tokens may stand before more or fewer
others. -/

namespace PrimeLang
open Token (Kind)

namespace Token

/-- A token that can be written down and is no comment. -/
def Writable (t : Token) : Prop := t.Spelled ∧ t.kind ≠ .comment

theorem writable_symbol (s : Symbol) (pos : Pos) : Writable ⟨.symbol s, s.spelling, pos⟩ := by
  have hchars : ∀ s ∈ Symbol.all, Symbol.ofChars? s.chars = some s := by decide
  have hblank : ∀ s ∈ Symbol.all, s.chars.any isBlank = false := by decide
  have hslash : ∀ s ∈ Symbol.all, s.chars ≠ ['/', '/'] := by decide
  have hlength : ∀ s ∈ Symbol.all, s.chars.length = 1 ∨ s.chars.length = 2 := by decide
  have hs : s ∈ Symbol.all := by
    cases s with
    | operator op => cases op <;> decide
    | _ => decide
  refine ⟨?_, by simp⟩
  have hchars := hchars s hs
  have hblank := List.any_eq_false.1 (hblank s hs)
  rcases hlength s hs with h | h
  · obtain ⟨c, hc⟩ := List.length_eq_one_iff.1 h
    rw [hc] at hchars hblank
    refine ⟨c, [], by simp [Symbol.spelling, hc], by simpa using hblank c, fun rest => ?_⟩
    refine .single (fun d hd => ?_) hchars
    cases hd
    exact not_pairs_of_isBlank isBlank_lineFeed
  · obtain ⟨c, d, hc⟩ := List.length_eq_two.1 h
    have hslash := hslash s hs
    rw [hc] at hchars hblank hslash
    refine ⟨c, [d], by simp [Symbol.spelling, hc], by simpa using hblank c, fun rest => ?_⟩
    refine .pair (fun h => hslash ?_) rfl hchars
    rw [h.1, h.2]

theorem exists_writable_symbol (s : Symbol) : ∃ t : Token, t.Writable ∧ t.kind = .symbol s :=
  ⟨_, writable_symbol s .start, rfl⟩

theorem isDigit_eq_false_of_isWordStart {c : Char} (h : isWordStart c = true) :
    isDigit c = false := by
  simp only [isWordStart, isDigit, Char.le_def, UInt32.le_iff_toNat_le, Bool.or_eq_true,
    Bool.and_eq_true, decide_eq_true_eq, beq_iff_eq, Bool.and_eq_false_iff, decide_eq_false_iff_not]
    at h ⊢
  rcases h with (⟨h, -⟩ | ⟨h, -⟩) | rfl
  · exact .inr (Nat.not_le.2 (Nat.lt_of_lt_of_le (by decide) h))
  · exact .inr (Nat.not_le.2 (Nat.lt_of_lt_of_le (by decide) h))
  · decide

theorem ofChars?_eq_none_of_isWordPart {c : Char} (hc : isWordPart c = true) :
    Symbol.ofChars? [c] = none := by
  have hall : ∀ s ∈ Symbol.all, s.chars.any isWordPart = false := by decide
  refine List.find?_eq_none.2 fun s hs h => ?_
  have hmem : c ∈ s.chars := eq_of_beq h ▸ List.mem_cons_self
  exact List.any_eq_false.1 (hall s hs) c hmem hc

/-- A word before a line feed is read whole. -/
theorem spelled_of_word {c : Char} {cs : List Char} (pos : Pos) (hc : isWordStart c = true)
    (hcs : ∀ d ∈ cs, isWordPart d = true) :
    Spelled ⟨.ofWord (.ofList (c :: cs)), .ofList (c :: cs), pos⟩ := by
  have hpart : isWordPart c = true := by simp [isWordPart, hc]
  refine ⟨c, cs, String.toList_ofList, isBlank_eq_false_of_isWordPart hpart, fun rest => ?_⟩
  have htake : (cs ++ '\n' :: rest).takeWhile isWordPart = cs := by
    rw [List.takeWhile_append_of_pos hcs, List.takeWhile_cons_of_neg (by decide), List.append_nil]
  have h := @Reads.word c (cs ++ '\n' :: rest) (fun _ _ => not_pairs_of_isWordPart hpart)
    (ofChars?_eq_none_of_isWordPart hpart) (isDigit_eq_false_of_isWordStart hc) hc
  rwa [htake] at h

theorem exists_writable_keyword (k : Keyword) : ∃ t : Token, t.Writable ∧ t.kind = .keyword k := by
  have hall : ∀ k ∈ Keyword.all, Kind.ofWord k.spelling = .keyword k ∧
      k.spelling.toList.head?.any isWordStart = true ∧
      k.spelling.toList.tail.all isWordPart = true := by decide
  have hk : k ∈ Keyword.all := by
    cases k with
    | type ty => cases ty <;> decide
    | _ => decide
  obtain ⟨hword, hhead, htail⟩ := hall k hk
  obtain ⟨c, hc, hstart⟩ := (Option.any_eq_true _ _).1 hhead
  have hspelling : String.ofList (c :: k.spelling.toList.tail) = k.spelling := by
    rw [← List.eq_cons_of_mem_head? hc, String.ofList_toList]
  have h := spelled_of_word .start hstart (List.all_eq_true.1 htail)
  rw [hspelling, hword] at h
  exact ⟨_, ⟨h, by simp⟩, rfl⟩

theorem exists_writable_ident : ∃ t : Token, t.Writable ∧ t.kind = .ident :=
  ⟨⟨.ident, "x", .start⟩, ⟨@spelled_of_word 'x' [] .start (by decide) (by simp), by decide⟩, rfl⟩

theorem exists_writable_zero :
    ∃ t : Token, t.Writable ∧ t.kind = .number ∧ word? t.spelling.toList = some 0 := by
  refine ⟨⟨.number, "0", .start⟩, ⟨⟨'0', [], rfl, by decide, fun rest => ?_⟩, by decide⟩, rfl, ?_⟩
  · exact .number (fun _ _ => not_pairs_of_isWordPart (by decide)) (by decide) (by decide)
  · decide

end Token

/-- The error is reported at `t` and says what kind of token that is. -/
def SyntaxError.Blames (t : Token) : SyntaxError → Prop
  | unexpected _ _ pos => pos = t.pos ∧ t.kind ≠ .invalid
  | invalidCharacter _ pos => pos = t.pos ∧ t.kind = .invalid
  | assignTarget pos => pos = t.pos ∧ (Source.Parse.assignmentOf t.kind).isSome
  | literalRange _ pos => pos = t.pos ∧ t.kind = .number

namespace Source.Parse
variable {α β : Type}

/-- The error that `o` is not the `expected` token. -/
def unexpectedAt (expected : String) (o : Option Token) (last : Pos) : SyntaxError :=
  Cursor.unexpected expected ⟨o.toList, last⟩

theorem unexpected_eq (expected : String) (c : Cursor) :
    c.unexpected expected = unexpectedAt expected c.rest.head? c.last := by
  obtain ⟨rest, last⟩ := c
  cases rest <;> rfl

theorem blames_unexpectedAt (expected : String) (t : Token) (last : Pos) :
    (unexpectedAt expected (some t) last).Blames t := by
  simp only [unexpectedAt, Cursor.unexpected, Cursor.peek?, Option.toList_some, List.head?_cons]
  split
  · next h => exact ⟨rfl, h⟩
  · next h => exact ⟨rfl, h⟩

theorem expect_eq_ok (expected : String) {p : Kind → Bool} {t : Token} (ht : p t.kind = true)
    (rest : List Token) (last : Pos) :
    expect expected p ⟨t :: rest, last⟩ = .ok (t, ⟨rest, t.pos⟩) := by
  simp [expect, Cursor.expect, Cursor.nextIf?, Cursor.nextIs, Cursor.peek?, Cursor.next?, ht]

theorem expect_eq_error (expected : String) {p : Kind → Bool} {rest : List Token} {last : Pos}
    (h : ∀ t ∈ rest.head?, p t.kind = false) :
    expect expected p ⟨rest, last⟩ = .error (unexpectedAt expected rest.head? last) := by
  have hno : (Cursor.mk rest last).nextIf? p = none := by
    cases rest with
    | nil => rfl
    | cons t rest => simp [Cursor.nextIf?, Cursor.nextIs, Cursor.peek?, h t rfl]
  rw [expect, Cursor.expect, hno, unexpected_eq]

/-! ## Predictive parsers -/

/-- How a parser of phrases `P` ends that has read `us` and stands before `rest`: `us` is a phrase,
or it can be continued to one and the next token is to blame. -/
inductive Ended (P : List Token → α → Prop) (us rest : List Token) :
    Except SyntaxError (α × Cursor) → Prop
  | ok {a : α} {last : Pos} : P us a → Ended P us rest (.ok (a, ⟨rest, last⟩))
  | error {e : SyntaxError} {vs : List Token} {a : α} : (∀ t ∈ rest.head?, e.Blames t) →
    (∀ v ∈ vs, v.Writable) → P (us ++ vs) a → Ended P us rest (.error e)

/-- The same result before other tokens. -/
def before (rest : List Token) :
    Except SyntaxError (α × Cursor) → Except SyntaxError (α × Cursor)
  | .ok (a, c) => .ok (a, ⟨rest, c.last⟩)
  | .error e => .error e

/-- Before less than `n` tokens `p` reads a phrase of `P`, or as much of one as there is. If what it
has read stands before other tokens, of which the first is the same, then `q` does the same with
them, as long as there are less than `m` tokens in all. -/
structure Predictive (n m : Nat) (p q : Parse α) (P : List Token → α → Prop) : Prop where
  exists_phrase : ∃ ts a, (∀ t ∈ ts, t.Writable) ∧ P ts a
  run : ∀ c : Cursor, c.rest.length < n → ∃ us rest, c.rest = us ++ rest ∧
    (∀ t ∈ us, t.kind ≠ .eof) ∧ Ended P us rest (p c) ∧
    ∀ rest', rest'.head? = rest.head? → (us ++ rest').length < m →
      q ⟨us ++ rest', c.last⟩ = before rest' (p c)

namespace Predictive
variable {n m : Nat} {p q : Parse α} {P : List Token → α → Prop}

theorem mono {n' m' : Nat} (h : Predictive n m p q P) (hn : n' ≤ n) (hm : m' ≤ m) :
    Predictive n' m' p q P where
  exists_phrase := h.exists_phrase
  run c hc := by
    obtain ⟨us, rest, hrest, hus, hended, hsame⟩ := h.run c (Nat.lt_of_lt_of_le hc hn)
    exact ⟨us, rest, hrest, hus, hended, fun rest' hhead hlength =>
      hsame rest' hhead (Nat.lt_of_lt_of_le hlength hm)⟩

theorem imp {Q : List Token → α → Prop} (h : Predictive n m p q P)
    (hPQ : ∀ ts a, P ts a → Q ts a) : Predictive n m p q Q where
  exists_phrase := by
    obtain ⟨ts, a, hts, ha⟩ := h.exists_phrase
    exact ⟨ts, a, hts, hPQ ts a ha⟩
  run c hc := by
    obtain ⟨us, rest, hrest, hus, hended, hsame⟩ := h.run c hc
    refine ⟨us, rest, hrest, hus, ?_, hsame⟩
    generalize p c = result at hended
    cases hended with
    | ok hP => exact .ok (hPQ _ _ hP)
    | error hblames hvs hP => exact .error hblames hvs (hPQ _ _ hP)

/-- Without tokens there is nothing to do. -/
theorem zero (h : ∃ ts a, (∀ t ∈ ts, t.Writable) ∧ P ts a) : Predictive 0 m p q P :=
  ⟨h, fun _ hc => absurd hc (Nat.not_lt_zero _)⟩

/-- A bound on `q` that is not above the number of tokens left is never met. -/
theorem of_pred {q : Nat → Parse α} (h : Predictive n m p (q (m - 1 + 1)) P) :
    Predictive n m p (q m) P := by
  cases m with
  | succ m => exact h
  | zero =>
    refine ⟨h.exists_phrase, fun c hc => ?_⟩
    obtain ⟨us, rest, hrest, hus, hended, -⟩ := h.run c hc
    exact ⟨us, rest, hrest, hus, hended, fun _ _ hlength => absurd hlength (Nat.not_lt_zero _)⟩

theorem pure {a : α} (h : P [] a) : Predictive n m (pure a) (pure a) P :=
  ⟨⟨[], a, by simp, h⟩, fun c _ => ⟨[], c.rest, rfl, by simp, .ok h, fun _ _ _ => rfl⟩⟩

theorem bind {Q : List Token → β → Prop} {k l : α → Parse β} (h : Predictive n m p q P)
    (hk : ∀ us a, P us a →
      Predictive (n - us.length) (m - us.length) (k a) (l a) fun vs b => Q (us ++ vs) b) :
    Predictive n m (p >>= k) (q >>= l) Q where
  exists_phrase := by
    obtain ⟨ts, a, hts, ha⟩ := h.exists_phrase
    obtain ⟨us, b, hus, hb⟩ := (hk ts a ha).exists_phrase
    exact ⟨ts ++ us, b, List.forall_mem_append.2 ⟨hts, hus⟩, hb⟩
  run c hc := by
    obtain ⟨us, rest, hrest, hus, hended, hsame⟩ := h.run c hc
    rw [bind_apply]
    generalize p c = result at hended hsame
    cases hended with
    | error hblames hvs hP =>
      obtain ⟨ws, b, hws, hb⟩ := (hk _ _ hP).exists_phrase
      rw [List.append_assoc] at hb
      refine ⟨us, rest, hrest, hus, .error hblames (List.forall_mem_append.2 ⟨hvs, hws⟩) hb, ?_⟩
      intro rest' hhead hlength
      rw [bind_apply, hsame rest' hhead hlength]
      rfl
    | @ok a last hP =>
      rw [hrest, List.length_append] at hc
      obtain ⟨vs, rest₂, hrest₂, hvs, hended₂, hsame₂⟩ :=
        (hk us a hP).run ⟨rest, last⟩ (show rest.length < _ by omega)
      refine ⟨us ++ vs, rest₂, by rw [hrest, List.append_assoc]; exact congrArg _ hrest₂,
        List.forall_mem_append.2 ⟨hus, hvs⟩, ?_, fun rest' hhead hlength => ?_⟩
      · show Ended Q (us ++ vs) rest₂ (k a ⟨rest, last⟩)
        generalize k a ⟨rest, last⟩ = result at hended₂
        cases hended₂ with
        | ok hQ => exact .ok hQ
        | error hblames hws hQ => exact .error hblames hws (List.append_assoc .. ▸ hQ)
      · have hrest₂ : rest = vs ++ rest₂ := hrest₂
        have hhead' : (vs ++ rest').head? = rest.head? := by
          rw [hrest₂, List.head?_append, List.head?_append, hhead]
        rw [List.append_assoc] at hlength ⊢
        rw [bind_apply, hsame (vs ++ rest') hhead' hlength]
        rw [List.length_append] at hlength
        exact hsame₂ rest' hhead (by omega)

/-! ## Steps of the parser -/

/-- A step that reads the next token if `g` makes something of it. Otherwise it stays where it is
and does what `f` says of that token. -/
theorem of_token {g : Token → Option α} {f : Option Token → Pos → Except SyntaxError α}
    (hphrase : ∃ ts a, (∀ t ∈ ts, t.Writable) ∧ P ts a) (heof : ∀ t, t.kind = .eof → g t = none)
    (hreads : ∀ t a, g t = some a →
      P [t] a ∧ ∀ rest last, p ⟨t :: rest, last⟩ = .ok (a, ⟨rest, t.pos⟩))
    (hstays : ∀ rest last, (∀ t ∈ rest.head?, g t = none) →
      p ⟨rest, last⟩ = (f rest.head? last).map fun a => (a, ⟨rest, last⟩))
    (hok : ∀ o last a, f o last = .ok a → P [] a)
    (hblames : ∀ t last e, f (some t) last = .error e → e.Blames t) :
    Predictive n m p p P := by
  refine ⟨hphrase, fun ⟨rest, last⟩ _ => ?_⟩
  by_cases h : ∀ t ∈ rest.head?, g t = none
  · refine ⟨[], rest, rfl, by simp, ?_, fun rest' hhead _ => ?_⟩
    · rw [hstays rest last h]
      cases hf : f rest.head? last with
      | ok a => exact .ok (hok _ _ _ hf)
      | error e =>
        obtain ⟨ts, a, hts, hP⟩ := hphrase
        refine .error (fun t ht => hblames t last e ?_) hts hP
        rw [← hf, ht]
    · rw [List.nil_append, hstays rest last h, hstays rest' last (hhead ▸ h), hhead]
      cases f rest.head? last <;> rfl
  · obtain ⟨t, rest, rfl⟩ : ∃ t us, rest = t :: us := by
      cases rest with
      | nil => exact absurd (by simp) h
      | cons t rest => exact ⟨t, rest, rfl⟩
    obtain ⟨a, ha⟩ : ∃ a, g t = some a := by
      cases ha : g t with
      | none => exact absurd (by simpa using ha) h
      | some a => exact ⟨a, rfl⟩
    obtain ⟨hP, hrun⟩ := hreads t a ha
    refine ⟨[t], rest, rfl, fun u hu => ?_, hrun rest last ▸ .ok hP, fun rest' _ _ => ?_⟩
    · rw [List.mem_singleton.1 hu]
      intro hk
      cases (heof t hk).symm.trans ha
    · rw [hrun rest last]
      exact hrun rest' last

theorem unexpected (expected : String) (h : ∃ ts a, (∀ t ∈ ts, t.Writable) ∧ P ts a) :
    Predictive n m (unexpected expected) (unexpected expected) P := by
  refine of_token (g := fun _ => none) (f := fun o last => .error (unexpectedAt expected o last)) h
    (fun _ _ => rfl) (fun _ _ h => by cases h) (fun rest last _ => ?_) (fun _ _ _ h => by cases h) ?_
  · exact congrArg Except.error (unexpected_eq expected ⟨rest, last⟩)
  · rintro t last e he
    cases he
    exact blames_unexpectedAt expected t last

/-- A step that only looks at the next token. -/
theorem look {f : Option Token → α} {k l : α → Parse β} {Q : List Token → β → Prop}
    (h : ∀ a, Predictive n m (k a) (l a) Q) :
    Predictive n m ((fun c => .ok (f c.peek?, c) : Parse α) >>= k)
      ((fun c => .ok (f c.peek?, c) : Parse α) >>= l) Q := by
  refine bind (P := fun us _ => us = []) ?_ ?_
  · exact of_token (g := fun _ => none) (f := fun o _ => .ok (f o)) ⟨[], f none, by simp, rfl⟩
      (fun _ _ => rfl) (fun _ _ h => by cases h) (fun _ _ _ => rfl) (fun _ _ _ _ => rfl)
      (fun _ _ _ h => by cases h)
  · rintro _ a rfl
    exact h a

theorem nextIs {k : Kind} {x x' y y' : Parse α} (hx : Predictive n m x x' P)
    (hy : Predictive n m y y' P) :
    Predictive n m (nextIs k >>= fun b => if b then x else y)
      (Parse.nextIs k >>= fun b => if b then x' else y') P := by
  refine look (f := fun t => t.any (·.kind == k)) fun b => ?_
  cases b with
  | true => exact hx
  | false => exact hy

theorem nextWith {f : Kind → Option α} {k l : Option (α × Token) → Parse β}
    {Q : List Token → β → Prop} (heof : f .eof = none)
    (hsome : ∀ a t, f t.kind = some a → Predictive (n - 1) (m - 1) (k (some (a, t)))
      (l (some (a, t))) fun us b => Q (t :: us) b)
    (hnone : Predictive n m (k none) (l none) Q) :
    Predictive n m (nextWith f >>= k) (Parse.nextWith f >>= l) Q := by
  refine bind (P := fun us o => us = [] ∧ o = none ∨
    ∃ a t, f t.kind = some a ∧ us = [t] ∧ o = some (a, t)) ?_ ?_
  · refine of_token (g := fun t => (f t.kind).map fun a => some (a, t)) (f := fun _ _ => .ok none)
      ⟨[], none, by simp, .inl ⟨rfl, rfl⟩⟩ (fun t ht => by rw [ht, heof]; rfl) ?_ ?_ ?_
      (fun _ _ _ h => by cases h)
    · intro t o ho
      obtain ⟨a, ha, rfl⟩ := Option.map_eq_some_iff.1 ho
      refine ⟨.inr ⟨a, t, ha, rfl, rfl⟩, fun rest last => ?_⟩
      simp [Parse.nextWith, Cursor.next?, ha]
    · intro rest last h
      cases rest with
      | nil => rfl
      | cons t rest =>
        have ht : f t.kind = none := by simpa using h t rfl
        simp [Parse.nextWith, Cursor.next?, ht, Except.map]
    · intro _ _ o ho
      cases ho
      exact .inl ⟨rfl, rfl⟩
  · rintro us o (⟨rfl, rfl⟩ | ⟨a, t, hf, rfl, rfl⟩)
    · exact hnone
    · exact hsome a t hf

theorem skip {k : Kind} {x x' y y' : Parse α} (hk : k ≠ .eof)
    (hx : ∀ t : Token, t.kind = k → Predictive (n - 1) (m - 1) x x' fun us a => P (t :: us) a)
    (hy : Predictive n m y y' P) :
    Predictive n m (skip k >>= fun b => if b then x else y)
      (Parse.skip k >>= fun b => if b then x' else y') P := by
  refine bind (P := fun us b => us = [] ∧ b = false ∨
    ∃ t : Token, t.kind = k ∧ us = [t] ∧ b = true) ?_ ?_
  · refine of_token (g := fun t => if t.kind = k then some true else none)
      (f := fun _ _ => .ok false) ⟨[], false, by simp, .inl ⟨rfl, rfl⟩⟩
      (fun t ht => if_neg fun h => hk (h.symm.trans ht)) ?_ ?_ ?_ (fun _ _ _ h => by cases h)
    · intro t b hb
      obtain ⟨ht, hb⟩ := Option.ite_none_right_eq_some.1 hb
      cases hb
      refine ⟨.inr ⟨t, ht, rfl, rfl⟩, fun rest last => ?_⟩
      simp [Parse.skip, Cursor.nextIf?, Cursor.nextIs, Cursor.peek?, Cursor.next?, ht]
    · intro rest last h
      cases rest with
      | nil => rfl
      | cons t rest =>
        have ht : t.kind ≠ k := by simpa using h t rfl
        simp [Parse.skip, Cursor.nextIf?, Cursor.nextIs, Cursor.peek?, ht, Except.map]
    · intro _ _ b hb
      cases hb
      exact .inl ⟨rfl, rfl⟩
  · rintro us b (⟨rfl, rfl⟩ | ⟨t, ht, rfl, rfl⟩)
    · exact hy
    · exact hx t ht

theorem expect {expected : String} {p : Kind → Bool} {k l : Token → Parse α} (heof : p .eof = false)
    (hp : ∃ t : Token, t.Writable ∧ p t.kind = true)
    (h : ∀ t : Token, p t.kind = true →
      Predictive (n - 1) (m - 1) (k t) (l t) fun us a => P (t :: us) a) :
    Predictive n m (expect expected p >>= k) (Parse.expect expected p >>= l) P := by
  refine bind (P := fun us t => p t.kind = true ∧ us = [t]) ?_ ?_
  · obtain ⟨v, hv, hvp⟩ := hp
    refine of_token (g := fun t => if p t.kind then some t else none)
      (f := fun o last => .error (unexpectedAt expected o last))
      ⟨[v], v, by simpa using hv, hvp, rfl⟩ (fun t ht => by simp [ht, heof]) ?_ ?_
      (fun _ _ _ h => by cases h) ?_
    · intro t u hu
      obtain ⟨ht, hu⟩ := Option.ite_none_right_eq_some.1 hu
      cases hu
      exact ⟨⟨ht, rfl⟩, fun rest last => expect_eq_ok expected ht rest last⟩
    · intro rest last h
      exact expect_eq_error expected fun t ht => by simpa using h t ht
    · rintro t last e he
      cases he
      exact blames_unexpectedAt expected t last
  · rintro us t ⟨ht, rfl⟩
    exact h t ht

theorem symbol {s : Symbol} {k l : Token → Parse α}
    (h : ∀ t : Token, t.kind = .symbol s →
      Predictive (n - 1) (m - 1) (k t) (l t) fun us a => P (t :: us) a) :
    Predictive n m (symbol s >>= k) (Parse.symbol s >>= l) P := by
  obtain ⟨t, ht, hk⟩ := Token.exists_writable_symbol s
  exact expect rfl ⟨t, ht, beq_iff_eq.2 hk⟩ fun t ht => h t (eq_of_beq ht)

theorem keyword {w : Keyword} {k l : Token → Parse α}
    (h : ∀ t : Token, t.kind = .keyword w →
      Predictive (n - 1) (m - 1) (k t) (l t) fun us a => P (t :: us) a) :
    Predictive n m (keyword w >>= k) (Parse.keyword w >>= l) P := by
  obtain ⟨t, ht, hk⟩ := Token.exists_writable_keyword w
  exact expect rfl ⟨t, ht, beq_iff_eq.2 hk⟩ fun t ht => h t (eq_of_beq ht)

theorem ident {k l : Token → Parse α}
    (h : ∀ t : Token, t.kind = .ident →
      Predictive (n - 1) (m - 1) (k t) (l t) fun us a => P (t :: us) a) :
    Predictive n m (kind .ident >>= k) (kind .ident >>= l) P := by
  obtain ⟨t, ht, hk⟩ := Token.exists_writable_ident
  exact expect rfl ⟨t, ht, beq_iff_eq.2 hk⟩ fun t ht => h t (eq_of_beq ht)

end Predictive

/-! ## Lists -/

/-- Phrases one after the other. -/
def Series (P : List Token → α → Prop) (ts : List Token) (as : List α) : Prop :=
  ∃ items : List (List Token × α), (∀ i ∈ items, P i.1 i.2) ∧
    ts = (items.map Prod.fst).flatten ∧ as = items.map Prod.snd

/-- Phrases with commas between them. -/
def Listed (P : List Token → α → Prop) (ts : List Token) (as : List α) : Prop :=
  ∃ items : List (List Token × α), (∀ i ∈ items, P i.1 i.2) ∧
    Grammar.Joined (items.map Prod.fst) ts ∧ as = items.map Prod.snd

/-- Phrases, each after a comma. -/
def Further (P : List Token → α → Prop) (ts : List Token) (as : List α) : Prop :=
  ∃ items : List (List Token × α), (∀ i ∈ items, P i.1 i.2) ∧
    (∀ us, Grammar.Joined (us :: items.map Prod.fst) (us ++ ts)) ∧ as = items.map Prod.snd

section
variable {P : List Token → α → Prop} {ts us : List Token} {a : α} {as : List α}

theorem series_nil : Series P [] [] := ⟨[], by simp, rfl, rfl⟩

theorem series_cons (ha : P us a) (has : Series P ts as) : Series P (us ++ ts) (a :: as) := by
  obtain ⟨items, hitems, rfl, rfl⟩ := has
  exact ⟨(us, a) :: items, List.forall_mem_cons.2 ⟨ha, hitems⟩, rfl, rfl⟩

theorem further_nil : Further P [] [] := by
  refine ⟨[], by simp, fun us => ?_, rfl⟩
  rw [List.append_nil]
  exact .one

theorem further_cons {comma : Token} (hcomma : comma.kind = .symbol .comma) (ha : P us a)
    (has : Further P ts as) : Further P (comma :: (us ++ ts)) (a :: as) := by
  obtain ⟨items, hitems, hjoined, rfl⟩ := has
  exact ⟨(us, a) :: items, List.forall_mem_cons.2 ⟨ha, hitems⟩, fun _ => .cons hcomma (hjoined us),
    rfl⟩

theorem listed_nil : Listed P [] [] := ⟨[], by simp, .nil, rfl⟩

theorem listed_cons (ha : P us a) (has : Further P ts as) : Listed P (us ++ ts) (a :: as) := by
  obtain ⟨items, hitems, hjoined, rfl⟩ := has
  exact ⟨(us, a) :: items, List.forall_mem_cons.2 ⟨ha, hitems⟩, hjoined us, rfl⟩

end

section
variable {n m : Nat} {item item' : Parse α} {P : List Token → α → Prop}

theorem predictive_commaItems (hitem : Predictive n m item item' P) :
    Predictive n m (commaItems item n) (commaItems item' m) (Further P) := by
  induction n generalizing m with
  | zero => exact .zero ⟨[], [], by simp, further_nil⟩
  | succ n ih =>
    refine .of_pred ?_
    rw [commaItems, commaItems]
    refine .skip (by decide) (fun comma hcomma => ?_) (.pure further_nil)
    refine (hitem.mono (by omega) (by omega)).bind fun us a ha => ?_
    refine ((ih (hitem.mono (by omega) (by omega))).mono (by omega) (by omega)).bind
      fun ts as has => ?_
    exact .pure (by simpa using further_cons hcomma ha has)

theorem predictive_commaList (hitem : Predictive n m item item' P) (close : Symbol) :
    Predictive n m (commaList n item close) (commaList m item' close) (Listed P) := by
  refine .nextIs (.pure listed_nil) (hitem.bind fun us a ha => ?_)
  refine ((predictive_commaItems hitem).mono (by omega) (by omega)).bind fun ts as has => ?_
  exact .pure (by simpa using listed_cons ha has)

theorem predictive_itemsUntil (hitem : Predictive n m item item' P)
    (hne : ∀ us a, P us a → us ≠ []) (close : Symbol) :
    Predictive n m (itemsUntil item close n) (itemsUntil item' close m) (Series P) := by
  induction n generalizing m with
  | zero => exact .zero ⟨[], [], by simp, series_nil⟩
  | succ n ih =>
    refine .of_pred ?_
    rw [itemsUntil, itemsUntil]
    refine .nextIs (.pure series_nil) (hitem.bind fun us a ha => ?_)
    have hlength := List.length_pos_iff.2 (hne us a ha)
    refine ((ih (hitem.mono (by omega) (by omega))).mono (by omega) (by omega)).bind
      fun ts as has => ?_
    exact .pure (by simpa using series_cons ha has)

end

/-! ## Expressions -/

section
variable {n m : Nat}

/-- What is read for an expression of the given tiers. -/
abbrev Terms (tiers : List Tier) (ts : List Token) (s : Expr) : Prop := Grammar.Term tiers ts s.tree

/-- What is read for an expression. -/
abbrev Expressions (ts : List Token) (s : Expr) : Prop := Grammar.Expression ts s.tree

theorem ne_nil_of_term {tiers : List Tier} {ts : List Token} {e : Tree.Expr Pos}
    (h : Grammar.Term tiers ts e) : ts ≠ [] := by
  obtain ⟨t, us, rfl, -⟩ := starts_term h
  exact List.cons_ne_nil t us

theorem predictive_chainFrom {operand operand' : Parse Expr} {tier : Tier} {tighter : List Tier}
    (hoperand : Predictive n m operand operand' (Terms tighter)) {lhs : Expr} {ts : List Token}
    (hlhs : Terms (tier :: tighter) ts lhs) :
    Predictive n m (chainFrom tier operand n lhs) (chainFrom tier operand' m lhs)
      fun us s => Terms (tier :: tighter) (ts ++ us) s := by
  induction n generalizing m lhs ts with
  | zero => exact .zero ⟨[], lhs, by simp, by simpa using hlhs⟩
  | succ n ih =>
    refine .of_pred (q := fun m => chainFrom tier operand' m lhs) ?_
    rw [chainFrom, chainFrom]
    refine .nextWith rfl (fun op t hop => ?_) (.pure (by simpa using hlhs))
    obtain ⟨hk, rfl⟩ := operatorOf_eq_some.1 hop
    refine (hoperand.mono (by omega) (by omega)).bind fun us rhs hrhs => ?_
    have hbinary : Terms (op.tier :: tighter) (ts ++ t :: us) (.binary op t.pos lhs rhs) := by
      rw [Terms, Expr.tree]
      exact .binary hlhs hk hrhs
    refine ((ih (hoperand.mono (by omega) (by omega)) hbinary).mono (by omega) (by omega)).imp ?_
    intro vs s hs
    simpa using hs

theorem predictive_chain {operand operand' : Parse Expr} {tighter : List Tier}
    (hoperand : Predictive (n + 1) (m + 1) operand operand' (Terms tighter)) (tier : Tier) :
    Predictive (n + 1) (m + 1) (chain n tier operand) (chain m tier operand')
      (Terms (tier :: tighter)) := by
  refine hoperand.bind fun us lhs hlhs => ?_
  have hlength := List.length_pos_iff.2 (ne_nil_of_term hlhs)
  exact (predictive_chainFrom (hoperand.mono (by omega) (by omega)) (.operand hlhs)).mono
    (by omega) (by omega)

theorem exists_primary : ∃ ts s, (∀ t ∈ ts, t.Writable) ∧ Terms [] ts s := by
  obtain ⟨t, ht, hk, hw⟩ := Token.exists_writable_zero
  exact ⟨[t], .literal 0 t.pos, by simpa using ht, .literal hk (word?_eq_some_iff.1 hw)⟩

/-- The error that `o` is no numeral, or is one that is out of range. -/
def noLiteral (o : Option Token) (last : Pos) : SyntaxError :=
  match o with
  | some t =>
    if t.kind = .number then .literalRange t.spelling t.pos
    else unexpectedAt Kind.number.describe o last
  | none => unexpectedAt Kind.number.describe o last

theorem predictive_literal :
    Predictive n m (kind .number >>= literal) (kind .number >>= literal) (Terms []) := by
  have hnumber : ∀ {t : Token} rest last, t.kind = .number →
      (kind .number >>= literal) ⟨t :: rest, last⟩ = literal t ⟨rest, t.pos⟩ := by
    intro t rest last ht
    rw [bind_apply, kind, @expect_eq_ok _ (· == .number) t (beq_iff_eq.2 ht)]
    rfl
  refine .of_token (g := fun t => if t.kind = .number then
    (word? t.spelling.toList).map (.literal · t.pos) else none)
    (f := fun o last => .error (noLiteral o last)) exists_primary ?_ ?_ ?_
    (fun _ _ _ h => by cases h) ?_
  · intro t ht
    simp [ht]
  · intro t s hs
    obtain ⟨ht, hs⟩ := Option.ite_none_right_eq_some.1 hs
    obtain ⟨w, hw, rfl⟩ := Option.map_eq_some_iff.1 hs
    refine ⟨.literal ht (word?_eq_some_iff.1 hw), fun rest last => ?_⟩
    rw [hnumber rest last ht, literal, hw]
    rfl
  · intro rest last h
    by_cases hk : ∃ t ∈ rest.head?, t.kind = .number
    · obtain ⟨t, ht, hk⟩ := hk
      obtain ⟨rest, rfl⟩ : ∃ us, rest = t :: us := ⟨_, List.eq_cons_of_mem_head? ht⟩
      have hw : word? t.spelling.toList = none := by simpa [hk] using h t rfl
      rw [hnumber rest last hk, literal, hw]
      simp only [List.head?_cons, noLiteral, hk, if_true]
      rfl
    · have hno : ∀ t ∈ rest.head?, (t.kind == .number) = false := by simpa using hk
      rw [bind_apply, kind, expect_eq_error _ hno]
      cases rest with
      | nil => rfl
      | cons t rest =>
        have ht : t.kind ≠ .number := by simpa using hno t rfl
        simp only [List.head?_cons, noLiteral, ht, if_false]
        rfl
  · intro t last e he
    cases he
    by_cases ht : t.kind = .number
    · simp [noLiteral, ht, SyntaxError.Blames]
    · simp only [noLiteral, ht, if_false]
      exact blames_unexpectedAt _ t last

theorem term_call {x l r : Token} {ts : List Token} {args : List Expr} (hx : x.kind = .ident)
    (hl : l.kind = .symbol .lparen) (hargs : Listed Expressions ts args)
    (hr : r.kind = .symbol .rparen) :
    Terms [] (x :: l :: (ts ++ [r])) (.call x.spelling x.pos args) := by
  obtain ⟨items, hitems, hjoined, rfl⟩ := hargs
  have hall : ∀ a ∈ items.map fun i => (i.1, i.2.tree), Grammar.Expression a.1 a.2 :=
    List.forall_mem_map.2 hitems
  have hcall := Grammar.Term.call hx hl hall (by simpa [Function.comp_def] using hjoined) hr
  simpa [Terms, Expr.tree, Expr.treeAll_eq_map, Function.comp_def] using hcall

section
variable {expr expr' : Parse Expr} (hexpr : Predictive n m expr expr' Expressions)
include hexpr

theorem predictive_named {x : Token} (hx : x.kind = .ident) :
    Predictive n m (named n expr x) (named m expr' x) fun ts s => Terms [] (x :: ts) s := by
  refine .skip (by decide) (fun l hl => ?_) (.skip (by decide) (fun l hl => ?_) (.pure (.var hx)))
  · refine ((predictive_commaList hexpr .rparen).mono (by omega) (by omega)).bind
      fun ts args hargs => .symbol fun r hr => ?_
    exact .pure (term_call hx hl hargs hr)
  · refine (hexpr.mono (by omega) (by omega)).bind fun ts index hindex => .symbol fun r hr => ?_
    exact .pure (.element hx hl hindex hr)

theorem predictive_primary :
    Predictive (n + 1) (m + 1) (primary n expr) (primary m expr') (Terms []) := by
  refine .skip (by decide) (fun l hl => ?_) (.nextIs (.ident fun x hx => ?_) (.nextIs ?_ ?_))
  · refine hexpr.bind fun ts inner hinner => .symbol fun r hr => ?_
    exact .pure (.paren hl hinner hr)
  · exact predictive_named hexpr hx
  · exact predictive_literal
  · exact .unexpected _ exists_primary

theorem predictive_binary :
    Predictive (n + 1) (m + 1) (binary n expr) (binary m expr') (Terms Grammar.tiers) :=
  predictive_chain (predictive_chain (predictive_chain (predictive_chain
    (predictive_primary hexpr) _) _) _) _

end

/-- The value of an assignment to `target`, after the operator. -/
def assignTo (operand : Parse Expr) (target : Expr) (o : Option (Option BinaryOp × Token)) :
    Parse Expr :=
  match o with
  | some (op, token) =>
    if target.isVariable then do
      let value ← operand
      return .assign op token.pos target value
    else throw (.assignTarget token.pos)
  | none => return target

theorem assignment_eq (operand : Parse Expr) :
    assignment operand =
      operand >>= fun target => nextWith assignmentOf >>= assignTo operand target := rfl

/-- What cannot be assigned to is an expression, unless an assignment operator follows. -/
def noTarget (target : Expr) : Option Token → Except SyntaxError Expr
  | some t => if (assignmentOf t.kind).isSome then .error (.assignTarget t.pos) else .ok target
  | none => .ok target

theorem predictive_noTarget {operand operand' : Parse Expr} {target : Expr} {ts : List Token}
    (htarget : Terms Grammar.tiers ts target) (hv : target.isVariable = false) :
    Predictive n m (nextWith assignmentOf >>= assignTo operand target)
      (nextWith assignmentOf >>= assignTo operand' target)
      fun us s => Expressions (ts ++ us) s := by
  have hsame : assignTo operand' target = assignTo operand target := by
    funext o
    rcases o with _ | ⟨op, t⟩ <;> simp [assignTo, hv]
  have hnil : Expressions (ts ++ []) target := by
    rw [List.append_nil]
    exact .term htarget
  rw [hsame]
  refine .of_token (g := fun _ => none) (f := fun o _ => noTarget target o)
    ⟨[], target, by simp, hnil⟩ (fun _ _ => rfl) (fun _ _ h => by cases h) ?_ ?_ ?_
  · intro rest last _
    cases rest with
    | nil => rfl
    | cons t rest =>
      rw [bind_apply]
      cases hop : assignmentOf t.kind with
      | none =>
        simp only [nextWith, Cursor.next?, hop, noTarget, List.head?_cons]
        rfl
      | some op =>
        simp only [nextWith, Cursor.next?, hop, noTarget, List.head?_cons, Except.bind, assignTo,
          hv]
        rfl
  · intro o last s hs
    have htarget : s = target := by
      unfold noTarget at hs
      split at hs
      · split at hs <;> cases hs
        rfl
      · cases hs
        rfl
    exact htarget ▸ hnil
  · intro t last e he
    rw [noTarget] at he
    split at he <;> cases he
    exact ⟨rfl, ‹_›⟩

theorem predictive_assignment {operand operand' : Parse Expr}
    (hoperand : Predictive n m operand operand' (Terms Grammar.tiers)) :
    Predictive n m (assignment operand) (assignment operand') Expressions := by
  rw [assignment_eq, assignment_eq]
  refine hoperand.bind fun ts target htarget => ?_
  cases hv : target.isVariable with
  | false => exact predictive_noTarget htarget hv
  | true =>
    refine .nextWith rfl (fun op t hop => ?_) (.pure ?_)
    · simp only [assignTo, hv, if_true]
      refine (hoperand.mono (by omega) (by omega)).bind fun us value hvalue => .pure ?_
      obtain ⟨pos, name, indices, htree⟩ := isVariable_iff.1 hv
      rw [Terms, htree] at htarget
      rcases assignmentOf_eq_some.1 hop with ⟨hk, rfl⟩ | ⟨s, b, hk, hb, rfl⟩
      · rw [Expressions, Expr.tree, htree, List.append_nil]
        exact .assign htarget hk hvalue
      · rw [Expressions, Expr.tree, htree, List.append_nil]
        exact .update htarget hk hb hvalue
    · rw [List.append_nil]
      exact .term htarget

theorem predictive_expr : ∀ n m : Nat, Predictive n m (expr n) (expr m) Expressions := by
  intro n
  induction n with
  | zero =>
    obtain ⟨ts, s, hts, hs⟩ := exists_primary
    exact fun m => .zero ⟨ts, s, hts, .term (.operand (.operand (.operand (.operand hs))))⟩
  | succ n ih =>
    intro m
    refine .of_pred ?_
    rw [expr, expr]
    exact predictive_assignment ((predictive_binary (ih (m - 1))).mono (Nat.le_refl _) (by omega))

/-! ## Statements and functions -/

/-- What is read for a statement. -/
abbrev Statements (ts : List Token) (s : Stmt) : Prop := Grammar.Statement ts (spelledOut s)

/-- What is read for a block. -/
abbrev Blocks (ts : List Token) (body : List Stmt) : Prop :=
  Grammar.Block ts (body.map spelledOut)

/-- What is read for a function. -/
abbrev Functions (ts : List Token) (f : Func) : Prop :=
  Grammar.Function ts (f.map Expr.tree fun v => v)

theorem exists_type : ∃ ts ty, (∀ t ∈ ts, t.Writable) ∧ ∃ t : Token,
    t.kind = .keyword (.type ty) ∧ ts = [t] := by
  obtain ⟨t, ht, hk⟩ := Token.exists_writable_keyword (.type .int)
  exact ⟨[t], .int, by simpa using ht, t, hk, rfl⟩

theorem predictive_type :
    Predictive n m type type fun ts ty => ∃ t : Token, t.kind = .keyword (.type ty) ∧ ts = [t] := by
  refine .nextWith rfl (fun ty t hty => .pure ⟨t, type?_eq_some.1 hty, rfl⟩) ?_
  exact .unexpected _ exists_type

theorem predictive_var : Predictive n m var var Grammar.Parameter := by
  refine predictive_type.bind fun us ty hus => ?_
  obtain ⟨t, ht, rfl⟩ := hus
  exact .ident fun x hx => .pure (.intro ht hx)

theorem ne_nil_of_statement {ts : List Token} {s : Stmt} (h : Statements ts s) : ts ≠ [] := by
  obtain ⟨t, us, rfl, -⟩ := starts_statement h
  exact List.cons_ne_nil t us

theorem block_of_series {l r : Token} {ts : List Token} {body : List Stmt}
    (hl : l.kind = .symbol .lbrace) (hbody : Series Statements ts body)
    (hr : r.kind = .symbol .rbrace) : Blocks (l :: (ts ++ [r])) body := by
  obtain ⟨items, hitems, rfl, rfl⟩ := hbody
  have hall : ∀ i ∈ items.map fun i => (i.1, spelledOut i.2), Grammar.Statement i.1 i.2 :=
    List.forall_mem_map.2 hitems
  simpa [Blocks, Function.comp_def] using Grammar.Block.intro hl hall hr

theorem predictive_block {stmt stmt' : Parse Stmt} (hstmt : Predictive n m stmt stmt' Statements) :
    Predictive (n + 1) (m + 1) (block n stmt) (block m stmt') Blocks := by
  refine .symbol fun l hl => ?_
  refine (predictive_itemsUntil hstmt (fun _ _ => ne_nil_of_statement) .rbrace).bind
    fun ts body hbody => .symbol fun r hr => ?_
  exact .pure (block_of_series hl hbody hr)

/-- What is read for a variable and its first value. -/
def Bindings (ts : List Token) (b : Var × Expr) : Prop :=
  ∃ us vs op semi, ts = us ++ op :: (vs ++ [semi]) ∧ Grammar.Parameter us b.1 ∧
    op.kind = .symbol .assign ∧ Expressions vs b.2 ∧ semi.kind = .symbol .semicolon

theorem predictive_binding : Predictive (n + 1) (m + 1) (binding n) (binding m) Bindings := by
  refine predictive_var.bind fun us v hv => .symbol fun op hop => ?_
  refine ((predictive_expr n m).mono (by omega) (by omega)).bind fun vs init hinit => ?_
  exact .symbol fun semi hsemi => .pure ⟨us, vs, op, semi, rfl, hv, hop, hinit, hsemi⟩

theorem predictive_declStmt :
    Predictive (n + 1) (m + 1) (declStmt n) (declStmt m) Statements := by
  refine predictive_binding.bind fun ts b hb => .pure ?_
  obtain ⟨us, vs, op, semi, rfl, hv, hop, hinit, hsemi⟩ := hb
  rw [List.append_nil]
  exact .decl hv hop hinit hsemi

section
variable {stmt stmt' : Parse Stmt} (hstmt : Predictive n m stmt stmt' Statements)
include hstmt

theorem predictive_ifStmt :
    Predictive (n + 1) (m + 1) (ifStmt n stmt) (ifStmt m stmt') Statements := by
  refine .keyword fun k hk => (predictive_expr n m).bind fun ts cond hcond => ?_
  refine ((predictive_block hstmt).mono (by omega) (by omega)).bind fun us body hbody => ?_
  refine .skip (by decide) (fun l hl => ?_) (.pure ?_)
  · refine ((predictive_block hstmt).mono (by omega) (by omega)).bind fun vs orElse horElse => ?_
    refine .pure ?_
    simp only [Statements, spelledOut, PrimeLang.Stmt.map, mapAll_eq_map, List.append_nil]
    exact .ifElse hk hcond hbody hl horElse
  · simp only [Statements, spelledOut, PrimeLang.Stmt.map, mapAll_eq_map, List.append_nil]
    exact .ifThen hk hcond hbody

theorem predictive_forStmt :
    Predictive (n + 1) (m + 1) (forStmt n stmt) (forStmt m stmt') Statements := by
  refine .keyword fun k hk => (predictive_binding.mono (by omega) (by omega)).bind fun ts b hb => ?_
  obtain ⟨us, vs, op, semi, rfl, hv, hop, hinit, hsemi⟩ := hb
  refine ((predictive_expr n m).mono (by omega) (by omega)).bind fun ws cond hcond => ?_
  refine .symbol fun semi' hsemi' => ?_
  refine ((predictive_expr n m).mono (by omega) (by omega)).bind fun xs step hstep => ?_
  refine ((predictive_block hstmt).mono (by omega) (by omega)).bind fun ys body hbody => .pure ?_
  have hloop := Grammar.Statement.loop hk hv hop hinit hsemi hcond hsemi' hstep hbody
  simpa [Statements, spelledOut, PrimeLang.Stmt.map, mapAll_eq_map] using hloop

end

theorem predictive_returnStmt :
    Predictive (n + 1) (m + 1) (returnStmt n) (returnStmt m) Statements := by
  unfold returnStmt
  refine .keyword fun k hk => .nextIs ?_ ?_
  · simp only [pure_bind]
    exact .symbol fun semi hsemi => .pure (.ret hk hsemi)
  · simp only [map_eq_pure_bind, bind_assoc, pure_bind]
    refine (predictive_expr n m).bind fun ts value hvalue => ?_
    exact .symbol fun semi hsemi => .pure (.retValue hk hvalue hsemi)

theorem predictive_exprStmt : Predictive n m (exprStmt n) (exprStmt m) Statements := by
  refine (predictive_expr n m).bind fun ts e he => ?_
  exact .symbol fun semi hsemi => .pure (.eval he hsemi)

theorem exists_statement : ∃ ts s, (∀ t ∈ ts, t.Writable) ∧ Statements ts s := by
  obtain ⟨k, hk, hkind⟩ := Token.exists_writable_keyword .return_
  obtain ⟨semi, hsemi, hskind⟩ := Token.exists_writable_symbol .semicolon
  exact ⟨[k, semi], .ret none, by simp [hk, hsemi], .ret hkind hskind⟩

theorem predictive_stmt (n m : Nat) : Predictive n m (stmt n) (stmt m) Statements := by
  induction n generalizing m with
  | zero => exact .zero exists_statement
  | succ n ih =>
    refine .of_pred ?_
    rw [stmt, stmt]
    refine .look (f := fun o => o) fun o => ?_
    generalize o.map Token.kind = k
    cases k with
    | none => exact .unexpected _ exists_statement
    | some k =>
      have hexpr := (@predictive_exprStmt (n + 1) (m - 1 + 1)).mono (Nat.le_refl _)
        (show m ≤ m - 1 + 1 by omega)
      cases k with
      | keyword w =>
        cases w with
        | type ty => exact predictive_declStmt.mono (Nat.le_refl _) (by omega)
        | if_ => exact (predictive_ifStmt (ih (m - 1))).mono (Nat.le_refl _) (by omega)
        | for_ => exact (predictive_forStmt (ih (m - 1))).mono (Nat.le_refl _) (by omega)
        | return_ => exact predictive_returnStmt.mono (Nat.le_refl _) (by omega)
        | _ => exact hexpr
      | _ => exact hexpr

theorem function_of_listed {k x l r : Token} {ts us vs : List Token} {params : List Var}
    {ret : Option Ty} {body : List Stmt} (hk : k.kind = .keyword .func)
    (hx : isFuncName x.kind = true) (hl : l.kind = .symbol .lparen)
    (hparams : Listed Grammar.Parameter ts params) (hr : r.kind = .symbol .rparen)
    (hret : Grammar.Result us ret) (hbody : Blocks vs body) :
    Functions (k :: x :: l :: (ts ++ r :: (us ++ vs))) ⟨x.spelling, x.pos, params, ret, body⟩ := by
  obtain ⟨items, hitems, hjoined, rfl⟩ := hparams
  have hname : x.kind = .ident ∨ x.kind = .keyword .main := by
    simpa [isFuncName, Bool.or_eq_true, beq_iff_eq] using hx
  simpa [Functions, PrimeLang.Func.map, mapAll_eq_map, Function.comp_def, spelledOut] using
    Grammar.Function.intro hk hname hl hitems hjoined hr hret hbody

theorem predictive_func : Predictive (n + 1) (m + 1) (func n) (func m) Functions := by
  unfold func
  obtain ⟨v, hv, hvk⟩ := Token.exists_writable_ident
  refine .keyword fun k hk => .expect rfl ⟨v, hv, by rw [hvk]; rfl⟩ fun x hx => ?_
  refine .symbol fun l hl => ?_
  refine ((predictive_commaList (@predictive_var n m) .rparen).mono (by omega) (by omega)).bind
    fun ts params hparams => .symbol fun r hr => ?_
  have hblock := predictive_block (predictive_stmt n m)
  refine .skip (by decide) (fun arrow harrow => ?_) ?_
  · simp only [map_eq_pure_bind, bind_assoc, pure_bind]
    refine predictive_type.bind fun us ty hus => ?_
    obtain ⟨t, ht, rfl⟩ := hus
    refine (hblock.mono (by omega) (by omega)).bind fun vs body hbody => .pure ?_
    simpa using function_of_listed hk hx hl hparams hr (.some harrow ht) hbody
  · simp only [pure_bind]
    refine (hblock.mono (by omega) (by omega)).bind fun vs body hbody => .pure ?_
    simpa using function_of_listed hk hx hl hparams hr .none hbody

theorem predictive_funcs (n m : Nat) : Predictive n m (funcs n) (funcs m) (Series Functions) := by
  induction n generalizing m with
  | zero => exact .zero ⟨[], [], by simp, series_nil⟩
  | succ n ih =>
    refine .of_pred ?_
    rw [funcs, funcs]
    refine .nextIs ?_ (.pure series_nil)
    refine (predictive_func.mono (Nat.le_refl _) (by omega)).bind fun us f hf => ?_
    have hlength : 0 < us.length := by
      obtain ⟨t, us, rfl, -⟩ := starts_function hf
      exact Nat.succ_pos _
    refine ((ih (m - 1)).mono (by omega) (by omega)).bind fun ts fs hfs => ?_
    exact .pure (by simpa using series_cons hf hfs)

end

end Source.Parse
end PrimeLang
