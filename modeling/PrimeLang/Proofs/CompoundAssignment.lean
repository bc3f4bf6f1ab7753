import PrimeLang.Proofs.AssignmentPhrases
import PrimeLang.Proofs.PositionIndependence
import PrimeLang.Proofs.Renumbering
import PrimeLang.Proofs.ViablePrefixes

/-! # Compound assignments spelled out

An expression `t op= e` can be replaced by `t := t op (e)` wherever it stands. Tokens before and
after the replacement derive the same trees (`Grammar.Update.program_iff`). The two programs number
their expressions differently, since the value is read before the target is copied in one and after
it in the other, but code does not depend on these numbers. So one text compiles if and only if the
other does, and to the same object (`compound_assignment_is_sugar`). -/

namespace PrimeLang

def Token.ofSymbol (s : Symbol) (pos : Pos) : Token := ⟨.symbol s, s.spelling, pos⟩

namespace Grammar

/-! ## Operands -/

theorem Term.append_left {tighter : List Tier} {ts : List Token} {e : Tree.Expr Pos}
    (h : Term tighter ts e) (looser : List Tier) : Term (looser ++ tighter) ts e := by
  induction looser with
  | nil => exact h
  | cons tier looser ih => exact .operand ih

theorem Term.of_primary {ts : List Token} {e : Tree.Expr Pos} (h : Term [] ts e)
    (tiers : List Tier) : Term tiers ts e := by
  simpa using h.append_left tiers

/-- No operator stands in a target outside brackets. -/
theorem Term.primary_of_ident {tiers : List Tier} {ts : List Token} {pos : Pos} {name : String}
    {indices : List (Tree.Expr Pos)} (h : Term tiers ts (.ident pos name indices)) :
    Term [] ts (.ident pos name indices) := by
  induction tiers with
  | nil => exact h
  | cons tier tiers ih =>
    cases h with
    | operand h => exact ih h

theorem tier_mem_tiers (b : BinaryOp) : b.tier ∈ tiers := by
  cases b <;> decide

/-- An operator between two primaries, whatever its tier. -/
theorem Term.of_primaries {ts us : List Token} {op : Token} {b : BinaryOp}
    {lhs rhs : Tree.Expr Pos} (hlhs : Term [] ts lhs) (hop : op.kind = .symbol (.operator b))
    (hrhs : Term [] us rhs) : Term tiers (ts ++ op :: us) (.binary op.pos b lhs rhs) := by
  obtain ⟨looser, tighter, htiers⟩ := List.append_of_mem (tier_mem_tiers b)
  rw [htiers]
  exact (Term.binary (hlhs.of_primary _) hop (hrhs.of_primary tighter)).append_left looser

/-- Tokens have at most one tree, since the parser reads every tree that they have. -/
theorem Expression.unique {ts : List Token} {e e' : Tree.Expr Pos} (h : Expression ts e)
    (h' : Expression ts e') : e = e' := by
  have hstops : Source.Parse.Stops Source.Parse.continuesExpr [] := by simp [Source.Parse.Stops]
  have hlength : (ts ++ []).length < ts.length + 1 := by simp
  obtain ⟨s, rfl, hs⟩ := Source.Parse.reads_expression h hstops hlength
  obtain ⟨s', rfl, hs'⟩ := Source.Parse.reads_expression h' hstops hlength
  obtain ⟨c, hc, -⟩ := hs ⟨ts, .start⟩ (by simp)
  obtain ⟨c', hc', -⟩ := hs' ⟨ts, .start⟩ (by simp)
  cases hc.symm.trans hc'
  rfl

/-! ## The expression and what is put in its place -/

/-- A compound assignment that stands as an expression among tokens. -/
structure Update where
  before : List Token
  target : List Token
  symbol : Token
  op : BinaryOp
  value : List Token
  after : List Token
  symbol_kind : ∃ s, symbol.kind = .symbol s ∧ s.update? = some op
  target_term : ∃ e, Term tiers target e
  value_term : ∃ e, Term tiers value e
  opensAfter : OpensAfter before
  closesBefore : ClosesBefore after

namespace Update

/-- The tokens with the compound assignment. -/
def tokens (u : Update) : List Token := u.before ++ ((u.target ++ u.symbol :: u.value) ++ u.after)

/-- The tokens `target op (value)`. -/
def combined (u : Update) : List Token :=
  u.target ++ .ofSymbol (.operator u.op) u.symbol.pos ::
    .ofSymbol .lparen u.symbol.pos :: (u.value ++ [.ofSymbol .rparen u.symbol.pos])

/-- The tokens with `target := target op (value)` in place of the compound assignment. -/
def spelledOut (u : Update) : List Token :=
  u.before ++ ((u.target ++ .ofSymbol .assign u.symbol.pos :: u.combined) ++ u.after)

end Update

/-- What an assignment symbol between two operands that can stand as an expression does in tokens
with the property `Y`. -/
theorem Focus.of_operands {Y : List Token → Prop} {before ts us after : List Token} {op : Token}
    (h : Focus Y (before ++ ts) op (us ++ after)) (hts : Fenced 1 0 0 ts) (hne : ts ≠ [])
    (hus : Fenced 1 0 0 us) (hbefore : OpensAfter before) (hafter : ClosesBefore after) :
    ∃ e, Assignment ts op us e ∧ ∀ ws, Expression ws e → Y (before ++ (ws ++ after)) := by
  generalize hl : before ++ ts = l at h
  generalize hr : us ++ after = r at h
  cases h with
  | expression ha hbefore' hafter' hY =>
    obtain ⟨⟨_, htarget⟩, ⟨_, hvalue⟩⟩ := ha.terms
    obtain ⟨rfl, rfl⟩ := hts.eq_of_opensAfter (fenced_term htarget) hbefore hbefore' hl
    obtain ⟨rfl, rfl⟩ := hus.eq_of_closesBefore (fenced_term hvalue) hafter hafter' hr
    exact ⟨_, ha, hY⟩
  | @declaration before' _ t x _ ty ht hop =>
    -- the type would be in the target, or the last token before it
    obtain ⟨ys, y, rfl⟩ := (List.eq_nil_or_concat ts).resolve_left hne
    rw [List.concat_eq_append, ← List.append_assoc] at hl
    have hlast : t ∈ (before ++ ys).getLast? := by
      rw [(List.append_inj' hl rfl).1]
      simp
    rw [List.getLast?_append, Option.mem_def, Option.or_eq_some_iff] at hlast
    rcases hlast with hlast | ⟨-, hlast⟩
    · have hkind := hts.kinds t (by simp [List.mem_of_getLast? hlast])
      rw [ht] at hkind
      cases hkind
    · have hopens := hbefore t hlast
      rw [ht] at hopens
      cases hopens

namespace Update
variable {u : Update} {fs : List (Func (Tree.Expr Pos) Var)}

theorem isSome_assignmentOf (u : Update) : (Source.Parse.assignmentOf u.symbol.kind).isSome := by
  obtain ⟨s, hs, hop⟩ := u.symbol_kind
  rw [Source.Parse.assignmentOf_eq_some.2 (.inr ⟨s, u.op, hs, hop, rfl⟩)]
  rfl

theorem target_ne_nil (u : Update) : u.target ≠ [] := by
  obtain ⟨e, he⟩ := u.target_term
  obtain ⟨t, ts, hts, -⟩ := Source.Parse.starts_term he
  simp [hts]

theorem fenced_target (u : Update) : Fenced 1 0 0 u.target :=
  let ⟨_, he⟩ := u.target_term
  fenced_term he

theorem fenced_value (u : Update) : Fenced 1 0 0 u.value :=
  let ⟨_, he⟩ := u.value_term
  fenced_term he

theorem fenced_combined (u : Update) : Fenced 1 0 0 u.combined := by
  have hop : Fenced 1 0 0 [.ofSymbol (.operator u.op) u.symbol.pos] := fenced_operator rfl
  exact u.fenced_target.append
    (hop.append ((u.fenced_value.mono Int.one_nonneg).bracket (.inl rfl) (.inl rfl)))

/-- The parentheses keep the operators of the value together, whatever the operator before them. -/
theorem term_combined {pos : Pos} {name : String} {indices : List (Tree.Expr Pos)}
    {e : Tree.Expr Pos} (htarget : Term tiers u.target (.ident pos name indices))
    (hvalue : Term tiers u.value e) :
    Term tiers u.combined (.binary u.symbol.pos u.op (.ident pos name indices) e) := by
  have hparen : Term [] (.ofSymbol .lparen u.symbol.pos ::
      (u.value ++ [.ofSymbol .rparen u.symbol.pos])) e := .paren rfl (.term hvalue) rfl
  have hop : (Token.ofSymbol (.operator u.op) u.symbol.pos).kind = .symbol (.operator u.op) := rfl
  exact .of_primaries htarget.primary_of_ident hop hparen

theorem program_spelledOut (h : Program u.tokens fs) : Program u.spelledOut fs := by
  have hfocus : Focus (fun ws => Program ws fs) (u.before ++ u.target) u.symbol
      (u.value ++ u.after) := by
    refine focus_of_program ?_ u.isSome_assignmentOf
    simpa [tokens] using h
  obtain ⟨e, ha, hY⟩ := hfocus.of_operands u.fenced_target u.target_ne_nil u.fenced_value
    u.opensAfter u.closesBefore
  obtain ⟨s, hs, hop⟩ := u.symbol_kind
  cases ha with
  | assign _ hassign _ =>
    cases hs.symm.trans hassign
    cases hop
  | update htarget hs' hop' hvalue =>
    cases hs.symm.trans hs'
    cases hop.symm.trans hop'
    exact hY _ (.assign htarget rfl (term_combined htarget hvalue))

theorem program_tokens (h : Program u.spelledOut fs) : Program u.tokens fs := by
  have hfocus : Focus (fun ws => Program ws fs) (u.before ++ u.target)
      (.ofSymbol .assign u.symbol.pos) (u.combined ++ u.after) := by
    refine focus_of_program ?_ rfl
    simpa [spelledOut] using h
  obtain ⟨e, ha, hY⟩ := hfocus.of_operands u.fenced_target u.target_ne_nil u.fenced_combined
    u.opensAfter u.closesBefore
  obtain ⟨s, hs, hop⟩ := u.symbol_kind
  obtain ⟨value, hvalue⟩ := u.value_term
  cases ha with
  | assign htarget _ hcombined =>
    -- nothing but uniqueness says how the parenthesized tokens were derived
    cases Expression.unique (.term hcombined) (.term (term_combined htarget hvalue))
    exact hY _ (.update htarget hs hop hvalue)
  | update _ hs' hop' _ =>
    cases hs'
    cases hop'

/-- The compound assignment and its replacement make the same trees. -/
theorem program_iff : Program u.tokens fs ↔ Program u.spelledOut fs :=
  ⟨program_spelledOut, program_tokens⟩

/-- The end of the text is no part of the value. -/
theorem exists_after {body : List Token} {eof : Token} (h : u.tokens = body ++ [eof])
    (heof : eof.kind = .eof) : ∃ after, u.after = after ++ [eof] := by
  have hlast : eof ∈ u.tokens.getLast? := by
    rw [h]
    simp
  rw [tokens, ← List.append_assoc, List.getLast?_append, Option.mem_def, Option.or_eq_some_iff]
    at hlast
  rcases hlast with hlast | ⟨-, hlast⟩
  · exact ⟨_, (List.dropLast_append_getLast? eof hlast).symm⟩
  · rw [← List.append_assoc, List.getLast?_append_cons] at hlast
    rcases List.mem_cons.1 (List.mem_of_getLast? hlast) with rfl | hmem
    · obtain ⟨s, hs, -⟩ := u.symbol_kind
      cases hs.symm.trans heof
    · have hkind := u.fenced_value.kinds eof hmem
      rw [heof] at hkind
      cases hkind

/-- The symbol of a compound assignment in a derived program stands between a target and a value. -/
theorem exists_of_program {l r : List Token} {symbol : Token} {s : Symbol} {op : BinaryOp}
    (h : Program (l ++ symbol :: r) fs) (hs : symbol.kind = .symbol s) (hop : s.update? = some op) :
    ∃ u : Update, u.before ++ u.target = l ∧ u.symbol = symbol ∧ u.op = op ∧
      u.value ++ u.after = r := by
  have hsome := Source.Parse.assignmentOf_eq_some.2 (.inr ⟨s, op, hs, hop, rfl⟩)
  have hfocus := focus_of_program h (hsome ▸ rfl)
  cases hfocus with
  | @expression before ts us after _ _ ha hbefore hafter =>
    obtain ⟨htarget, hvalue⟩ := ha.terms
    exact ⟨⟨before, ts, symbol, op, us, after, ⟨s, hs, hop⟩, htarget, hvalue, hbefore, hafter⟩,
      rfl, rfl, rfl, rfl⟩
  | declaration _ hassign =>
    cases hs.symm.trans hassign
    cases hop

end Update
end Grammar

/-! ## Texts and their tokens -/

namespace Token
variable {text : String} {ts : List Token}

/-- The text consists of these tokens, comments apart, wherever they stand in it. -/
def Says (text : String) (ts : List Token) : Prop :=
  (significant text).map content = ts.map content

theorem Writable.of_content {t u : Token} (ht : t.Writable) (h : t.content = u.content) :
    u.Writable := by
  obtain ⟨kind, spelling, pos⟩ := u
  cases h
  exact ht

/-- The end of the text is marked once, behind tokens that can be written down. -/
theorem Says.exists_body (h : Says text ts) : ∃ body eof, ts = body ++ [eof] ∧
    eof.content = (.eof, "") ∧ ∀ t ∈ body, t.Writable ∧ t.kind ≠ .eof := by
  obtain ⟨body, hbody, hne⟩ := Token.exists_body .start text.toList
  have hsplit : significant text = body.filter (·.kind ≠ .comment) ++
      [⟨.eof, "", Pos.start.advanceBy text.toList⟩] := by
    rw [significant, tokens, hbody]
    simp
  rw [Says, hsplit, List.map_append] at h
  obtain ⟨body', last, rfl, hbody', hlast⟩ := List.map_eq_append_iff.1 h.symm
  obtain ⟨eof, rfl, heof⟩ := List.map_eq_singleton_iff.1 hlast
  refine ⟨body', eof, rfl, heof, fun t ht => ?_⟩
  obtain ⟨u, hu, hcontent⟩ := List.mem_map.1 (hbody' ▸ List.mem_map_of_mem ht)
  have hk : u.kind ≠ .eof := (hne u (List.mem_filter.1 hu).1).1
  have hwritable : u.Writable := writable_of_mem (hsplit ▸ List.mem_append_left _ hu) hk
  have hkind : u.kind = t.kind := congrArg Prod.fst hcontent
  exact ⟨hwritable.of_content hcontent, hkind ▸ hk⟩

theorem Says.filter_eq (h : Says text ts) : ts.filter (·.kind ≠ .comment) = ts := by
  obtain ⟨body, eof, rfl, heof, hbody⟩ := h.exists_body
  refine List.filter_eq_self.2 fun t ht => ?_
  rcases List.mem_append.1 ht with ht | ht
  · simpa using (hbody t ht).1.2
  · have hkind : eof.kind = .eof := congrArg Prod.fst heof
    simp [List.mem_singleton.1 ht, hkind]

theorem Says.parse_iff (h : Says text ts) {fs : List (Func (Tree.Expr Pos) Var)} :
    (∃ gs, Source.parse (.ofTokens ts) = .ok gs ∧
      gs.map (Func.map Source.Expr.tree (fun v => v)) = fs) ↔ Grammar.Program ts fs := by
  have hall := h.filter_eq
  obtain ⟨body, eof, rfl, heof, hbody⟩ := h.exists_body
  have hkind : eof.kind = .eof := congrArg Prod.fst heof
  rw [Source.parse_eq_ok_iff hkind fun t ht => (hbody t ht).2, hall]

theorem says_write {body : List Token} {eof : Token} (hbody : ∀ t ∈ body, t.Writable)
    (heof : eof.content = (.eof, "")) : Says (write body) (body ++ [eof]) := by
  rw [Says, map_content_write hbody, List.map_append, ← heof]
  rfl

end Token

/-- Every text with a compound assignment can be written with its replacement. -/
theorem Grammar.Update.exists_says_spelledOut {text : String} (u : Update)
    (h : Token.Says text u.tokens) : ∃ text', Token.Says text' u.spelledOut := by
  obtain ⟨body, eof, htokens, heof, hbody⟩ := h.exists_body
  obtain ⟨after, hafter⟩ := u.exists_after htokens (congrArg Prod.fst heof)
  have htokens : body = u.before ++ ((u.target ++ u.symbol :: u.value) ++ after) := by
    rw [tokens, hafter, ← List.append_assoc, ← List.append_assoc] at htokens
    simpa using (List.append_inj' htokens rfl).1.symm
  have hspelledOut : u.spelledOut = (u.before ++
      ((u.target ++ .ofSymbol .assign u.symbol.pos :: u.combined) ++ after)) ++ [eof] := by
    simp [spelledOut, hafter]
  have hsymbol (s : Symbol) : (Token.ofSymbol s u.symbol.pos).Writable := Token.writable_symbol s _
  rw [hspelledOut]
  refine ⟨_, Token.says_write (fun t ht => ?_) heof⟩
  simp only [combined, List.mem_append, List.mem_cons, List.not_mem_nil, or_false] at ht
  rcases ht with ht | (ht | rfl | ht | rfl | rfl | ht | rfl) | ht
  · exact (hbody t (by simp [htokens, ht])).1
  · exact (hbody t (by simp [htokens, ht])).1
  · exact hsymbol .assign
  · exact (hbody t (by simp [htokens, ht])).1
  · exact hsymbol (.operator u.op)
  · exact hsymbol .lparen
  · exact (hbody t (by simp [htokens, ht])).1
  · exact hsymbol .rparen
  · exact (hbody t (by simp [htokens, ht])).1

/-! ## Texts of the same trees -/

namespace Program

/-- A text that makes a program derives it. -/
theorem exists_derivation {text : String} {p : Program} (h : parse text = .ok p) :
    ∃ fs, Grammar.Program (Token.significant text) fs := by
  have hsays : Token.Says text (Token.significant text) := rfl
  obtain ⟨gs, hgs, -⟩ := ofTokens_eq_ok.1 h
  have hcursor : Cursor.ofTokens (Token.significant text) = .ofTokens (Token.tokens text) :=
    congrArg (Cursor.mk · .start) hsays.filter_eq
  exact ⟨_, hsays.parse_iff.1 ⟨gs, hcursor ▸ hgs, rfl⟩⟩

theorem generate_of_content {c c' : Cursor} {p : Program} {R : Resolution} {o : Object}
    (h : c.rest.map Token.content = c'.rest.map Token.content) (hp : ofTokens c = .ok p)
    (hR : p.resolve = .ok R) (ho : p.generate R = .ok o) :
    ∃ p', ofTokens c' = .ok p' ∧ p'.resolve = .ok R ∧ p'.generate R = .ok o := by
  rcases ofTokens_congr h with ⟨q, p', hq, hp', hsame⟩ | ⟨e, -, he, -⟩
  · cases hp.symm.trans hq
    rcases generate_congr hp hp' hsame with ⟨R', o', hR', ho', hp''⟩ | ⟨e, -, he, -⟩
    · cases hR.symm.trans hR'
      cases ho.symm.trans ho'
      exact ⟨p', hp', hp''⟩
    · cases hR.symm.trans he
  · cases hp.symm.trans he

end Program

/-- A text whose tokens derive the trees of another text compiles to the same object. -/
theorem compile_of_program {text text' : String} {ts ts' : List Token} (hts : Token.Says text ts)
    (hts' : Token.Says text' ts') (h : ∀ fs, Grammar.Program ts fs → Grammar.Program ts' fs)
    {p : Program} {o : Object} (hcompile : compile text = .ok (p, o)) :
    ∃ p', compile text' = .ok (p', o) := by
  obtain ⟨R, hp, hR, ho⟩ := compile_eq_ok hcompile
  have hrest : (Cursor.ofTokens (Token.tokens text)).rest.map Token.content =
      (Cursor.ofTokens ts).rest.map Token.content :=
    hts.trans (congrArg (List.map Token.content) hts.filter_eq.symm)
  have hrest' : (Cursor.ofTokens ts').rest.map Token.content =
      (Cursor.ofTokens (Token.tokens text')).rest.map Token.content :=
    (congrArg (List.map Token.content) hts'.filter_eq).trans hts'.symm
  -- the programs of the tokens themselves have the same trees, with the same positions
  obtain ⟨q, hq, hRq, hoq⟩ := Program.generate_of_content hrest hp hR ho
  obtain ⟨gs, hgs, rfl⟩ := Program.ofTokens_eq_ok.1 hq
  obtain ⟨gs', hgs', hsame⟩ := hts'.parse_iff.2 (h _ (hts.parse_iff.1 ⟨gs, hgs, rfl⟩))
  have htrees : (Program.ofSource gs).SameTrees (.ofSource gs') := by
    rw [Program.SameTrees, Program.ofSource_funcs, Program.ofSource_funcs, hsame]
  obtain ⟨R', hR', ho'⟩ := htrees.generate (Program.ofSource_wellFormed gs)
    (Program.ofSource_wellFormed gs') hRq hoq
  obtain ⟨p', hp', hRp', hop'⟩ := Program.generate_of_content hrest'
    (Program.ofTokens_eq_ok.2 ⟨gs', hgs', rfl⟩) hR' ho'
  exact ⟨p', compile_of_generate_ok hp' hRp' hop'⟩

/-! ## Compound assignments in texts -/

/-- A compound assignment `target op= value` means `target := target op (value)`. Every text that
has it as an expression can be written with the replacement. The text with the replacement compiles
if and only if the other does, and to the same object: the same code, warnings and layout. In a text
without syntax errors, every symbol of a compound assignment belongs to such an expression. -/
theorem compound_assignment_is_sugar :
    (∀ (u : Grammar.Update) (text : String), Token.Says text u.tokens →
      (∃ text', Token.Says text' u.spelledOut) ∧
      ∀ text', Token.Says text' u.spelledOut →
        ∀ o, (∃ p, compile text = .ok (p, o)) ↔ ∃ p, compile text' = .ok (p, o)) ∧
    ∀ (text : String) (p : Program), Program.parse text = .ok p →
      ∀ (l r : List Token) (symbol : Token) (s : Symbol) (op : BinaryOp),
        Token.significant text = l ++ symbol :: r → symbol.kind = .symbol s →
        s.update? = some op →
        ∃ u : Grammar.Update, u.before ++ u.target = l ∧ u.symbol = symbol ∧ u.op = op ∧
          u.value ++ u.after = r := by
  refine ⟨fun u text h => ⟨u.exists_says_spelledOut h, fun text' h' o => ⟨?_, ?_⟩⟩, ?_⟩
  · rintro ⟨p, hp⟩
    exact compile_of_program h h' (fun _ => u.program_iff.1) hp
  · rintro ⟨p, hp⟩
    exact compile_of_program h' h (fun _ => u.program_iff.2) hp
  · intro text p hp l r symbol s op htext hs hop
    obtain ⟨fs, hprogram⟩ := Program.exists_derivation hp
    rw [htext] at hprogram
    exact Grammar.Update.exists_of_program hprogram hs hop

/-- Tokens that the parser reads as an operand to their end are one. -/
theorem Grammar.exists_term_of_eval (n : Nat) (ts : List Token)
    (h : (Source.Parse.binary n (Source.Parse.expr n) ⟨ts, .start⟩).toOption.any
      (·.2.rest.isEmpty) = true) : ∃ e, Term tiers ts e := by
  cases hrun : Source.Parse.binary n (Source.Parse.expr n) ⟨ts, .start⟩ with
  | error e =>
    rw [hrun] at h
    cases h
  | ok r =>
    rw [hrun] at h
    obtain ⟨us, hus, hterm⟩ := Source.Parse.binary_sound (Source.Parse.expr_sound n) n hrun
    have hrest : r.2.rest = [] := List.isEmpty_iff.1 h
    rw [hrest, List.append_nil] at hus
    exact ⟨_, hus ▸ hterm⟩

def updatingText : String :=
  "func f(array a) \x7b a[f(a[0] -= 1)] *= a[1] || 2; \x7d"

def spelledOutText : String :=
  "func f(array a) \x7b a[f(a[0] -= 1)] := a[f(a[0] -= 1)] * (a[1] || 2); \x7d"

/-- The tokens of a text but for the mark of its end. -/
def phrase (text : String) : List Token := (Token.significant text).dropLast

/-- A compound assignment to an element whose index calls and assigns, of a value with an operator
that binds looser than its own. -/
def elementUpdate : Grammar.Update where
  before := phrase "func f(array a) \x7b"
  target := phrase "a[f(a[0] -= 1)]"
  symbol := .ofSymbol .mulAssign .start
  op := .mul
  value := phrase "a[1] || 2"
  after := Token.significant "; \x7d"
  symbol_kind := ⟨.mulAssign, rfl, rfl⟩
  target_term := Grammar.exists_term_of_eval 20 _ (by decide +kernel)
  value_term := Grammar.exists_term_of_eval 20 _ (by decide +kernel)
  opensAfter := by
    unfold Grammar.OpensAfter
    decide +kernel
  closesBefore := by
    unfold Grammar.ClosesBefore
    decide +kernel

/-- The copy of the target has another number in each of the programs. The symbol in the index
belongs to a compound assignment too. -/
theorem compound_assignment_is_sugar_element :
    ∃ p p' o, compile updatingText = .ok (p, o) ∧ compile spelledOutText = .ok (p', o) ∧
      (p.exprs.flatMap Tree.Expr.labels)[11]?.map Site.id = some 21 ∧
      (p'.exprs.flatMap Tree.Expr.labels)[11]?.map Site.id = some 17 ∧
      ∃ u : Grammar.Update, u.before ++ u.target = (Token.significant updatingText).take 15 ∧
        u.op = .sub := by
  have hsays : Token.Says updatingText elementUpdate.tokens := by
    unfold Token.Says
    decide +kernel
  have hsays' : Token.Says spelledOutText elementUpdate.spelledOut := by
    unfold Token.Says
    decide +kernel
  obtain ⟨p, o, hp, hid⟩ := Program.exists_compile_of_eval updatingText
    (fun (p, _) => (p.exprs.flatMap Tree.Expr.labels)[11]?.map Site.id == some 21)
    (by decide +kernel)
  obtain ⟨q, o', hq, hid'⟩ := Program.exists_compile_of_eval spelledOutText
    (fun (p, _) => (p.exprs.flatMap Tree.Expr.labels)[11]?.map Site.id == some 17)
    (by decide +kernel)
  obtain ⟨p', hp'⟩ :=
    ((compound_assignment_is_sugar.1 elementUpdate updatingText hsays).2 _ hsays' o).1 ⟨p, hp⟩
  obtain ⟨R, hparse, -⟩ := compile_eq_ok hp
  obtain ⟨u, hu, -, hop, -⟩ := compound_assignment_is_sugar.2 updatingText p hparse
    ((Token.significant updatingText).take 15) ((Token.significant updatingText).drop 16)
    (.ofSymbol .subAssign ⟨27, 0, 27⟩) .subAssign .sub (by decide +kernel) rfl rfl
  cases hp'.symm.trans hq
  exact ⟨p, _, o, hp, hp', eq_of_beq hid, eq_of_beq hid', u, hu, hop⟩

end PrimeLang
