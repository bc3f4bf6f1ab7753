import PrimeLang.Proofs.ViablePrefixes

/-! # Texts that go on

A line feed ends every token, a closing brace ends every function, and nodes are only ever added. So
if a text declares a program and goes on, on a new line, then what it declares altogether starts
with the functions of that program, under the same numbers (`Program.parse_goes_on`). -/

namespace PrimeLang
open Token (Kind)

/-! ## Tokens -/

namespace Token

/-- A token is read the same way if the text goes on behind a line feed. -/
theorem Reads.append_line {c : Char} {cs : List Char} {k : Kind} {n : Nat} (h : Reads c cs k n)
    (ds : List Char) : Reads c (cs ++ '\n' :: ds) k n := by
  have hbefore : Reads c (cs.take n ++ (cs.drop n ++ '\n' :: ds)) k n := by
    apply h.before
    intro d hd
    cases hrest : cs.drop n with
    | nil =>
      rw [hrest] at hd
      cases hd
      exact ends_of_isBlank isBlank_lineFeed fun _ => rfl
    | cons d' rest =>
      rw [hrest] at hd
      exact h.ends (hrest ▸ hd)
  rwa [← List.append_assoc, List.take_append_drop] at hbefore

theorem lexeme_append_line (c : Char) (cs ds : List Char) :
    lexeme c (cs ++ '\n' :: ds) = lexeme c cs :=
  lexeme_eq_of_reads ((reads_lexeme c cs).append_line ds)

/-- The tokens of a text, but for its end, are the first ones of what it goes on to. -/
theorem exists_tokensFrom_append (pos : Pos) (cs ds : List Char) :
    ∃ body eof, tokensFrom pos cs = body ++ [eof] ∧ eof.kind = .eof ∧
      (∀ t ∈ body, t.kind ≠ .eof) ∧
      tokensFrom pos (cs ++ '\n' :: ds) =
        body ++ tokensFrom (pos.advanceBy (cs ++ ['\n'])) ds := by
  induction pos, cs using scan_induction with
  | nil pos =>
    refine ⟨[], ⟨.eof, "", pos⟩, tokensFrom_nil pos, rfl, nofun, ?_⟩
    exact tokensFrom_blank isBlank_lineFeed pos ds
  | blank pos c cs hc ih =>
    obtain ⟨body, eof, hbody, heof, hkinds, happend⟩ := ih
    refine ⟨body, eof, (tokensFrom_blank hc pos cs).trans hbody, heof, hkinds, ?_⟩
    exact (tokensFrom_blank hc pos _).trans happend
  | token pos c cs hc ih =>
    obtain ⟨body, eof, hbody, heof, hkinds, happend⟩ := ih
    have hle := (reads_lexeme c cs).le_length
    have hpos : (pos.advanceBy (c :: cs.take (lexeme c cs).2)).advanceBy
        (cs.drop (lexeme c cs).2 ++ ['\n']) = pos.advanceBy (c :: (cs ++ ['\n'])) := by
      rw [← Pos.advanceBy_append, List.cons_append, ← List.append_assoc, List.take_append_drop]
    refine ⟨_ :: body, eof, (tokensFrom_lexeme hc pos cs).trans (congrArg _ hbody), heof, ?_, ?_⟩
    · exact List.forall_mem_cons.2 ⟨lexeme_ne_eof c cs, hkinds⟩
    · rw [List.cons_append, tokensFrom_lexeme hc, lexeme_append_line,
        List.take_append_of_le_length hle, List.drop_append_of_le_length hle, happend, hpos]
      rfl

theorem exists_significant_append (text rest : String) :
    ∃ body eof more, significant text = body ++ [eof] ∧ eof.kind = .eof ∧
      (∀ t ∈ body, t.kind ≠ .eof) ∧ significant (text ++ "\n" ++ rest) = body ++ more := by
  obtain ⟨body, eof, htokens, heof, hkinds, happend⟩ :=
    exists_tokensFrom_append .start text.toList rest.toList
  have hlist : (text ++ "\n" ++ rest).toList = text.toList ++ '\n' :: rest.toList := by
    rw [String.toList_append, String.toList_append, List.append_assoc]
    rfl
  have hmore := congrArg (List.filter (·.kind ≠ .comment)) happend
  rw [List.filter_append, ← hlist] at hmore
  refine ⟨_, eof, _, ?_, heof, ?_, hmore⟩
  · rw [significant, tokens, htokens, List.filter_append]
    simp [heof]
  · exact fun t ht => hkinds t (List.mem_of_mem_filter ht)

end Token

/-! ## Functions -/

namespace Source.Parse

/-- A function up to its closing brace. -/
def openFunc (n : Nat) : Parse Func := do
  let _ ← keyword .func
  let name ← expect "function name" isFuncName
  let _ ← symbol .lparen
  let params ← commaList n var .rparen
  let _ ← symbol .rparen
  let ret ← if ← skip (.symbol .arrow) then some <$> type else pure none
  let _ ← symbol .lbrace
  let body ← itemsUntil (stmt n) .rbrace n
  return ⟨name.spelling, name.pos, params, ret, body⟩

theorem func_eq (n : Nat) :
    func n = openFunc n >>= fun f => symbol .rbrace >>= fun _ => pure f := by
  simp only [func, openFunc, block, bind_assoc, pure_bind]
  iterate 6 refine bind_congr fun _ => ?_
  split <;> simp only [bind_assoc, pure_bind]

theorem predictive_openFunc {n m : Nat} :
    Predictive (n + 1) (m + 1) (openFunc n) (openFunc m) fun _ _ => True := by
  unfold openFunc
  obtain ⟨v, hv, hvk⟩ := Token.exists_writable_ident
  refine .keyword fun _ _ => .expect rfl ⟨v, hv, by rw [hvk]; rfl⟩ fun _ _ => .symbol fun _ _ => ?_
  refine ((predictive_commaList (@predictive_var n m) .rparen).mono (by omega) (by omega)).bind
    fun _ _ _ => .symbol fun _ _ => ?_
  have hbody := predictive_itemsUntil (predictive_stmt n m) (fun _ _ => ne_nil_of_statement) .rbrace
  refine .skip (by decide) (fun _ _ => ?_) ?_
  · simp only [map_eq_pure_bind, bind_assoc, pure_bind]
    refine predictive_type.bind fun _ _ _ => .symbol fun _ _ => ?_
    exact (hbody.mono (by omega) (by omega)).bind fun _ _ _ => .pure trivial
  · simp only [pure_bind]
    exact .symbol fun _ _ => (hbody.mono (by omega) (by omega)).bind fun _ _ _ => .pure trivial

/-- A function is read the same way whatever follows. -/
theorem func_before {n : Nat} (m : Nat) {c c' : Cursor} {f : Func} (hn : c.rest.length < n + 1)
    (h : func n c = .ok (f, c')) :
    ∃ us, us ≠ [] ∧ c.rest = us ++ c'.rest ∧ ∀ rest, (us ++ rest).length < m + 1 →
      func m ⟨us ++ rest, c.last⟩ = .ok (f, ⟨rest, c'.last⟩) := by
  rw [func_eq] at h
  obtain ⟨f', c₁, hopen, h⟩ := bind_ok.1 h
  obtain ⟨r, c₂, hr, h⟩ := bind_ok.1 h
  obtain ⟨rfl, rfl⟩ := pure_ok.1 h
  obtain ⟨hkind, hbrace⟩ := symbol_ok hr
  obtain ⟨us, rest₁, hrest, -, hended, hsame⟩ := (@predictive_openFunc n m).run c hn
  rw [hopen] at hended hsame
  cases hended with
  | @ok _ last =>
    have hbrace : rest₁ = r :: c₂.rest := hbrace
    subst hbrace
    refine ⟨us ++ [r], by simp, by rw [hrest, List.append_assoc]; rfl, fun rest hm => ?_⟩
    rw [List.append_assoc] at hm ⊢
    have hread := hsame ([r] ++ rest) rfl hm
    have hclose : ∀ rest, symbol .rbrace ⟨r :: rest, last⟩ = .ok (r, ⟨rest, r.pos⟩) :=
      fun rest => expect_eq_ok _ (by rw [hkind]; rfl) rest last
    have hlast : c₂.last = r.pos := by
      have hclosed := (hclose c₂.rest).symm.trans hr
      exact congrArg (Cursor.last ∘ Prod.snd) (Except.ok.inj hclosed).symm
    have hclose' : symbol .rbrace ⟨[r] ++ rest, last⟩ = .ok (r, ⟨rest, c₂.last⟩) :=
      hlast ▸ hclose rest
    rw [func_eq]
    exact bind_ok.2 ⟨f', _, hread, bind_ok.2 ⟨r, _, hclose', rfl⟩⟩

/-- Functions are read the same way whatever follows, so whatever is read altogether starts with
them. -/
theorem funcs_before {n m : Nat} {c c' : Cursor} {fs : List Func} (hn : c.rest.length < n)
    (h : funcs n c = .ok (fs, c')) :
    ∃ us, c.rest = us ++ c'.rest ∧ ∀ rest hs c'', (us ++ rest).length < m →
      funcs m ⟨us ++ rest, c.last⟩ = .ok (hs, c'') → ∃ gs, hs = fs ++ gs := by
  induction n generalizing m c fs with
  | zero => exact absurd hn (Nat.not_lt_zero _)
  | succ n ih =>
    rw [funcs] at h
    obtain ⟨b, c₁, hnext, h⟩ := bind_ok.1 h
    cases nextIs_ok hnext
    rcases ite_ok.1 h with ⟨rfl, h⟩ | ⟨-, h⟩
    · obtain ⟨f, c₂, hf, h⟩ := bind_ok.1 h
      obtain ⟨fs', c₃, hfs, h⟩ := bind_ok.1 h
      obtain ⟨rfl, rfl⟩ := pure_ok.1 h
      obtain ⟨us, hus, hrest, hread⟩ := func_before (m - 1) hn hf
      have hlength := List.length_pos_iff.2 hus
      rw [hrest, List.length_append] at hn
      obtain ⟨vs, hrest', hmore⟩ := ih (m := m - 1) (by omega) hfs
      refine ⟨us ++ vs, by rw [hrest, hrest', List.append_assoc], fun rest hs c'' hm hall => ?_⟩
      rw [List.append_assoc] at hm hall
      obtain ⟨m, rfl⟩ : ∃ k, m = k + 1 := Nat.exists_eq_succ_of_ne_zero (by omega)
      -- the keyword is the first token of `us`
      have hhead : (us ++ (vs ++ rest)).head? = c.rest.head? := by
        rw [hrest, List.head?_append_of_ne_nil _ hus, List.head?_append_of_ne_nil _ hus]
      have hnext' : nextIs (.keyword .func) ⟨us ++ (vs ++ rest), c.last⟩ =
          .ok (true, ⟨us ++ (vs ++ rest), c.last⟩) := by
        have hkeyword := congrArg Prod.fst (Except.ok.inj hnext)
        rw [nextIs, Cursor.nextIs, Cursor.peek?, hhead]
        exact congrArg (fun b => Except.ok (b, _)) hkeyword
      rw [funcs, bind_apply, hnext'] at hall
      obtain ⟨f', c₄, hf', hall⟩ := bind_ok.1 hall
      cases (hread _ hm).symm.trans hf'
      obtain ⟨hs', c₅, hhs, hall⟩ := bind_ok.1 hall
      obtain ⟨rfl, rfl⟩ := pure_ok.1 hall
      rw [List.length_append] at hm
      obtain ⟨gs, rfl⟩ := hmore rest hs' c₅ (by omega) hhs
      exact ⟨gs, rfl⟩
    · obtain ⟨rfl, rfl⟩ := pure_ok.1 h
      exact ⟨[], rfl, fun rest hs c'' _ _ => ⟨hs, rfl⟩⟩

end Source.Parse

namespace Source

/-- The functions of a program stand before the end of its text. -/
theorem exists_funcs_of_parse {c : Cursor} {fs : List Func} (h : parse c = .ok fs) :
    ∃ eof rest last, eof.kind = .eof ∧
      Parse.funcs (c.rest.length + 1) c = .ok (fs, ⟨eof :: rest, last⟩) := by
  unfold parse at h
  cases hrun : Parse.program (c.rest.length + 1) c with
  | error e => simp [hrun, Except.map] at h
  | ok r =>
    obtain ⟨fs', c'⟩ := r
    rw [hrun] at h
    cases h
    obtain ⟨fs, ⟨rest, last⟩, hfuncs, hrun⟩ := Parse.bind_ok.1 hrun
    obtain ⟨eof, c₂, heof, hrun⟩ := Parse.bind_ok.1 hrun
    obtain ⟨rfl, rfl⟩ := Parse.pure_ok.1 hrun
    obtain ⟨hkind, rfl⟩ := Parse.expect_ok heof
    exact ⟨eof, _, last, eq_of_beq hkind, hfuncs⟩

/-- A text that goes on declares more functions after the ones that it declared. -/
theorem parse_goes_on {text rest : String} {fs hs : List Func}
    (hp : parse ⟨Token.significant text, .start⟩ = .ok fs)
    (hq : parse ⟨Token.significant (text ++ "\n" ++ rest), .start⟩ = .ok hs) :
    ∃ gs, hs = fs ++ gs := by
  obtain ⟨body, eof, more, htext, -, hbody, hall⟩ := Token.exists_significant_append text rest
  obtain ⟨eof', after, last, heof', hfs⟩ := exists_funcs_of_parse hp
  obtain ⟨_, _, _, -, hhs⟩ := exists_funcs_of_parse hq
  obtain ⟨us, hrest, hmore⟩ := Parse.funcs_before
    (m := (Token.significant (text ++ "\n" ++ rest)).length + 1) (Nat.lt_succ_self _) hfs
  -- the functions are all the tokens before the end of the text
  have hus : us = body := by
    rcases List.append_eq_append_iff.1 (hrest.symm.trans htext) with
      ⟨as, rfl, has⟩ | ⟨as, rfl, has⟩
    · cases as with
      | nil => exact (List.append_nil us).symm
      | cons a as =>
        cases has
        exact absurd heof' (hbody eof' (by simp))
    · cases as with
      | nil => exact List.append_nil body
      | cons a as => simp at has
  subst hus
  rw [hall] at hmore hhs
  exact hmore more hs _ (Nat.lt_succ_self _) hhs

end Source

namespace Program

/-- Storing more functions leaves those that are stored already as they are. -/
theorem ofSource_append (fs gs : List Source.Func) :
    ∃ ts ns, (gs.mapM Source.storeFunc).run (ofSource fs).nodes = (ts, ns) ∧
      ofSource (fs ++ gs) = ⟨ns, (ofSource fs).funcs ++ ts⟩ := by
  refine ⟨_, _, rfl, ?_⟩
  simp only [ofSource, List.mapM_append]
  rfl

/-- The program `q` declares the functions `fs` after those of `p`, and what belongs to `p` keeps
its number. -/
structure GoesOn (p q : Program) (fs : List Tree.Func) : Prop where
  funcs : q.funcs = p.funcs ++ fs
  stored : Stored p.nodes q.nodes (fs.flatMap fun f => Stmt.exprsOf f.body) (fs.flatMap (·.vars)) fs

/-- A text that goes on declares a program that goes on. -/
theorem parse_goes_on {text rest : String} {p q : Program} (hp : parse text = .ok p)
    (hq : parse (text ++ "\n" ++ rest) = .ok q) : ∃ fs, p.GoesOn q fs := by
  obtain ⟨fs, hfs, rfl⟩ := ofTokens_eq_ok.1 hp
  obtain ⟨hs, hhs, rfl⟩ := ofTokens_eq_ok.1 hq
  obtain ⟨gs, rfl⟩ := Source.parse_goes_on hfs hhs
  obtain ⟨ts, ns, hrun, hq⟩ := ofSource_append fs gs
  rw [hq]
  exact ⟨ts, rfl, (Source.stored_storeFuncs hrun).1⟩

end Program
end PrimeLang
