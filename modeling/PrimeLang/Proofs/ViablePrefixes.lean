import PrimeLang.Proofs.ParserLookahead

/-! # Errors are found at once

The tokens before the one that a syntax error is reported at are the start of a text that is
accepted. With that token they are not (`Program.error_at_first_impossible_token`). Both follow from
one token of lookahead: the tokens that have been read are the start of some functions, and nothing
that comes after the next token has an influence on the error. -/

namespace PrimeLang

theorem SyntaxError.Blames.pos_eq {e : SyntaxError} {t : Token} (h : e.Blames t) :
    e.pos = t.pos := by
  cases e <;> exact h.1

/-- An invalid character is reported for the tokens that are one. -/
theorem SyntaxError.Blames.invalidCharacter_iff {e : SyntaxError} {t : Token} (h : e.Blames t) :
    (∃ spelling pos, e = .invalidCharacter spelling pos) ↔ t.kind = .invalid := by
  constructor
  · rintro ⟨spelling, pos, rfl⟩
    exact h.2
  · intro hk
    cases e with
    | invalidCharacter spelling pos => exact ⟨spelling, pos, rfl⟩
    | unexpected => exact absurd hk h.2
    | assignTarget =>
      have hop := h.2
      rw [hk] at hop
      cases hop
    | literalRange => cases h.2.symm.trans hk

namespace Token

/-- A place divides the tokens of a text in one way. -/
theorem eq_of_split_at_pos {text : String} {us us' rest rest' : List Token} {t t' : Token}
    (h : significant text = us ++ t :: rest) (h' : significant text = us' ++ t' :: rest')
    (hpos : t.pos = t'.pos) : us = us' ∧ t = t' := by
  have hnodup : ((significant text).map (·.pos.offset)).Nodup :=
    List.pairwise_map.2 (((pairwise_offset_lt text).filter _).imp Nat.ne_of_lt)
  have hlength : us.length = us'.length := by
    refine (List.getElem?_inj ?_ hnodup).1 ?_
    · simp [h]
    · rw [List.getElem?_map, List.getElem?_map]
      nth_rewrite 1 [h]
      simp [h', hpos]
  obtain ⟨hus, hrest⟩ := List.append_inj (h.symm.trans h') hlength
  exact ⟨hus, (List.cons.inj hrest).1⟩

theorem map_content_write {ts : List Token} (h : ∀ t ∈ ts, t.Writable) :
    (significant (write ts)).map content = ts.map content ++ [(.eof, "")] := by
  rw [map_content_significant, significantOf, contentsOf_write fun t ht => (h t ht).1,
    List.filter_eq_self]
  intro k hk
  rcases List.mem_append.1 hk with hk | hk
  · obtain ⟨t, ht, rfl⟩ := List.mem_map.1 hk
    exact decide_eq_true (h t ht).2
  · rw [List.mem_singleton.1 hk]
    rfl

theorem writable_of_mem {text : String} {t : Token} (ht : t ∈ significant text)
    (hk : t.kind ≠ .eof) : t.Writable := by
  obtain ⟨ht, hcomment⟩ := List.mem_filter.1 ht
  exact ⟨spelled_of_mem ht hk, by simpa using hcomment⟩

theorem exists_eof (text : String) : ∃ t ∈ significant text, t.kind = .eof := by
  obtain ⟨body, hbody, -⟩ := exists_body .start text.toList
  refine ⟨⟨.eof, "", Pos.start.advanceBy text.toList⟩, List.mem_filter.2 ⟨?_, rfl⟩, rfl⟩
  rw [tokens, hbody]
  exact List.mem_append_right _ List.mem_cons_self

end Token

namespace Source

/-! ## Programs -/

theorem Parse.program_eq_error_of_funcs {m : Nat} {c : Cursor} {e : SyntaxError}
    (h : funcs m c = .error e) : program m c = .error e := by
  rw [program, bind_apply, h]
  rfl

theorem Parse.program_eq_of_funcs {m : Nat} {c c' : Cursor} {fs : List Func}
    (h : funcs m c = .ok (fs, c')) :
    program m c = (expect "function declaration" (· == .eof) c').map fun r => (fs, r.2) := by
  rw [program, bind_apply, h]
  rfl

/-- If no program can be read, then the tokens before the one to blame are the start of some
functions, and whatever comes after it the error is the same. -/
theorem Parse.program_eq_error {n : Nat} (m : Nat) {c : Cursor} {e : SyntaxError}
    (hn : c.rest.length < n) (heof : ∃ t ∈ c.rest, t.kind = .eof) (h : program n c = .error e) :
    ∃ us t rest, c.rest = us ++ t :: rest ∧ (∀ u ∈ us, u.kind ≠ .eof) ∧ e.Blames t ∧
      (∃ vs fs, (∀ v ∈ vs, v.Writable) ∧ Series Functions (us ++ vs) fs) ∧
      ∀ rest', (us ++ t :: rest').length < m →
        program m ⟨us ++ t :: rest', c.last⟩ = .error e := by
  obtain ⟨us, rest, hrest, hus, hended, hsame⟩ := (predictive_funcs n m).run c hn
  obtain ⟨t, rest, rfl⟩ : ∃ t ts, rest = t :: ts := by
    obtain ⟨u, hu, hk⟩ := heof
    rw [hrest] at hu
    cases rest with
    | nil => exact absurd hk (hus u (by simpa using hu))
    | cons t rest => exact ⟨t, rest, rfl⟩
  generalize hrun : funcs n c = result at hended hsame
  cases hended with
  | error hblames hvs hP =>
    cases h.symm.trans (program_eq_error_of_funcs hrun)
    refine ⟨us, t, rest, hrest, hus, hblames t rfl, ⟨_, _, hvs, hP⟩, fun rest' hlength => ?_⟩
    exact program_eq_error_of_funcs (hsame (t :: rest') rfl hlength)
  | @ok fs last hP =>
    rw [program_eq_of_funcs hrun] at h
    cases hk : t.kind == .eof with
    | true =>
      rw [@expect_eq_ok _ (· == .eof) t hk] at h
      cases h
    | false =>
      have hfails : ∀ rest', expect "function declaration" (· == .eof) ⟨t :: rest', last⟩ =
          .error (unexpectedAt "function declaration" (some t) last) := by
        intro rest'
        refine expect_eq_error _ fun u hu => ?_
        cases hu
        exact hk
      rw [hfails] at h
      cases h
      refine ⟨us, t, rest, hrest, hus, blames_unexpectedAt _ t last, ⟨[], fs, by simp, ?_⟩,
        fun rest' hlength => ?_⟩
      · rwa [List.append_nil]
      · rw [program_eq_of_funcs (hsame (t :: rest') rfl hlength)]
        exact congrArg _ (hfails rest')

/-- Some functions and the end of the text are accepted. -/
theorem exists_parse_of_series {ts : List Token} {fs : List Func} {eof : Token}
    (h : Parse.Series Parse.Functions ts fs) (heof : eof.kind = .eof) (last : Pos) :
    ∃ gs, parse ⟨ts ++ [eof], last⟩ = .ok gs := by
  obtain ⟨items, hitems, rfl, -⟩ := h
  have hall : ∀ i ∈ items.map fun i => (i.1, i.2.map Expr.tree fun v => v),
      Grammar.Function i.1 i.2 := List.forall_mem_map.2 hitems
  have hprogram := Grammar.Program.intro hall heof
  simp only [List.map_map, Function.comp_def] at hprogram
  obtain ⟨gs, -, htakes⟩ := Parse.reads_program hprogram (Nat.lt_succ_self _)
  obtain ⟨c', hrun, -⟩ := htakes ⟨_, last⟩ (List.append_nil _).symm
  exact ⟨gs, congrArg (Except.map Prod.fst) hrun⟩

end Source

namespace Program

theorem parse_eq (text : String) :
    parse text = (Source.parse ⟨Token.significant text, .start⟩).map ofSource := rfl

/-- Texts are accepted for the kinds and spellings of their tokens. -/
theorem exists_parse_iff {text : String} {c : Cursor}
    (h : (Token.significant text).map Token.content = c.rest.map Token.content) :
    (∃ p, parse text = .ok p) ↔ ∃ fs, Source.parse c = .ok fs := by
  rw [parse_eq]
  rcases @Source.parse_congr ⟨Token.significant text, .start⟩ c h with
    ⟨fs, fs', hfs, hfs', -⟩ | ⟨e, e', he, he', -⟩
  · rw [hfs, hfs']
    exact ⟨fun _ => ⟨fs', rfl⟩, fun _ => ⟨ofSource fs, rfl⟩⟩
  · rw [he, he']
    constructor
    · rintro ⟨p, hp⟩
      cases hp
    · rintro ⟨fs, hfs⟩
      cases hfs

/-- Some text that is accepted starts with the tokens `ts`. -/
def Viable (ts : List Token) : Prop :=
  ∃ text p, parse text = .ok p ∧
    ts.map Token.content <+: (Token.significant text).map Token.content

theorem viable_of_series {us vs : List Token} {fs : List Source.Func}
    (hus : ∀ t ∈ us, t.Writable) (hvs : ∀ t ∈ vs, t.Writable)
    (h : Source.Parse.Series Source.Parse.Functions (us ++ vs) fs) : Viable us := by
  have hcontent := Token.map_content_write (List.forall_mem_append.2 ⟨hus, hvs⟩)
  obtain ⟨eof, heof⟩ : ∃ t : Token, t.content = (.eof, "") := ⟨⟨.eof, "", .start⟩, rfl⟩
  have hsame : (Token.significant (Token.write (us ++ vs))).map Token.content =
      (us ++ vs ++ [eof]).map Token.content := by
    rw [hcontent, @List.map_append _ _ _ (us ++ vs), List.map_singleton, heof]
  obtain ⟨p, hp⟩ := (@exists_parse_iff _ ⟨us ++ vs ++ [eof], .start⟩ hsame).2
    (Source.exists_parse_of_series h (congrArg Prod.fst heof) .start)
  refine ⟨Token.write (us ++ vs), p, hp, ?_⟩
  rw [hcontent, List.map_append, List.append_assoc]
  exact List.prefix_append ..

/-- Tokens of which no continuation is accepted start no text that is. -/
theorem not_viable_of_error {ts : List Token}
    (h : ∀ rest, ∃ e, Source.parse ⟨ts ++ rest, .start⟩ = .error e) : ¬ Viable ts := by
  rintro ⟨text, p, hp, contents, hcontents⟩
  -- the tokens of the text that come after those that are like `ts`
  have hsame : (Token.significant text).map Token.content =
      (ts ++ (Token.significant text).drop ts.length).map Token.content := by
    have hdrop := congrArg (List.drop ts.length) hcontents
    rw [List.drop_left' (List.length_map _), ← List.map_drop] at hdrop
    rw [← hcontents, List.map_append, hdrop]
  obtain ⟨fs, hfs⟩ := (@exists_parse_iff text
    ⟨ts ++ (Token.significant text).drop ts.length, .start⟩ hsame).1 ⟨p, hp⟩
  obtain ⟨e, he⟩ := h ((Token.significant text).drop ts.length)
  cases he.symm.trans hfs

/-- Syntax errors are reported at the first token that cannot be there. The tokens before it start
some text that is accepted, and with it they start none. It is an assignment operator if there is
nothing to assign to, a numeral if a value is out of range, and an invalid character exactly if that
is what the error says. -/
theorem error_at_first_impossible_token {text : String} {e : SyntaxError}
    (h : parse text = .error e) :
    ∃ k t, (Token.significant text)[k]? = some t ∧ e.pos = t.pos ∧
      Viable ((Token.significant text).take k) ∧ ¬ Viable ((Token.significant text).take (k + 1)) ∧
      (∀ pos, e = .assignTarget pos →
        ∃ s, t.kind = .symbol s ∧ (s = .assign ∨ ∃ op, s.update? = some op)) ∧
      (∀ spelling pos, e = .literalRange spelling pos → t.kind = .number) ∧
      ((∃ spelling pos, e = .invalidCharacter spelling pos) ↔ t.kind = .invalid) := by
  have hrun : Source.Parse.program ((Token.significant text).length + 1)
      ⟨Token.significant text, .start⟩ = .error e := by
    rw [parse_eq, Source.parse] at h
    generalize Source.Parse.program _ _ = result at h ⊢
    cases result with
    | error => exact congrArg _ (Except.error.inj h)
    | ok => cases h
  have herror := fun m => @Source.Parse.program_eq_error _ m ⟨Token.significant text, .start⟩ e
    (Nat.lt_succ_self _) (Token.exists_eof text) hrun
  obtain ⟨us, t, rest, hrest, hus, hblames, ⟨vs, fs, hvs, hseries⟩, -⟩ := herror 0
  dsimp only at hrest
  have hlength : (us ++ [t]).length = us.length + 1 := List.length_append ..
  refine ⟨us.length, t, by simp [hrest], hblames.pos_eq, ?_, ?_, ?_, ?_,
    hblames.invalidCharacter_iff⟩
  · rw [hrest, List.take_left]
    refine viable_of_series (fun u hu => ?_) hvs hseries
    exact Token.writable_of_mem (hrest ▸ List.mem_append_left _ hu) (hus u hu)
  · rw [hrest, List.append_cons, List.take_left' hlength]
    refine not_viable_of_error fun rest' => ⟨e, ?_⟩
    -- the bound on the parser grows with what comes after, but the token to blame is the same
    obtain ⟨us', t', rest₁, hrest₁, -, hblames', -, hrun'⟩ := herror ((us ++ t :: rest').length + 1)
    obtain ⟨rfl, rfl⟩ :=
      Token.eq_of_split_at_pos hrest hrest₁ (hblames.pos_eq.symm.trans hblames'.pos_eq)
    rw [← List.append_cons, Source.parse]
    exact congrArg (Except.map Prod.fst) (hrun' rest' (Nat.lt_succ_self _))
  · rintro pos rfl
    obtain ⟨op, hop⟩ := Option.isSome_iff_exists.1 hblames.2
    rcases Source.Parse.assignmentOf_eq_some.1 hop with ⟨hk, -⟩ | ⟨s, b, hk, hb, -⟩
    · exact ⟨.assign, hk, .inl rfl⟩
    · exact ⟨s, hk, .inr ⟨b, hb⟩⟩
  · rintro spelling pos rfl
    exact hblames.2

/-- Something is assigned to a sum. -/
def sumText : String := "func main() \x7b 1 + x := 2; \x7d"

/-- The sum could go on, but not with the assignment operator. -/
theorem error_at_first_impossible_token_sum :
    parse sumText = .error (.assignTarget ⟨20, 0, 20⟩) ∧
      Viable ((Token.significant sumText).take 8) ∧
      ¬ Viable ((Token.significant sumText).take 9) := by
  have herror : parse sumText = .error (.assignTarget ⟨20, 0, 20⟩) := by
    have hmap : (parse sumText).map (fun _ => ()) = .error (.assignTarget ⟨20, 0, 20⟩) := by
      decide +kernel
    cases h : parse sumText with
    | error e => rw [h] at hmap; exact congrArg _ (Except.error.inj hmap)
    | ok p => rw [h] at hmap; cases hmap
  have hindex : ∀ k < (Token.significant sumText).length,
      (Token.significant sumText)[k]?.map (·.pos.offset) = some 20 → k = 8 := by decide +kernel
  obtain ⟨k, t, hk, hpos, hviable, hnot, -⟩ := error_at_first_impossible_token herror
  obtain rfl : k = 8 := by
    refine hindex k (List.getElem?_eq_some_iff.1 hk).1 ?_
    rw [hk, Option.map_some, ← hpos]
    rfl
  exact ⟨herror, hviable, hnot⟩

end Program
end PrimeLang
