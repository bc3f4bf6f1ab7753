import PrimeLang.Proofs.TokenBoundaries

/-! # Tokens are as long as they can be

No token is followed by a character that could have been part of it (`Token.EndsBefore`). A symbol
or keyword is spelled the one way there is, and so a text is read the same way again when its tokens
are written one on a line (`Token.tokens_maximal_munch`). -/

namespace PrimeLang

theorem Symbol.mem_all (s : Symbol) : s ∈ all := by
  cases s with
  | operator op => cases op <;> decide
  | _ => decide

theorem Symbol.chars_of_ofChars? {cs : List Char} {s : Symbol} (h : ofChars? cs = some s) :
    s.chars = cs := eq_of_beq (List.find?_some (p := fun t : Symbol => t.chars == cs) h)

theorem Keyword.mem_all (k : Keyword) : k ∈ all := by
  cases k with
  | type ty => cases ty <;> decide
  | _ => decide

namespace Token

/-- The character `d` does not continue the token. -/
structure EndsBefore (t : Token) (d : Char) : Prop where
  word : (t.kind = .ident ∨ ∃ k, t.kind = .keyword k) → isWordPart d = false
  number : t.kind = .number → isDigit d = false
  comment : t.kind = .comment → d = '\n'
  /-- A token of one character is not the first half of a symbol or of the start of a comment. -/
  single : ∀ c, t.spelling.toList = [c] → (∀ s : Symbol, s.chars ≠ [c, d]) ∧ ¬ (c = '/' ∧ d = '/')

theorem not_pairs_iff {c d : Char} :
    ¬ Pairs c d ↔ (∀ s : Symbol, s.chars ≠ [c, d]) ∧ ¬ (c = '/' ∧ d = '/') := by
  rw [Pairs, not_or, not_exists]
  refine and_congr_left fun _ => ⟨fun h s hs => ?_, fun h s hs => h s (Symbol.chars_of_ofChars? hs)⟩
  have hfound : (Symbol.ofChars? [c, d]).isSome :=
    List.find?_isSome.2 ⟨s, s.mem_all, by simp [hs]⟩
  obtain ⟨s', hs'⟩ := Option.isSome_iff_exists.1 hfound
  exact h s' hs'

/-! ## What is read -/

/-- Every token but the end of the text is read where it stands. -/
theorem exists_reads_of_mem {pos : Pos} {cs : List Char} {t : Token} (ht : t ∈ tokensFrom pos cs)
    (hk : t.kind ≠ .eof) :
    ∃ before c rest n, cs = before ++ c :: rest ∧ t.pos = pos.advanceBy before ∧
      Reads c rest t.kind n ∧ t.spelling = String.ofList (c :: rest.take n) := by
  induction pos, cs using scan_induction with
  | nil pos =>
    rw [tokensFrom_nil, List.mem_singleton] at ht
    exact absurd (ht ▸ rfl) hk
  | blank pos c cs hc ih =>
    rw [tokensFrom_blank hc] at ht
    obtain ⟨before, d, rest, n, rfl, hpos, hreads, hspelling⟩ := ih ht
    exact ⟨c :: before, d, rest, n, rfl, hpos, hreads, hspelling⟩
  | token pos c cs hc ih =>
    rw [tokensFrom_lexeme hc, List.mem_cons] at ht
    rcases ht with rfl | ht
    · exact ⟨[], c, cs, _, rfl, rfl, reads_lexeme c cs, rfl⟩
    · obtain ⟨before, d, rest, n, hcs, hpos, hreads, hspelling⟩ := ih ht
      refine ⟨c :: cs.take (lexeme c cs).2 ++ before, d, rest, n, ?_,
        by rw [hpos, Pos.advanceBy_append], hreads, hspelling⟩
      rw [List.append_assoc, ← hcs, List.cons_append, List.take_append_drop]

namespace Reads
variable {c : Char} {cs : List Char} {k : Kind} {n : Nat}

/-- What is read as one character does not go together with the next one. -/
theorem not_pairs (h : Reads c cs k 0) {d : Char} (hd : d ∈ cs.head?) : ¬ Pairs c d := by
  generalize hn : 0 = n at h
  cases h with
  | comment _ hhead =>
    cases cs with
    | nil => cases hd
    | cons e cs =>
      cases hhead
      rw [List.takeWhile_cons_of_pos (by decide), List.length_cons] at hn
      cases hn
  | pair => cases hn
  | single hpairs | number hpairs | word hpairs | invalid hpairs => exact hpairs d hd

/-- Symbols and keywords are spelled the one way there is. -/
theorem spelling_eq (h : Reads c cs k n) {s : String} (hs : k.spelling? = some s) :
    String.ofList (c :: cs.take n) = s := by
  cases h with
  | @pair d _ _ hd hsymbol =>
    obtain ⟨cs, rfl⟩ : ∃ es, cs = d :: es := ⟨cs.tail, List.eq_cons_of_mem_head? hd⟩
    cases hs
    rw [Symbol.spelling, Symbol.chars_of_ofChars? hsymbol]
    rfl
  | single _ hsymbol =>
    cases hs
    rw [Symbol.spelling, Symbol.chars_of_ofChars? hsymbol]
    rfl
  | word =>
    rw [← List.prefix_iff_eq_take.1 (List.takeWhile_prefix _)]
    unfold Kind.ofWord at hs
    cases hword : Keyword.ofSpelling? (String.ofList (c :: cs.takeWhile isWordPart)) with
    | none =>
      rw [hword] at hs
      cases hs
    | some w =>
      rw [hword] at hs
      cases hs
      exact (eq_of_beq (List.find?_some (p := fun k : Keyword => k.spelling == _) hword)).symm
  | _ => cases hs

/-- No identifier is spelled like a keyword. -/
theorem ne_keyword (h : Reads c cs .ident n) (w : Keyword) :
    String.ofList (c :: cs.take n) ≠ w.spelling := by
  generalize hk : Kind.ident = k at h
  cases h with
  | word =>
    rw [← List.prefix_iff_eq_take.1 (List.takeWhile_prefix _)]
    intro heq
    have hfound : (Keyword.ofSpelling? w.spelling).isSome :=
      List.find?_isSome.2 ⟨w, w.mem_all, by simp⟩
    obtain ⟨v, hv⟩ := Option.isSome_iff_exists.1 hfound
    rw [heq, Kind.ofWord, hv] at hk
    cases hk
  | _ => cases hk

/-- A token ends before the character after it. -/
theorem endsBefore (h : Reads c cs k n) (pos : Pos) {d : Char} (hd : d ∈ (cs.drop n).head?) :
    EndsBefore ⟨k, .ofList (c :: cs.take n), pos⟩ d where
  word := by
    rintro (rfl | ⟨w, rfl⟩) <;> exact h.ends hd
  number := by
    rintro rfl
    exact h.ends hd
  comment := by
    rintro rfl
    exact h.ends hd
  single e he := by
    rw [String.toList_ofList, List.cons.injEq, List.take_eq_nil_iff] at he
    obtain ⟨rfl, rfl | rfl⟩ := he
    · exact not_pairs_iff.1 (h.not_pairs hd)
    · rw [List.drop_nil] at hd
      cases hd

end Reads

/-! ## The tokens of a text -/

theorem map_content_tokens (text : String) :
    (tokens text).map content =
      ((tokens text).filter (·.kind ≠ .eof)).map content ++ [(.eof, "")] := by
  obtain ⟨body, hbody, hne⟩ := exists_body .start text.toList
  have hfilter : body.filter (·.kind ≠ .eof) = body :=
    List.filter_eq_self.2 fun t ht => decide_eq_true (hne t ht).1
  rw [tokens, hbody, List.filter_append, hfilter]
  simp [content]

/-- Writing the tokens of a text one on a line and reading them again gives the same kinds and
spellings. Symbols and keywords are spelled the one way there is, and no identifier is spelled like
a keyword. Where a token stands, the character after it does not continue it. -/
theorem tokens_maximal_munch (text : String) :
    (tokens (write ((tokens text).filter (·.kind ≠ .eof)))).map content =
      (tokens text).map content ∧
    (∀ t ∈ tokens text, (∀ s, t.kind.spelling? = some s → t.spelling = s) ∧
      (t.kind = .ident → ∀ k : Keyword, t.spelling ≠ k.spelling)) ∧
    ∀ t ∈ tokens text, ∃ before after, text = before ++ t.spelling ++ after ∧
      t.pos.Follows before ∧ ∀ d ∈ after.toList.head?, t.EndsBefore d := by
  refine ⟨?_, fun t ht => ?_, fun t ht => ?_⟩
  · have hspelled : ∀ t ∈ (tokens text).filter (·.kind ≠ .eof), t.Spelled := fun t ht =>
      spelled_of_mem (List.mem_filter.1 ht).1 (by simpa using (List.mem_filter.1 ht).2)
    rw [map_content_tokens text, ← contentsOf_write hspelled]
    rfl
  · by_cases hk : t.kind = .eof
    · rw [hk]
      exact ⟨fun _ h => (by cases h), fun h => (by cases h)⟩
    · obtain ⟨before, c, rest, n, -, -, hreads, hspelling⟩ := exists_reads_of_mem ht hk
      rw [hspelling]
      exact ⟨fun s => hreads.spelling_eq, fun hident => (hident ▸ hreads).ne_keyword⟩
  · by_cases hk : t.kind = .eof
    · obtain ⟨body, hbody, hne⟩ := exists_body .start text.toList
      rw [tokens, hbody, List.mem_append, List.mem_singleton] at ht
      rcases ht with ht | rfl
      · exact absurd hk (hne t ht).1
      · refine ⟨text, "", by simp, ?_, by simp⟩
        simpa using Pos.follows_advanceBy text.toList
    · obtain ⟨before, c, rest, n, htext, hpos, hreads, hspelling⟩ := exists_reads_of_mem ht hk
      refine ⟨.ofList before, .ofList (rest.drop n), ?_, hpos ▸ Pos.follows_advanceBy before, ?_⟩
      · rw [hspelling, ← String.toList_inj, htext]
        simp
      · intro d hd
        rw [String.toList_ofList] at hd
        have hends := hreads.endsBefore t.pos hd
        rwa [← hspelling] at hends

end Token
end PrimeLang
