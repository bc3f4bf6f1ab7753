import Mathlib.Data.List.Induction
import Mathlib.Data.String.Basic
import PrimeLang.Token.Scan

/-! # Where tokens stand

The tokens of a text, with the blanks between them, are the text: nothing else is skipped, nothing
is read twice, and the place of a token counts what is before it. `Token.scan_induction` goes along
a text the way it is read, blank by blank and token by token. -/

namespace PrimeLang

/-! ## Counting a text -/

namespace Pos

/-- `p` is the place after the text `before`: so many bytes, so many line feeds, and so many
characters since the last of them. -/
structure Follows (p : Pos) (before : String) : Prop where
  offset : p.offset = before.utf8ByteSize
  row : p.row = before.toList.count '\n'
  col : p.col = (before.toList.reverse.takeWhile (· ≠ '\n')).length

theorem offset_advance (p : Pos) (c : Char) : (p.advance c).offset = p.offset + c.utf8Size := by
  unfold advance
  split <;> rfl

theorem offset_advanceBy (p : Pos) (cs : List Char) :
    (p.advanceBy cs).offset = p.offset + String.utf8Len cs := by
  induction cs generalizing p with
  | nil => rfl
  | cons c cs ih =>
    rw [advanceBy_cons, ih, offset_advance, String.utf8Len_cons]
    omega

theorem row_advanceBy (p : Pos) (cs : List Char) :
    (p.advanceBy cs).row = p.row + cs.count '\n' := by
  induction cs generalizing p with
  | nil => rfl
  | cons c cs ih =>
    rw [advanceBy_cons, ih, List.count_cons, advance]
    by_cases hc : c = '\n'
    · simp only [hc, if_true, beq_self_eq_true]
      omega
    · simp [hc]

theorem col_advanceBy_start (cs : List Char) :
    (start.advanceBy cs).col = (cs.reverse.takeWhile (· ≠ '\n')).length := by
  -- the last character decides, so the induction takes characters off the end
  induction cs using List.reverseRecOn with
  | nil => rfl
  | append_singleton cs c ih =>
    rw [advanceBy_append, List.reverse_append, List.reverse_singleton, List.singleton_append,
      advanceBy_cons, advanceBy_nil, advance]
    by_cases hc : c = '\n'
    · simp [hc]
    · simp [hc, ih]

theorem follows_advanceBy (cs : List Char) : (start.advanceBy cs).Follows (String.ofList cs) where
  offset := by rw [offset_advanceBy, String.utf8ByteSize_ofList, start, Nat.zero_add]
  row := by rw [row_advanceBy, String.toList_ofList, start, Nat.zero_add]
  col := by rw [col_advanceBy_start, String.toList_ofList]

end Pos

/-! ## Going along a text -/

namespace Token

theorem Kind.ofWord_cases (word : String) :
    Kind.ofWord word = .ident ∨ ∃ k, Kind.ofWord word = .keyword k := by
  unfold Kind.ofWord
  cases Keyword.ofSpelling? word with
  | none => exact .inl rfl
  | some k => exact .inr ⟨k, rfl⟩

theorem lexeme_ne_eof (c : Char) (cs : List Char) : (lexeme c cs).1 ≠ .eof := by
  unfold lexeme
  split
  · simp
  split
  · simp
  split
  · simp
  split
  · simp
  split
  · rcases Kind.ofWord_cases (.ofList (c :: cs.takeWhile isWordPart)) with h | ⟨k, h⟩ <;>
      exact fun he => by cases h.symm.trans he
  · simp

theorem tokensFrom_nil (pos : Pos) : tokensFrom pos [] = [⟨.eof, "", pos⟩] := by
  rw [tokensFrom]
  rfl

theorem first_blank {c : Char} (hc : isBlank c = true) (pos : Pos) (cs : List Char) :
    first pos (c :: cs) = first (pos.advance c) cs := by
  rw [first, if_pos hc]

theorem tokensFrom_blank {c : Char} (hc : isBlank c = true) (pos : Pos) (cs : List Char) :
    tokensFrom pos (c :: cs) = tokensFrom (pos.advance c) cs := by
  rw [tokensFrom, tokensFrom]
  simp only [first_blank hc]

theorem tokensFrom_lexeme {c : Char} (hc : isBlank c = false) (pos : Pos) (cs : List Char) :
    tokensFrom pos (c :: cs) =
      ⟨(lexeme c cs).1, .ofList (c :: cs.take (lexeme c cs).2), pos⟩ ::
        tokensFrom (pos.advanceBy (c :: cs.take (lexeme c cs).2)) (cs.drop (lexeme c cs).2) := by
  rw [tokensFrom]
  simp [first, hc, lexeme_ne_eof]

/-- Induction along a text: a blank is skipped, anything else starts a token that is read whole. -/
theorem scan_induction {motive : Pos → List Char → Prop} (nil : ∀ pos, motive pos [])
    (blank : ∀ pos c cs, isBlank c = true → motive (pos.advance c) cs → motive pos (c :: cs))
    (token : ∀ pos c cs, isBlank c = false →
      motive (pos.advanceBy (c :: cs.take (lexeme c cs).2)) (cs.drop (lexeme c cs).2) →
      motive pos (c :: cs)) (pos : Pos) (cs : List Char) : motive pos cs := by
  induction hn : cs.length using Nat.strong_induction_on generalizing pos cs with
  | h n ih =>
    cases cs with
    | nil => exact nil pos
    | cons c cs =>
      rw [List.length_cons] at hn
      cases hc : isBlank c with
      | true => exact blank pos c cs hc (ih cs.length (by omega) _ _ rfl)
      | false =>
        refine token pos c cs hc (ih _ ?_ _ _ rfl)
        rw [List.length_drop]
        omega

/-! ## The tokens and the text -/

/-- The end of the text is the last token, after all characters, and no other token is empty. -/
theorem exists_body (pos : Pos) (cs : List Char) :
    ∃ body, tokensFrom pos cs = body ++ [⟨.eof, "", pos.advanceBy cs⟩] ∧
      ∀ t ∈ body, t.kind ≠ .eof ∧ t.spelling ≠ "" := by
  induction pos, cs using scan_induction with
  | nil pos => exact ⟨[], tokensFrom_nil pos, by simp⟩
  | blank pos c cs hc ih =>
    obtain ⟨body, hbody, hne⟩ := ih
    exact ⟨body, by rw [tokensFrom_blank hc, hbody, Pos.advanceBy_cons], hne⟩
  | token pos c cs hc ih =>
    obtain ⟨body, hbody, hne⟩ := ih
    rw [← Pos.advanceBy_append, List.cons_append, List.take_append_drop] at hbody
    refine ⟨_ :: body, by rw [tokensFrom_lexeme hc, hbody]; rfl, fun t ht => ?_⟩
    rcases List.mem_cons.1 ht with rfl | ht
    · exact ⟨lexeme_ne_eof c cs, by simp [← String.toList_inj]⟩
    · exact hne t ht

/-- A token is spelled as the text is where it stands. -/
theorem exists_split_of_mem {pos : Pos} {cs : List Char} {t : Token} (ht : t ∈ tokensFrom pos cs) :
    ∃ before after, cs = before ++ t.spelling.toList ++ after ∧ t.pos = pos.advanceBy before := by
  induction pos, cs using scan_induction with
  | nil pos =>
    rw [tokensFrom_nil, List.mem_singleton] at ht
    exact ⟨[], [], by simp [ht], by rw [ht]; rfl⟩
  | blank pos c cs hc ih =>
    rw [tokensFrom_blank hc] at ht
    obtain ⟨before, after, rfl, hpos⟩ := ih ht
    exact ⟨c :: before, after, rfl, hpos⟩
  | token pos c cs hc ih =>
    rw [tokensFrom_lexeme hc, List.mem_cons] at ht
    rcases ht with rfl | ht
    · exact ⟨[], cs.drop (lexeme c cs).2, by simp, rfl⟩
    · obtain ⟨before, after, hcs, hpos⟩ := ih ht
      refine ⟨c :: cs.take (lexeme c cs).2 ++ before, after, ?_, by rw [hpos, Pos.advanceBy_append]⟩
      rw [List.append_assoc, List.append_assoc, ← List.append_assoc before, ← hcs, List.cons_append,
        List.take_append_drop]

theorem offset_le_of_mem {pos : Pos} {cs : List Char} {t : Token} (ht : t ∈ tokensFrom pos cs) :
    pos.offset ≤ t.pos.offset := by
  obtain ⟨before, -, -, hpos⟩ := exists_split_of_mem ht
  rw [hpos, Pos.offset_advanceBy]
  exact Nat.le_add_right ..

/-- A token ends before the next one starts. -/
theorem pairwise_tokensFrom (pos : Pos) (cs : List Char) :
    (tokensFrom pos cs).Pairwise fun t u =>
      t.pos.offset + t.spelling.utf8ByteSize ≤ u.pos.offset := by
  induction pos, cs using scan_induction with
  | nil pos =>
    rw [tokensFrom_nil]
    exact List.pairwise_singleton ..
  | blank pos c cs hc ih =>
    rw [tokensFrom_blank hc]
    exact ih
  | token pos c cs hc ih =>
    rw [tokensFrom_lexeme hc]
    refine List.pairwise_cons.2 ⟨fun u hu => ?_, ih⟩
    rw [String.utf8ByteSize_ofList, ← Pos.offset_advanceBy]
    exact offset_le_of_mem hu

/-- No two tokens of a text start at the same place. -/
theorem pairwise_offset_lt (text : String) :
    (tokens text).Pairwise fun t u => t.pos.offset < u.pos.offset := by
  obtain ⟨body, hbody, hne⟩ := exists_body .start text.toList
  have hpairs := pairwise_tokensFrom .start text.toList
  rw [tokens]
  rw [hbody, List.pairwise_append] at hpairs ⊢
  have hsize : ∀ t ∈ body, 0 < t.spelling.utf8ByteSize := by
    intro t ht
    refine Nat.pos_of_ne_zero fun h => (hne t ht).2 ?_
    exact String.utf8ByteSize_eq_zero_iff.1 h
  refine ⟨hpairs.1.imp_of_mem fun ht _ h => ?_, List.pairwise_singleton .., fun t ht u hu => ?_⟩
  · have := hsize _ ht
    omega
  · have := hsize t ht
    have := hpairs.2.2 t ht u hu
    omega

/-- `t` reaches over the byte at `offset`. -/
def Covers (t : Token) (offset : Nat) : Prop :=
  t.pos.offset ≤ offset ∧ offset < t.pos.offset + t.spelling.utf8ByteSize

/-- A character that is not blank belongs to a token. -/
theorem blank_or_covered (pos : Pos) {cs before after : List Char} {c : Char}
    (h : cs = before ++ c :: after) :
    isBlank c = true ∨
      ∃ t ∈ tokensFrom pos cs, t.Covers (pos.offset + String.utf8Len before) := by
  induction pos, cs using scan_induction generalizing before with
  | nil pos => simp at h
  | blank pos d cs hd ih =>
    rw [tokensFrom_blank hd]
    cases before with
    | nil =>
      obtain ⟨rfl, -⟩ := List.cons.inj h
      exact .inl hd
    | cons e before =>
      obtain ⟨rfl, hcs⟩ := List.cons.inj h
      rw [String.utf8Len_cons, Nat.add_comm (String.utf8Len before), ← Nat.add_assoc,
        ← Pos.offset_advance]
      exact ih hcs
  | token pos d cs hd ih =>
    rw [tokensFrom_lexeme hd]
    -- the character is in the token that starts here, or in what follows that token
    rw [← List.take_append_drop (lexeme d cs).2 cs, ← List.cons_append] at h
    rcases List.append_eq_append_iff.1 h with ⟨more, rfl, hdrop⟩ | ⟨more, htake, hmore⟩
    · rcases ih hdrop with hblank | ⟨t, ht, hcover⟩
      · exact .inl hblank
      · refine .inr ⟨t, List.mem_cons_of_mem _ ht, ?_⟩
        rw [Pos.offset_advanceBy, Nat.add_assoc, ← String.utf8Len_append] at hcover
        exact hcover
    · cases more with
      | nil =>
        rcases @ih [] hmore.symm with hblank | ⟨t, ht, hcover⟩
        · exact .inl hblank
        · refine .inr ⟨t, List.mem_cons_of_mem _ ht, ?_⟩
          rw [List.append_nil] at htake
          rw [Pos.offset_advanceBy, htake] at hcover
          exact hcover
      | cons e more =>
        refine .inr ⟨_, List.mem_cons_self, Nat.le_add_right .., ?_⟩
        have hc := e.utf8Size_pos
        rw [String.utf8ByteSize_ofList, htake, String.utf8Len_append, String.utf8Len_cons]
        show pos.offset + _ < pos.offset + _
        omega

/-- The tokens of a text end in the only end mark, behind all bytes. Every token is spelled as the
text is where it stands, and its place counts the text before it. Tokens come in order and do not
overlap, and every character outside of them is blank. -/
theorem tokens_lossless (text : String) :
    ∃ body eof, tokens text = body ++ [eof] ∧
      (eof.kind = .eof ∧ eof.spelling = "" ∧ eof.pos.offset = text.utf8ByteSize) ∧
      (∀ t ∈ body, t.kind ≠ .eof ∧ t.spelling ≠ "") ∧
      (∀ t ∈ tokens text, ∃ before after,
        text = before ++ t.spelling ++ after ∧ t.pos.Follows before) ∧
      (tokens text).Pairwise (fun t u => t.pos.offset + t.spelling.utf8ByteSize ≤ u.pos.offset) ∧
      ∀ (before : String) (c : Char) (after : String), text = before.push c ++ after →
        isBlank c = true ∨ ∃ t ∈ body, t.Covers before.utf8ByteSize := by
  obtain ⟨body, hbody, hne⟩ := exists_body .start text.toList
  refine ⟨body, _, hbody, ⟨rfl, rfl, ?_⟩, hne, fun t ht => ?_, pairwise_tokensFrom _ _, ?_⟩
  · rw [Pos.offset_advanceBy, String.utf8Len_toList, Pos.start, Nat.zero_add]
  · obtain ⟨before, after, htext, hpos⟩ := exists_split_of_mem ht
    refine ⟨.ofList before, .ofList after, ?_, hpos ▸ Pos.follows_advanceBy before⟩
    rw [← String.toList_inj, htext]
    simp
  · rintro before c after rfl
    have hsplit : (before.push c ++ after).toList = before.toList ++ c :: after.toList := by simp
    rcases blank_or_covered .start hsplit with hblank | ⟨t, ht, hcover⟩
    · exact .inl hblank
    · refine .inr ⟨t, ?_, ?_⟩
      · rw [hbody, List.mem_append, List.mem_singleton] at ht
        rcases ht with ht | rfl
        · exact ht
        · exact absurd hcover.2 (Nat.not_lt.2 hcover.1)
      · simpa [Pos.start] using hcover

end Token
end PrimeLang
