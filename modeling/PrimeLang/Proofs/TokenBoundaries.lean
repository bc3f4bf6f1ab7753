import PrimeLang.Proofs.TokenPlaces

/-! # Where tokens end

A token ends where the next character cannot continue it (`Token.Ends`), so it is read the same way
before anything that ends it. Hence tokens can be written down again, one on a line, and blanks and
comments can be put between them, without a change in what is read. -/

namespace PrimeLang

theorem isBlank_eq_false_of_isWordPart {c : Char} (h : isWordPart c = true) :
    isBlank c = false := by
  have hrange : 48 ≤ c.toNat ∧ c.toNat ≤ 122 := by
    simp only [isWordPart, isWordStart, isDigit, Char.le_def, UInt32.le_iff_toNat_le,
      Bool.or_eq_true, Bool.and_eq_true, decide_eq_true_eq, beq_iff_eq] at h
    rcases h with ((⟨h, h'⟩ | ⟨h, h'⟩) | rfl) | ⟨h, h'⟩
    · exact ⟨Nat.le_trans (by decide) h, h'⟩
    · exact ⟨Nat.le_trans (by decide) h, Nat.le_trans h' (by decide)⟩
    · decide
    · exact ⟨h, Nat.le_trans h' (by decide)⟩
  simp [isBlank, blankRanges]
  omega

namespace Token

/-! ## What is read at a character -/

/-- Together `c` and `d` are a symbol or open a comment. -/
def Pairs (c d : Char) : Prop := (∃ s, Symbol.ofChars? [c, d] = some s) ∨ c = '/' ∧ d = '/'

/-- The pairs of characters that are read together. -/
def pairs : List (Char × Char) :=
  [('&', '&'), ('|', '|'), ('=', '='), ('!', '='), ('<', '='), ('>', '='), (':', '='), ('+', '='),
    ('-', '='), ('*', '='), ('/', '='), ('%', '='), ('-', '>'), ('/', '/')]

theorem Pairs.mem_pairs {c d : Char} (h : Pairs c d) : (c, d) ∈ pairs := by
  rcases h with ⟨s, hs⟩ | ⟨rfl, rfl⟩
  · have hchars : s.chars = [c, d] := by
      simpa using List.find?_some (p := fun t : Symbol => t.chars == [c, d]) hs
    cases s with
    | operator op => cases op <;> cases hchars <;> decide
    | _ => cases hchars <;> decide
  · decide

theorem not_pairs_of_isBlank {c d : Char} (hd : isBlank d = true) : ¬ Pairs c d := by
  intro h
  have hall : ∀ p ∈ pairs, isBlank p.2 = false := by decide
  rw [hall _ h.mem_pairs] at hd
  cases hd

theorem not_pairs_of_isWordPart {c d : Char} (hc : isWordPart c = true) : ¬ Pairs c d := by
  intro h
  have hall : ∀ p ∈ pairs, isWordPart p.1 = false := by decide
  rw [hall _ h.mem_pairs] at hc
  cases hc

theorem not_pairs_slash {c : Char} (hc : c ≠ '/') : ¬ Pairs c '/' := by
  intro h
  have hall : ∀ p ∈ pairs, p.2 = '/' → p.1 = '/' := by decide
  exact hc (hall _ h.mem_pairs rfl)

/-- The characters from `c` on, of which `cs` come after it, start with a token of kind `k` that
takes `n` of the characters `cs`. -/
inductive Reads (c : Char) (cs : List Char) : Kind → Nat → Prop
  | comment : c = '/' → cs.head? = some '/' →
    Reads c cs .comment (cs.takeWhile (· != '\n')).length
  | pair {d : Char} {s : Symbol} : ¬ (c = '/' ∧ d = '/') → cs.head? = some d →
    Symbol.ofChars? [c, d] = some s → Reads c cs (.symbol s) 1
  | single {s : Symbol} : (∀ d ∈ cs.head?, ¬ Pairs c d) → Symbol.ofChars? [c] = some s →
    Reads c cs (.symbol s) 0
  | number : (∀ d ∈ cs.head?, ¬ Pairs c d) → Symbol.ofChars? [c] = none → isDigit c = true →
    Reads c cs .number (cs.takeWhile isDigit).length
  | word : (∀ d ∈ cs.head?, ¬ Pairs c d) → Symbol.ofChars? [c] = none → isDigit c = false →
    isWordStart c = true →
    Reads c cs (.ofWord (.ofList (c :: cs.takeWhile isWordPart))) (cs.takeWhile isWordPart).length
  | invalid : (∀ d ∈ cs.head?, ¬ Pairs c d) → Symbol.ofChars? [c] = none → isDigit c = false →
    isWordStart c = false → Reads c cs .invalid 0

theorem reads_lexeme (c : Char) (cs : List Char) : Reads c cs (lexeme c cs).1 (lexeme c cs).2 := by
  unfold lexeme
  split
  · next h => exact .comment h.1 h.2
  next hcomment =>
  split
  · next s hs =>
    obtain ⟨d, hd, hs⟩ := Option.bind_eq_some_iff.1 hs
    exact .pair (fun h => hcomment ⟨h.1, h.2 ▸ hd⟩) hd hs
  next hnone =>
  have hpairs : ∀ d ∈ cs.head?, ¬ Pairs c d := by
    rintro d hd (⟨s, hs⟩ | ⟨rfl, rfl⟩)
    · exact hnone s (Option.bind_eq_some_iff.2 ⟨d, hd, hs⟩)
    · exact hcomment ⟨rfl, hd⟩
  split
  · next s hs => exact .single hpairs hs
  next hsingle =>
  have hsingle : Symbol.ofChars? [c] = none := Option.eq_none_iff_forall_ne_some.2 hsingle
  split
  · next hdigit => exact .number hpairs hsingle hdigit
  next hdigit =>
  have hdigit := Bool.eq_false_iff.2 hdigit
  split
  · next hword => exact .word hpairs hsingle hdigit hword
  · next hword => exact .invalid hpairs hsingle hdigit (Bool.eq_false_iff.2 hword)

theorem lexeme_eq_of_reads {c : Char} {cs : List Char} {k : Kind} {n : Nat} (h : Reads c cs k n) :
    lexeme c cs = (k, n) := by
  have hcomment : (∀ d ∈ cs.head?, ¬ Pairs c d) → ¬ (c = '/' ∧ cs.head? = some '/') :=
    fun hpairs hc => hpairs _ hc.2 (.inr ⟨hc.1, rfl⟩)
  have hpair : (∀ d ∈ cs.head?, ¬ Pairs c d) →
      (cs.head?.bind fun d => Symbol.ofChars? [c, d]) = none := by
    intro hpairs
    rw [Option.bind_eq_none_iff]
    intro d hd
    exact Option.eq_none_iff_forall_ne_some.2 fun s hs => hpairs d hd (.inl ⟨s, hs⟩)
  unfold lexeme
  cases h with
  | comment hc hd => rw [if_pos ⟨hc, hd⟩]
  | pair hne hd hs =>
    rw [if_neg fun h => hne ⟨h.1, Option.some.inj (hd.symm.trans h.2)⟩]
    simp [hd, hs]
  | single hpairs hs => simp [hcomment hpairs, hpair hpairs, hs]
  | number hpairs hs hdigit => simp [hcomment hpairs, hpair hpairs, hs, hdigit]
  | word hpairs hs hdigit hword => simp [hcomment hpairs, hpair hpairs, hs, hdigit, hword]
  | invalid hpairs hs hdigit hword => simp [hcomment hpairs, hpair hpairs, hs, hdigit, hword]

theorem lexeme_eq_iff {c : Char} {cs : List Char} {k : Kind} {n : Nat} :
    lexeme c cs = (k, n) ↔ Reads c cs k n := by
  refine ⟨fun h => ?_, lexeme_eq_of_reads⟩
  have hreads := reads_lexeme c cs
  rwa [h] at hreads

/-! ## What ends a token -/

/-- The character `d` cannot continue a token of kind `k` that consists of `c` and `n` further
characters. -/
def Ends (c : Char) (n : Nat) (d : Char) : Kind → Prop
  | .comment => d = '\n'
  | .number => isDigit d = false
  | .ident | .keyword _ => isWordPart d = false
  | .symbol _ | .invalid | .eof => n = 0 → ¬ Pairs c d

theorem ends_ofWord {c d : Char} {n : Nat} {word : String} :
    Ends c n d (.ofWord word) ↔ isWordPart d = false := by
  rcases Kind.ofWord_cases word with h | ⟨k, h⟩ <;> rw [h] <;> rfl

theorem ends_of_isBlank {c d : Char} {n : Nat} {k : Kind} (hd : isBlank d = true)
    (hk : k = .comment → d = '\n') : Ends c n d k := by
  have hword : isWordPart d = false := by
    refine Bool.eq_false_iff.2 fun h => ?_
    rw [isBlank_eq_false_of_isWordPart h] at hd
    cases hd
  cases k with
  | comment => exact hk rfl
  | number => exact (Bool.or_eq_false_iff.1 hword).2
  | ident | keyword => exact hword
  | symbol | invalid | eof => exact fun _ => not_pairs_of_isBlank hd

theorem ends_slash {c : Char} {n : Nat} {k : Kind} (hc : n = 0 → c ≠ '/') (hk : k ≠ .comment) :
    Ends c n '/' k := by
  cases k with
  | comment => exact absurd rfl hk
  | number | ident | keyword => exact rfl
  | symbol | invalid | eof => exact fun hn => not_pairs_slash (hc hn)

theorem drop_length_takeWhile (p : Char → Bool) (cs : List Char) :
    cs.drop (cs.takeWhile p).length = cs.dropWhile p := by
  have h := @List.drop_left _ (cs.takeWhile p) (cs.dropWhile p)
  rwa [List.takeWhile_append_dropWhile] at h

theorem eq_false_of_mem_drop_takeWhile {p : Char → Bool} {cs : List Char} {d : Char}
    (hd : d ∈ (cs.drop (cs.takeWhile p).length).head?) : p d = false := by
  rw [drop_length_takeWhile] at hd
  have h := List.head?_dropWhile_not p cs
  rw [hd] at h
  exact h

/-- A token is not followed by a character that could continue it. -/
theorem Reads.ends {c d : Char} {cs : List Char} {k : Kind} {n : Nat} (h : Reads c cs k n)
    (hd : d ∈ (cs.drop n).head?) : Ends c n d k := by
  cases h with
  | comment =>
    show d = '\n'
    simpa using eq_false_of_mem_drop_takeWhile hd
  | pair => exact fun h => absurd h Nat.one_ne_zero
  | single hpairs => exact fun _ => hpairs d hd
  | number => exact eq_false_of_mem_drop_takeWhile hd
  | word => exact ends_ofWord.2 (eq_false_of_mem_drop_takeWhile hd)
  | invalid hpairs => exact fun _ => hpairs d hd

theorem takeWhile_take_append {p : Char → Bool} {cs ds : List Char}
    (hds : ∀ d ∈ ds.head?, p d = false) :
    (cs.take (cs.takeWhile p).length ++ ds).takeWhile p = cs.takeWhile p := by
  have hstop : ds.takeWhile p = [] := by
    cases ds with
    | nil => rfl
    | cons d ds => exact List.takeWhile_cons_of_neg (by simp [hds d rfl])
  rw [← List.prefix_iff_eq_take.1 (List.takeWhile_prefix p),
    List.takeWhile_append_of_pos (List.all_eq_true.1 List.all_takeWhile), hstop, List.append_nil]

/-- A token is read the same way before anything that ends it. -/
theorem Reads.before {c : Char} {cs ds : List Char} {k : Kind} {n : Nat} (h : Reads c cs k n)
    (hds : ∀ d ∈ ds.head?, Ends c n d k) : Reads c (cs.take n ++ ds) k n := by
  cases h with
  | comment hc hd =>
    obtain ⟨cs, rfl⟩ : ∃ es, cs = '/' :: es := ⟨cs.tail, List.eq_cons_of_mem_head? hd⟩
    have hhead : (('/' :: cs).take (('/' :: cs).takeWhile (· != '\n')).length ++ ds).head? =
        some '/' := by simp
    have h := Reads.comment hc hhead
    rwa [takeWhile_take_append fun d hd => bne_eq_false_iff_eq.2 (hds d hd)] at h
  | pair hne hd hs =>
    obtain ⟨cs, rfl⟩ : ∃ es, cs = _ :: es := ⟨cs.tail, List.eq_cons_of_mem_head? hd⟩
    exact .pair hne rfl hs
  | single _ hs => exact .single (fun d hd => hds d hd rfl) hs
  | number _ hs hdigit =>
    have hpairs : ∀ d ∈ (cs.take (cs.takeWhile isDigit).length ++ ds).head?, ¬ Pairs c d :=
      fun d _ => not_pairs_of_isWordPart (by simp [isWordPart, hdigit])
    have h := Reads.number hpairs hs hdigit
    rwa [takeWhile_take_append hds] at h
  | word _ hs hdigit hword =>
    have hpairs : ∀ d ∈ (cs.take (cs.takeWhile isWordPart).length ++ ds).head?, ¬ Pairs c d :=
      fun d _ => not_pairs_of_isWordPart (by simp [isWordPart, hword])
    have h := Reads.word hpairs hs hdigit hword
    rwa [takeWhile_take_append fun d hd => ends_ofWord.1 (hds d hd)] at h
  | invalid _ hs hdigit hword => exact .invalid (fun d hd => hds d hd rfl) hs hdigit hword

theorem Reads.of_comment {c : Char} {cs : List Char} {n : Nat} (h : Reads c cs .comment n) :
    c = '/' ∧ cs.head? = some '/' ∧ n = (cs.takeWhile (· != '\n')).length := by
  generalize hk : Kind.comment = k at h
  cases h with
  | comment hc hd => exact ⟨hc, hd, rfl⟩
  | word =>
    rcases Kind.ofWord_cases (.ofList (c :: cs.takeWhile isWordPart)) with h | ⟨w, h⟩ <;>
      cases hk.trans h
  | _ => cases hk

theorem Reads.le_length {c : Char} {cs : List Char} {k : Kind} {n : Nat} (h : Reads c cs k n) :
    n ≤ cs.length := by
  cases h with
  | comment | number | word => exact (List.takeWhile_prefix _).length_le
  | pair _ hd =>
    cases cs with
    | nil => cases hd
    | cons => exact Nat.le_add_left ..
  | single | invalid => exact Nat.zero_le _

/-! ## What a text says -/

/-- What a token is and how it is spelled, apart from where it stands. -/
def content (t : Token) : Kind × String := (t.kind, t.spelling)

/-- The tokens of a text but for its comments. -/
def significant (text : String) : List Token := (tokens text).filter (·.kind ≠ .comment)

/-- What the tokens of some characters are and how they are spelled. -/
def contentsOf (cs : List Char) : List (Kind × String) := (tokensFrom .start cs).map content

theorem map_content_tokensFrom (pos pos' : Pos) (cs : List Char) :
    (tokensFrom pos cs).map content = (tokensFrom pos' cs).map content := by
  induction pos, cs using scan_induction generalizing pos' with
  | nil pos => rw [tokensFrom_nil, tokensFrom_nil]; rfl
  | blank pos c cs hc ih => rw [tokensFrom_blank hc, tokensFrom_blank hc, ih]
  | token pos c cs hc ih =>
    rw [tokensFrom_lexeme hc, tokensFrom_lexeme hc, List.map_cons, List.map_cons, ih]
    rfl

theorem contentsOf_nil : contentsOf [] = [(.eof, "")] := by
  rw [contentsOf, tokensFrom_nil]
  rfl

theorem contentsOf_blank {c : Char} (hc : isBlank c = true) (cs : List Char) :
    contentsOf (c :: cs) = contentsOf cs := by
  rw [contentsOf, tokensFrom_blank hc]
  exact map_content_tokensFrom ..

theorem contentsOf_reads {c : Char} {cs : List Char} {k : Kind} {n : Nat} (hc : isBlank c = false)
    (h : Reads c cs k n) :
    contentsOf (c :: cs) = (k, .ofList (c :: cs.take n)) :: contentsOf (cs.drop n) := by
  rw [contentsOf, tokensFrom_lexeme hc, lexeme_eq_of_reads h, List.map_cons]
  exact congrArg _ (map_content_tokensFrom ..)

/-- What a text says but for its comments. -/
def significantOf (cs : List Char) : List (Kind × String) :=
  (contentsOf cs).filter (·.1 ≠ .comment)

theorem map_content_significant (text : String) :
    (significant text).map content = significantOf text.toList := by
  rw [significantOf, contentsOf, List.filter_map]
  rfl

theorem significantOf_blank {c : Char} (hc : isBlank c = true) (cs : List Char) :
    significantOf (c :: cs) = significantOf cs := by
  rw [significantOf, contentsOf_blank hc]
  rfl

theorem significantOf_reads {c : Char} {cs : List Char} {k : Kind} {n : Nat}
    (hc : isBlank c = false) (h : Reads c cs k n) :
    significantOf (c :: cs) = [(k, String.ofList (c :: cs.take n))].filter (·.1 ≠ .comment) ++
      significantOf (cs.drop n) := by
  rw [significantOf, contentsOf_reads hc h, ← List.singleton_append, List.filter_append]
  rfl

/-! ## Writing tokens -/

/-- Before a line feed the spelling of the token is read as the token. -/
def Spelled (t : Token) : Prop :=
  ∃ c cs, t.spelling.toList = c :: cs ∧ isBlank c = false ∧
    ∀ rest, Reads c (cs ++ '\n' :: rest) t.kind cs.length

/-- Every token of a text can be written down again. -/
theorem spelled_of_mem {pos : Pos} {cs : List Char} {t : Token} (ht : t ∈ tokensFrom pos cs)
    (hk : t.kind ≠ .eof) : t.Spelled := by
  induction pos, cs using scan_induction with
  | nil pos =>
    rw [tokensFrom_nil, List.mem_singleton] at ht
    exact absurd (ht ▸ rfl) hk
  | blank pos c cs hc ih =>
    rw [tokensFrom_blank hc] at ht
    exact ih ht
  | token pos c cs hc ih =>
    rw [tokensFrom_lexeme hc, List.mem_cons] at ht
    rcases ht with rfl | ht
    · have hreads := reads_lexeme c cs
      refine ⟨c, cs.take (lexeme c cs).2, String.toList_ofList, hc, fun rest => ?_⟩
      rw [List.length_take, Nat.min_eq_left hreads.le_length]
      refine hreads.before fun d hd => ?_
      cases hd
      exact ends_of_isBlank isBlank_lineFeed fun _ => rfl
    · exact ih ht

/-- The spellings of tokens, each on a line. -/
def write (ts : List Token) : String :=
  .ofList (ts.flatMap fun t => t.spelling.toList ++ ['\n'])

/-- What is written is read again. -/
theorem contentsOf_write {ts : List Token} (h : ∀ t ∈ ts, t.Spelled) :
    contentsOf (write ts).toList = ts.map content ++ [(.eof, "")] := by
  rw [write, String.toList_ofList]
  induction ts with
  | nil => exact contentsOf_nil
  | cons t ts ih =>
    obtain ⟨c, cs, hspelling, hc, hreads⟩ := h t List.mem_cons_self
    have ih := ih fun u hu => h u (List.mem_cons_of_mem _ hu)
    rw [List.flatMap_cons, hspelling, List.append_assoc, List.cons_append, List.singleton_append,
      contentsOf_reads hc (hreads _), List.take_left, List.drop_left,
      contentsOf_blank isBlank_lineFeed, ih, ← hspelling, String.ofList_toList]
    rfl

/-! ## Blanks and comments between tokens -/

/-- Blanks and comments, each of which ends its line. -/
inductive Gap : List Char → Prop
  | nil : Gap []
  | blank {c : Char} {cs : List Char} : isBlank c = true → Gap cs → Gap (c :: cs)
  | comment {line cs : List Char} : (∀ c ∈ line, c ≠ '\n') → Gap cs →
    Gap ('/' :: '/' :: (line ++ '\n' :: cs))

/-- The byte at `offset` belongs to the token but is not its first one. -/
def Splits (t : Token) (offset : Nat) : Prop :=
  t.pos.offset < offset ∧ offset < t.pos.offset + t.spelling.utf8ByteSize

instance (t : Token) (offset : Nat) : Decidable (t.Splits offset) :=
  inferInstanceAs (Decidable (_ ∧ _))

/-- The token is a division sign that ends at `offset`. -/
def DividesAt (t : Token) (offset : Nat) : Prop :=
  t.spelling = "/" ∧ t.pos.offset + 1 = offset

instance (t : Token) (offset : Nat) : Decidable (t.DividesAt offset) :=
  inferInstanceAs (Decidable (_ ∧ _))

/-- A line ends at its line feed. -/
theorem dropWhile_line {line rest : List Char} (hline : ∀ c ∈ line, c ≠ '\n')
    (hrest : ∀ d ∈ rest.head?, d = '\n') : (line ++ rest).dropWhile (· != '\n') = rest := by
  rw [List.dropWhile_append_of_pos fun c hc => bne_iff_ne.2 (hline c hc)]
  cases rest with
  | nil => rfl
  | cons d rest => exact List.dropWhile_cons_of_neg (by simp [hrest d rfl])

/-- A comment says nothing, up to the end of its line. -/
theorem significantOf_comment {cs : List Char} (hcs : cs.head? = some '/') :
    significantOf ('/' :: cs) = significantOf (cs.dropWhile (· != '\n')) := by
  rw [significantOf_reads (by decide) (.comment rfl hcs), drop_length_takeWhile]
  rfl

theorem significantOf_comment_line {line : List Char} (hline : ∀ c ∈ line, c ≠ '\n')
    (rest : List Char) :
    significantOf ('/' :: '/' :: (line ++ '\n' :: rest)) = significantOf rest := by
  have hslash : ∀ c ∈ '/' :: line, c ≠ '\n' := by simpa using hline
  rw [significantOf_comment rfl, ← List.cons_append, dropWhile_line hslash (by simp),
    significantOf_blank isBlank_lineFeed]

namespace Gap

theorem significantOf_append {gap : List Char} (h : Gap gap) (after : List Char) :
    significantOf (gap ++ after) = significantOf after := by
  induction h with
  | nil => rfl
  | blank hc _ ih => rw [List.cons_append, significantOf_blank hc, ih]
  | comment hline _ ih =>
    rw [List.cons_append, List.cons_append, List.append_assoc, List.cons_append,
      significantOf_comment_line hline, ih]

/-- What is put at the end of a comment belongs to it, up to the end of the line. -/
theorem significantOf_dropWhile {gap after : List Char} (h : Gap gap)
    (hafter : ∀ d ∈ after.head?, d = '\n') :
    significantOf ((gap ++ after).dropWhile (· != '\n')) = significantOf after := by
  induction h with
  | nil => rw [dropWhile_line (by simp) hafter]
  | @blank c cs hc hgap ih =>
    by_cases hn : c = '\n'
    · rw [← List.nil_append (c :: cs ++ after), dropWhile_line (by simp) (by simp [hn]),
        List.cons_append, significantOf_blank hc, hgap.significantOf_append]
    · rw [List.cons_append, List.dropWhile_cons, if_pos (bne_iff_ne.2 hn), ih]
  | @comment line cs hline hgap ih =>
    have hslashes : ∀ c ∈ '/' :: '/' :: line, c ≠ '\n' := by simpa using hline
    have hassoc : '/' :: '/' :: (line ++ '\n' :: cs) ++ after =
        ('/' :: '/' :: line) ++ '\n' :: (cs ++ after) := by simp
    rw [hassoc, dropWhile_line hslashes (by simp), significantOf_blank isBlank_lineFeed,
      hgap.significantOf_append]

end Gap

/-- A token that ends where a gap is put in still ends there, unless it is a comment. -/
theorem Gap.ends {gap after : List Char} (h : Gap gap) {c : Char} {n : Nat} {k : Kind}
    (hk : k ≠ .comment) (hne : gap ≠ []) (hslash : gap.head? = some '/' → n = 0 → c ≠ '/') :
    ∀ d ∈ (gap ++ after).head?, Ends c n d k := by
  intro d hd
  cases h with
  | nil => exact absurd rfl hne
  | blank hc =>
    cases hd
    exact ends_of_isBlank hc fun h => absurd h hk
  | comment =>
    cases hd
    exact ends_slash (hslash rfl) hk

/-- A token at the start of a text that does not split the end of `cs` ends in `cs`. -/
theorem length_le_of_utf8Len_le {cs after : List Char} {n : Nat} (hn : n ≤ (cs ++ after).length)
    (h : String.utf8Len ((cs ++ after).take n) ≤ String.utf8Len cs) : n ≤ cs.length := by
  rw [List.take_append, String.utf8Len_append] at h
  by_contra hlt
  rw [List.take_of_length_le (by omega)] at h
  have hnil : after.take (n - cs.length) = [] := String.utf8Len_eq_zero.1 (by omega)
  rw [List.length_append] at hn
  rw [List.take_eq_nil_iff] at hnil
  rcases hnil with hnil | rfl
  · omega
  · simp at hn
    omega

/-- A gap at the end of a comment is added to it, up to the end of the line. -/
theorem significantOf_insert_comment {c : Char} {cs gap after : List Char} (hgap : Gap gap)
    (h : Reads c (cs ++ after) .comment cs.length) :
    significantOf (c :: (cs ++ (gap ++ after))) = significantOf (c :: (cs ++ after)) := by
  have hafter : ∀ d ∈ after.head?, d = '\n' := fun d hd => h.ends (by rwa [List.drop_left])
  obtain ⟨rfl, hhead, hlength⟩ := h.of_comment
  have htake : (cs ++ after).takeWhile (· != '\n') = cs := by
    rw [List.prefix_iff_eq_take.1 (List.takeWhile_prefix _), ← hlength, List.take_left]
  have hline : ∀ d ∈ cs, (d != '\n') = true := htake ▸ List.all_eq_true.1 List.all_takeWhile
  have hcs : cs.head? = some '/' := by
    cases cs with
    | nil => exact absurd (hafter _ hhead) (by decide)
    | cons d cs => exact hhead
  rw [significantOf_comment (by simp [hcs]), significantOf_comment hhead,
    List.dropWhile_append_of_pos hline, hgap.significantOf_dropWhile hafter,
    dropWhile_line (fun d hd => bne_iff_ne.1 (hline d hd)) hafter]

/-- A gap between two tokens says nothing. Only behind a division sign a comment must not follow at
once, because it would start with that sign. -/
theorem significantOf_insert {gap after : List Char} (hgap : Gap gap) (pos : Pos)
    (before : List Char)
    (hsplit : ∀ t ∈ tokensFrom pos (before ++ after),
      ¬ t.Splits (pos.offset + String.utf8Len before))
    (hslash : gap.head? = some '/' → ∀ t ∈ tokensFrom pos (before ++ after),
      ¬ t.DividesAt (pos.offset + String.utf8Len before)) :
    significantOf (before ++ (gap ++ after)) = significantOf (before ++ after) := by
  induction hn : before.length using Nat.strong_induction_on generalizing pos before with
  | h m ih =>
  cases before with
  | nil => exact hgap.significantOf_append after
  | cons c cs =>
  rw [List.length_cons] at hn
  cases hc : isBlank c with
  | true =>
    have hoffset : (pos.advance c).offset + String.utf8Len cs =
        pos.offset + String.utf8Len (c :: cs) := by
      rw [Pos.offset_advance, Nat.add_assoc, Nat.add_comm c.utf8Size, ← String.utf8Len_cons]
    rw [List.cons_append, tokensFrom_blank hc, ← hoffset] at hsplit hslash
    rw [List.cons_append, List.cons_append, significantOf_blank hc, significantOf_blank hc]
    exact ih cs.length (by omega) (pos.advance c) cs hsplit hslash rfl
  | false =>
  obtain ⟨k, n, hkn⟩ : ∃ k n, lexeme c (cs ++ after) = (k, n) := ⟨_, _, rfl⟩
  have hreads : Reads c (cs ++ after) k n := lexeme_eq_iff.1 hkn
  have htokens := tokensFrom_lexeme hc pos (cs ++ after)
  simp only [hkn] at htokens
  rw [List.cons_append, htokens] at hsplit hslash
  have hle : n ≤ cs.length := by
    refine length_le_of_utf8Len_le hreads.le_length (Nat.not_lt.1 fun hlt => ?_)
    refine hsplit _ List.mem_cons_self ⟨?_, ?_⟩
    · have := c.utf8Size_pos
      rw [String.utf8Len_cons]
      show pos.offset < _
      omega
    · rw [String.utf8ByteSize_ofList, String.utf8Len_cons, String.utf8Len_cons]
      show _ < pos.offset + _
      omega
  obtain ⟨xs, ys, rfl, rfl⟩ : ∃ xs ys, cs = xs ++ ys ∧ n = xs.length :=
    ⟨cs.take n, cs.drop n, (List.take_append_drop n cs).symm, by simp [hle]⟩
  rw [List.append_assoc, List.take_left, List.drop_left] at hsplit hslash
  rw [List.append_assoc] at hreads
  rw [List.length_append] at hn
  have ihys : significantOf (ys ++ (gap ++ after)) = significantOf (ys ++ after) := by
    have hoffset : (pos.advanceBy (c :: xs)).offset + String.utf8Len ys =
        pos.offset + String.utf8Len (c :: (xs ++ ys)) := by
      rw [Pos.offset_advanceBy, Nat.add_assoc, ← String.utf8Len_append, List.cons_append]
    refine ih ys.length (by omega) (pos.advanceBy (c :: xs)) ys (fun t ht => ?_)
      (fun hg t ht => ?_) rfl
    · rw [hoffset]
      exact hsplit t (List.mem_cons_of_mem _ ht)
    · rw [hoffset]
      exact hslash hg t (List.mem_cons_of_mem _ ht)
  by_cases hends : ∀ d ∈ (ys ++ (gap ++ after)).head?, Ends c xs.length d k
  · have hnew := hreads.before hends
    rw [List.take_left] at hnew
    rw [List.cons_append, List.cons_append, List.append_assoc, List.append_assoc,
      significantOf_reads hc hnew, significantOf_reads hc hreads, List.take_left, List.take_left,
      List.drop_left, List.drop_left, ihys]
  -- a gap can continue nothing but a comment that ends where the gap is put in
  · have hys : ys = [] := by
      cases ys with
      | nil => rfl
      | cons d ys => exact absurd (fun e he => hreads.ends (by rwa [List.drop_left])) hends
    subst hys
    have hk : k = .comment := by
      by_contra hk
      refine hends ?_
      by_cases hne : gap = []
      · subst hne
        exact fun d hd => hreads.ends (by rwa [List.drop_left])
      · refine hgap.ends hk hne fun hg hxs => ?_
        obtain rfl := List.length_eq_zero_iff.1 hxs
        rintro rfl
        exact hslash hg _ List.mem_cons_self ⟨rfl, rfl⟩
    subst hk
    simpa using significantOf_insert_comment hgap hreads

end Token
end PrimeLang
