import PrimeLang.Command.Plan
import PrimeLang.Proofs.PositionIndependence
import PrimeLang.Proofs.ViablePrefixes

/-! # Where error messages point

Every error of the parser and of the resolver is placed at a token. For syntax errors that is the
token to blame. The resolver takes its places from a program, and all places in a program are those
of tokens: moving all other places would change the program, but nothing depends on them. Lines of a
text are counted by line feeds as positions are, so the token stands in the line that a message
quotes, at its column. -/

namespace PrimeLang

/-! ## Places of errors -/

namespace Source

/-- What is read does not depend on where the token before the first one started. -/
theorem parse_last {body : List Token} {eof : Token} (hbody : ∀ t ∈ body, t.kind ≠ .eof)
    {last : Pos} {fs : List Func} (h : parse ⟨body ++ [eof], last⟩ = .ok fs) (last' : Pos) :
    parse ⟨body ++ [eof], last'⟩ = .ok fs := by
  rw [parse] at h
  cases hrun : Parse.program ((body ++ [eof]).length + 1) ⟨body ++ [eof], last⟩ with
  | error e =>
    rw [hrun] at h
    cases h
  | ok r =>
    rw [hrun] at h
    cases h
    obtain ⟨ts, hts, hprogram⟩ := Parse.program_sound _ hrun
    have hnil := rest_eq_nil_of_program hbody hprogram hts
    rw [hnil, List.append_nil] at hts
    rw [← hts] at hprogram
    obtain ⟨gs, -, htakes⟩ := Parse.reads_program hprogram (Nat.lt_succ_self _)
    obtain ⟨c, hc, -⟩ := htakes ⟨body ++ [eof], last⟩ (List.append_nil _).symm
    obtain ⟨c', hc', -⟩ := htakes ⟨body ++ [eof], last'⟩ (List.append_nil _).symm
    cases hrun.symm.trans hc
    exact congrArg (Except.map Prod.fst) hc'

end Source

theorem BindingError.pos_relabel (r : Relabelling) (e : BindingError) :
    (e.relabel r).pos = r.pos e.pos := by
  cases e <;> rfl

namespace Program

/-- A syntax error is at a token. -/
theorem exists_token_of_parse_error {text : String} {e : SyntaxError}
    (h : parse text = .error e) : ∃ t ∈ Token.significant text, e.pos = t.pos := by
  have hrun : Source.Parse.program ((Token.significant text).length + 1)
      ⟨Token.significant text, .start⟩ = .error e := by
    rw [parse_eq, Source.parse] at h
    generalize Source.Parse.program _ _ = result at h ⊢
    cases result with
    | error => exact congrArg _ (Except.error.inj h)
    | ok => cases h
  obtain ⟨us, t, rest, hrest, -, hblames, -⟩ :=
    @Source.Parse.program_eq_error _ 0 ⟨Token.significant text, .start⟩ e (Nat.lt_succ_self _)
      (Token.exists_eof text) hrun
  dsimp only at hrest
  exact ⟨t, hrest ▸ List.mem_append_right _ List.mem_cons_self, hblames.pos_eq⟩

/-- A program does not change if all places but those of tokens are moved. -/
theorem relabel_eq_self {text : String} {p : Program} (h : parse text = .ok p) {π : Pos → Pos}
    (hπ : ∀ t ∈ Token.significant text, π t.pos = t.pos) : p.relabel (.ofPlaces π) = p := by
  obtain ⟨fs, hfs, rfl⟩ := ofTokens_eq_ok.1 h
  have hfs : Source.parse ⟨Token.significant text, .start⟩ = .ok fs := hfs
  have hmove : (Cursor.mk (Token.significant text) .start).move π =
      ⟨Token.significant text, π .start⟩ := by
    have hmap : (Token.significant text).map (.move π) = Token.significant text := by
      conv => rhs; rw [← List.map_id (Token.significant text)]
      refine List.map_congr_left fun t ht => ?_
      rw [Token.move, hπ t ht, id]
    rw [Cursor.move, hmap]
  -- the moved tokens are the tokens, but where nothing was read yet has moved
  have hmoved : Source.parse ⟨Token.significant text, π .start⟩ = .ok fs := by
    obtain ⟨body, hbody, hne⟩ := Token.exists_body .start text.toList
    have htokens : Token.significant text = body.filter (·.kind ≠ .comment) ++
        [⟨.eof, "", Pos.start.advanceBy text.toList⟩] := by
      rw [Token.significant, Token.tokens, hbody, List.filter_append]
      rfl
    rw [htokens] at hfs ⊢
    exact Source.parse_last (fun t ht => (hne t (List.mem_filter.1 ht).1).1) hfs _
  have hrelabel := Source.parse_move π ⟨Token.significant text, .start⟩
  rw [hmove, hmoved, hfs] at hrelabel
  rw [← ofSource_relabel, ← Except.ok.inj hrelabel]

/-- An error of the resolver is at a token. -/
theorem exists_token_of_resolve_error {text : String} {p : Program} {e : BindingError}
    (hp : parse text = .ok p) (h : p.resolve = .error e) :
    ∃ t ∈ Token.significant text, e.pos = t.pos := by
  -- all places but those of tokens are moved to the end of the text
  obtain ⟨π, hfixed, htoken⟩ : ∃ π : Pos → Pos, (∀ t ∈ Token.significant text, π t.pos = t.pos) ∧
      ∀ pos, ∃ t ∈ Token.significant text, π pos = t.pos := by
    obtain ⟨eof, heof, -⟩ := Token.exists_eof text
    refine ⟨fun pos => if ∃ t ∈ Token.significant text, pos = t.pos then pos else eof.pos,
      fun t ht => if_pos ⟨t, ht, rfl⟩, fun pos => ?_⟩
    dsimp only
    split
    · assumption
    · exact ⟨eof, heof, rfl⟩
  have hresolve := resolve_relabel (r := .ofPlaces π) (fun _ _ h => h) p
  rw [relabel_eq_self hp hfixed, h] at hresolve
  obtain ⟨t, ht, hpos⟩ := htoken e.pos
  refine ⟨t, ht, ?_⟩
  rw [← hpos]
  exact (congrArg BindingError.pos (Except.error.inj hresolve)).trans (e.pos_relabel _)

end Program

/-! ## Lines -/

theorem linesFrom_cons {c : Char} (h : c ≠ '\n') (line rest : List Char) :
    linesFrom line (c :: rest) = linesFrom (c :: line) rest := by
  rw [linesFrom]
  exact h

/-- A character of the line that is read, other than a carriage return, keeps its column. -/
theorem exists_line_of_read {c : Char} (hc : c ≠ '\r') (more line rest : List Char) :
    ∃ l, (linesFrom (more ++ c :: line) rest)[0]? = some l ∧ l[line.length]? = some c := by
  have hcolumn (more : List Char) : (more ++ c :: line).reverse[line.length]? = some c := by
    rw [List.reverse_append, List.reverse_cons, List.append_assoc,
      List.getElem?_append_right (by rw [List.length_reverse]), List.length_reverse, Nat.sub_self]
    rfl
  induction rest generalizing more with
  | nil =>
    rw [linesFrom, if_neg (List.append_ne_nil_of_right_ne_nil _ (List.cons_ne_nil _ _))]
    exact ⟨_, rfl, hcolumn more⟩
  | cons d rest ih =>
    by_cases hd : d = '\n'
    · subst hd
      refine ⟨_, rfl, ?_⟩
      -- at most the character read last is left out
      cases more with
      | nil =>
        rw [List.nil_append, chopReturn]
        · exact hcolumn []
        · simpa using hc
      | cons a more =>
        by_cases ha : a = '\r'
        · subst ha
          exact hcolumn more
        · rw [List.cons_append, chopReturn]
          · exact hcolumn (a :: more)
          · simpa using ha
    · rw [linesFrom_cons hd]
      exact ih (d :: more)

/-- A character that belongs to no line end is in the line of its row, at its column. -/
theorem exists_line_of_split {c : Char} (hfeed : c ≠ '\n') (hreturn : c ≠ '\r') {pos : Pos}
    {line : List Char} (hcol : pos.col = line.length) (before after : List Char) :
    ∃ l, (linesFrom line (before ++ c :: after))[before.count '\n']? = some l ∧
      l[(pos.advanceBy before).col]? = some c := by
  induction before generalizing pos line with
  | nil =>
    rw [List.nil_append, linesFrom_cons hfeed, Pos.advanceBy_nil, hcol]
    exact exists_line_of_read hreturn [] line after
  | cons d before ih =>
    rw [List.cons_append, Pos.advanceBy_cons, List.count_cons, Pos.advance]
    by_cases hd : d = '\n'
    · subst hd
      rw [if_pos rfl, if_pos (beq_self_eq_true _), linesFrom]
      exact ih rfl
    · rw [if_neg hd, if_neg (by simpa using hd), linesFrom_cons hd]
      exact ih (congrArg Nat.succ hcol)

/-- Behind the last character the column is the length of the line there. -/
theorem length_last_line {pos : Pos} {line : List Char} (hcol : pos.col = line.length)
    (cs : List Char) :
    ((linesFrom line cs).getD (cs.count '\n') []).length = (pos.advanceBy cs).col := by
  induction cs generalizing pos line with
  | nil =>
    rw [linesFrom, Pos.advanceBy_nil, hcol]
    split
    · next h => rw [h]; rfl
    · exact List.length_reverse
  | cons d cs ih =>
    rw [Pos.advanceBy_cons, List.count_cons, Pos.advance]
    by_cases hd : d = '\n'
    · subst hd
      rw [if_pos rfl, if_pos (beq_self_eq_true _), linesFrom]
      exact ih rfl
    · rw [if_neg hd, if_neg (by simpa using hd), linesFrom_cons hd]
      exact ih (congrArg Nat.succ hcol)

namespace Token
variable {text : String} {t : Token}

/-- In the line of its row, a token starts at its column. -/
theorem exists_line (ht : t ∈ tokens text) (hk : t.kind ≠ .eof) :
    ∃ l c, (lines text)[t.pos.row]? = some l ∧ l.toList[t.pos.col]? = some c ∧
      t.spelling.toList.head? = some c := by
  obtain ⟨c, cs, hspelling, hblank, -⟩ := spelled_of_mem ht hk
  obtain ⟨before, after, htext, hpos⟩ := exists_split_of_mem ht
  have hne {d : Char} (hd : isBlank d = true) : c ≠ d := by
    rintro rfl
    cases hd.symm.trans hblank
  rw [hspelling, List.append_assoc, List.cons_append] at htext
  obtain ⟨l, hl, hc⟩ := @exists_line_of_split c (hne isBlank_lineFeed) (hne (by decide)) .start []
    rfl before (cs ++ after)
  refine ⟨.ofList l, c, ?_, ?_, ?_⟩
  · rw [lines, htext, hpos, Pos.row_advanceBy, Pos.start, Nat.zero_add, List.getElem?_map, hl]
    rfl
  · rw [String.toList_ofList, hpos, hc]
  · rw [hspelling]
    rfl

/-- The end of the text is behind the last character of the line of its row. -/
theorem col_of_eof (ht : t ∈ tokens text) (hk : t.kind = .eof) :
    t.pos.col = (line text t.pos.row).length := by
  obtain ⟨body, hbody, hne⟩ := exists_body .start text.toList
  obtain rfl : t = ⟨.eof, "", Pos.start.advanceBy text.toList⟩ := by
    rw [tokens, hbody, List.mem_append, List.mem_singleton] at ht
    exact ht.resolve_left fun hmem => (hne t hmem).1 hk
  have hline : line text (text.toList.count '\n') =
      .ofList ((linesFrom [] text.toList).getD (text.toList.count '\n') []) := by
    rw [line, lines, List.getD_eq_getElem?_getD, List.getElem?_map, List.getD_eq_getElem?_getD]
    cases (linesFrom [] text.toList)[text.toList.count '\n']? <;> rfl
  dsimp only
  rw [Pos.row_advanceBy, Pos.start, Nat.zero_add, hline, String.length_ofList]
  exact (length_last_line rfl text.toList).symm

end Token

/-! ## What a terminal shows -/

namespace Message

/-- The characters that a terminal shows. An escape character and what follows it up to an `m` are
not shown; `hidden` tells that such a sequence has begun. -/
def visible : (hidden : Bool) → List Char → List Char
  | _, [] => []
  | true, c :: cs => visible (c ≠ 'm') cs
  | false, c :: cs => if c = '\x1b' then visible true cs else c :: visible false cs

/-- How many characters a terminal shows of `s`. -/
def shownWidth (s : String) : Nat := (visible false s.toList).length

/-- What an excerpt has before the line that it quotes. -/
def gutter (row : Nat) : String :=
  " " ++ blue (padLeft 4 ' ' (toString (row + 1)) ++ " |") ++ " "

/-- What an excerpt has before the blanks in front of its mark. -/
def margin : String := "      " ++ blue "|" ++ " "

theorem excerptLines_eq (x : Excerpt) : ∃ place bar, excerptLines x =
    [place, bar, gutter x.pos.row ++ line x.code x.pos.row,
      margin ++ fill x.pos.col ' ' ++ bold Severity.error.color "^"] := by
  rw [String.append_assoc]
  exact ⟨_, _, rfl⟩

theorem visible_append {cs : List Char} (h : '\x1b' ∉ cs) (ds : List Char) :
    visible false (cs ++ ds) = cs ++ visible false ds := by
  induction cs with
  | nil => rfl
  | cons c cs ih =>
    rw [List.mem_cons, not_or] at h
    rw [List.cons_append, visible, if_neg (Ne.symm h.1), ih h.2, List.cons_append]

theorem visible_blue {s : String} (h : '\x1b' ∉ s.toList) (ds : List Char) :
    visible false ((blue s).toList ++ ds) = s.toList ++ visible false ds := by
  have hblue : (blue s).toList ++ ds =
      "\x1b[34m".toList ++ (s.toList ++ ("\x1b[39m".toList ++ ds)) := by
    simp [blue, ToString.toString]
  have hopen (cs : List Char) : visible false ("\x1b[34m".toList ++ cs) = visible false cs := rfl
  have hclose (cs : List Char) : visible false ("\x1b[39m".toList ++ cs) = visible false cs := rfl
  rw [hblue, hopen, visible_append h, hclose]

theorem shownWidth_gutter (row : Nat) :
    shownWidth (gutter row) = max 4 (row + 1).repr.length + 4 := by
  have htoList : (padLeft 4 ' ' (toString (row + 1)) ++ " |").toList =
      List.replicate (4 - (row + 1).repr.length) ' ' ++ ((row + 1).repr.toList ++ [' ', '|']) := by
    simp [padLeft, fill, ToString.toString]
  have hplain : '\x1b' ∉ (padLeft 4 ' ' (toString (row + 1)) ++ " |").toList := by
    rw [htoList, List.mem_append, List.mem_append]
    rintro (h | h | h)
    · cases List.eq_of_mem_replicate h
    · rw [Nat.toList_repr] at h
      cases Nat.isDigit_of_mem_toDigits (by decide) (by decide) h
    · simp at h
  have hgutter : (gutter row).toList =
      [' '] ++ ((blue (padLeft 4 ' ' (toString (row + 1)) ++ " |")).toList ++ [' ']) := by
    simp [gutter]
  have hblank : visible false [' '] = [' '] := rfl
  rw [shownWidth, hgutter, visible_append (by decide), visible_blue hplain, htoList, hblank]
  simp only [List.length_append, List.length_replicate, String.length_toList, List.length_cons,
    List.length_nil]
  omega

theorem shownWidth_margin : shownWidth margin = 8 := by decide

end Message

/-- The mark is under the character at its column: as much is shown before the line as before the
blanks in front of the mark. Every character of the line counts one cell, tabs and wide characters
too. -/
def Excerpt.Aligned (x : Excerpt) : Prop :=
  ∃ place bar before below, Message.excerptLines x =
      [place, bar, before ++ line x.code x.pos.row,
        below ++ fill x.pos.col ' ' ++ Message.bold Severity.error.color "^"] ∧
    Message.shownWidth before = Message.shownWidth below

/-- The mark is where it should be as long as numbers of lines have at most four digits. -/
theorem Excerpt.aligned_iff (x : Excerpt) : x.Aligned ↔ x.pos.row < 9999 := by
  obtain ⟨place, bar, hlines⟩ := Message.excerptLines_eq x
  have hwidth : Message.shownWidth (Message.gutter x.pos.row) =
      Message.shownWidth Message.margin ↔ x.pos.row < 9999 := by
    have hdigits : (x.pos.row + 1).repr.length ≤ 4 ↔ x.pos.row + 1 < 10 ^ 4 :=
      Nat.length_repr_le_iff (by decide)
    rw [Message.shownWidth_gutter, Message.shownWidth_margin]
    omega
  rw [← hwidth]
  constructor
  · rintro ⟨place', bar', before, below, hlines', hsame⟩
    have heq := hlines.symm.trans hlines'
    simp only [List.cons.injEq, and_true, String.append_left_inj] at heq
    rw [heq.2.2.1, heq.2.2.2, hsame]
  · exact fun hsame => ⟨place, bar, _, _, hlines, hsame⟩

/-! ## Errors and their excerpts -/

/-- The parser or the resolver refuses the text with the error. -/
inductive Rejects (text : String) : CompileError → Prop
  | grammar {e : SyntaxError} : Program.parse text = .error e → Rejects text (.grammar e)
  | binding {p : Program} {e : BindingError} : Program.parse text = .ok p →
    p.resolve = .error e → Rejects text (.binding e)

theorem Rejects.exists_token {text : String} {e : CompileError} (h : Rejects text e) :
    ∃ t ∈ Token.tokens text, e.pos? = some t.pos := by
  cases h with
  | grammar h =>
    obtain ⟨t, ht, hpos⟩ := Program.exists_token_of_parse_error h
    exact ⟨t, (List.mem_filter.1 ht).1, congrArg some hpos⟩
  | binding hp h =>
    obtain ⟨t, ht, hpos⟩ := Program.exists_token_of_resolve_error hp h
    exact ⟨t, (List.mem_filter.1 ht).1, congrArg some hpos⟩

/-- If a text is refused, then at a token. The line of its row has the first character of the token
at its column; if the token is the end of the text, the line ends there. The message quotes that
line, and its mark is under the token if and only if the number of the line has at most four
digits. -/
theorem errors_point_at_tokens {text : String} {e : CompileError} (h : Rejects text e)
    (file : String) :
    ∃ t ∈ Token.tokens text, e.pos? = some t.pos ∧
      (t.kind ≠ .eof → ∃ l c, (lines text)[t.pos.row]? = some l ∧ l.toList[t.pos.col]? = some c ∧
        t.spelling.toList.head? = some c) ∧
      (t.kind = .eof → t.pos.col = (line text t.pos.row).length) ∧
      Command.compileFailure file text e =
        Message.render ⟨.error, e.message, some ⟨file, text, t.pos⟩⟩ ∧
      ((⟨file, text, t.pos⟩ : Excerpt).Aligned ↔ t.pos.row < 9999) := by
  obtain ⟨t, ht, hpos⟩ := h.exists_token
  refine ⟨t, ht, hpos, Token.exists_line ht, Token.col_of_eof ht, ?_, Excerpt.aligned_iff _⟩
  rw [Command.compileFailure, hpos]
  rfl

/-- An unknown name in a line behind a carriage return and a line feed. -/
def unknownNameText : String := "func f()\r\n\x7b x; \x7d"

theorem errors_point_at_tokens_unknownName :
    Rejects unknownNameText (.binding (.undefinedVariable "x" ⟨12, 1, 2⟩)) ∧
      ∃ t ∈ Token.tokens unknownNameText, t.pos = ⟨12, 1, 2⟩ ∧
        (lines unknownNameText)[1]? = some "\x7b x; \x7d" ∧
        (⟨"main.prime", unknownNameText, t.pos⟩ : Excerpt).Aligned := by
  have heval : ((Program.parse unknownNameText).toOption.any fun p => decide
      ((p.resolve.map fun _ => ()) = .error (.undefinedVariable "x" ⟨12, 1, 2⟩))) = true := by
    decide +kernel
  have hrejects : Rejects unknownNameText (.binding (.undefinedVariable "x" ⟨12, 1, 2⟩)) := by
    cases hp : Program.parse unknownNameText with
    | error e =>
      rw [hp] at heval
      cases heval
    | ok p =>
      rw [hp] at heval
      refine .binding hp ?_
      have herror := of_decide_eq_true (heval :)
      cases hresolve : p.resolve with
      | error e =>
        rw [hresolve] at herror
        exact congrArg _ (Except.error.inj herror)
      | ok R =>
        rw [hresolve] at herror
        cases herror
  obtain ⟨t, ht, hpos, -, -, -, haligned⟩ := errors_point_at_tokens hrejects "main.prime"
  have hplace : t.pos = ⟨12, 1, 2⟩ := (Option.some.inj hpos).symm
  exact ⟨hrejects, t, ht, hplace, by decide +kernel, haligned.2 (by rw [hplace]; decide)⟩

/-- A name where a function is due, below empty lines. -/
def nameBelow (rows : Nat) : String := .ofList (List.replicate rows '\n' ++ ['x'])

theorem tokensFrom_lineFeeds (n offset row : Nat) (cs : List Char) :
    Token.tokensFrom ⟨offset, row, 0⟩ (List.replicate n '\n' ++ cs) =
      Token.tokensFrom ⟨offset + n, row + n, 0⟩ cs := by
  induction n generalizing offset row with
  | zero => rfl
  | succ n ih =>
    have hfeed : (Pos.mk offset row 0).advance '\n' = ⟨offset + 1, row + 1, 0⟩ := rfl
    rw [List.replicate_succ, List.cons_append, Token.tokensFrom_blank isBlank_lineFeed, hfeed, ih,
      Nat.add_assoc, Nat.add_assoc, Nat.add_comm 1]

theorem tokens_nameBelow (rows : Nat) : Token.tokens (nameBelow rows) =
    [⟨.ident, "x", ⟨rows, rows, 0⟩⟩, ⟨.eof, "", ⟨rows + 1, rows, 1⟩⟩] := by
  rw [Token.tokens, nameBelow, String.toList_ofList, Pos.start, tokensFrom_lineFeeds, Nat.zero_add,
    Token.tokensFrom_lexeme (by decide)]
  exact congrArg _ (Token.tokensFrom_nil _)

theorem rejects_nameBelow (rows : Nat) : Rejects (nameBelow rows)
    (.grammar (.unexpected "function declaration" "'x'" ⟨rows, rows, 0⟩)) := by
  refine .grammar ?_
  rw [Program.parse, tokens_nameBelow]
  rfl

/-- In the line with number ten thousand the mark is not under the name. -/
theorem errors_point_at_tokens_nameBelow : ∃ e, Rejects (nameBelow 9999) e ∧
    ∃ t ∈ Token.tokens (nameBelow 9999), e.pos? = some t.pos ∧ t.kind ≠ .eof ∧
      ¬ (⟨"main.prime", nameBelow 9999, t.pos⟩ : Excerpt).Aligned := by
  refine ⟨_, rejects_nameBelow 9999, ⟨.ident, "x", ⟨9999, 9999, 0⟩⟩, ?_, rfl, by decide, ?_⟩
  · rw [tokens_nameBelow]
    exact List.mem_cons_self
  · rw [Excerpt.aligned_iff]
    exact Nat.lt_irrefl 9999

end PrimeLang
