import PrimeLang.Proofs.ParserPlaces
import PrimeLang.Proofs.Renaming

/-! # Positions and comments do not matter

Two texts whose tokens have the same kinds and spellings, comments apart, compile to the same code,
or fail with the same error, and only positions differ (`compile_independent_of_positions`). Blanks
and comments between two tokens change no kind and no spelling, so they can be put in anywhere but
for one place: a comment right behind a division sign takes that sign with it. -/

namespace PrimeLang

/-- The program with all positions forgotten. -/
def Program.unplaced (p : Program) : Program := p.relabel (.ofPlaces Pos.forget)

/-- The error with its position forgotten. -/
def CompileError.unplaced : CompileError → CompileError
  | grammar e => grammar (e.move Pos.forget)
  | binding e => binding (e.relabel (.ofPlaces Pos.forget))
  | unresolved e => unresolved e

/-- Both compile to the same code, or fail with the same error, but for positions. -/
inductive SameButPlaces : Except CompileError (Program × Object) →
    Except CompileError (Program × Object) → Prop
  | ok {p p' : Program} {o : Object} : p.unplaced = p'.unplaced →
    SameButPlaces (.ok (p, o)) (.ok (p', o))
  | error {e e' : CompileError} : e.unplaced = e'.unplaced → SameButPlaces (.error e) (.error e')

/-! ## How compilation ends -/

section
variable {text : String} {p : Program}

theorem compile_of_parse_error {e : SyntaxError} (h : Program.parse text = .error e) :
    compile text = .error (.grammar e) := by
  simp [compile, h, Except.mapError, bind, Except.bind]

theorem compile_of_resolve_error (hp : Program.parse text = .ok p) {e : BindingError}
    (h : p.resolve = .error e) : compile text = .error (.binding e) := by
  simp [compile, Program.compile, hp, h, Except.mapError, bind, Except.bind]

theorem compile_of_generate_ok (hp : Program.parse text = .ok p) {R : Resolution}
    (hR : p.resolve = .ok R) {o : Object} (ho : p.generate R = .ok o) :
    compile text = .ok (p, o) := by
  simp [compile, Program.compile, hp, hR, ho, Except.mapError, bind, Except.bind, pure, Except.pure]

end

/-! ## Tokens of the same kinds and spellings -/

theorem resolve_unplaced (p : Program) :
    p.unplaced.resolve = (p.resolve.map fun R => R).mapError (.relabel (.ofPlaces Pos.forget)) := by
  rw [Program.unplaced, Program.resolve_relabel fun _ _ h => h]
  cases p.resolve <;> rfl

theorem generate_unplaced {p : Program} {R : Resolution} {o : Object} (ho : p.generate R = .ok o) :
    p.unplaced.generate R = .ok o :=
  Program.generate_relabel (fun _ => Iff.rfl) ho

namespace Program

/-- Programs that are the same but for positions are resolved and generated alike. -/
theorem generate_congr {c c' : Cursor} {p p' : Program} (hp : ofTokens c = .ok p)
    (hp' : ofTokens c' = .ok p') (h : p.unplaced = p'.unplaced) :
    (∃ R o, p.resolve = .ok R ∧ p.generate R = .ok o ∧ p'.resolve = .ok R ∧
      p'.generate R = .ok o) ∨
    ∃ e e' : BindingError, p.resolve = .error e ∧ p'.resolve = .error e' ∧
      e.relabel (.ofPlaces Pos.forget) = e'.relabel (.ofPlaces Pos.forget) := by
  have hsame := congrArg resolve h
  rw [resolve_unplaced, resolve_unplaced] at hsame
  rcases sameResult_cases hsame with ⟨R, _, hR, hR', rfl⟩ | ⟨e, e', he, he', hee⟩
  · obtain ⟨o, ho⟩ := exists_generate hp hR
    obtain ⟨o', ho'⟩ := exists_generate hp' hR'
    have hcode := generate_unplaced ho
    rw [h, generate_unplaced ho'] at hcode
    cases hcode
    exact .inl ⟨R, o, hR, ho, hR', ho'⟩
  · exact .inr ⟨e, e', he, he', hee⟩

/-- Tokens of the same kinds and spellings make the same program but for positions. -/
theorem ofTokens_congr {c c' : Cursor}
    (h : c.rest.map Token.content = c'.rest.map Token.content) :
    (∃ p p', ofTokens c = .ok p ∧ ofTokens c' = .ok p' ∧ p.unplaced = p'.unplaced) ∨
    ∃ e e', ofTokens c = .error e ∧ ofTokens c' = .error e' ∧
      e.move Pos.forget = e'.move Pos.forget := by
  rcases Source.parse_congr h with ⟨fs, fs', hfs, hfs', hsame⟩ | ⟨e, e', he, he', hee⟩
  · refine .inl ⟨_, _, ofTokens_eq_ok.2 ⟨fs, hfs, rfl⟩, ofTokens_eq_ok.2 ⟨fs', hfs', rfl⟩, ?_⟩
    rw [unplaced, unplaced, ← ofSource_relabel, ← ofSource_relabel, hsame]
  · exact .inr ⟨e, e', congrArg (Except.map _) he, congrArg (Except.map _) he', hee⟩

end Program

theorem sameButPlaces_of_content {text text' : String}
    (h : (Token.significant text).map Token.content = (Token.significant text').map Token.content) :
    SameButPlaces (compile text) (compile text') := by
  rcases @Program.ofTokens_congr (.ofTokens (Token.tokens text)) (.ofTokens (Token.tokens text')) h
    with ⟨p, p', hp, hp', hsame⟩ | ⟨e, e', he, he', hee⟩
  · rcases Program.generate_congr hp hp' hsame with
      ⟨R, o, hR, ho, hR', ho'⟩ | ⟨e, e', he, he', hee⟩
    · rw [compile_of_generate_ok hp hR ho, compile_of_generate_ok hp' hR' ho']
      exact .ok hsame
    · rw [compile_of_resolve_error hp he, compile_of_resolve_error hp' he']
      exact .error (congrArg CompileError.binding hee)
  · rw [compile_of_parse_error he, compile_of_parse_error he']
    exact .error (congrArg CompileError.grammar hee)

/-! ## Blanks and comments -/

/-- Positions and comments have no influence on compilation. Texts whose tokens have the same kinds
and spellings, comments apart, compile to the same but for positions. So does a text into which
blanks and comments are put without splitting a token, where a comment does not follow a division
sign at once. -/
theorem compile_independent_of_positions :
    (∀ text text' : String,
      (Token.significant text).map Token.content = (Token.significant text').map Token.content →
      SameButPlaces (compile text) (compile text')) ∧
    ∀ before gap after : String, Token.Gap gap.toList →
      (∀ t ∈ Token.tokens (before ++ after), ¬ t.Splits before.utf8ByteSize) →
      (gap.toList.head? = some '/' →
        ∀ t ∈ Token.tokens (before ++ after), ¬ t.DividesAt before.utf8ByteSize) →
      SameButPlaces (compile (before ++ after)) (compile (before ++ gap ++ after)) := by
  refine ⟨fun text text' => sameButPlaces_of_content, fun before gap after hgap hsplit hslash => ?_⟩
  refine sameButPlaces_of_content ?_
  rw [Token.map_content_significant, Token.map_content_significant, String.append_assoc,
    String.toList_append, String.toList_append, String.toList_append]
  have hoffset : Pos.start.offset + String.utf8Len before.toList = before.utf8ByteSize := by
    rw [String.utf8Len_toList, Pos.start, Nat.zero_add]
  rw [Token.tokens, String.toList_append, ← hoffset] at hsplit hslash
  exact (Token.significantOf_insert hgap .start before.toList hsplit hslash).symm

/-- A program up to a division sign. -/
def dividend : String := "func main() \x7b int x := 6 /"

/-- The same program behind the sign. -/
def divisor : String := " 2; \x7d"

/-- A comment behind a division sign, on a line of its own. -/
theorem compile_independent_of_positions_divided :
    ∃ p p' o, compile (dividend ++ divisor) = .ok (p, o) ∧
      compile (dividend ++ "\n// by\n" ++ divisor) = .ok (p', o) ∧ p.unplaced = p'.unplaced := by
  have hline : "\n// by\n".toList = '\n' :: '/' :: '/' :: ([' ', 'b', 'y'] ++ ['\n']) := by decide
  have hgap : Token.Gap "\n// by\n".toList := by
    rw [hline]
    exact .blank (by decide) (.comment (by simp) .nil)
  obtain ⟨p, R, hp, hR⟩ := Program.exists_resolve_of_eval (dividend ++ divisor) (by decide +kernel)
  obtain ⟨o, ho⟩ := Program.exists_generate hp hR
  have hsame := compile_independent_of_positions.2 dividend "\n// by\n" divisor hgap
    (by decide +kernel) fun h => absurd h (by decide)
  rw [compile_of_generate_ok hp hR ho] at hsame
  generalize hmoved : compile (dividend ++ "\n// by\n" ++ divisor) = c at hsame
  cases hsame with
  | ok h => exact ⟨p, _, o, compile_of_generate_ok hp hR ho, rfl, h⟩

/-- A comment right behind a division sign is between two tokens, but the sign becomes a part of it:
the text compiles without the comment and does not with it. -/
theorem compile_depends_on_comment_behind_slash :
    Token.Gap "// by\n".toList ∧
      (∀ t ∈ Token.tokens (dividend ++ divisor), ¬ t.Splits dividend.utf8ByteSize) ∧
      (∃ p o, compile (dividend ++ divisor) = .ok (p, o)) ∧
      ¬ SameButPlaces (compile (dividend ++ divisor))
        (compile (dividend ++ "// by\n" ++ divisor)) := by
  have hline : "// by\n".toList = '/' :: '/' :: ([' ', 'b', 'y'] ++ ['\n']) := by decide
  have hgap : Token.Gap "// by\n".toList := by
    rw [hline]
    exact .comment (by simp) .nil
  obtain ⟨p, R, hp, hR⟩ := Program.exists_resolve_of_eval (dividend ++ divisor) (by decide +kernel)
  obtain ⟨o, ho⟩ := Program.exists_generate hp hR
  have hcompile := compile_of_generate_ok hp hR ho
  refine ⟨hgap, by decide +kernel, ⟨p, o, hcompile⟩, fun hsame => ?_⟩
  have hfails : (compile (dividend ++ "// by\n" ++ divisor)).isOk = false := by decide +kernel
  rw [hcompile] at hsame
  generalize compile (dividend ++ "// by\n" ++ divisor) = c at hsame hfails
  cases hsame with
  | ok _ => cases hfails

end PrimeLang
