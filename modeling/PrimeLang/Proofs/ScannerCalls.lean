import PrimeLang.Proofs.TokenPlaces

/-! # Tokens on demand

A scanner is asked for its next token in two ways, which share all of its state but the mark that
one of them has seen the end. However the calls are mixed, what a scanner still has to hand out
(`Scanner.ahead`) is a rest of the tokens of its text. Each call that returns a token takes the
first one off, unless it is the only one left (`Scanner.answer_cases`). -/

namespace PrimeLang

namespace Token

theorem tokensFrom_of_first {pos pos' : Pos} {cs rest : List Char} {t : Token}
    (h : first pos cs = (t, pos', rest)) :
    tokensFrom pos cs = if t.kind = .eof then [t] else t :: tokensFrom pos' rest := by
  rw [tokensFrom]
  split
  next t₁ pos₁ rest₁ h₁ =>
  cases h₁.symm.trans h
  split <;> rfl

/-- The end of the text is found behind all characters. -/
theorem first_eq_of_eof {pos pos' : Pos} {cs rest : List Char} {t : Token}
    (h : first pos cs = (t, pos', rest)) (ht : t.kind = .eof) :
    rest = [] ∧ t = ⟨.eof, "", pos'⟩ := by
  induction cs generalizing pos with
  | nil =>
    cases h
    exact ⟨rfl, rfl⟩
  | cons c cs ih =>
    rw [first] at h
    split at h
    · exact ih h
    · cases h
      exact absurd ht (lexeme_ne_eof c cs)

end Token

namespace Scanner

/-- The tokens that the scanner has not handed out. The end of the text is always among them. -/
def ahead (s : Scanner) : List Token := Token.tokensFrom s.pos s.rest

/-- What is ahead when the first token is handed out, which stays if it is the only one. -/
def afterFirst : List Token → List Token
  | [t] => [t]
  | ts => ts.tail

/-- The next token is the first one ahead, and the end of the text is the last one. -/
theorem token_eq (s : Scanner) :
    ∃ t ts, s.ahead = t :: ts ∧ s.token.1 = t ∧ s.token.2.ahead = afterFirst (t :: ts) ∧
      (t.kind = .eof ↔ ts = []) := by
  obtain ⟨t, pos, rest, hfirst⟩ : ∃ t pos rest, Token.first s.pos s.rest = (t, pos, rest) :=
    ⟨_, _, _, rfl⟩
  have htoken : s.token = (t, { s with pos, rest }) := by rw [token, hfirst]
  rw [htoken, ahead, Token.tokensFrom_of_first hfirst]
  by_cases ht : t.kind = .eof
  · obtain ⟨rfl, rfl⟩ := Token.first_eq_of_eof hfirst ht
    exact ⟨_, [], rfl, rfl, Token.tokensFrom_nil pos, by simp⟩
  · obtain ⟨body, hbody, -⟩ := Token.exists_body pos rest
    obtain ⟨u, us, hus⟩ := List.exists_cons_of_ne_nil
      (show Token.tokensFrom pos rest ≠ [] by simp [hbody])
    rw [if_neg ht, hus]
    exact ⟨t, u :: us, rfl, rfl, hus, by simp [ht]⟩

/-! ## Calls -/

/-- The ways to ask for the next token. -/
inductive Call where
  | token
  | next
deriving DecidableEq, Repr

/-- The answer to a call, and the scanner after it. -/
def answer (s : Scanner) : Call → Option Token × Scanner
  | .token => (some s.token.1, s.token.2)
  | .next => s.next?

/-- Calls one after the other, each with its answer. -/
def trace (s : Scanner) : List Call → List (Call × Option Token)
  | [] => []
  | call :: calls => (call, (s.answer call).1) :: (s.answer call).2.trace calls

/-- A call of `next?` on a scanner that has ended answers nothing. Any other call hands out the
first token ahead, and marks that this was the end if it is a call of `next?`. -/
theorem answer_cases (s : Scanner) (call : Call) :
    (call = .next ∧ s.ended = true ∧ s.answer call = (none, s)) ∨
    ∃ t ts s', ¬ (call = .next ∧ s.ended = true) ∧ s.ahead = t :: ts ∧
      s.answer call = (some t, s') ∧ s'.ahead = afterFirst (t :: ts) ∧
      (t.kind = .eof ↔ ts = []) ∧
      (s'.ended = true ↔ s.ended = true ∨ call = .next ∧ t.kind = .eof) := by
  obtain ⟨t, ts, hahead, ht, hafter, hend⟩ := s.token_eq
  cases call with
  | token =>
    exact .inr ⟨t, ts, s.token.2, by simp, hahead, by rw [answer, ht], hafter, hend,
      by simp [token]⟩
  | next =>
    cases hs : s.ended with
    | true => exact .inl ⟨rfl, rfl, by simp [answer, next?, hs]⟩
    | false =>
      refine .inr ⟨t, ts, { s.token.2 with ended := t.kind = .eof }, by simp, hahead, ?_, hafter,
        hend, by simp⟩
      simp [answer, next?, hs, ht]

/-! ## Traces -/

/-- The `i`-th token that is handed out is the `i`-th one ahead, or the last one. -/
theorem getElem?_tokens_trace {s : Scanner} {calls : List Call} {i : Nat} {t : Token}
    (h : ((s.trace calls).filterMap Prod.snd)[i]? = some t) :
    s.ahead[min i (s.ahead.length - 1)]? = some t := by
  induction calls generalizing s i with
  | nil => simp [trace] at h
  | cons call calls ih =>
    rw [trace] at h
    rcases s.answer_cases call with ⟨-, -, hanswer⟩ | ⟨u, us, s', -, hahead, hanswer, hafter, -⟩
    · rw [hanswer] at h
      exact ih h
    · have h : (u :: (s'.trace calls).filterMap Prod.snd)[i]? = some t := by rwa [hanswer] at h
      rw [hahead]
      cases i with
      | zero => simpa using h
      | succ i =>
        have ih := ih h
        rw [hafter] at ih
        cases us with
        | nil => simpa [afterFirst] using ih
        | cons v vs =>
          have hmin : min (i + 1) ((u :: v :: vs).length - 1) =
              min i ((v :: vs).length - 1) + 1 := by
            simp only [List.length_cons]
            omega
          rw [hmin, List.getElem?_cons_succ]
          exact ih

/-- A call of `next?` answers nothing if the scanner had ended before, or a call of `next?` since
then has handed out the end of the text. -/
theorem next_none_iff {s : Scanner} {calls : List Call} {before after : List (Call × Option Token)}
    {o : Option Token} (h : s.trace calls = before ++ (.next, o) :: after) :
    o = none ↔ s.ended = true ∨ ∃ t, (.next, some t) ∈ before ∧ t.kind = .eof := by
  induction calls generalizing s before with
  | nil => simp [trace] at h
  | cons call calls ih =>
    rw [trace] at h
    rcases s.answer_cases call with
      ⟨rfl, hs, hanswer⟩ | ⟨t, ts, s', hcall, -, hanswer, -, -, hended⟩
    · rw [hanswer] at h
      cases before with
      | nil =>
        cases h
        simp [hs]
      | cons b before =>
        rw [List.cons_append, List.cons.injEq] at h
        rw [ih h.2, ← h.1]
        simp [hs]
    · rw [hanswer] at h
      cases before with
      | nil =>
        cases h
        simpa using hcall
      | cons b before =>
        rw [List.cons_append, List.cons.injEq] at h
        rw [ih h.2, hended, ← h.1]
        simp only [List.mem_cons, Prod.mk.injEq, Option.some.injEq]
        constructor
        · rintro ((hs | ⟨rfl, ht⟩) | ⟨u, hu, hk⟩)
          · exact .inl hs
          · exact .inr ⟨t, .inl ⟨rfl, rfl⟩, ht⟩
          · exact .inr ⟨u, .inr hu, hk⟩
        · rintro (hs | ⟨u, ⟨rfl, rfl⟩ | hu, hk⟩)
          · exact .inl (.inl hs)
          · exact .inl (.inr ⟨rfl, hk⟩)
          · exact .inr ⟨u, hu, hk⟩

/-- A scanner that has ended answers nothing to `next?`, however often it is called. -/
theorem trace_next_of_ended {s : Scanner} (hs : s.ended = true) (n : Nat) :
    s.trace (List.replicate n .next) = List.replicate n (.next, none) := by
  induction n with
  | zero => rfl
  | succ n ih =>
    have hanswer : s.answer .next = (none, s) := by simp [answer, next?, hs]
    rw [List.replicate_succ, List.replicate_succ, trace, hanswer, ih]

/-- Calls of `next?` alone hand out what is ahead, each token once, and nothing after that. -/
theorem trace_next {s : Scanner} {ts : List Token} (hs : s.ended = false) (hts : s.ahead = ts)
    (n : Nat) : s.trace (List.replicate (ts.length + n) .next) =
      ts.map (fun t => (.next, some t)) ++ List.replicate n (.next, none) := by
  induction ts generalizing s with
  | nil =>
    obtain ⟨t, ts, hahead, -⟩ := s.token_eq
    cases hts.symm.trans hahead
  | cons t ts ih =>
    rcases s.answer_cases .next with
      ⟨-, hended, -⟩ | ⟨u, us, s', -, hahead, hanswer, hafter, hend, hended⟩
    · cases hs.symm.trans hended
    cases hts.symm.trans hahead
    rw [List.length_cons, Nat.add_right_comm, List.replicate_succ, trace, hanswer, List.map_cons,
      List.cons_append]
    refine congrArg _ ?_
    cases ts with
    | nil =>
      rw [List.length_nil, Nat.zero_add]
      exact trace_next_of_ended (hended.2 (.inr ⟨rfl, hend.2 rfl⟩)) n
    | cons v vs =>
      refine ih (Bool.eq_false_iff.2 fun h => ?_) hafter
      rcases hended.1 h with h | ⟨-, h⟩
      · cases hs.symm.trans h
      · cases hend.1 h

theorem isSome_of_mem_trace {s : Scanner} {calls : List Call} {o : Option Token}
    (h : (.token, o) ∈ s.trace calls) : o.isSome := by
  induction calls generalizing s with
  | nil => simp [trace] at h
  | cons call calls ih =>
    rcases List.mem_cons.1 h with h | h
    · cases h
      rfl
    · exact ih h

/-- Calls can be mixed freely. With `tokens text`, which is what `next?` hands out when it is called
until it answers nothing, the `i`-th answer that is a token is the `i`-th of these, or the last one,
so that the end of the text is repeated. The answer to `token` is always a token, and the answer to
`next?` is none if and only if `next?` has handed out the end of the text before. -/
theorem calls_interleave (text : String) (calls : List Call) :
    (∀ n, (ofText text).trace (List.replicate ((Token.tokens text).length + n) .next) =
      (Token.tokens text).map (fun t => (.next, some t)) ++ List.replicate n (.next, none)) ∧
    (∀ i t, (((ofText text).trace calls).filterMap Prod.snd)[i]? = some t →
      (Token.tokens text)[min i ((Token.tokens text).length - 1)]? = some t) ∧
    (∀ o, (.token, o) ∈ (ofText text).trace calls → o.isSome) ∧
    ∀ before o after, (ofText text).trace calls = before ++ (.next, o) :: after →
      (o = none ↔ ∃ t, (.next, some t) ∈ before ∧ t.kind = .eof) := by
  refine ⟨trace_next rfl rfl, fun i t => getElem?_tokens_trace, fun o => isSome_of_mem_trace,
    fun before o after h => ?_⟩
  rw [next_none_iff h]
  simp [ofText]

end Scanner
end PrimeLang
