import PrimeLang.Machine.Record

/-! # Reading from streams

A stream may hand out bytes in pieces of any size, and reads may be interrupted. What is read
depends only on the bytes: the records are cut off one after the other, whatever they hold. -/

namespace PrimeLang.Machine.ByteStream

/-- The stream hands out `bs` in pieces, with any number of interruptions between them. -/
inductive Delivers : ByteStream → List UInt8 → Prop
  | done : Delivers [] []
  | interrupted {s : ByteStream} {bs : List UInt8} : Delivers s bs →
    Delivers (.interrupted :: s) bs
  | piece {s : ByteStream} {bs cs : List UInt8} : cs ≠ [] → Delivers s bs →
    Delivers (.bytes cs :: s) (cs ++ bs)

/-- The stream that hands out all bytes at once. -/
def whole (bs : List UInt8) : ByteStream := [.bytes bs]

/-- What the bytes of the next record are read as, if there are no others. -/
def recordResult (bs : List UInt8) : Except DecodeError (Option Instruction) :=
  if bs = [] then .ok none
  else if bs.length < recordSize then .error (.truncated bs.length)
  else (Instruction.ofBytes bs).map some

/-- The results of `k` reads, one after the other, and what the stream goes on with. -/
def reads : Nat → ByteStream → List (Except DecodeError (Option Instruction)) × ByteStream
  | 0, s => ([], s)
  | k + 1, s =>
    let (r, s) := s.next
    let (rs, s) := reads k s
    (r :: rs, s)

/-! ## One record -/

/-- Reading `need` bytes takes them from the front, or all bytes where there are too few. -/
theorem take_of_delivers {s : ByteStream} {bs : List UInt8} (h : Delivers s bs) {need : Nat}
    (hneed : 0 < need) (got : List UInt8) : ∃ rest, Delivers rest (bs.drop need) ∧
      take need got s =
        (if need ≤ bs.length then .ok (some (got ++ bs.take need)) else ended (got ++ bs), rest) := by
  induction h generalizing need got with
  | done =>
    refine ⟨[], by rw [List.drop_nil]; exact .done, ?_⟩
    rw [take, List.length_nil, if_neg (Nat.not_le.2 hneed), List.append_nil]
  | interrupted _ ih =>
    rw [take]
    exact ih hneed got
  | @piece s bs cs hcs hs ih =>
    rw [take, if_neg hcs]
    rcases Nat.lt_trichotomy cs.length need with hlt | heq | hgt
    · -- the piece is used up and the rest of it comes from later ones
      rw [if_pos hlt]
      obtain ⟨rest, hrest, htake⟩ := ih (Nat.sub_pos_of_lt hlt) (got ++ cs)
      refine ⟨rest, ?_, ?_⟩
      · rwa [List.drop_append, List.drop_eq_nil_of_le (Nat.le_of_lt hlt), List.nil_append]
      · have hle : need - cs.length ≤ bs.length ↔ need ≤ (cs ++ bs).length := by
          rw [List.length_append]
          omega
        rw [htake, List.take_append, List.take_of_length_le (Nat.le_of_lt hlt)]
        simp only [hle, List.append_assoc]
    · -- the piece ends with the record
      subst heq
      refine ⟨s, ?_, ?_⟩
      · rwa [List.drop_left]
      · rw [if_neg (Nat.lt_irrefl _), if_pos rfl, List.take_left,
          if_pos (by rw [List.length_append]; omega)]
    · rw [if_neg (by omega), if_neg (by omega)]
      refine ⟨.bytes (cs.drop need) :: s, ?_, ?_⟩
      · rw [List.drop_append_of_le_length (Nat.le_of_lt hgt)]
        refine .piece (fun hnil => ?_) hs
        rw [List.drop_eq_nil_iff] at hnil
        omega
      · rw [List.take_append_of_le_length (Nat.le_of_lt hgt),
          if_pos (by rw [List.length_append]; omega)]

/-- A read takes the bytes of one record, whatever it makes of them. -/
theorem next_of_delivers {s : ByteStream} {bs : List UInt8} (h : Delivers s bs) :
    ∃ rest, Delivers rest (bs.drop recordSize) ∧
      s.next = (recordResult (bs.take recordSize), rest) := by
  obtain ⟨rest, hrest, htake⟩ := take_of_delivers h (by decide : 0 < recordSize) []
  refine ⟨rest, hrest, ?_⟩
  rw [next, htake, recordResult]
  by_cases hle : recordSize ≤ bs.length
  · have hlen : (bs.take recordSize).length = recordSize := List.length_take_of_le hle
    have hne : bs.take recordSize ≠ [] := by
      intro hnil
      rw [hnil] at hlen
      cases hlen
    rw [if_pos hle, if_neg hne, if_neg (by omega), List.nil_append]
  · rw [if_neg hle, List.nil_append, List.take_of_length_le (by omega), ended]
    by_cases hnil : bs = []
    · rw [if_pos hnil, if_pos hnil]
    · rw [if_neg hnil, if_neg hnil, if_pos (by omega)]

theorem delivers_whole {bs : List UInt8} (h : bs ≠ []) : Delivers (whole bs) bs := by
  have hwhole : Delivers (whole bs) (bs ++ []) := .piece h .done
  rwa [List.append_nil] at hwhole

theorem next_whole (bs : List UInt8) :
    ∃ rest, Delivers rest (bs.drop recordSize) ∧
      (whole bs).next = (recordResult (bs.take recordSize), rest) := by
  by_cases hbs : bs = []
  · subst hbs
    exact ⟨[], .done, rfl⟩
  · exact next_of_delivers (delivers_whole hbs)

/-! ## All records -/

/-- The bytes from the `i`th record on. -/
theorem drop_recordSize (bs : List UInt8) (i : Nat) :
    (bs.drop recordSize).drop (recordSize * i) = bs.drop (recordSize * (i + 1)) := by
  rw [List.drop_drop, Nat.mul_succ, Nat.add_comm]

/-- What `k` reads make of bytes. -/
def results (k : Nat) (bs : List UInt8) : List (Except DecodeError (Option Instruction)) :=
  (List.range k).map fun i => recordResult ((bs.drop (recordSize * i)).take recordSize)

theorem results_succ (k : Nat) (bs : List UInt8) :
    results (k + 1) bs =
      recordResult (bs.take recordSize) :: results k (bs.drop recordSize) := by
  simp only [results, List.range_succ_eq_map, List.map_cons, List.map_map, Function.comp_def,
    Nat.succ_eq_add_one, drop_recordSize, Nat.mul_zero, List.drop_zero]

theorem reads_of_next {s rest : ByteStream} {bs : List UInt8} (hs : s.next =
    (recordResult (bs.take recordSize), rest)) {k : Nat} (hrest : (reads k rest).1 =
      results k (bs.drop recordSize)) : (reads (k + 1) s).1 = results (k + 1) bs ∧
      (reads (k + 1) s).2 = (reads k rest).2 := by
  rw [reads, hs, results_succ]
  exact ⟨congrArg _ hrest, rfl⟩

/-- `k` reads take the bytes of `k` records. -/
theorem reads_of_delivers {s : ByteStream} {bs : List UInt8} (h : Delivers s bs) (k : Nat) :
    (reads k s).1 = results k bs ∧ Delivers (reads k s).2 (bs.drop (recordSize * k)) := by
  induction k generalizing s bs with
  | zero => exact ⟨rfl, h⟩
  | succ k ih =>
    obtain ⟨rest, hrest, hnext⟩ := next_of_delivers h
    obtain ⟨hresults, hleft⟩ := ih hrest
    obtain ⟨hresults, heq⟩ := reads_of_next hnext hresults
    rw [drop_recordSize] at hleft
    exact ⟨hresults, heq ▸ hleft⟩

theorem fst_reads_whole (bs : List UInt8) (k : Nat) : (reads k (whole bs)).1 = results k bs := by
  cases k with
  | zero => rfl
  | succ k =>
    obtain ⟨rest, hrest, hnext⟩ := next_whole bs
    exact (reads_of_next hnext (reads_of_delivers hrest k).1).1

/-- Reading a program goes on after every record that is an instruction. -/
theorem program_eq (s : ByteStream) : program s = s.next.1.bind fun r =>
    r.elim (.ok []) fun i => (program s.next.2).map (i :: ·) := by
  rw [program]
  split
  · next i rest hnext =>
    show (program rest).map (i :: ·) = _
    rw [hnext]
    rfl
  · next rest hnext =>
    rw [hnext]
    rfl
  · next e rest hnext =>
    rw [hnext]
    rfl

theorem length_of_recordResult {bs : List UInt8} {i : Instruction}
    (h : recordResult bs = .ok (some i)) : recordSize ≤ bs.length := by
  rw [recordResult] at h
  split at h
  · cases h
  · split at h
    · cases h
    · next hlt => exact Nat.le_of_not_lt hlt

theorem program_of_delivers {s s' : ByteStream} {bs : List UInt8} (h : Delivers s bs)
    (h' : Delivers s' bs) : program s = program s' := by
  induction hlen : bs.length using Nat.strongRecOn generalizing s s' bs with
  | ind n ih =>
    obtain ⟨rest, hrest, hnext⟩ := next_of_delivers h
    obtain ⟨rest', hrest', hnext'⟩ := next_of_delivers h'
    rw [program_eq s, program_eq s', hnext, hnext']
    cases hresult : recordResult (bs.take recordSize) with
    | error e => rfl
    | ok r =>
      cases r with
      | none => rfl
      | some i =>
        have hfull := length_of_recordResult hresult
        have hshort : (bs.drop recordSize).length < n := by
          rw [List.length_take] at hfull
          rw [List.length_drop, ← hlen]
          have hpos : 0 < recordSize := by decide
          omega
        have hsame : program rest = program rest' := ih _ hshort hrest hrest' rfl
        show (program rest).map (i :: ·) = (program rest').map (i :: ·)
        rw [hsame]

theorem program_of_no_bytes {s : ByteStream} (h : Delivers s []) : program s = .ok [] := by
  obtain ⟨rest, -, hnext⟩ := next_of_delivers h
  rw [program_eq, hnext]
  rfl

theorem program_eq_whole {s : ByteStream} {bs : List UInt8} (h : Delivers s bs) :
    program s = program (whole bs) := by
  by_cases hbs : bs = []
  · subst hbs
    rw [program_of_no_bytes h, program_eq]
    rfl
  · exact program_of_delivers h (delivers_whole hbs)

/-- What is read does not depend on how the bytes arrive. Every read takes the bytes of one record,
or all bytes if there are fewer, whatever it makes of them, so that the `i`th read is about the
`i`th record. -/
theorem reading_ignores_delivery {s : ByteStream} {bs : List UInt8} (h : Delivers s bs) :
    program s = program (whole bs) ∧ ∀ k,
      (reads k s).1 = (reads k (whole bs)).1 ∧ Delivers (reads k s).2 (bs.drop (16 * k)) ∧
      ∀ i < k, (reads k s).1[i]? = some (recordResult ((bs.drop (16 * i)).take 16)) := by
  refine ⟨program_eq_whole h, fun k => ?_⟩
  obtain ⟨hresults, hleft⟩ := reads_of_delivers h k
  refine ⟨hresults.trans (fst_reads_whole bs k).symm, hleft, fun i hi => ?_⟩
  rw [hresults, results, List.getElem?_map, List.getElem?_range hi]
  rfl

/-- A record that is none, an instruction and three bytes more, in pieces that cut across them. -/
def brokenDelivery : ByteStream :=
  [.interrupted, .bytes [9, 0, 0], .interrupted, .interrupted,
    .bytes [0, 0, 0, 0, 0, 0, 0, 0, 0, 0, 0, 0, 0, 3, 0, 0], .bytes [0], .interrupted,
    .bytes [0, 0, 0, 0, 0, 0, 0, 0, 0xfe, 0xff, 0xff, 0xff, 6, 0], .bytes [0], .interrupted]

def brokenBytes : List UInt8 :=
  [9, 0, 0, 0, 0, 0, 0, 0, 0, 0, 0, 0, 0, 0, 0, 0, 3, 0, 0, 0, 0, 0, 0, 0, 0, 0, 0, 0, 0xfe, 0xff,
    0xff, 0xff, 6, 0, 0]

theorem reading_ignores_delivery_broken : Delivers brokenDelivery brokenBytes ∧
    program brokenDelivery = .error (.unknownOpcode 9) ∧
    (reads 4 brokenDelivery).1 = [.error (.unknownOpcode 9),
      .ok (some ⟨.loadLiteral, .cb, 0, -2⟩), .error (.truncated 3), .ok none] := by
  have h : Delivers brokenDelivery brokenBytes :=
    .interrupted (.piece (by decide) (.interrupted (.interrupted (.piece (by decide)
      (.piece (by decide) (.interrupted (.piece (by decide) (.piece (by decide)
        (.interrupted .done)))))))))
  obtain ⟨hprogram, hreads⟩ := reading_ignores_delivery h
  refine ⟨h, ?_, ?_⟩
  · rw [hprogram, program_eq]
    rfl
  · rw [(hreads 4).1]
    rfl

end PrimeLang.Machine.ByteStream
