import PrimeLang.Machine.Instruction

/-! # Object files

An object file is a sequence of records of sixteen bytes: operation, register, length and
displacement as 32-bit words, least significant byte first. It is read from a stream that may hand
it out in pieces. -/

namespace PrimeLang.Machine

/-- Bytes of an instruction record. -/
def recordSize : Nat := 16

/-- The bytes of a word, least significant first. -/
def wordBytes (w : Int32) : List UInt8 :=
  let n := w.toUInt32.toNat
  [n, n / 0x100, n / 0x10000, n / 0x1000000].map UInt8.ofNat

/-- The word with the given bytes, least significant first. -/
def wordOfBytes (bs : List UInt8) : Int32 :=
  (UInt32.ofNat (bs.foldr (fun b n => b.toNat + 256 * n) 0)).toInt32

/-- Why bytes are no object file. -/
inductive DecodeError where
  /-- The stream failed. -/
  | stream (reason : String)
  | unknownOpcode (word : Int32)
  | unknownRegister (word : Int32)
  /-- The stream ended after `length` bytes of a record. -/
  | truncated (length : Nat)
deriving DecidableEq, Repr

def DecodeError.message : DecodeError → String
  | stream reason => s!"IO error: {reason}"
  | unknownOpcode word => s!"Unknown opcode: {word.toInt}"
  | unknownRegister word => s!"Unknown register: {word.toInt}"
  | truncated length => s!"Truncated instruction record: {length} of {recordSize} bytes"

namespace Instruction

/-- The record of an instruction. -/
def bytes (i : Instruction) : List UInt8 :=
  wordBytes (.ofNat i.op.number) ++ wordBytes (.ofNat i.r.number) ++ wordBytes i.n ++ wordBytes i.d

/-- The opcode with number `word`. -/
def decodeOpcode (word : Int32) : Except DecodeError Opcode :=
  match if 0 ≤ word.toInt then Opcode.ofNumber? word.toInt.toNat else none with
  | some op => .ok op
  | none => .error (.unknownOpcode word)

/-- The register with number `word`. -/
def decodeRegister (word : Int32) : Except DecodeError Register :=
  match if 0 ≤ word.toInt then Register.ofNumber? word.toInt.toNat else none with
  | some r => .ok r
  | none => .error (.unknownRegister word)

/-- The instruction that a record holds. -/
def ofBytes (bs : List UInt8) : Except DecodeError Instruction := do
  let op ← decodeOpcode (wordOfBytes (bs.take 4))
  let r ← decodeRegister (wordOfBytes ((bs.drop 4).take 4))
  return ⟨op, r, wordOfBytes ((bs.drop 8).take 4), wordOfBytes ((bs.drop 12).take 4)⟩

end Instruction

/-- The object file of a program. -/
def image (code : List Instruction) : List UInt8 := code.flatMap Instruction.bytes

/-! ## Reading from a stream -/

/-- What a read from a stream can meet. -/
inductive Delivery where
  /-- Bytes for one read or several. No bytes end the stream for one read. -/
  | bytes (bs : List UInt8)
  /-- The read has to be tried again. -/
  | interrupted
  | failure (reason : String)
deriving DecidableEq, Repr

/-- What successive reads meet; after that the stream has ended. -/
abbrev ByteStream := List Delivery

namespace ByteStream

/-- Bytes and events left in the stream. -/
def size : ByteStream → Nat
  | [] => 0
  | .bytes bs :: rest => bs.length + 1 + size rest
  | _ :: rest => 1 + size rest

/-- The end of the stream after `got`, which is a clean end only before any byte. -/
def ended (got : List UInt8) : Except DecodeError (Option (List UInt8)) :=
  if got = [] then .ok none else .error (.truncated got.length)

/-- Reads `need` more bytes after `got`, and also returns what the stream goes on with. -/
def take (need : Nat) (got : List UInt8) :
    ByteStream → Except DecodeError (Option (List UInt8)) × ByteStream
  | [] => (ended got, [])
  | .interrupted :: rest => take need got rest
  | .failure reason :: rest => (.error (.stream reason), rest)
  | .bytes bs :: rest =>
    if bs = [] then (ended got, rest)
    else if bs.length < need then take (need - bs.length) (got ++ bs) rest
    else if bs.length = need then (.ok (some (got ++ bs)), rest)
    else (.ok (some (got ++ bs.take need)), .bytes (bs.drop need) :: rest)

theorem size_take_lt {need : Nat} {got bs : List UInt8} {s : ByteStream} (hneed : 0 < need)
    (h : (take need got s).1 = .ok (some bs)) : (take need got s).2.size < s.size := by
  induction s generalizing need got with
  | nil =>
    simp only [take, ended] at h
    split at h <;> simp at h
  | cons d rest ih =>
    cases d with
    | interrupted =>
      have := ih hneed (by simpa [take] using h)
      simp only [take, size]
      omega
    | failure reason => simp [take] at h
    | bytes cs =>
      rw [take] at h ⊢
      split
      · next hcs =>
        rw [if_pos hcs, ended] at h
        split at h <;> simp at h
      · next hcs =>
        rw [if_neg hcs] at h
        split
        · next hlt =>
          rw [if_pos hlt] at h
          have := ih (by omega) h
          simp only [size]
          omega
        · split
          · simp only [size]
            omega
          · simp only [size, List.length_drop]
            omega

/-- Reads one instruction: nothing at a clean end of the stream. -/
def next (s : ByteStream) : Except DecodeError (Option Instruction) × ByteStream :=
  match take recordSize [] s with
  | (.ok (some bs), rest) => ((Instruction.ofBytes bs).map some, rest)
  | (.ok none, rest) => (.ok none, rest)
  | (.error e, rest) => (.error e, rest)

theorem size_next_lt {s rest : ByteStream} {i : Instruction} (h : s.next = (.ok (some i), rest)) :
    rest.size < s.size := by
  rw [next] at h
  split at h
  · next bs rest' htake =>
    have := size_take_lt (by decide : 0 < recordSize) (congrArg Prod.fst htake)
    rw [htake] at this
    rw [← (Prod.mk.inj h).2]
    exact this
  · simp at h
  · simp at h

/-- Reads instructions up to the first clean end of the stream. -/
def program (s : ByteStream) : Except DecodeError (List Instruction) :=
  match h : s.next with
  | (.ok (some i), rest) =>
    have := size_next_lt h
    (program rest).map (i :: ·)
  | (.ok none, _) => .ok []
  | (.error e, _) => .error e
termination_by s.size

end ByteStream
end PrimeLang.Machine
