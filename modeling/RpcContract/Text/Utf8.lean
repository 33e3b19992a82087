/-!
# Text — UTF-8, read leniently

File names are byte strings, and need not be UTF-8.  `lossy` reads any byte string as text: a
well-formed sequence gives its character, and each maximal part of an ill-formed one gives a single
U+FFFD.  A part is maximal when it begins like a well-formed sequence and the next byte, or the end
of the string, rules out every way to finish it; a byte that begins no sequence is a part alone.

The reader is a transducer.  Between bytes it holds the sequence begun and not yet finished, if
any (`Pending`); `step` takes one byte and gives the characters it decides.
-/

namespace RpcContract.Text.Utf8

/-- The character that stands for an ill-formed part. -/
def replacement : Char := '\ufffd'

/-- A sequence of several bytes, begun and not yet finished. -/
structure Pending where
  /-- The number that the bits read so far denote. -/
  code : Nat
  /-- How many bytes are owed after the next one. -/
  more : Nat
  /-- The least number that the next byte may be. -/
  low : Nat
  /-- The greatest number that the next byte may be. -/
  high : Nat
  deriving DecidableEq, Repr

/-- The sequence of several bytes that a byte begins, if any.  The second byte is bounded more
closely after four of the leading bytes: this excludes overlong forms, surrogates and numbers above
U+10FFFF. -/
def Pending.begin? (n : Nat) : Option Pending :=
  if 0xC2 ≤ n ∧ n ≤ 0xDF then some ⟨n - 0xC0, 0, 0x80, 0xBF⟩
  else if n = 0xE0 then some ⟨0, 1, 0xA0, 0xBF⟩
  else if n = 0xED then some ⟨0xD, 1, 0x80, 0x9F⟩
  else if 0xE1 ≤ n ∧ n ≤ 0xEF then some ⟨n - 0xE0, 1, 0x80, 0xBF⟩
  else if n = 0xF0 then some ⟨0, 2, 0x90, 0xBF⟩
  else if 0xF1 ≤ n ∧ n ≤ 0xF3 then some ⟨n - 0xF0, 2, 0x80, 0xBF⟩
  else if n = 0xF4 then some ⟨4, 2, 0x80, 0x8F⟩
  else none

/-- A byte between sequences: the characters it decides, and the sequence it begins. -/
def startByte (n : Nat) : List Char × Option Pending :=
  if n < 0x80 then ([Char.ofNat n], none)
  else
    match Pending.begin? n with
    | some p => ([], some p)
    | none => ([replacement], none)

/-- One byte: the characters it decides, and the sequence then pending. -/
def step (pending : Option Pending) (n : Nat) : List Char × Option Pending :=
  match pending with
  | none => startByte n
  | some p =>
    if p.low ≤ n ∧ n ≤ p.high then
      let code := p.code * 64 + (n - 0x80)
      match p.more with
      | 0 => ([Char.ofNat code], none)
      | more + 1 => ([], some ⟨code, more, 0x80, 0xBF⟩)
    else
      let (out, next) := startByte n
      (replacement :: out, next)

/-- The text of the bytes that follow a pending sequence. -/
def lossyFrom : Option Pending → List UInt8 → List Char
  | none, [] => []
  | some _, [] => [replacement]
  | pending, b :: bs =>
    let (out, next) := step pending b.toNat
    out ++ lossyFrom next bs

/-- The text of a byte string, with one U+FFFD for each maximal ill-formed part. -/
def lossy (bytes : List UInt8) : String :=
  String.ofList (lossyFrom none bytes)

/-- The bytes of a text. -/
def encode (s : String) : List UInt8 :=
  s.toList.flatMap String.utf8EncodeChar

end RpcContract.Text.Utf8
