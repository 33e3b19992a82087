/-!
# Text — JSON string literals

Names taken from a contract are shown to the reader, and written into JSON, as string literals.
`quote` writes one: the quotation mark and the backslash are escaped, the five control characters
with a short escape take it, every other character below U+0020 is written by its code, and all
else stands for itself.  So a literal holds no control character, and ends at its first
quotation mark that no backslash precedes.
-/

namespace RpcContract.Text

/-- The lowercase hexadecimal digit of a number below sixteen. -/
def hexDigit (n : Nat) : Char :=
  if n < 10 then Char.ofNat (0x30 + n) else Char.ofNat (0x57 + n)

/-- A character as it stands inside a literal. -/
def escape (c : Char) : List Char :=
  match c with
  | '"' => ['\\', '"']
  | '\\' => ['\\', '\\']
  | '\x08' => ['\\', 'b']
  | '\t' => ['\\', 't']
  | '\n' => ['\\', 'n']
  | '\x0c' => ['\\', 'f']
  | '\r' => ['\\', 'r']
  | c =>
    if c.toNat < 0x20 then ['\\', 'u', '0', '0', hexDigit (c.toNat / 16), hexDigit (c.toNat % 16)]
    else [c]

/-- The characters of the literal of a text. -/
def quoteChars (cs : List Char) : List Char :=
  '"' :: cs.flatMap escape ++ ['"']

/-- A text as a JSON string literal. -/
def quote (s : String) : String :=
  String.ofList (quoteChars s.toList)

/-- The number of a hexadecimal digit, of either case. -/
def hexValue? (c : Char) : Option Nat :=
  if '0' ≤ c ∧ c ≤ '9' then some (c.toNat - 0x30)
  else if 'a' ≤ c ∧ c ≤ 'f' then some (c.toNat - 0x57)
  else if 'A' ≤ c ∧ c ≤ 'F' then some (c.toNat - 0x37)
  else none

/-- Reads the number of four hexadecimal digits. -/
def readUnit : List Char → Option (Nat × List Char)
  | a :: b :: c :: d :: rest => do
    let a ← hexValue? a
    let b ← hexValue? b
    let c ← hexValue? c
    let d ← hexValue? d
    return (((a * 16 + b) * 16 + c) * 16 + d, rest)
  | _ => none

/-- Reads the second half of a surrogate pair, after its first half. -/
def readLowSurrogate (high : Nat) : List Char → Option (Char × List Char)
  | '\\' :: 'u' :: rest => do
    let (low, rest) ← readUnit rest
    if 0xDC00 ≤ low ∧ low ≤ 0xDFFF then
      return (Char.ofNat (0x10000 + (high - 0xD800) * 0x400 + (low - 0xDC00)), rest)
    else none
  | _ => none

/-- Reads an escape, after its backslash. -/
def readEscape : List Char → Option (Char × List Char)
  | '"' :: rest => some ('"', rest)
  | '\\' :: rest => some ('\\', rest)
  | '/' :: rest => some ('/', rest)
  | 'b' :: rest => some ('\x08', rest)
  | 'f' :: rest => some ('\x0c', rest)
  | 'n' :: rest => some ('\n', rest)
  | 'r' :: rest => some ('\r', rest)
  | 't' :: rest => some ('\t', rest)
  | 'u' :: rest => do
    let (unit, rest) ← readUnit rest
    if unit < 0xD800 ∨ 0xDFFF < unit then return (Char.ofNat unit, rest)
    else if unit < 0xDC00 then readLowSurrogate unit rest
    else none
  | _ => none

/-- Reads one character of a literal, as it stands or escaped. -/
def readChar : List Char → Option (Char × List Char)
  | [] => none
  | '\\' :: rest => readEscape rest
  | c :: rest => if c.toNat < 0x20 then none else some (c, rest)

/-- Reading four digits uses them up, which is why reading a literal comes to an end. -/
theorem length_of_readUnit {cs rest : List Char} {n : Nat} (h : readUnit cs = some (n, rest)) :
    rest.length < cs.length := by
  unfold readUnit at h
  split at h
  · simp only [Option.bind_eq_bind, Option.bind_eq_some_iff, Option.pure_def, Option.some.injEq,
      Prod.mk.injEq] at h
    obtain ⟨_, _, _, _, _, _, _, _, _, rfl⟩ := h
    simp only [List.length_cons]
    omega
  · cases h

theorem length_of_readLowSurrogate {cs rest : List Char} {n : Nat} {c : Char}
    (h : readLowSurrogate n cs = some (c, rest)) : rest.length < cs.length := by
  unfold readLowSurrogate at h
  split at h
  · simp only [Option.bind_eq_bind, Option.bind_eq_some_iff, Option.pure_def] at h
    obtain ⟨⟨low, r⟩, hr, h⟩ := h
    have := length_of_readUnit hr
    split at h
    · obtain ⟨_, rfl⟩ := Prod.mk.inj (Option.some.inj h)
      simp only [List.length_cons]
      omega
    · cases h
  · cases h

theorem length_of_readEscape {cs rest : List Char} {c : Char}
    (h : readEscape cs = some (c, rest)) : rest.length < cs.length := by
  unfold readEscape at h
  split at h
  case h_9 =>
    simp only [Option.bind_eq_bind, Option.bind_eq_some_iff, Option.pure_def] at h
    obtain ⟨⟨unit, r⟩, hr, h⟩ := h
    have := length_of_readUnit hr
    split at h
    · obtain ⟨_, rfl⟩ := Prod.mk.inj (Option.some.inj h)
      simp only [List.length_cons]
      omega
    · split at h
      · have : rest.length < r.length := length_of_readLowSurrogate h
        simp only [List.length_cons]
        omega
      · cases h
  all_goals cases h
  all_goals simp

/-- Reading a character uses up one at least. -/
theorem length_of_readChar {cs rest : List Char} {c : Char} (h : readChar cs = some (c, rest)) :
    rest.length < cs.length := by
  unfold readChar at h
  split at h
  · cases h
  · have := length_of_readEscape h
    simp only [List.length_cons]
    omega
  · split at h <;> cases h
    simp

/-- Reads the rest of a literal, after its opening quotation mark. -/
def readBody (cs : List Char) : Option (List Char × List Char) :=
  match cs with
  | '"' :: rest => some ([], rest)
  | cs =>
    match _h : readChar cs with
    | none => none
    | some (c, rest) => (readBody rest).map fun (text, rest) => (c :: text, rest)
termination_by cs.length
decreasing_by exact length_of_readChar _h

/-- Reads a literal: its text, and what stands after it. -/
def readLiteral : List Char → Option (List Char × List Char)
  | '"' :: rest => readBody rest
  | _ => none

end RpcContract.Text
