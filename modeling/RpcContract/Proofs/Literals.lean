import RpcContract.Text.Literal

/-!
# Proofs — literals and their reader

What a JSON string literal is, as a grammar.  Inside the quotation marks, a character is denoted by
itself, unless it is a quotation mark, a backslash or below U+0020; by a backslash and one more
character (`shortEscapes`); or by the number of its UTF-16 unit, or of its two surrogates, in
hexadecimal digits (`DenotesChar`).  `IsLiteral` puts these together.

The reader of literals accepts the literals of the grammar, and nothing else
(`readLiteral_eq_some_iff`).  No denotation begins with a quotation mark, so the first one that the
reader meets ends the literal.

What `quoteChars` writes is a literal of the text it was written for, so it is read back, and what
stands after it is left (`readLiteral_quoteChars`).  So a literal at the front of a text ends in one
place only (`quote_append_inj`).  Since it escapes every character below U+0020, it stands on one
line (`isLine_quote`).
-/

namespace RpcContract.Text

/-! ### The grammar -/

/-- The escapes of two characters: what stands after the backslash, and what is denoted. -/
def shortEscapes : List (Char × Char) :=
  [('"', '"'), ('\\', '\\'), ('/', '/'), ('b', '\x08'), ('f', '\x0c'), ('n', '\n'), ('r', '\r'),
    ('t', '\t')]

/-- Four hexadecimal digits denote a number. -/
inductive DenotesUnit : List Char → Nat → Prop where
  | mk {a b c d : Char} {i j k l : Nat} :
    hexValue? a = some i → hexValue? b = some j → hexValue? c = some k → hexValue? d = some l →
      DenotesUnit [a, b, c, d] (((i * 16 + j) * 16 + k) * 16 + l)

/-- Characters inside a literal denote one character. -/
inductive DenotesChar : List Char → Char → Prop where
  | plain {c : Char} : 0x20 ≤ c.toNat → c ≠ '"' → c ≠ '\\' → DenotesChar [c] c
  | short {x c : Char} : (x, c) ∈ shortEscapes → DenotesChar ['\\', x] c
  | unit {xs : List Char} {n : Nat} :
    DenotesUnit xs n → n < 0xD800 ∨ 0xDFFF < n → DenotesChar ('\\' :: 'u' :: xs) (Char.ofNat n)
  | surrogates {xs ys : List Char} {high low : Nat} :
    DenotesUnit xs high → 0xD800 ≤ high ∧ high < 0xDC00 →
    DenotesUnit ys low → 0xDC00 ≤ low ∧ low ≤ 0xDFFF →
      DenotesChar ('\\' :: 'u' :: xs ++ '\\' :: 'u' :: ys)
        (Char.ofNat (0x10000 + (high - 0xD800) * 0x400 + (low - 0xDC00)))

/-- Characters inside a literal denote a text. -/
inductive DenotesText : List Char → List Char → Prop where
  | nil : DenotesText [] []
  | cons {xs ys cs : List Char} {c : Char} :
    DenotesChar xs c → DenotesText ys cs → DenotesText (xs ++ ys) (c :: cs)

/-- A literal of a text. -/
def IsLiteral (literal text : List Char) : Prop :=
  ∃ body, DenotesText body text ∧ literal = '"' :: body ++ ['"']

/-! ### What the reader accepts -/

/-- Four hexadecimal digits are read as the number that they denote, and nothing else is. -/
theorem readUnit_eq_some_iff {cs rest : List Char} {n : Nat} :
    readUnit cs = some (n, rest) ↔ ∃ xs, DenotesUnit xs n ∧ cs = xs ++ rest := by
  constructor
  · intro h
    unfold readUnit at h
    split at h
    · simp only [Option.bind_eq_bind, Option.bind_eq_some_iff, Option.pure_def, Option.some.injEq,
        Prod.mk.injEq] at h
      obtain ⟨i, hi, j, hj, k, hk, l, hl, rfl, rfl⟩ := h
      exact ⟨_, .mk hi hj hk hl, rfl⟩
    · cases h
  · rintro ⟨xs, ⟨hi, hj, hk, hl⟩, rfl⟩
    simp [readUnit, hi, hj, hk, hl]

/-- After a high surrogate, what is read is the escape of a low one, and the two are combined into
one character. -/
theorem denotes_of_readLowSurrogate {high : Nat} {cs rest : List Char} {c : Char}
    (h : readLowSurrogate high cs = some (c, rest)) :
    ∃ ys low, DenotesUnit ys low ∧ (0xDC00 ≤ low ∧ low ≤ 0xDFFF) ∧
      c = Char.ofNat (0x10000 + (high - 0xD800) * 0x400 + (low - 0xDC00)) ∧
      cs = '\\' :: 'u' :: ys ++ rest := by
  unfold readLowSurrogate at h
  split at h
  · simp only [Option.bind_eq_bind, Option.bind_eq_some_iff, Option.pure_def, Prod.exists] at h
    obtain ⟨low, r, hr, h⟩ := h
    obtain ⟨ys, hys, rfl⟩ := readUnit_eq_some_iff.mp hr
    split at h
    · next hlow =>
        obtain ⟨rfl, rfl⟩ := Prod.mk.inj (Option.some.inj h)
        exact ⟨ys, low, hys, hlow, rfl, rfl⟩
    · cases h
  · cases h

/-- What is read after a backslash is an escape that the grammar has for the character. -/
theorem denotes_of_readEscape {cs rest : List Char} {c : Char}
    (h : readEscape cs = some (c, rest)) : ∃ xs, DenotesChar ('\\' :: xs) c ∧ cs = xs ++ rest := by
  unfold readEscape at h
  split at h
  case h_9 =>
      simp only [Option.bind_eq_bind, Option.bind_eq_some_iff, Option.pure_def, Prod.exists] at h
      obtain ⟨n, r, hr, h⟩ := h
      obtain ⟨xs, hxs, rfl⟩ := readUnit_eq_some_iff.mp hr
      split at h
      · next hn =>
          obtain ⟨rfl, rfl⟩ := Prod.mk.inj (Option.some.inj h)
          exact ⟨'u' :: xs, .unit hxs hn, rfl⟩
      · next hn =>
          split at h
          · next hhigh =>
              obtain ⟨ys, low, hys, hlow, hc, rfl⟩ := denotes_of_readLowSurrogate h
              rw [not_or, Nat.not_lt] at hn
              rw [hc]
              exact ⟨_, .surrogates hxs ⟨hn.1, hhigh⟩ hys hlow, by simp⟩
          · cases h
  all_goals cases h
  all_goals exact ⟨[_], .short (by decide), rfl⟩

/-- What is read as a character, other than the quote that ends the literal, denotes it. -/
theorem denotes_of_readChar {cs rest : List Char} {c : Char} (h : readChar cs = some (c, rest))
    (hquote : cs.head? ≠ some '"') : ∃ xs, DenotesChar xs c ∧ cs = xs ++ rest := by
  unfold readChar at h
  split at h
  · cases h
  · obtain ⟨xs, hxs, rfl⟩ := denotes_of_readEscape h
    exact ⟨_, hxs, rfl⟩
  · next hbackslash =>
      split at h
      · cases h
      · next hc =>
          obtain ⟨rfl, rfl⟩ := Prod.mk.inj (Option.some.inj h)
          refine ⟨_, .plain (Nat.not_lt.mp hc) (fun e => hquote (by rw [e]; rfl)) hbackslash, rfl⟩

/-- **One character** is read from its denotation, whatever follows: itself, a short escape, one
code unit, or two that make a surrogate pair. -/
theorem readChar_of_denotes {xs : List Char} {c : Char} (h : DenotesChar xs c)
    (rest : List Char) : readChar (xs ++ rest) = some (c, rest) := by
  cases h with
  | plain hc _ hbackslash =>
      rw [List.singleton_append, readChar.eq_3 _ _ hbackslash, if_neg (Nat.not_lt.mpr hc)]
  | short hx =>
      have hall : ∀ e ∈ shortEscapes, readEscape (e.1 :: rest) = some (e.2, rest) := by
        simp [shortEscapes, readEscape]
      exact hall _ hx
  | @unit xs n hxs hn =>
      have hunit := readUnit_eq_some_iff.mpr ⟨xs, hxs, @rfl _ (xs ++ rest)⟩
      simp [readChar, readEscape, hunit, hn]
  | @surrogates xs ys high low hxs hhigh hys hlow =>
      have hfirst := readUnit_eq_some_iff.mpr ⟨xs, hxs, @rfl _ (xs ++ '\\' :: 'u' :: (ys ++ rest))⟩
      have hsecond := readUnit_eq_some_iff.mpr ⟨ys, hys, @rfl _ (ys ++ rest)⟩
      have hnot : ¬ (high < 0xD800 ∨ 0xDFFF < high) := by omega
      simp [readChar, readEscape, readLowSurrogate, hfirst, hsecond, hnot, hhigh.2, hlow]

/-- Nothing that denotes a character begins with a quote, so the first bare quote ends a literal. -/
theorem DenotesChar.exists_head {xs : List Char} {c : Char} (h : DenotesChar xs c) :
    ∃ x ys, xs = x :: ys ∧ x ≠ '"' := by
  cases h with
  | plain _ hquote _ => exact ⟨_, _, rfl, hquote⟩
  | short _ | unit _ _ | surrogates _ _ _ _ => exact ⟨_, _, rfl, by decide⟩

theorem readBody_of_denotes {xs : List Char} {c : Char} (h : DenotesChar xs c)
    (rest : List Char) :
    readBody (xs ++ rest) = (readBody rest).map fun (text, rest) => (c :: text, rest) := by
  have hne : ∀ rest', xs ++ rest ≠ '"' :: rest' := by
    intro rest' e
    obtain ⟨x, ys, rfl, hquote⟩ := h.exists_head
    exact hquote (List.cons.inj e).1
  rw [readBody.eq_2 _ hne]
  split
  · next hread => rw [readChar_of_denotes h] at hread; cases hread
  · next hread =>
      rw [readChar_of_denotes h] at hread
      cases hread
      rfl

/-- **The reader of literals follows the grammar**: a body is read as the text that it denotes, up
to the first bare quote. -/
theorem readBody_eq_some_iff {cs text rest : List Char} :
    readBody cs = some (text, rest) ↔ ∃ body, DenotesText body text ∧ cs = body ++ '"' :: rest := by
  constructor
  · intro h
    fun_induction readBody cs generalizing text with
    | case1 r =>
        cases h
        exact ⟨[], .nil, rfl⟩
    | case2 cs hquote hnone => cases h
    | case3 cs hquote c r hread ih =>
        obtain ⟨⟨text, rest⟩, hbody, h⟩ := Option.map_eq_some_iff.mp h
        cases h
        obtain ⟨body, htext, rfl⟩ := ih hbody
        have hhead : cs.head? ≠ some '"' := by
          intro e
          obtain ⟨ys, rfl⟩ := List.head?_eq_some_iff.mp e
          exact hquote ys rfl
        obtain ⟨xs, hxs, rfl⟩ := denotes_of_readChar hread hhead
        exact ⟨xs ++ body, .cons hxs htext, (List.append_assoc ..).symm⟩
  · rintro ⟨body, htext, rfl⟩
    induction htext with
    | nil => rw [List.nil_append, readBody]
    | cons hxs _ ih => rw [List.append_assoc, readBody_of_denotes hxs, ih, Option.map_some]

/-- **The reader accepts the literals**, and leaves what stands after them.  So the text of a
literal and its end are the reader's, and the grammar says nothing else. -/
theorem readLiteral_eq_some_iff {cs text rest : List Char} :
    readLiteral cs = some (text, rest) ↔ ∃ literal, IsLiteral literal text ∧ cs = literal ++ rest := by
  constructor
  · intro h
    unfold readLiteral at h
    split at h
    · obtain ⟨body, htext, rfl⟩ := readBody_eq_some_iff.mp h
      exact ⟨_, ⟨body, htext, rfl⟩, by simp⟩
    · cases h
  · rintro ⟨_, ⟨body, htext, rfl⟩, rfl⟩
    have hbody := readBody_eq_some_iff.mpr ⟨body, htext, @rfl _ (body ++ '"' :: rest)⟩
    simpa [readLiteral] using hbody

/-! ### What is written -/

theorem hexValue?_hexDigit {n : Nat} (h : n < 16) : hexValue? (hexDigit n) = some n := by
  have hall : ∀ n < 16, hexValue? (hexDigit n) = some n := by decide
  exact hall n h

/-- A control character is denoted by its number, in two digits behind two zeros. -/
theorem denotesUnit_code {n : Nat} (h : n < 0x20) :
    DenotesUnit ['0', '0', hexDigit (n / 16), hexDigit (n % 16)] n := by
  have hzero : hexValue? '0' = some 0 := by decide
  have hn : ((0 * 16 + 0) * 16 + n / 16) * 16 + n % 16 = n := by omega
  have hunit := DenotesUnit.mk hzero hzero (@hexValue?_hexDigit (n / 16) (by omega))
    (@hexValue?_hexDigit (n % 16) (by omega))
  rwa [hn] at hunit

/-- **One character** is denoted by its escape: the quote, the backslash and the control characters
by escapes of their own, and all others by themselves. -/
theorem denotes_escape (c : Char) : DenotesChar (escape c) c := by
  unfold escape
  split
  case h_8 _ hquote hbackslash _ _ _ _ _ =>
      split
      · next hc =>
          have hunit := DenotesChar.unit (denotesUnit_code hc) (.inl (by omega))
          rwa [Char.ofNat_toNat] at hunit
      · next hc => exact .plain (Nat.not_lt.mp hc) hquote hbackslash
  all_goals exact .short (by decide)

theorem isLiteral_quoteChars (cs : List Char) : IsLiteral (quoteChars cs) cs := by
  refine ⟨cs.flatMap escape, ?_, rfl⟩
  induction cs with
  | nil => exact .nil
  | cons c cs ih => exact .cons (denotes_escape c) ih

/-- **A literal** is read back, and what stands after it is left, even if that begins with another
literal. -/
theorem readLiteral_quoteChars (cs rest : List Char) :
    readLiteral (quoteChars cs ++ rest) = some (cs, rest) :=
  readLiteral_eq_some_iff.mpr ⟨_, isLiteral_quoteChars cs, rfl⟩

/-- A literal at the front of a text ends in one place only. -/
theorem quote_append_inj {a b s t : String} (h : quote a ++ s = quote b ++ t) : a = b ∧ s = t := by
  have hchars : quoteChars a.toList ++ s.toList = quoteChars b.toList ++ t.toList := by
    simpa [quote, ← String.toList_inj] using h
  have hread := congrArg readLiteral hchars
  rw [readLiteral_quoteChars, readLiteral_quoteChars, Option.some.injEq, Prod.mk.injEq] at hread
  exact ⟨String.toList_inj.mp hread.1, String.toList_inj.mp hread.2⟩

theorem quote_injective {a b : String} (h : quote a = quote b) : a = b := by
  have happend : quote a ++ "" = quote b ++ "" := by rw [h]
  exact (quote_append_inj happend).1

/-- A text that stands on one line: it holds no character below U+0020. -/
def IsLine (s : String) : Prop :=
  ∀ c ∈ s.toList, 0x20 ≤ c.toNat

instance (s : String) : Decidable (IsLine s) :=
  List.decidableBAll (fun c : Char => 0x20 ≤ c.toNat) s.toList

theorem le_toNat_hexDigit {n : Nat} (h : n < 16) : 0x20 ≤ (hexDigit n).toNat := by
  have hall : ∀ n < 16, 0x20 ≤ (hexDigit n).toNat := by decide
  exact hall n h

theorem le_toNat_of_mem_escape (c : Char) : ∀ x ∈ escape c, 0x20 ≤ x.toNat := by
  unfold escape
  split
  case h_8 =>
      split
      · next hc =>
          have hhigh := @le_toNat_hexDigit (c.toNat / 16) (by omega)
          have hlow := @le_toNat_hexDigit (c.toNat % 16) (by omega)
          simp [hhigh, hlow]
      · next hc => simpa using hc
  all_goals simp

/-- **A literal stands on one line**, whatever its text, as every control character in the text is
escaped. -/
theorem isLine_quote (s : String) : IsLine (quote s) := by
  intro x hx
  simp only [quote, quoteChars, String.toList_ofList, List.cons_append, List.mem_cons,
    List.mem_append, List.not_mem_nil, or_false, List.mem_flatMap] at hx
  rcases hx with rfl | ⟨c, -, hx⟩ | rfl
  · decide
  · exact le_toNat_of_mem_escape c x hx
  · decide

/-- **Literals end by themselves.**  Whatever stands after the literal of a text, a reader of
literals takes that literal and no other, finds the text, and leaves what stands after it.  So
different texts have different literals, and none of these begins with another.  A literal stands on
one line. -/
theorem quote_self_delimiting (s t : String) :
    readLiteral (quote s ++ t).toList = some (s.toList, t.toList) ∧
    (∀ literal text rest, IsLiteral literal text → (quote s ++ t).toList = literal ++ rest →
      literal = (quote s).toList ∧ text = s.toList ∧ rest = t.toList) ∧
    IsLine (quote s) ∧
    ∀ s', (quote s = quote s' → s = s') ∧ ∀ r, quote s' = quote s ++ r → r = "" := by
  have hread : readLiteral (quote s ++ t).toList = some (s.toList, t.toList) := by
    rw [String.toList_append, quote, String.toList_ofList, readLiteral_quoteChars]
  refine ⟨hread, ?_, isLine_quote s, fun s' => ⟨quote_injective, fun r h => ?_⟩⟩
  · intro literal text rest hliteral h
    have hread' := readLiteral_eq_some_iff.mpr ⟨literal, hliteral, h⟩
    obtain ⟨rfl, rfl⟩ := Prod.mk.inj (Option.some.inj (hread'.symm.trans hread))
    rw [String.toList_append] at h
    exact ⟨(List.append_cancel_right h).symm, rfl, rfl⟩
  · have happend : quote s' ++ "" = quote s ++ r := by rw [h, String.append_empty]
    exact (quote_append_inj happend).2.symm

/-- A text of a backslash and a control character, before a quotation mark.  The same text has other
literals, but none of them stands there. -/
theorem quote_self_delimiting_escapes :
    quote "\\\x01" = "\"\\\\\\u0001\"" ∧ IsLine (quote "\\\x01") ∧
    readLiteral (quote "\\\x01" ++ "\"").toList = some (['\\', '\x01'], ['"']) ∧
    ∀ literal rest, IsLiteral literal ['\\', '\x01'] →
      (quote "\\\x01" ++ "\"").toList = literal ++ rest →
        literal = (quote "\\\x01").toList ∧ rest = ['"'] := by
  have htext : "\\\x01".toList = ['\\', '\x01'] := rfl
  have hrest : "\"".toList = ['"'] := rfl
  obtain ⟨hread, honly, hline, -⟩ := quote_self_delimiting "\\\x01" "\""
  rw [htext, hrest] at hread
  refine ⟨rfl, hline, hread, fun literal rest hliteral h => ?_⟩
  obtain ⟨hl, -, hr⟩ := honly literal _ rest hliteral h
  exact ⟨hl, hr⟩

end RpcContract.Text
