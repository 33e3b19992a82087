import RpcContract.Text.Utf8

/-!
# Proofs — reading back what is encoded

The lenient reader takes the bytes of a text to that text (`lossy_encode`), so different texts have
different bytes.  The first byte of a character of several bytes begins a sequence; the bounds that
it sets for the second byte exclude no character, and every further byte goes on with the sequence
until it ends in that character.

Whatever the bytes are, every way to finish a sequence gives a character beyond ASCII
(`FinishesWide`), and no byte of ASCII goes on with one.  So a byte of ASCII divides the text: a
sequence that it breaks off is decided like one that breaks off at the end
(`lossyFrom_append_ascii`).  And a character of ASCII comes from its own byte only
(`mem_of_mem_lossyFrom`).
-/

namespace RpcContract.Text.Utf8

/-- One byte decides some characters, and leaves a sequence pending. -/
theorem lossyFrom_step (pending : Option Pending) (b : UInt8) (bs : List UInt8) :
    lossyFrom pending (b :: bs) =
      (step pending b.toNat).1 ++ lossyFrom (step pending b.toNat).2 bs := by
  cases pending <;> rfl

/-- A byte gives what its step decides, and the bytes behind it what they give in the state that the
step leaves. -/
theorem lossyFrom_cons {pending next : Option Pending} {n : Nat} {out : List Char} (hn : n < 0x100)
    (h : step pending n = (out, next)) (bs : List UInt8) :
    lossyFrom pending (UInt8.ofNat n :: bs) = out ++ lossyFrom next bs := by
  have hbyte : (UInt8.ofNat n).toNat = n := UInt8.toNat_ofNat_of_lt hn
  rw [lossyFrom_step, hbyte, h]

theorem lossyFrom_ascii {n : Nat} (h : n < 0x80) (bs : List UInt8) :
    lossyFrom none (UInt8.ofNat n :: bs) = Char.ofNat n :: lossyFrom none bs := by
  have hstep : step none n = ([Char.ofNat n], none) := by simp [step, startByte, h]
  exact lossyFrom_cons (by omega) hstep bs

theorem lossyFrom_begin {n : Nat} {p : Pending} (h : 0x80 ≤ n ∧ n < 0x100)
    (hp : Pending.begin? n = some p) (bs : List UInt8) :
    lossyFrom none (UInt8.ofNat n :: bs) = lossyFrom (some p) bs := by
  have hstep : step none n = ([], some p) := by simp [step, startByte, Nat.not_lt.mpr h.1, hp]
  exact lossyFrom_cons h.2 hstep bs

theorem lossyFrom_more {n code more low high : Nat} (hlow : low ≤ 0x80 + n)
    (hhigh : 0x80 + n ≤ high) (h : n < 64) (bs : List UInt8) :
    lossyFrom (some ⟨code, more + 1, low, high⟩) (UInt8.ofNat (0x80 + n) :: bs) =
      lossyFrom (some ⟨code * 64 + n, more, 0x80, 0xBF⟩) bs := by
  have hstep : step (some ⟨code, more + 1, low, high⟩) (0x80 + n) =
      ([], some ⟨code * 64 + n, more, 0x80, 0xBF⟩) := by
    simp [step, hlow, hhigh]
  exact lossyFrom_cons (by omega) hstep bs

theorem lossyFrom_last {n code low high : Nat} (hlow : low ≤ 0x80 + n) (hhigh : 0x80 + n ≤ high)
    (h : n < 64) (bs : List UInt8) :
    lossyFrom (some ⟨code, 0, low, high⟩) (UInt8.ofNat (0x80 + n) :: bs) =
      Char.ofNat (code * 64 + n) :: lossyFrom none bs := by
  have hstep : step (some ⟨code, 0, low, high⟩) (0x80 + n) =
      ([Char.ofNat (code * 64 + n)], none) := by
    simp [step, hlow, hhigh]
  exact lossyFrom_cons (by omega) hstep bs

/-! ### The first byte -/

theorem begin?_two {a : Nat} (h : 2 ≤ a ∧ a < 32) :
    Pending.begin? (0xC0 + a) = some ⟨a, 0, 0x80, 0xBF⟩ := by
  rw [Pending.begin?, if_pos (by omega)]
  simp

/-- Three bytes: the second may be any, unless the first leaves out overlong forms or surrogates. -/
theorem begin?_three {a b : Nat} (ha : a < 16) (hb : b < 64) (hshort : a = 0 → 32 ≤ b)
    (hsurrogate : a = 13 → b < 32) :
    ∃ low high, Pending.begin? (0xE0 + a) = some ⟨a, 1, low, high⟩ ∧
      low ≤ 0x80 + b ∧ 0x80 + b ≤ high := by
  rw [Pending.begin?, if_neg (by omega)]
  by_cases h0 : a = 0
  · subst h0
    exact ⟨0xA0, 0xBF, rfl, by omega, by omega⟩
  · rw [if_neg (by omega)]
    by_cases hd : a = 13
    · subst hd
      exact ⟨0x80, 0x9F, rfl, by omega, by omega⟩
    · rw [if_neg (by omega), if_pos (by omega)]
      exact ⟨0x80, 0xBF, by simp, by omega, by omega⟩

/-- Four bytes: the second may be any, unless the first leaves out overlong forms or numbers that
are too great. -/
theorem begin?_four {a b : Nat} (ha : a < 5) (hb : b < 64) (hshort : a = 0 → 16 ≤ b)
    (hgreat : a = 4 → b < 16) :
    ∃ low high, Pending.begin? (0xF0 + a) = some ⟨a, 2, low, high⟩ ∧
      low ≤ 0x80 + b ∧ 0x80 + b ≤ high := by
  rw [Pending.begin?, if_neg (by omega), if_neg (by omega), if_neg (by omega), if_neg (by omega)]
  by_cases h0 : a = 0
  · subst h0
    exact ⟨0x90, 0xBF, rfl, by omega, by omega⟩
  · rw [if_neg (by omega)]
    by_cases h4 : a = 4
    · subst h4
      exact ⟨0x80, 0x8F, rfl, by omega, by omega⟩
    · rw [if_pos (by omega)]
      exact ⟨0x80, 0xBF, by simp, by omega, by omega⟩

/-! ### The bytes of a character -/

theorem lossyFrom_two {n : Nat} (h : 0x80 ≤ n ∧ n ≤ 0x7FF) (bs : List UInt8) :
    lossyFrom none (UInt8.ofNat (0xC0 + n / 64) :: UInt8.ofNat (0x80 + n % 64) :: bs) =
      Char.ofNat n :: lossyFrom none bs := by
  rw [lossyFrom_begin (by omega) (begin?_two (by omega)),
    lossyFrom_last (by omega) (by omega) (by omega)]
  congr
  omega

/-- Three bytes are read as the character that they encode, if it is no surrogate: the bounds on the
second byte exclude these and the numbers that two bytes can hold. -/
theorem lossyFrom_three {n : Nat} (h : 0x800 ≤ n ∧ n ≤ 0xFFFF) (hv : n < 0xD800 ∨ 0xDFFF < n)
    (bs : List UInt8) :
    lossyFrom none (UInt8.ofNat (0xE0 + n / 4096) :: UInt8.ofNat (0x80 + n / 64 % 64) ::
        UInt8.ofNat (0x80 + n % 64) :: bs) =
      Char.ofNat n :: lossyFrom none bs := by
  obtain ⟨low, high, hp, hlow, hhigh⟩ :=
    @begin?_three (n / 4096) (n / 64 % 64) (by omega) (by omega) (by omega) (by omega)
  rw [lossyFrom_begin (by omega) hp, lossyFrom_more hlow hhigh (by omega),
    lossyFrom_last (by omega) (by omega) (by omega)]
  congr
  omega

theorem lossyFrom_four {n : Nat} (h : 0x10000 ≤ n ∧ n < 0x110000) (bs : List UInt8) :
    lossyFrom none (UInt8.ofNat (0xF0 + n / 262144) :: UInt8.ofNat (0x80 + n / 4096 % 64) ::
        UInt8.ofNat (0x80 + n / 64 % 64) :: UInt8.ofNat (0x80 + n % 64) :: bs) =
      Char.ofNat n :: lossyFrom none bs := by
  obtain ⟨low, high, hp, hlow, hhigh⟩ :=
    @begin?_four (n / 262144) (n / 4096 % 64) (by omega) (by omega) (by omega) (by omega)
  rw [lossyFrom_begin (by omega) hp, lossyFrom_more hlow hhigh (by omega),
    lossyFrom_more (by omega) (by omega) (by omega),
    lossyFrom_last (by omega) (by omega) (by omega)]
  congr
  omega

/-- **The bytes of a character** are read as that character, and those behind it anew.  The four
cases are the four lengths of an encoding. -/
theorem lossyFrom_utf8EncodeChar (c : Char) (bs : List UInt8) :
    lossyFrom none (String.utf8EncodeChar c ++ bs) = c :: lossyFrom none bs := by
  have hvalid : c.toNat < 0xD800 ∨ (0xDFFF < c.toNat ∧ c.toNat < 0x110000) := c.valid
  have hc : Char.ofNat c.toNat = c := Char.ofNat_toNat c
  unfold String.utf8EncodeChar
  rw [Char.toNat_val]
  generalize c.toNat = n at *
  dsimp only
  rw [← hc]
  split
  · exact lossyFrom_ascii (by omega) bs
  · split
    · have h₁ : n / 64 % 32 + 192 = 0xC0 + n / 64 := by omega
      rw [h₁, Nat.add_comm (n % 64)]
      exact lossyFrom_two (by omega) bs
    · split
      · have h₁ : n / 4096 % 16 + 224 = 0xE0 + n / 4096 := by omega
        rw [h₁, Nat.add_comm (n / 64 % 64), Nat.add_comm (n % 64)]
        exact lossyFrom_three (by omega) (by omega) bs
      · have h₁ : n / 262144 % 8 + 240 = 0xF0 + n / 262144 := by omega
        rw [h₁, Nat.add_comm (n / 4096 % 64), Nat.add_comm (n / 64 % 64), Nat.add_comm (n % 64)]
        exact lossyFrom_four (by omega) bs

/-- **What is encoded is read back**, character by character, so no text is changed on its way
through bytes. -/
theorem lossy_encode (s : String) : lossy (encode s) = s := by
  have h : ∀ cs : List Char, lossyFrom none (cs.flatMap String.utf8EncodeChar) = cs := by
    intro cs
    induction cs with
    | nil => rfl
    | cons c cs ih => rw [List.flatMap_cons, lossyFrom_utf8EncodeChar, ih]
  rw [lossy, encode, h, String.ofList_toList]

theorem encode_append (s t : String) : encode (s ++ t) = encode s ++ encode t := by
  rw [encode, String.toList_append, List.flatMap_append]
  rfl

/-! ### Bytes of ASCII, and the others -/

/-- Every way to finish a sequence gives the number of a character beyond ASCII, and no byte of ASCII
goes on with it. -/
def FinishesWide : (more code low high : Nat) → Prop
  | 0, code, low, high =>
    ∀ n, low ≤ n → n ≤ high →
      0x80 ≤ n ∧ 0x80 ≤ code * 64 + (n - 0x80) ∧ (code * 64 + (n - 0x80)).isValidChar
  | more + 1, code, low, high =>
    ∀ n, low ≤ n → n ≤ high → 0x80 ≤ n ∧ FinishesWide more (code * 64 + (n - 0x80)) 0x80 0xBF

/-- What is pending, if anything, gives a character beyond ASCII, or an ill-formed part. -/
def Wide (pending : Option Pending) : Prop :=
  ∀ p ∈ pending, FinishesWide p.more p.code p.low p.high

theorem wide_none : Wide none := by
  rintro p ⟨⟩

theorem wide_some {p : Pending} : Wide (some p) ↔ FinishesWide p.more p.code p.low p.high := by
  simp [Wide]

/-- The bytes that may go on with a sequence are all beyond ASCII. -/
theorem FinishesWide.le {more code low high n : Nat} (h : FinishesWide more code low high)
    (hlow : low ≤ n) (hhigh : n ≤ high) : 0x80 ≤ n := by
  cases more with
  | zero | succ _ => exact (h n hlow hhigh).1

/-- The bounds of the second byte leave out overlong forms, surrogates and numbers that are too
great. -/
theorem wide_begin? (n : Nat) : Wide (Pending.begin? n) := by
  unfold Pending.begin?
  -- one case for each kind of leading byte; what is left of each is arithmetic
  repeat' split
  all_goals simp only [wide_some, wide_none, FinishesWide, Nat.isValidChar]
  all_goals grind

theorem beyond_replacement : 0x80 ≤ replacement.toNat := by
  decide

theorem toNat_ofNat_of_isValidChar {n : Nat} (h : n.isValidChar) : (Char.ofNat n).toNat = n := by
  rw [Char.ofNat, dif_pos h]
  rfl

/-- What a byte beyond ASCII may do. -/
structure Foreign (out : List Char) (next : Option Pending) : Prop where
  /-- It decides no character of ASCII. -/
  beyond : ∀ c ∈ out, 0x80 ≤ c.toNat
  /-- It decides something, or leaves something pending. -/
  ne_nil : next = none → out ≠ []
  /-- What it leaves pending gives no character of ASCII. -/
  wide : Wide next

/-- A byte beyond ASCII, at the start of a sequence, decides no character of ASCII. -/
theorem foreign_startByte {n : Nat} (hn : 0x80 ≤ n) :
    Foreign (startByte n).1 (startByte n).2 := by
  have hwide := wide_begin? n
  rw [startByte, if_neg (Nat.not_lt.mpr hn)]
  cases hp : Pending.begin? n with
  | none => exact ⟨by simpa using beyond_replacement, by simp, wide_none⟩
  | some p =>
      rw [hp] at hwide
      exact ⟨by simp, by simp, hwide⟩

/-- **A byte beyond ASCII** goes on with what is pending, or ends it, or breaks it off. -/
theorem foreign_step {pending : Option Pending} (h : Wide pending) {n : Nat} (hn : 0x80 ≤ n) :
    Foreign (step pending n).1 (step pending n).2 := by
  have hstart := foreign_startByte hn
  cases pending with
  | none => exact hstart
  | some p =>
      obtain ⟨code, more, low, high⟩ := p
      rw [wide_some] at h
      by_cases hrange : low ≤ n ∧ n ≤ high
      · cases more with
        | zero =>
            obtain ⟨-, hwide, hvalid⟩ := h n hrange.1 hrange.2
            have hout : step (some ⟨code, 0, low, high⟩) n =
                ([Char.ofNat (code * 64 + (n - 0x80))], none) := by simp [step, hrange]
            rw [hout]
            refine ⟨?_, by simp, wide_none⟩
            intro c hc
            rw [List.mem_singleton.mp hc, toNat_ofNat_of_isValidChar hvalid]
            exact hwide
        | succ more =>
            obtain ⟨-, hwide⟩ := h n hrange.1 hrange.2
            have hout : step (some ⟨code, more + 1, low, high⟩) n =
                ([], some ⟨code * 64 + (n - 0x80), more, 0x80, 0xBF⟩) := by simp [step, hrange]
            rw [hout]
            exact ⟨by simp, by simp, wide_some.mpr hwide⟩
      · have hout : step (some ⟨code, more, low, high⟩) n =
            (replacement :: (startByte n).1, (startByte n).2) := by simp [step, hrange]
        rw [hout]
        refine ⟨?_, by simp, hstart.wide⟩
        intro c hc
        rcases List.mem_cons.mp hc with rfl | hc
        · exact beyond_replacement
        · exact hstart.beyond c hc

/-- **A byte of ASCII** breaks off what is pending, like the end of the string, and is a character
alone. -/
theorem step_ascii {pending : Option Pending} (h : Wide pending) {n : Nat} (hn : n < 0x80) :
    step pending n = (lossyFrom pending [] ++ [Char.ofNat n], none) := by
  have hstart : startByte n = ([Char.ofNat n], none) := if_pos hn
  cases pending with
  | none => exact hstart
  | some p =>
      have hrange : ¬ (p.low ≤ n ∧ n ≤ p.high) := by
        rintro ⟨hlow, hhigh⟩
        have hle := (wide_some.mp h).le hlow hhigh
        omega
      simp [step, hrange, hstart, lossyFrom]

/-- Every state that a step leaves is one in which the sequences under way end beyond ASCII. -/
theorem wide_step {pending : Option Pending} (h : Wide pending) (n : Nat) :
    Wide (step pending n).2 := by
  by_cases hn : n < 0x80
  · rw [step_ascii h hn]
    exact wide_none
  · exact (foreign_step h (Nat.not_lt.mp hn)).wide

/-- **A byte of ASCII stands for itself**, even where it breaks off a sequence, and what follows it
is read anew. -/
theorem lossyFrom_append_ascii {pending : Option Pending} (h : Wide pending) {a : UInt8}
    (ha : a.toNat < 0x80) (xs ys : List UInt8) :
    lossyFrom pending (xs ++ a :: ys) =
      lossyFrom pending xs ++ Char.ofNat a.toNat :: lossyFrom none ys := by
  induction xs generalizing pending with
  | nil =>
      rw [List.nil_append, lossyFrom_step, step_ascii h ha, List.append_assoc,
        List.singleton_append]
  | cons x xs ih =>
      rw [List.cons_append, lossyFrom_step, lossyFrom_step, ih (wide_step h _),
        List.append_assoc]

theorem toNat_ofNat_ascii {n : Nat} (h : n < 0x80) : (Char.ofNat n).toNat = n :=
  toNat_ofNat_of_isValidChar (.inl (by omega))

/-- The end of the string decides no character of ASCII. -/
theorem beyond_lossyFrom_nil (pending : Option Pending) :
    ∀ c ∈ lossyFrom pending [], 0x80 ≤ c.toNat := by
  cases pending with
  | none => simp [lossyFrom]
  | some p => simpa [lossyFrom] using beyond_replacement

/-- A character of ASCII in what is read comes from its own byte, as nothing else decides one. -/
theorem mem_of_mem_lossyFrom {pending : Option Pending} (h : Wide pending) {a : UInt8}
    (ha : a.toNat < 0x80) {bs : List UInt8} (hbs : Char.ofNat a.toNat ∈ lossyFrom pending bs) :
    a ∈ bs := by
  have hnot : ¬ 0x80 ≤ (Char.ofNat a.toNat).toNat := by
    rw [toNat_ofNat_ascii ha]
    omega
  induction bs generalizing pending with
  | nil => exact absurd (beyond_lossyFrom_nil pending _ hbs) hnot
  | cons b bs ih =>
      rw [lossyFrom_step, List.mem_append] at hbs
      rcases hbs with hout | hrest
      · -- the character is decided by `b`, which a byte beyond ASCII cannot do
        by_cases hb : b.toNat < 0x80
        · rw [step_ascii h hb, List.mem_append, List.mem_singleton] at hout
          rcases hout with hout | hout
          · exact absurd (beyond_lossyFrom_nil pending _ hout) hnot
          · have hab := congrArg Char.toNat hout
            rw [toNat_ofNat_ascii ha, toNat_ofNat_ascii hb, UInt8.toNat_inj] at hab
            exact hab ▸ List.mem_cons_self
        · exact absurd ((foreign_step h (Nat.not_lt.mp hb)).beyond _ hout) hnot
      · exact List.mem_cons_of_mem b (ih (wide_step h _) hrest)

/-- Every byte gives something, at once or later on. -/
theorem lossyFrom_eq_nil_iff {pending : Option Pending} (h : Wide pending) {bs : List UInt8} :
    lossyFrom pending bs = [] ↔ pending = none ∧ bs = [] := by
  induction bs generalizing pending with
  | nil => cases pending <;> simp [lossyFrom]
  | cons b bs ih =>
      rw [lossyFrom_step, List.append_eq_nil_iff, ih (wide_step h _)]
      refine iff_of_false ?_ (by simp)
      rintro ⟨hout, hnext, -⟩
      by_cases hb : b.toNat < 0x80
      · rw [step_ascii h hb] at hout
        simp at hout
      · exact (foreign_step h (Nat.not_lt.mp hb)).ne_nil hnext hout

end RpcContract.Text.Utf8
