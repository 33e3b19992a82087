import RpcContract.Proofs.Layout

/-!
# Proofs — the seam of two texts

A text that begins with the end of a run is cut independently of what stands before it, except that
a carriage return before the seam and a line feed behind it make one line break.  Away from this
case, the fragments of two texts put together are those of the first and then those of the second
(`Cut.append`).

So a separator or a delimiter between two texts takes them apart: what is found is what is found in
each of them alone, faults included (`link`, `tokenize_of_fragments`).  A text that has tokens does
not end in a carriage return, so a line feed may follow it without loss, and then any text
(`tokenize_lineFeed`).
-/

namespace RpcContract

namespace Fragment

/-- Whether a character ends runs depends on what follows only where a carriage return and a line
feed meet. -/
theorem ends_append_iff {c : Char} {xs ys : List Char}
    (h : xs = [] → c = '\r' → ys.head? ≠ some '\n') : Ends c (xs ++ ys) ↔ Ends c xs := by
  cases xs with
  | nil =>
      have hr : ¬ (c = '\r' ∧ ys.head? = some '\n') := fun ⟨hc, hys⟩ => h rfl hc hys
      simp [Ends, hr]
  | cons x xs => rfl

/-- What is unbroken before a text is unbroken before a longer one, unless a line break forms at the
seam. -/
theorem unbroken_append_right {xs cs ys : List Char}
    (hseam : (xs ++ cs).getLast? = some '\r' → ys.head? ≠ some '\n') (h : Unbroken xs cs) :
    Unbroken xs (cs ++ ys) := by
  induction xs with
  | nil => trivial
  | cons x xs ih =>
      refine ⟨?_, ih (fun hl => hseam ?_) h.2⟩
      · rw [← List.append_assoc, ends_append_iff]
        · exact h.1
        · rintro e rfl
          exact hseam (by rw [List.cons_append, e]; rfl)
      · rw [List.cons_append, List.getLast?_cons, hl]
        rfl

theorem stops_append {cs ys : List Char} (hcs : Stops cs) (hys : Stops ys)
    (hseam : cs.getLast? = some '\r' → ys.head? ≠ some '\n') : Stops (cs ++ ys) := by
  cases cs with
  | nil => exact hys
  | cons c cs =>
      refine (ends_append_iff fun e hc => hseam ?_).mpr hcs
      rw [e, hc]
      rfl

/-- What holds at the seam of `xs ++ cs` holds at that of `cs`. -/
theorem seam_of_append {xs cs ys : List Char}
    (hseam : (xs ++ cs).getLast? = some '\r' → ys.head? ≠ some '\n') :
    cs.getLast? = some '\r' → ys.head? ≠ some '\n' := by
  intro h
  refine hseam ?_
  rw [List.getLast?_append, h]
  rfl

/-- **Two texts put together** are cut into the fragments of both, if no run goes on into the second
and no line break forms at the seam. -/
theorem Cut.append {xs ys : List Char} {fs gs : List (List Char)} (hxs : Cut xs fs)
    (hys : Cut ys gs) (hstops : Stops ys)
    (hseam : xs.getLast? = some '\r' → ys.head? ≠ some '\n') :
    Cut (xs ++ ys) (fs ++ gs) := by
  induction hxs with
  | nil => exact hys
  | separator hs _ ih =>
      rw [List.append_assoc]
      exact .separator hs (ih (seam_of_append hseam))
  | @delimiter d cs _ hd _ ih => exact .delimiter hd (ih (@seam_of_append [d] cs ys hseam))
  | run hne hu hcs _ ih =>
      have hseam' := seam_of_append hseam
      rw [List.append_assoc]
      exact .run hne (unbroken_append_right hseam hu) (stops_append hcs hstops hseam') (ih hseam')

theorem cut_fragments (text : List Char) : Cut text (fragments text) :=
  cut_iff.mpr rfl

theorem fragments_append {xs ys : List Char} (hstops : Stops ys)
    (hseam : xs.getLast? = some '\r' → ys.head? ≠ some '\n') :
    fragments (xs ++ ys) = fragments xs ++ fragments ys :=
  cut_iff.mp ((cut_fragments xs).append (cut_fragments ys) hstops hseam)

/-- A separator between two texts leaves no trace, unless it is the line feed of a line break that
begins in the first one. -/
theorem fragments_separator {s : List Char} (hs : Separator s) (xs ys : List Char)
    (hseam : s = ['\n'] → xs.getLast? ≠ some '\r') :
    fragments (xs ++ (s ++ ys)) = fragments xs ++ fragments ys := by
  have hys : fragments (s ++ ys) = fragments ys := cut_iff.mp (.separator hs (cut_fragments ys))
  rw [← hys]
  cases hs with
  | space => exact fragments_append (.inl rfl) fun _ => by simp
  | lineFeed => exact fragments_append (.inr (.inl rfl)) fun h => absurd h (hseam rfl)
  | carriageReturn => exact fragments_append (.inr (.inr (.inl ⟨rfl, rfl⟩))) fun _ => by simp

/-- A delimiter between two texts is a fragment between theirs, whatever the two texts are. -/
theorem fragments_delimiter {d : Char} (hd : d ∈ delimiters) (xs ys : List Char) :
    fragments (xs ++ d :: ys) = fragments xs ++ [d] :: fragments ys := by
  have hys : fragments (d :: ys) = [d] :: fragments ys :=
    cut_iff.mp (.delimiter hd (cut_fragments ys))
  rw [← hys]
  refine fragments_append (.inr (.inr (.inr hd))) fun _ e => ?_
  exact not_delimiter.2.1 (Option.some.inj e ▸ hd)

/-! ### The end of a text that has tokens -/

theorem le_toNat_of_isWordChar {c : Char} (h : isWordChar c = true) : 0x20 ≤ c.toNat := by
  have hall : ∀ n < 0x20, isWordChar (Char.ofNat n) = false := by decide
  refine Nat.not_lt.mp fun hc => ?_
  have hfalse := hall c.toNat hc
  rw [Char.ofNat_toNat, h] at hfalse
  cases hfalse

/-- No token holds a character below U+0020. -/
theorem le_toNat_of_isToken {f : List Char} (h : isToken f = true) :
    ∀ c ∈ f, 0x20 ≤ c.toNat := by
  intro c hc
  rcases isToken_iff.mp h with hw | rfl | ⟨d, hd, rfl⟩
  · have hall : ∀ c ∈ f, isWordChar c = true := by
      simpa using (Bool.and_eq_true_iff.mp hw).2
    exact le_toNat_of_isWordChar (hall c hc)
  · rcases List.mem_pair.mp hc with rfl | rfl <;> decide
  · have hall : ∀ d ∈ delimiters, 0x20 ≤ d.toNat := forall_delimiters.mpr (by decide)
    exact List.mem_singleton.mp hc ▸ hall d hd

theorem carriageReturn_not_mem {f : List Char} (h : isToken f = true) : '\r' ∉ f :=
  fun hmem => absurd (le_toNat_of_isToken h _ hmem) (by decide)

/-- A text whose fragments are all tokens does not end in a carriage return. -/
theorem Cut.getLast?_ne {text : List Char} {fs : List (List Char)} (h : Cut text fs)
    (hfs : ∀ f ∈ fs, isToken f = true) : text.getLast? ≠ some '\r' := by
  -- the last character is that of the rest, or of the first piece if nothing follows it
  have hpiece : ∀ {p cs : List Char}, p.getLast? ≠ some '\r' → cs.getLast? ≠ some '\r' →
      (p ++ cs).getLast? ≠ some '\r' := by
    intro p cs hp hcs e
    rw [List.getLast?_append, Option.or_eq_some_iff] at e
    exact e.elim hcs fun e => hp e.2
  have htoken : ∀ {f : List Char}, isToken f = true → f.getLast? ≠ some '\r' :=
    fun hf e => carriageReturn_not_mem hf (List.mem_of_getLast? e)
  induction h with
  | nil => simp
  | separator hs _ ih => exact hpiece (by cases hs <;> decide) (ih hfs)
  | delimiter _ _ ih =>
      rw [List.forall_mem_cons] at hfs
      exact @hpiece [_] _ (htoken hfs.1) (ih hfs.2)
  | run _ _ _ _ ih =>
      rw [List.forall_mem_cons] at hfs
      exact hpiece (htoken hfs.1) (ih hfs.2)

end Fragment

open Fragment

theorem isToken_of_tokenize {text : String} {ts : List Token} (h : tokenize text = .ok ts) :
    ∀ f ∈ fragments text.toList, isToken f = true := by
  cases hfind : (fragments text.toList).find? (! isToken ·) with
  | none => simpa using List.find?_eq_none.mp hfind
  | some f =>
      rw [tokenize_of_find?_some hfind] at h
      cases h

/-- The end of the input is the last token. -/
theorem dropLast_of_tokenize {text : String} {ts : List Token} (h : tokenize text = .ok ts) :
    ts = ts.dropLast ++ [.endOfInput] := by
  obtain ⟨us, rfl, -⟩ := tokenize_eq_ok_iff.mp h
  rw [List.dropLast_concat]

/-! ### Two texts with something between them -/

/-- The tokens of one text and then those of another, with `between` in place of the end of the
first; or the fault of the first one that has a fault. -/
def link (between : List Token) :
    Except Fault (List Token) → Except Fault (List Token) → Except Fault (List Token)
  | .error e, _ => .error e
  | .ok _, .error e => .error e
  | .ok ts, .ok us => .ok (ts.dropLast ++ between ++ us)

/-- The tokens of texts follow one another as their fragments do. -/
theorem tokenize_of_fragments {text a b : String} {between : List (List Char)}
    (h : fragments text.toList = fragments a.toList ++ between ++ fragments b.toList)
    (hbetween : ∀ f ∈ between, isToken f = true) :
    tokenize text =
      link (between.map (Token.ofText ∘ String.ofList)) (tokenize a) (tokenize b) := by
  have hnone : between.find? (! isToken ·) = none := by simpa using hbetween
  -- a fault of the first text hides one of the second
  have hfind : (fragments text.toList).find? (! isToken ·) =
      ((fragments a.toList).find? (! isToken ·)).or ((fragments b.toList).find? (! isToken ·)) := by
    rw [h, List.find?_append, List.find?_append, hnone, Option.or_none]
  cases ha : (fragments a.toList).find? (! isToken ·) with
  | some f =>
      rw [ha, Option.some_or] at hfind
      rw [tokenize_of_find?_some hfind, tokenize_of_find?_some ha]
      rfl
  | none =>
      rw [ha, Option.none_or] at hfind
      rw [tokenize_of_find?_none ha]
      cases hb : (fragments b.toList).find? (! isToken ·) with
      | some f =>
          rw [hb] at hfind
          rw [tokenize_of_find?_some hfind, tokenize_of_find?_some hb]
          rfl
      | none =>
          rw [hb] at hfind
          rw [tokenize_of_find?_none hfind, tokenize_of_find?_none hb, h]
          simp [link]

/-- **A separator takes two texts apart**, unless it is a line feed and makes a line break with the
end of the first. -/
theorem tokenize_separator {s : String} (hs : Separator s.toList) (a b : String)
    (hseam : s.toList = ['\n'] → a.toList.getLast? ≠ some '\r') :
    tokenize (a ++ s ++ b) = link [] (tokenize a) (tokenize b) := by
  have hjoin : fragments (a ++ s ++ b).toList = fragments a.toList ++ [] ++ fragments b.toList := by
    rw [String.toList_append, String.toList_append, List.append_assoc,
      fragments_separator hs _ _ hseam, List.append_nil]
  rw [tokenize_of_fragments hjoin (List.forall_mem_nil _), List.map_nil]

/-- **A delimiter takes two texts apart**, whatever they are, and stands between their tokens.  A
fault of the first text is found before one of the second. -/
theorem tokenize_delimiter {c : Char} (hc : c ∈ delimiters) (a b : String) :
    tokenize (a ++ String.singleton c ++ b) =
      link [Token.ofText (String.singleton c)] (tokenize a) (tokenize b) := by
  have hjoin : fragments (a ++ String.singleton c ++ b).toList =
      fragments a.toList ++ [[c]] ++ fragments b.toList := by
    rw [String.toList_append, String.toList_append, String.toList_singleton, List.append_assoc,
      List.singleton_append, fragments_delimiter hc, List.append_assoc, List.singleton_append]
  have htoken : isToken [c] = true := isToken_iff.mpr (.inr (.inr ⟨c, hc, rfl⟩))
  rw [tokenize_of_fragments hjoin (List.forall_mem_singleton.mpr htoken), List.map_singleton,
    Function.comp_apply, String.singleton_eq_ofList]

/-- A line feed may follow a text that has tokens, and then another. -/
theorem tokenize_lineFeed {a b : String} {ts us : List Token}
    (ha : tokenize a = .ok (ts ++ [.endOfInput])) (hb : tokenize b = .ok (us ++ [.endOfInput])) :
    tokenize (a ++ "\n" ++ b) = .ok (ts ++ us ++ [.endOfInput]) := by
  have hlast : a.toList.getLast? ≠ some '\r' :=
    (cut_fragments a.toList).getLast?_ne (isToken_of_tokenize ha)
  have hfeed : Separator "\n".toList := .lineFeed
  rw [tokenize_separator hfeed a b fun _ => hlast, ha, hb]
  simp [link]

/-- **Tokens of a text in two parts.**  A space or a line break between two texts separates their
tokens, and a delimiter between them adds its own; a fault of the first text comes before one of the
second.  Of the first text's tokens only the end of the input is left out.  A line feed alone
separates a text that does not end in a carriage return, which would be part of the line break. -/
theorem tokenize_between (a b : String) :
    (∀ ts, tokenize a = .ok ts → ts = ts.dropLast ++ [.endOfInput]) ∧
    tokenize (a ++ " " ++ b) = link [] (tokenize a) (tokenize b) ∧
    tokenize (a ++ "\r\n" ++ b) = link [] (tokenize a) (tokenize b) ∧
    (a.toList.getLast? ≠ some '\r' →
      tokenize (a ++ "\n" ++ b) = link [] (tokenize a) (tokenize b)) ∧
    ∀ c ∈ delimiters, ∃ t : Token, t.isDelimiter = true ∧ t.text? = some (String.singleton c) ∧
      tokenize (a ++ String.singleton c ++ b) = link [t] (tokenize a) (tokenize b) := by
  have hspace : Separator " ".toList := .space
  have hbreak : Separator "\r\n".toList := .carriageReturn
  have hfeed : Separator "\n".toList := .lineFeed
  refine ⟨fun _ => dropLast_of_tokenize, tokenize_separator hspace a b ?_,
    tokenize_separator hbreak a b ?_, fun hlast => tokenize_separator hfeed a b fun _ => hlast,
    fun c hc => ?_⟩
  · intro h
    exact absurd h (by decide)
  · intro h
    exact absurd h (by decide)
  · have ht : ∀ c ∈ delimiters, (Token.ofText (String.singleton c)).isDelimiter = true :=
      forall_delimiters.mpr (by decide)
    exact ⟨_, ht c hc, Token.text?_ofText _, tokenize_delimiter hc a b⟩

-- the carriage return is a fault of the first text, and no fault where the line feed follows it
example :
    tokenize ("x\r" ++ "\n" ++ "y") = .ok [.ident "x", .ident "y", .endOfInput] ∧
      link [] (tokenize "x\r") (tokenize "y") = .error (.lexical "x\r") :=
  ⟨rfl, rfl⟩

/-- A line feed separates two texts that both have faults, and a semicolon two that have none. -/
theorem tokenize_between_lines :
    "x\r y".toList.getLast? ≠ some '\r' ∧
    tokenize ("x\r y" ++ "\n" ++ "\n$") = .error (.lexical "x\r") ∧
    ';' ∈ delimiters ∧
    tokenize ("x" ++ String.singleton ';' ++ "\r\ny") =
      .ok [.ident "x", .semicolon, .ident "y", .endOfInput] := by
  have hlast : "x\r y".toList.getLast? ≠ some '\r' := by decide
  have hmark : ';' ∈ delimiters := by decide
  obtain ⟨-, -, -, hfeed, -⟩ := tokenize_between "x\r y" "\n$"
  obtain ⟨-, -, -, -, hdelimiter⟩ := tokenize_between "x" "\r\ny"
  refine ⟨hlast, (hfeed hlast).trans rfl, hmark, ?_⟩
  obtain ⟨t, ht, htext, htokens⟩ := hdelimiter ';' hmark
  obtain rfl : t = .semicolon := by
    cases t <;> simp_all [Token.isDelimiter, Token.text?]
  exact htokens.trans rfl

end RpcContract
