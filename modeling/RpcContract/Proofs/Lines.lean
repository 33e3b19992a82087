import RpcContract.Proofs.Running
import RpcContract.Proofs.Seams
import RpcContract.Proofs.Wording

/-!
# Proofs — a fault is reported on one line

A message stands on one line when it holds no character below U+0020 (`Text.IsLine`).  The names in a
message are literals, which stand on one line whatever the names are.  What is shown as it is, and not
as a literal, is the reason of an input or output fault, and an unexpected token with the alternatives
to it; the message stands on one line when these do (`Fault.isLine_message_iff`).

Reading tokens that stand on one line gives faults that do (`onOneLine_of_readFrom`), and so do the
tokens of a text (`isLine_shown_of_tokenize`): a fragment with a character below U+0020 is no token.
It is reported by the lexer, as a literal.  So the fault of a text that does not compile is reported
on one line (`onOneLine_of_compile`).
-/

namespace RpcContract

open Text Reader

namespace Text

theorem isLine_append {s t : String} : IsLine (s ++ t) ↔ IsLine s ∧ IsLine t := by
  unfold IsLine
  rw [String.toList_append, List.forall_mem_append]

theorem isLine_toString (n : Nat) : IsLine (toString n) := by
  intro c hc
  rw [Nat.toString_eq_ofList_toDigits, String.toList_ofList] at hc
  have hdigit : c.isDigit = true := Nat.isDigit_of_mem_toDigits (by decide) (by decide) hc
  exact Fragment.le_toNat_of_isWordChar (by simp [Fragment.isWordChar, Char.isAlphanum, hdigit])

end Text

/-! ### What a message shows -/

/-- What a fault shows as it is stands on one line. -/
def Fault.OnOneLine : Fault → Prop
  | .io reason => IsLine reason
  | .unexpected found expected => IsLine found ∧ IsLine expected
  | .lexical _ | .duplicate _ _ | .tooManyArgs _ _ | .undeclared _ _ _ => True

/-- The words for a scope stand on one line, as the name in them is quoted. -/
theorem Scope.isLine_text (s : Scope) : IsLine s.text := by
  have hwords : ∀ k ∈ Kind.all, IsLine k.words := by decide +kernel
  rw [text_eq, isLine_append]
  refine ⟨hwords s.kind s.kind.mem_all, ?_⟩
  cases s with
  | service | message => decide
  | procedure owner | field owner => exact isLine_quote owner

/-- What follows the first words of a message. -/
theorem Fault.isLine_body_iff (e : Fault) : IsLine e.body ↔ e.OnOneLine := by
  cases e with
  | io reason => exact Iff.rfl
  | lexical fragment => exact iff_of_true (isLine_quote fragment) trivial
  | unexpected found expected =>
      have hwords : IsLine ", expected " := by decide +kernel
      simp only [body, OnOneLine, isLine_append, hwords, true_and]
  | duplicate scope name =>
      have hspace : IsLine " " := by decide +kernel
      have hwords : IsLine " is already declared" := by decide +kernel
      simp only [body, OnOneLine, isLine_append, scope.isLine_text, isLine_quote, hspace, hwords,
        and_self]
  | tooManyArgs procedure limit =>
      have hmost : IsLine " (at most " := by decide +kernel
      have hallowed : IsLine " allowed)" := by decide +kernel
      simp only [body, OnOneLine, isLine_append, isLine_quote, isLine_toString, hmost, hallowed,
        and_self]
  | undeclared name procedure service =>
      have hproc : IsLine " referenced by proc " := by decide +kernel
      have hsrv : IsLine " in srv " := by decide +kernel
      simp only [body, OnOneLine, isLine_append, isLine_quote, hproc, hsrv, and_self]

/-- **A message stands on one line** exactly when what it shows as it is does.  The names in it are
quoted, and the words around them hold no control character. -/
theorem Fault.isLine_message_iff (e : Fault) : IsLine e.message ↔ e.OnOneLine := by
  have hwords : ∀ k ∈ Kind.all, IsLine k.words := by decide +kernel
  have hkind : IsLine e.kind.words := hwords e.kind e.kind.mem_all
  rw [message_eq, isLine_append, e.isLine_body_iff]
  exact and_iff_right hkind

/-! ### Reading -/

theorem Expected.isLine_text (a : Expected) : IsLine a.text := by
  cases a with
  | kind k => cases k <;> decide +kernel
  | keyword word => cases word <;> decide +kernel

/-- What a place reports of a token stands on one line if the token does. -/
theorem onOneLine_refuse (place : Place) {t : Token} (ht : IsLine t.shown) :
    (place.refuse t).OnOneLine := by
  have hor : IsLine " or " := by decide +kernel
  exact ⟨ht, forall_mem_alternatives Expected.isLine_text hor place.expected⟩

/-- Breaches of the rules are reported with quoted names only. -/
theorem onOneLine_of_breach? {p : Progress} {t : Token} {e : Fault} (h : breach? p t = some e) :
    e.OnOneLine := by
  unfold breach? at h
  split at h
  case h_6 => cases h
  all_goals
    split at h
    all_goals cases h
    trivial

/-- A token that is not taken is refused, or it breaks a rule; the rules are broken by names. -/
theorem onOneLine_of_step {p : Progress} {t : Token} {e : Fault} (ht : IsLine t.shown)
    (h : step p t = .error e) : e.OnOneLine := by
  rw [step] at h
  cases hq : follow p t with
  | none =>
      rw [hq] at h
      cases h
      exact onOneLine_refuse p.place ht
  | some q =>
      rw [hq] at h
      cases hb : breach? p t with
      | none => rw [hb] at h; cases h
      | some f =>
          rw [hb] at h
          cases h
          exact onOneLine_of_breach? hb

theorem isLine_shown_endOfInput : IsLine Token.endOfInput.shown := by
  decide +kernel

theorem onOneLine_of_finish {p : Progress} {e : Fault} (h : finish p = .error e) :
    e.OnOneLine := by
  obtain ⟨-, rfl⟩ := refuse_of_finish h
  exact onOneLine_refuse p.place isLine_shown_endOfInput

/-- **Tokens that stand on one line** give faults that do, whichever token is at fault: a token is
shown as it is only where it is unexpected. -/
theorem onOneLine_of_readFrom {p : Progress} {ts : List Token} {e : Fault}
    (hts : ∀ t ∈ ts, IsLine t.shown) (h : readFrom p ts = .error e) : e.OnOneLine := by
  induction p, ts using reading_induction with
  | nil p | finish p ts => exact onOneLine_of_finish h
  | fault p t ts f ht hs =>
      rw [readFrom_of_error ht hs] at h
      cases h
      exact onOneLine_of_step (hts t List.mem_cons_self) hs
  | taken p t ts q hs ih =>
      rw [readFrom_of_ok hs] at h
      exact ih (fun u hu => hts u (List.mem_cons_of_mem t hu)) h

/-! ### Compiling -/

/-- A token is shown between two marks, so it stands on one line if its text does. -/
theorem isLine_shown_of_text? {t : Token} {w : String} (h : t.text? = some w) (hw : IsLine w) :
    IsLine t.shown := by
  have hmark : IsLine "`" := by decide +kernel
  unfold Token.shown
  rw [h]
  exact isLine_append.mpr ⟨isLine_append.mpr ⟨hmark, hw⟩, hmark⟩

/-- **The tokens of a text** stand on one line each, as a fragment with a control character is no
token. -/
theorem isLine_shown_of_tokenize {text : String} {ts : List Token} (h : tokenize text = .ok ts) :
    ∀ t ∈ ts, IsLine t.shown := by
  have hfs := isToken_of_tokenize h
  have hnone : (Fragment.fragments text.toList).find? (! Fragment.isToken ·) = none := by
    simpa using hfs
  have htokens := Except.ok.inj (h.symm.trans (tokenize_of_find?_none hnone))
  have hfragment : ∀ f ∈ Fragment.fragments text.toList,
      IsLine (Token.ofText (String.ofList f)).shown := by
    intro f hf
    have hline : IsLine (String.ofList f) := by
      intro c hc
      rw [String.toList_ofList] at hc
      exact Fragment.le_toNat_of_isToken (hfs f hf) c hc
    exact isLine_shown_of_text? (Token.text?_ofText (String.ofList f)) hline
  rw [htokens, List.forall_mem_append, List.forall_mem_map, List.forall_mem_singleton]
  exact ⟨hfragment, isLine_shown_endOfInput⟩

/-- A fragment that is no token is quoted where it is reported, whatever it holds. -/
theorem onOneLine_of_tokenize {text : String} {e : Fault} (h : tokenize text = .error e) :
    e.OnOneLine := by
  cases hfind : (Fragment.fragments text.toList).find? (! Fragment.isToken ·) with
  | none => rw [tokenize_of_find?_none hfind] at h; cases h
  | some f =>
      rw [tokenize_of_find?_some hfind] at h
      cases h
      trivial

theorem onOneLine_of_check {c : Contract} {e : Fault} (h : c.check = .error e) :
    e.OnOneLine := by
  unfold Contract.check checkReferences at h
  split at h
  · cases h
    trivial
  · cases h

/-- **The fault of a text** stands on one line, at whichever stage it is found. -/
theorem onOneLine_of_compile {text : String} {e : Fault} (h : compile text = .error e) :
    e.OnOneLine := by
  rcases bind_eq_error_iff.mp h with hparse | ⟨c, -, h⟩
  · rcases bind_eq_error_iff.mp hparse with htokens | ⟨ts, htokens, hread⟩
    · exact onOneLine_of_tokenize htokens
    · exact onOneLine_of_readFrom (isLine_shown_of_tokenize htokens) hread
  · rcases bind_eq_error_iff.mp h with hcheck | ⟨_, -, hnone⟩
    · exact onOneLine_of_check hcheck
    · cases hnone

/-! ### What the command shows -/

namespace CommandLine

/-- **A text that does not compile** is reported on one line.  Its message holds no character below
U+0020, so what the command shows has one line break, which ends it. -/
theorem run_of_fault_on_one_line {text : String} {e : Fault} (h : compile text = .error e) :
    IsLine e.message ∧
      ∀ (tree : FileTree) (args : List (List UInt8)) (usage : List (List UInt8) → String)
        (input : List UInt8), IsInput args input → tree.readText input = .ok text →
          (run tree args usage).2.stderr = "error: " ++ e.message ++ "\n" ∧
            (run tree args usage).2.stderr.toList.count '\n' = 1 := by
  have hline : IsLine e.message := e.isLine_message_iff.mpr (onOneLine_of_compile h)
  have hwords : IsLine "error: " := by decide +kernel
  have hnone : ('\n' : Char) ∉ ("error: " ++ e.message).toList := fun hmem =>
    absurd (isLine_append.mpr ⟨hwords, hline⟩ '\n' hmem) (by decide)
  refine ⟨hline, fun tree args usage input hinput hread => ?_⟩
  have hstderr : (run tree args usage).2.stderr = "error: " ++ e.message ++ "\n" := by
    rw [run_of_fault hinput hread h]
    rfl
  refine ⟨hstderr, ?_⟩
  rw [hstderr, String.toList_append, List.count_append, List.count_eq_zero.mpr hnone]
  rfl

/-- A file of one fragment, which holds a control character and a tab. -/
theorem run_of_fault_with_tab :
    ∃ tree : FileTree,
      tree.readText (Utf8.encode "a.baz") = .ok "a\x01\tb" ∧
      compile "a\x01\tb" = .error (.lexical "a\x01\tb") ∧
      (run tree [Utf8.encode "a.baz"]).2.stderr =
        "error: Lexical error: invalid characters found in \"a\\u0001\\tb\"\n" ∧
      (run tree [Utf8.encode "a.baz"]).2.stderr.toList.count '\n' = 1 := by
  let tree := FileTree.empty.insert [Utf8.encode "a.baz"] (.file "a\x01\tb".toUTF8)
  have ht : tree.readText (Utf8.encode "a.baz") = .ok "a\x01\tb" := rfl
  have hc : compile "a\x01\tb" = .error (.lexical "a\x01\tb") := rfl
  have hinput : IsInput [Utf8.encode "a.baz"] (Utf8.encode "a.baz") :=
    .plain (by decide) (by decide)
  have hmessage : "error: " ++ (Fault.lexical "a\x01\tb").message ++ "\n" =
      "error: Lexical error: invalid characters found in \"a\\u0001\\tb\"\n" := by decide +kernel
  obtain ⟨hstderr, hcount⟩ := (run_of_fault_on_one_line hc).2 tree _ _ _ hinput ht
  exact ⟨tree, ht, hc, hstderr.trans hmessage, hcount⟩

end CommandLine

end RpcContract
