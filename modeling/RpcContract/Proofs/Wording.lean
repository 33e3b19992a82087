import Mathlib
import RpcContract.Proofs.Literals
import RpcContract.Proofs.Stops

/-!
# Proofs — what a message tells

The line that reports a fault tells which fault it is (`Fault.eq_of_message_eq`).  It begins with
words for the kind of the fault, and the words for one kind never begin with those for another.  Then
come the names that the fault holds, as literals, with fixed words between them; a literal at the
front of a text ends in one place only, so each name can be told from what follows it.

An unexpected token is no literal: it is shown as it is written, and an identifier may be written like
the rest of the line.  But the alternatives that a place asks for hold no comma, and they come last, so
the last comma of the line divides the two.  For this they have to be the alternatives of a place
(`Fault.Reportable`).
-/

namespace RpcContract

open Text (quote quote_append_inj quote_injective)
open Reader

/-! ### Words that tell the kind -/

/-- If no words of a table begin with other words of it, then the front of a text tells which of them
stand there, and so what follows them. -/
theorem words_append_inj {α : Type} {words : α → String}
    (hwords : ∀ a b, (words a).toList <+: (words b).toList → a = b) {a b : α} {s t : String}
    (h : words a ++ s = words b ++ t) : a = b ∧ s = t := by
  have hlist : (words a).toList ++ s.toList = (words b).toList ++ t.toList := by
    rw [← String.toList_append, h, String.toList_append]
  have hab : a = b := by
    rcases List.prefix_or_prefix_of_prefix (List.prefix_append _ _)
      (hlist ▸ List.prefix_append (words b).toList t.toList) with hp | hp
    · exact hwords a b hp
    · exact (hwords b a hp).symm
  subst hab
  exact ⟨rfl, (String.append_right_inj _).mp h⟩

/-- The kinds of scopes. -/
inductive Scope.Kind where
  | service | message | procedure | field
  deriving DecidableEq

def Scope.Kind.all : List Scope.Kind := [.service, .message, .procedure, .field]

/-- The words that a scope of a kind begins with. -/
def Scope.Kind.words : Scope.Kind → String
  | .service => "srv"
  | .message => "msg"
  | .procedure => "proc in srv "
  | .field => "field in msg "

def Scope.kind : Scope → Scope.Kind
  | .service => .service
  | .message => .message
  | .procedure _ => .procedure
  | .field _ => .field

/-- The kinds of faults. -/
inductive Fault.Kind where
  | io | lexical | unexpected | duplicate | tooManyArgs | undeclared
  deriving DecidableEq

def Fault.Kind.all : List Fault.Kind :=
  [.io, .lexical, .unexpected, .duplicate, .tooManyArgs, .undeclared]

/-- The words that the message of a kind begins with. -/
def Fault.Kind.words : Fault.Kind → String
  | .io => "I/O error: "
  | .lexical => "Lexical error: invalid characters found in "
  | .unexpected => "Parse error: found "
  | .duplicate => "Duplicate name: "
  | .tooManyArgs => "Parse error: too many args in proc "
  | .undeclared => "Semantic error: undeclared message "

def Fault.kind : Fault → Fault.Kind
  | .io _ => .io
  | .lexical _ => .lexical
  | .unexpected _ _ => .unexpected
  | .duplicate _ _ => .duplicate
  | .tooManyArgs _ _ => .tooManyArgs
  | .undeclared _ _ _ => .undeclared

theorem Scope.Kind.mem_all (k : Scope.Kind) : k ∈ all := by
  cases k <;> decide

theorem Fault.Kind.mem_all (k : Fault.Kind) : k ∈ all := by
  cases k <;> decide

/-- The words for one kind of scope never begin with those for another. -/
theorem Scope.Kind.eq_of_words_prefix (k l : Scope.Kind)
    (h : k.words.toList <+: l.words.toList) : k = l := by
  have hall : ∀ k ∈ all, ∀ l ∈ all, k.words.toList <+: l.words.toList → k = l := by decide +kernel
  exact hall k k.mem_all l l.mem_all h

/-- The words for one kind of fault never begin with those for another. -/
theorem Fault.Kind.eq_of_words_prefix (k l : Fault.Kind)
    (h : k.words.toList <+: l.words.toList) : k = l := by
  have hall : ∀ k ∈ all, ∀ l ∈ all, k.words.toList <+: l.words.toList → k = l := by decide +kernel
  exact hall k k.mem_all l l.mem_all h

/-- What follows the first words of a scope. -/
def Scope.body : Scope → String
  | .service => ""
  | .message => ""
  | .procedure owner => quote owner
  | .field owner => quote owner

/-- What follows the first words of a message. -/
def Fault.body : Fault → String
  | .io reason => reason
  | .lexical fragment => quote fragment
  | .unexpected found expected => found ++ (", expected " ++ expected)
  | .duplicate scope name => scope.text ++ (" " ++ (quote name ++ " is already declared"))
  | .tooManyArgs procedure limit =>
    quote procedure ++ (" (at most " ++ (toString limit ++ " allowed)"))
  | .undeclared name procedure service =>
    quote name ++ (" referenced by proc " ++ (quote procedure ++ (" in srv " ++ quote service)))

theorem Scope.text_eq (s : Scope) : s.text = s.kind.words ++ s.body := by
  cases s with
  | service | message => exact String.append_empty.symm
  | procedure _ | field _ => rfl

/-- A message is the words for its kind, and then what the fault holds. -/
theorem Fault.message_eq (e : Fault) : e.message = e.kind.words ++ e.body := by
  unfold message body kind Kind.words
  cases e with
  | io _ | lexical _ => rfl
  | _ => simp only [String.append_assoc]

/-! ### What follows the words -/

/-- A list is cut at the last occurrence of an element in one way only. -/
theorem append_cons_inj_of_not_mem {α : Type} {x : α} {as bs ss ts : List α} (hs : x ∉ ss)
    (ht : x ∉ ts) (h : as ++ x :: ss = bs ++ x :: ts) : as = bs ∧ ss = ts := by
  rcases List.append_eq_append_iff.mp h with ⟨cs, rfl, hcs⟩ | ⟨cs, rfl, hcs⟩
  · cases cs with
    | nil => exact ⟨(List.append_nil as).symm, (List.cons.inj hcs).2⟩
    | cons c cs =>
        rw [(List.cons.inj hcs).2] at hs
        simp at hs
  · cases cs with
    | nil => exact ⟨List.append_nil bs, (List.cons.inj hcs).2.symm⟩
    | cons c cs =>
        rw [(List.cons.inj hcs).2] at ht
        simp at ht

/-- After the words for its kind, a scope holds a literal that ends by itself, or nothing. -/
theorem Scope.body_append_inj {r r' : String} : ∀ {s s' : Scope}, s.kind = s'.kind →
    s.body ++ (" " ++ r) = s'.body ++ (" " ++ r') → s = s' ∧ r = r'
  | .service, .service, _ | .message, .message, _ => fun h => ⟨rfl, by simpa [body] using h⟩
  | .procedure _, .procedure _, _ | .field _, .field _, _ => fun h => by
      obtain ⟨rfl, hrest⟩ := quote_append_inj h
      exact ⟨rfl, (String.append_right_inj _).mp hrest⟩

/-- The words for a scope, at the front of a text, tell which scope it is and what follows. -/
theorem Scope.text_append_inj {s s' : Scope} {r r' : String}
    (h : s.text ++ (" " ++ r) = s'.text ++ (" " ++ r')) : s = s' ∧ r = r' := by
  rw [text_eq, text_eq, String.append_assoc, String.append_assoc] at h
  obtain ⟨hkind, hbody⟩ := words_append_inj Kind.eq_of_words_prefix h
  exact body_append_inj hkind hbody

/-! ### Unexpected tokens -/

/-- What holds of every character of an alternative, and of the words between two of them, holds of
every character of the alternatives that are reported. -/
theorem forall_mem_alternatives {P : Char → Prop} (htext : ∀ a : Expected, ∀ c ∈ a.text.toList, P c)
    (hor : ∀ c ∈ " or ".toList, P c) (as : List Expected) :
    ∀ c ∈ (" or ".intercalate (as.map (·.text))).toList, P c := by
  induction as with
  | nil => simp
  | cons a as ih =>
      cases as with
      | nil => simpa using htext a
      | cons b bs =>
          rw [List.map_cons, List.map_cons, String.intercalate_cons_cons, String.toList_append,
            String.toList_append, List.forall_mem_append, List.forall_mem_append]
          exact ⟨⟨htext a, hor⟩, ih⟩

theorem Expected.comma_not_mem_text (a : Expected) : ',' ∉ a.text.toList := by
  cases a with
  | kind k => cases k <;> decide +kernel
  | keyword word => cases word <;> decide +kernel

theorem comma_not_mem_alternatives (as : List Expected) :
    ',' ∉ (" or ".intercalate (as.map (·.text))).toList := by
  have hor : ',' ∉ " or ".toList := by decide +kernel
  intro hcomma
  exact forall_mem_alternatives (P := fun c => c ≠ ',')
    (fun a c hc e => a.comma_not_mem_text (e ▸ hc)) (fun c hc e => hor (e ▸ hc)) as ',' hcomma rfl

/-- A fault that is reported: what it says of an unexpected token is what some tokens are refused
for.  The other faults may hold any texts. -/
def Fault.Reportable : Fault → Prop
  | .unexpected found expected =>
    ∃ ts, Contract.ofTokens ts = .error (.unexpected found expected)
  | _ => True

/-- What a place asks for holds no comma in the report, so the last comma of the line stands right
before it. -/
theorem Fault.Reportable.comma_not_mem {found expected : String}
    (h : (Fault.unexpected found expected).Reportable) : ',' ∉ expected.toList := by
  obtain ⟨ts, hts⟩ := h
  obtain ⟨place, hplace⟩ := refuse_of_readFrom hts
  obtain ⟨-, rfl⟩ := Fault.unexpected.inj hplace
  exact comma_not_mem_alternatives place.expected

/-- The last comma stands between the token and the alternatives. -/
theorem found_append_inj {found found' expected expected' : String} (h : ',' ∉ expected.toList)
    (h' : ',' ∉ expected'.toList)
    (heq : found ++ (", expected " ++ expected) = found' ++ (", expected " ++ expected')) :
    found = found' ∧ expected = expected' := by
  have hwords : ", expected ".toList = ',' :: " expected ".toList := by decide +kernel
  have hlist : found.toList ++ ',' :: (" expected ".toList ++ expected.toList) =
      found'.toList ++ ',' :: (" expected ".toList ++ expected'.toList) := by
    have := congrArg String.toList heq
    simpa only [String.toList_append, hwords, List.cons_append] using this
  have hnot : ∀ {x : String}, ',' ∉ x.toList → ',' ∉ " expected ".toList ++ x.toList := by
    intro x hx
    rw [List.mem_append, not_or]
    exact ⟨by decide +kernel, hx⟩
  obtain ⟨hfound, hrest⟩ := append_cons_inj_of_not_mem (hnot h) (hnot h') hlist
  exact ⟨String.toList_inj.mp hfound, String.toList_inj.mp (List.append_cancel_left hrest)⟩

/-! ### Messages -/

namespace Fault

/-- Of the faults of one kind, what follows the words for that kind tells which it is. -/
theorem eq_of_body_eq : ∀ {e f : Fault}, e.kind = f.kind → e.Reportable → f.Reportable →
    e.body = f.body → e = f
  | .io _, .io _, _ => fun _ _ h => congrArg io h
  | .lexical _, .lexical _, _ => fun _ _ h => congrArg lexical (quote_injective h)
  | .unexpected _ _, .unexpected _ _, _ => fun he hf h => by
      obtain ⟨rfl, rfl⟩ := found_append_inj he.comma_not_mem hf.comma_not_mem h
      rfl
  | .duplicate _ _, .duplicate _ _, _ => fun _ _ h => by
      obtain ⟨rfl, hname⟩ := Scope.text_append_inj h
      rw [(quote_append_inj hname).1]
  | .tooManyArgs _ _, .tooManyArgs _ _, _ => fun _ _ h => by
      obtain ⟨rfl, hlimit⟩ := quote_append_inj h
      have hnumber := (String.append_left_inj _).mp ((String.append_right_inj _).mp hlimit)
      rw [Nat.repr_inj.mp hnumber]
  | .undeclared _ _ _, .undeclared _ _ _, _ => fun _ _ h => by
      obtain ⟨rfl, hprocedure⟩ := quote_append_inj h
      obtain ⟨rfl, hservice⟩ := quote_append_inj ((String.append_right_inj _).mp hprocedure)
      rw [quote_injective ((String.append_right_inj _).mp hservice)]

/-- **A message tells its fault.**  Two faults that are reported by the same line are the same,
whatever texts they hold. -/
theorem eq_of_message_eq {e f : Fault} (he : e.Reportable) (hf : f.Reportable)
    (h : e.message = f.message) : e = f := by
  rw [message_eq, message_eq] at h
  obtain ⟨hkind, hbody⟩ := words_append_inj Kind.eq_of_words_prefix h
  exact eq_of_body_eq hkind he hf hbody

/-- An identifier may be spelt like the rest of the line.  Two reports of it that read alike are of
one fault. -/
theorem eq_of_message_eq_spelt :
    let x : Token := .ident "a`, expected IDENT or `b"
    ∃ e f, Contract.ofTokens [.keyword .message, .ident "M", x] = .error e ∧
      Contract.ofTokens [.keyword .service, .ident "S", x] = .error f ∧
      e.Reportable ∧ f.Reportable ∧ e.message = f.message ∧ e = f := by
  intro x
  have he : Contract.ofTokens [.keyword .message, .ident "M", x] =
      .error (.unexpected x.shown "LBRACE") := rfl
  have hf : Contract.ofTokens [.keyword .service, .ident "S", x] =
      .error (.unexpected x.shown "LBRACE") := rfl
  exact ⟨_, _, he, hf, ⟨_, he⟩, ⟨_, hf⟩, rfl, eq_of_message_eq ⟨_, he⟩ ⟨_, hf⟩ rfl⟩

end Fault

end RpcContract
