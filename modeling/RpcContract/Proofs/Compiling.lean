import RpcContract.Compile
import RpcContract.Proofs.Layout
import RpcContract.Proofs.Reading

/-!
# Proofs — what compiles

A text parses to a contract when it is a layout of tokens that spell the contract, its identifiers
are names, and the contract keeps within the limits (`parse_eq_ok_iff`).  It compiles to the contract
when, besides, every argument is a message of the contract (`compile_eq_ok_iff`).  The names of a
contract are among the identifiers that spell it, so what a text compiles to is well formed
(`wellFormed_of_compile`).
-/

namespace RpcContract

open Fragment Grammar

/-! ### The names of a contract are identifiers of its tokens -/

/-- Each of the things that tokens spell one after another is spelt by some of these tokens. -/
theorem exists_of_many {α : Type} {R : List Token → α → Prop} {ts : List Token} {xs : List α}
    (h : Many R ts xs) {x : α} (hx : x ∈ xs) : ∃ us, R us x ∧ us ⊆ ts := by
  induction h with
  | nil => cases hx
  | cons hr _ ih =>
      rcases List.mem_cons.mp hx with rfl | hx
      · exact ⟨_, hr, List.subset_append_left ..⟩
      · obtain ⟨us, hus, hsub⟩ := ih hx
        exact ⟨us, hus, List.subset_append_of_subset_right _ hsub⟩

theorem ident_mem_args_iff {ts : List Token} {as : List String} (h : Args ts as) {a : String} :
    .ident a ∈ ts ↔ a ∈ as := by
  cases h with
  | none => simp
  | some h =>
      induction h with
      | last b => simp
      | more b _ ih => simp [ih]

/-- Every name that a procedure holds, its own, those of its arguments and that of its result,
stands among its tokens as an identifier. -/
theorem ident_mem_of_procedure {ts : List Token} {p : Procedure} (h : SpellsProcedure ts p)
    {n : String} (hn : n ∈ p.name :: p.args ++ [p.result]) : .ident n ∈ ts := by
  cases h with
  | mk name result hargs _ =>
      simp only [List.mem_append, List.mem_cons, List.not_mem_nil, or_false] at hn
      rcases hn with (rfl | hn) | rfl
      · simp
      · simp [(ident_mem_args_iff hargs).mpr hn]
      · simp

theorem ident_mem_of_declaration {ts : List Token} {d : Declaration} (h : SpellsDeclaration ts d)
    {n : String} (hn : n ∈ d.allNames) : .ident n ∈ ts := by
  cases h with
  | service name hbody =>
      rcases List.mem_cons.mp hn with rfl | hn
      · simp
      · obtain ⟨p, hp, hn⟩ := List.mem_flatMap.mp hn
        obtain ⟨us, hus, hsub⟩ := exists_of_many hbody hp
        simp [hsub (ident_mem_of_procedure hus hn)]
  | message name hbody =>
      rcases List.mem_cons.mp hn with rfl | hn
      · simp
      · obtain ⟨f, hf, rfl⟩ := List.mem_map.mp hn
        obtain ⟨us, hus, hsub⟩ := exists_of_many hbody hf
        cases hus
        simp [hsub List.mem_cons_self]

/-- Every name in a contract stands among its tokens as an identifier.  So names that come from a
text can be written in a text again. -/
theorem ident_mem_of_spells {ts : List Token} {c : Contract} (h : Spells ts c) {d : Declaration}
    (hd : d ∈ c.declarations) {n : String} (hn : n ∈ d.allNames) : .ident n ∈ ts := by
  obtain ⟨us, hus, hsub⟩ := exists_of_many h hd
  exact hsub (ident_mem_of_declaration hus hn)

/-! ### Layouts, spellings and references -/

/-- Two stages succeed together when the first does, and the second on what the first gives. -/
theorem bind_eq_ok_iff {ε α β : Type} {x : Except ε α} {f : α → Except ε β} {b : β} :
    x >>= f = .ok b ↔ ∃ a, x = .ok a ∧ f a = .ok b := by
  cases x with
  | ok a => simp [bind, Except.bind]
  | error e => simp [bind, Except.bind]

/-- Two stages fail when the first does, or the second on what the first gives. -/
theorem bind_eq_error_iff {ε α β : Type} {x : Except ε α} {f : α → Except ε β} {e : ε} :
    x >>= f = .error e ↔ x = .error e ∨ ∃ a, x = .ok a ∧ f a = .error e := by
  cases x with
  | ok a => simp [bind, Except.bind]
  | error e => simp [bind, Except.bind]

/-- The check passes when every argument of every procedure is a message of the contract. -/
theorem Contract.check_eq_ok_iff {c : Contract} :
    c.check = .ok () ↔
      ∀ s ∈ c.services, ∀ p ∈ s.procedures, ∀ a ∈ p.args, a ∈ c.messageNames := by
  have hnone : undeclared? c.services c.messageNames = none ↔
      ∀ s ∈ c.services, ∀ p ∈ s.procedures, ∀ a ∈ p.args, a ∈ c.messageNames := by
    simp only [undeclared?, Service.references, List.find?_eq_none, List.forall_mem_flatMap,
      List.forall_mem_map, Bool.not_eq_true', Bool.not_eq_false, List.contains_iff_mem]
  rw [← hnone, check, checkReferences]
  cases undeclared? c.services c.messageNames <;> simp

/-- A contract is well-formed when its names can be written, it keeps to the limits that the reader
enforces, and its references are sound. -/
theorem Contract.wellFormed_iff {c : Contract} :
    c.WellFormed ↔ (∀ d ∈ c.declarations, ∀ n ∈ d.allNames, IsName n) ∧ c.Limited ∧
      ∀ s ∈ c.services, ∀ p ∈ s.procedures, ∀ a ∈ p.args, a ∈ c.messageNames :=
  ⟨fun h => ⟨h.names, ⟨h.services, h.messages, h.procedures, h.fields, h.arity⟩, h.references⟩,
    fun ⟨hn, hl, hr⟩ => ⟨hn, hl.services, hl.messages, hl.procedures, hl.fields, hl.arity, hr⟩⟩

/-- The end that closes the tokens of a text is all that is cut off before they are read. -/
theorem takeWhile_append_endOfInput {ts : List Token} (h : .endOfInput ∉ ts) :
    (ts ++ [Token.endOfInput]).takeWhile (· != .endOfInput) = ts := by
  rw [Reader.takeWhile_append_of_not_mem h]
  exact List.append_nil ts

/-- The texts that parse to a contract are the layouts of its spellings. -/
theorem parse_eq_ok_iff {text : String} {c : Contract} :
    parse text = .ok c ↔
      ∃ ts, (∀ n, .ident n ∈ ts → IsName n) ∧ IsLayout ts text.toList ∧ Spells ts c ∧
        c.Limited := by
  rw [parse, bind_eq_ok_iff]
  constructor
  · rintro ⟨us, hus, h⟩
    obtain ⟨ts, rfl, hnames, hlayout⟩ := tokenize_eq_ok_iff.mp hus
    rw [Contract.ofTokens_eq_ok_iff, takeWhile_append_endOfInput hlayout.endOfInput_not_mem] at h
    exact ⟨ts, hnames, hlayout, h⟩
  · rintro ⟨ts, hnames, hlayout, h⟩
    refine ⟨_, tokenize_eq_ok_iff.mpr ⟨ts, rfl, hnames, hlayout⟩, ?_⟩
    rwa [Contract.ofTokens_eq_ok_iff, takeWhile_append_endOfInput hlayout.endOfInput_not_mem]

/-- A text compiles as the contract that is read from it, if the references of that contract are
sound. -/
theorem compile_eq_ok_iff {text : String} {c : Contract} :
    compile text = .ok c ↔ parse text = .ok c ∧
      ∀ s ∈ c.services, ∀ p ∈ s.procedures, ∀ a ∈ p.args, a ∈ c.messageNames := by
  rw [compile, bind_eq_ok_iff, ← Contract.check_eq_ok_iff]
  constructor
  · rintro ⟨c', hc', h⟩
    obtain ⟨⟨⟩, hcheck, h⟩ := bind_eq_ok_iff.mp h
    cases h
    exact ⟨hc', hcheck⟩
  · rintro ⟨hc, hcheck⟩
    exact ⟨c, hc, bind_eq_ok_iff.mpr ⟨(), hcheck, rfl⟩⟩

/-- Every rule holds of what a text compiles to. -/
theorem wellFormed_of_compile {text : String} {c : Contract} (h : compile text = .ok c) :
    c.WellFormed := by
  obtain ⟨hparse, hrefs⟩ := compile_eq_ok_iff.mp h
  obtain ⟨ts, hnames, -, hspells, hlimited⟩ := parse_eq_ok_iff.mp hparse
  exact Contract.wellFormed_iff.mpr
    ⟨fun d hd n hn => hnames n (ident_mem_of_spells hspells hd hn), hlimited, hrefs⟩

end RpcContract
