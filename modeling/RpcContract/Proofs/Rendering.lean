import RpcContract.Contract.Render
import RpcContract.Proofs.Compiling

/-!
# Proofs — compiling the canonical text

The tokens of a contract spell it, and its canonical text is a layout of them.  So a contract whose
names can be written parses back from its canonical text whenever it keeps within the limits, and the
contracts that compile back from their canonical text are the well-formed ones.
-/

namespace RpcContract

open Fragment Grammar

/-! ### The tokens of a contract spell it -/

/-- If each thing is spelt by its own tokens, then many are spelt by theirs one after another. -/
theorem many_flatMap {α : Type} {R : List Token → α → Prop} {f : α → List Token}
    (h : ∀ x, R (f x) x) (xs : List α) : Many R (xs.flatMap f) xs := by
  induction xs with
  | nil => exact .nil
  | cons x xs ih => exact .cons (h x) ih

theorem someArgs_intersperse (a : String) (as : List String) :
    SomeArgs (((a :: as).map Token.ident).intersperse .comma) (a :: as) := by
  induction as generalizing a with
  | nil => exact .last a
  | cons b as ih => exact .more a (ih b)

theorem args_intersperse (as : List String) :
    Args ((as.map Token.ident).intersperse .comma) as := by
  cases as with
  | nil => exact .none
  | cons a as => exact .some (someArgs_intersperse a as)

theorem Procedure.spells_tokens (p : Procedure) : SpellsProcedure p.tokens p :=
  .mk p.name p.result (args_intersperse p.args) .arrow

theorem Declaration.spells_tokens (d : Declaration) : SpellsDeclaration d.tokens d := by
  cases d with
  | service s => exact .service s.name (many_flatMap Procedure.spells_tokens s.procedures)
  | message m => exact .message m.name (many_flatMap (fun f => .mk f.name f.type) m.fields)

/-- **The tokens that a contract is written with** spell that contract, whatever names it holds.
That its text has these tokens is another matter, and needs names that can be written. -/
theorem Contract.spells_tokens (c : Contract) : Spells c.tokens c :=
  many_flatMap Declaration.spells_tokens c.declarations

/-! ### The canonical text is a layout -/

theorem Procedure.ident_mem_tokens {p : Procedure} {n : String} (h : .ident n ∈ p.tokens) :
    n ∈ p.name :: p.args ++ [p.result] := by
  simp only [tokens, List.mem_append, List.mem_cons, List.not_mem_nil, or_false, reduceCtorEq,
    false_or, Token.ident.injEq, ident_mem_args_iff (args_intersperse p.args)] at h
  simpa [or_assoc] using h

/-- The identifiers among the tokens of a contract are its names. -/
theorem Contract.exists_of_ident_mem {c : Contract} {n : String} (h : .ident n ∈ c.tokens) :
    ∃ d ∈ c.declarations, n ∈ d.allNames := by
  obtain ⟨d, hd, h⟩ := List.mem_flatMap.mp h
  refine ⟨d, hd, ?_⟩
  cases d with
  | service s =>
      simp only [Declaration.tokens, List.mem_append, List.mem_cons, List.not_mem_nil, or_false,
        reduceCtorEq, false_or, Token.ident.injEq, List.mem_flatMap] at h
      rcases h with rfl | ⟨p, hp, h⟩
      · exact List.mem_cons_self
      · exact List.mem_cons_of_mem _ (List.mem_flatMap.mpr ⟨p, hp, p.ident_mem_tokens h⟩)
  | message m =>
      simp only [Declaration.tokens, Field.tokens, List.mem_append, List.mem_cons,
        List.not_mem_nil, or_false, reduceCtorEq, false_or, Token.ident.injEq,
        List.mem_flatMap] at h
      rcases h with rfl | ⟨f, hf, rfl⟩
      · exact List.mem_cons_self
      · exact List.mem_cons_of_mem _ (List.mem_map.mpr ⟨f, hf, rfl⟩)

/-- Tokens with single spaces between them. -/
theorem spread_intercalate {ts : List Token} (h : .endOfInput ∉ ts) :
    Spread ts (" ".intercalate (ts.filterMap (·.text?))).toList := by
  have htext : ∀ t ≠ Token.endOfInput, ∃ w, t.text? = some w := by
    intro t ht
    cases t with
    | endOfInput => exact absurd rfl ht
    | _ => exact ⟨_, rfl⟩
  induction ts with
  | nil => exact .nil
  | cons t ts ih =>
      rw [List.mem_cons, not_or] at h
      obtain ⟨w, hw⟩ := htext t (Ne.symm h.1)
      rw [List.filterMap_cons_some hw]
      -- the space stands behind every token but the last
      cases ts with
      | nil => simpa using Spread.cons hw .nil (by simp) .nil
      | cons u us =>
          obtain ⟨x, hx⟩ := htext u fun e => h.2 (by simp [e])
          have hspread := ih h.2
          rw [List.filterMap_cons_some hx] at hspread ⊢
          rw [String.intercalate_cons_cons, String.toList_append, String.toList_append]
          exact .cons hw (.cons .space .nil) (by simp) hspread

/-- The canonical text lays out the contract's tokens, as single spaces keep them apart. -/
theorem Contract.layout_render (c : Contract) : IsLayout c.tokens c.render.toList :=
  ⟨[], _, .nil, spread_intercalate (Reader.endOfInput_not_mem_of_spells c.spells_tokens), rfl⟩

/-! ### The contracts that texts compile to -/

/-- **Compiling gives the well-formed contracts**: what a text compiles to is well formed, and the
canonical text of a contract compiles to that contract exactly when it is well formed. -/
theorem compile_render :
    (∀ text c, compile text = .ok c → c.WellFormed) ∧
      ∀ c : Contract, compile c.render = .ok c ↔ c.WellFormed := by
  refine ⟨fun _ _ => wellFormed_of_compile, fun c => ⟨wellFormed_of_compile, fun h => ?_⟩⟩
  obtain ⟨hnames, hlimited, hrefs⟩ := Contract.wellFormed_iff.mp h
  refine compile_eq_ok_iff.mpr ⟨parse_eq_ok_iff.mpr ?_, hrefs⟩
  refine ⟨c.tokens, fun n hn => ?_, c.layout_render, c.spells_tokens, hlimited⟩
  obtain ⟨d, hd, hn⟩ := Contract.exists_of_ident_mem hn
  exact hnames d hd n hn

/-- A service and a message of one name, a message that is used before it is declared, and a name
between a procedure's arguments and its result. -/
theorem compile_shared_name :
    ∃ c : Contract,
      c.declarations = [.service ⟨"A", [⟨"f", ["A", "B"], "R"⟩]⟩, .message ⟨"B", []⟩,
        .message ⟨"A", [⟨"x", .unit⟩]⟩] ∧
      compile "srv A\x7bproc f(A,B)gives R;\x7d\r\nmsg B\x7b\x7d\nmsg A\x7bx unit;\x7d" = .ok c ∧
      c.WellFormed ∧ compile c.render = .ok c := by
  have hback {text : String} {c : Contract} (h : compile text = .ok c) :
      compile text = .ok c ∧ c.WellFormed ∧ compile c.render = .ok c :=
    have hc := compile_render.1 text c h
    ⟨h, hc, (compile_render.2 c).mpr hc⟩
  exact ⟨⟨_⟩, rfl, hback rfl⟩

end RpcContract
