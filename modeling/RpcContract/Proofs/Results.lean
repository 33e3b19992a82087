import Mathlib.Data.List.Forall2
import RpcContract.Compile
import RpcContract.Proofs.Reading

/-!
# Proofs — connectors and results

Two things that a procedure is written with play no part in whether a contract is accepted: the
token between its arguments and its result, and the name of that result.  `Revised ts us` says that
`us` are the tokens `ts` with identifiers in the place of some arrows, and with other identifiers
before the semicolons.  Tokens that are revised spell the same contract, the results aside
(`spells_of_revised`); the results of a contract are the identifiers that stand directly before
semicolons (`resultNames_of_spells`), and nothing else of a contract depends on them.
-/

namespace RpcContract

open Grammar Reader

/-! ### A contract without its results -/

def Procedure.withoutResult (p : Procedure) : Procedure := { p with result := "" }

def Service.withoutResults (s : Service) : Service :=
  ⟨s.name, s.procedures.map (·.withoutResult)⟩

def Declaration.withoutResults : Declaration → Declaration
  | .service s => .service s.withoutResults
  | .message m => .message m

/-- The contract with the name of what each procedure returns left out. -/
def Contract.withoutResults (c : Contract) : Contract :=
  ⟨c.declarations.map (·.withoutResults)⟩

def Declaration.results : Declaration → List String
  | .service s => s.procedures.map (·.result)
  | .message _ => []

/-- What the procedures of a contract return, in the order in which they are written. -/
def Contract.results (c : Contract) : List String :=
  c.declarations.flatMap (·.results)

theorem Declaration.length_results (d : Declaration) :
    d.withoutResults.results.length = d.results.length := by
  cases d <;> simp [withoutResults, results, Service.withoutResults]

theorem Contract.length_results (c : Contract) :
    c.withoutResults.results.length = c.results.length := by
  simp [results, withoutResults, List.length_flatMap, Declaration.length_results, Function.comp_def]

theorem procedures_ext_results {ps qs : List Procedure}
    (h : ps.map (·.withoutResult) = qs.map (·.withoutResult))
    (hr : ps.map (·.result) = qs.map (·.result)) : ps = qs := by
  induction ps generalizing qs with
  | nil => simpa using h.symm
  | cons p ps ih =>
      cases qs with
      | nil => cases h
      | cons q qs =>
          obtain ⟨hp, hps⟩ := List.cons.inj h
          obtain ⟨hrp, hrps⟩ := List.cons.inj hr
          obtain ⟨hname, hargs, -⟩ := Procedure.mk.inj hp
          rw [ih hps hrps, show p = q from congr (congrArg₂ Procedure.mk hname hargs) hrp]

theorem Declaration.ext_results {d e : Declaration} (h : d.withoutResults = e.withoutResults)
    (hr : d.results = e.results) : d = e := by
  cases d with
  | service s =>
      cases e with
      | message => cases h
      | service t =>
          obtain ⟨hname, hps⟩ := Service.mk.inj (Declaration.service.inj h)
          exact congrArg Declaration.service
            (congrArg₂ Service.mk hname (procedures_ext_results hps hr))
  | message m =>
      cases e with
      | service => cases h
      | message m' => exact h

/-- **A contract is made of its results and the rest.**  The results of all declarations stand in
one list, and it is known how many of them belong to each. -/
theorem Contract.ext_results {c d : Contract} (h : c.withoutResults = d.withoutResults)
    (hr : c.results = d.results) : c = d := by
  obtain ⟨ds⟩ := c
  obtain ⟨es⟩ := d
  induction ds generalizing es with
  | nil =>
      have hnil : [] = es.map (·.withoutResults) := congrArg Contract.declarations h
      rw [List.map_eq_nil_iff.mp hnil.symm]
  | cons d ds ih =>
      cases es with
      | nil => cases h
      | cons e es =>
          obtain ⟨hd, hds⟩ : d.withoutResults = e.withoutResults ∧
              ds.map (·.withoutResults) = es.map (·.withoutResults) :=
            List.cons.inj (congrArg Contract.declarations h)
          -- as many results belong to the first declaration on either side
          have hlen : d.results.length = e.results.length := by
            rw [← d.length_results, ← e.length_results, hd]
          obtain ⟨hrd, hrds⟩ := List.append_inj hr hlen
          have hrest : Contract.mk ds = ⟨es⟩ := ih es (congrArg Contract.mk hds) hrds
          rw [Declaration.ext_results hd hrd, Contract.mk.inj hrest]

/-! ### What does not depend on the results -/

namespace Contract

theorem services_withoutResults (c : Contract) :
    c.withoutResults.services = c.services.map (·.withoutResults) :=
  services_map (fun d => by cases d <;> rfl) c

theorem messages_withoutResults (c : Contract) : c.withoutResults.messages = c.messages := by
  have h := messages_map (f := (·.withoutResults)) (g := id) (fun d => by cases d <;> rfl) c
  rwa [List.map_id] at h

theorem messageNames_withoutResults (c : Contract) :
    c.withoutResults.messageNames = c.messageNames := by
  rw [messageNames, messages_withoutResults, messageNames]

/-- The limits say nothing of the results. -/
theorem limited_withoutResults {c : Contract} : c.withoutResults.Limited ↔ c.Limited := by
  have hservices : c.withoutResults.serviceNames = c.serviceNames := by
    simp [serviceNames, services_withoutResults, Service.withoutResults]
  have hprocedures : (∀ s ∈ c.withoutResults.services, (s.procedures.map (·.name)).Nodup) ↔
      ∀ s ∈ c.services, (s.procedures.map (·.name)).Nodup := by
    simp [services_withoutResults, Service.withoutResults, Procedure.withoutResult,
      Function.comp_def]
  have harity : (∀ s ∈ c.withoutResults.services, ∀ p ∈ s.procedures, p.args.length ≤ maxArgs) ↔
      ∀ s ∈ c.services, ∀ p ∈ s.procedures, p.args.length ≤ maxArgs := by
    simp [services_withoutResults, Service.withoutResults, Procedure.withoutResult]
  constructor
  · intro h
    exact ⟨hservices ▸ h.services, c.messageNames_withoutResults ▸ h.messages,
      hprocedures.mp h.procedures, c.messages_withoutResults ▸ h.fields, harity.mp h.arity⟩
  · intro h
    exact ⟨hservices ▸ h.services, c.messageNames_withoutResults ▸ h.messages,
      hprocedures.mpr h.procedures, c.messages_withoutResults ▸ h.fields, harity.mpr h.arity⟩

/-- The references say nothing of the results. -/
theorem check_withoutResults (c : Contract) : c.withoutResults.check = c.check := by
  have huses : c.withoutResults.services.flatMap (·.references) =
      c.services.flatMap (·.references) := by
    simp [services_withoutResults, Service.withoutResults, Procedure.withoutResult,
      Service.references, List.flatMap_map]
  rw [check, checkReferences, undeclared?, huses, messageNames_withoutResults]
  rfl

end Contract

/-! ### Tokens that are revised -/

/-- One token in the place of another: the same one, or an identifier for an arrow. -/
inductive Token.Reconnects : Token → Token → Prop where
  | same (t : Token) : Reconnects t t
  | arrow (name : String) : Reconnects .arrow (.ident name)

/-- Tokens with identifiers in the place of some arrows, and other identifiers before semicolons. -/
inductive Revised : List Token → List Token → Prop where
  | nil : Revised [] []
  | same (t : Token) {ts us : List Token} : Revised ts us → Revised (t :: ts) (t :: us)
  | connector (name : String) {ts us : List Token} :
    Revised ts us → Revised (.arrow :: ts) (.ident name :: us)
  | result (r r' : String) {ts us : List Token} :
    Revised ts us → Revised (.ident r :: .semicolon :: ts) (.ident r' :: .semicolon :: us)

/-- To put identifiers in the place of arrows is one way to revise. -/
theorem revised_of_reconnects {ts us : List Token} (h : List.Forall₂ Token.Reconnects ts us) :
    Revised ts us := by
  induction h with
  | nil => exact .nil
  | cons ht _ ih =>
      cases ht with
      | same => exact .same _ ih
      | arrow name => exact .connector name ih

/-- The tokens of a thing that is spelt by the rule `R` are revised together with what follows them:
they come to spell a thing that is the same under `f`. -/
def Revises {α : Type} (R : List Token → α → Prop) (f : α → α) : Prop :=
  ∀ ts x us vs, R ts x → Revised (ts ++ us) vs →
    ∃ ts' us' x', vs = ts' ++ us' ∧ R ts' x' ∧ f x' = f x ∧ Revised us us'

/-- A revision does not touch arguments: they are followed by commas or by the mark that closes
them, never by a semicolon. -/
theorem revised_args {ts us vs : List Token} {as : List String} (h : Args ts as)
    (hr : Revised (ts ++ .rparen :: us) vs) :
    ∃ us', vs = ts ++ .rparen :: us' ∧ Revised us us' := by
  cases h with
  | none =>
      obtain _ | ⟨_, hr⟩ := hr
      exact ⟨_, rfl, hr⟩
  | some h =>
      induction h generalizing vs with
      | last a =>
          obtain _ | ⟨_, _ | ⟨_, hr⟩⟩ := hr
          exact ⟨_, rfl, hr⟩
      | more a _ ih =>
          obtain _ | ⟨_, _ | ⟨_, hr⟩⟩ := hr
          obtain ⟨us', rfl, hus⟩ := ih hr
          exact ⟨us', rfl, hus⟩

/-- A revision leaves a connector where one was, whether an arrow or an identifier. -/
theorem revised_connector {t : Token} {ts us : List Token} (h : Connector t)
    (hr : Revised (t :: ts) us) (hts : ts.head? ≠ some .semicolon) :
    ∃ t' us', us = t' :: us' ∧ Connector t' ∧ Revised ts us' := by
  cases hr with
  | same _ hr => exact ⟨t, _, rfl, h, hr⟩
  | connector name hr => exact ⟨.ident name, _, rfl, .ident name, hr⟩
  | result => exact absurd rfl hts

theorem revised_result {r : String} {ts us : List Token}
    (hr : Revised (.ident r :: .semicolon :: ts) us) :
    ∃ r' us', us = .ident r' :: .semicolon :: us' ∧ Revised ts us' := by
  cases hr with
  | same _ hr =>
      obtain _ | ⟨_, hr⟩ := hr
      exact ⟨r, _, rfl, hr⟩
  | result _ r' hr => exact ⟨r', _, rfl, hr⟩

/-- **A revised procedure** is a procedure, which differs in its result at most: the arguments stay,
the connector stays one, and the identifier before the semicolon may be another. -/
theorem revises_procedure : Revises SpellsProcedure Procedure.withoutResult := by
  intro ts x us vs h hr
  cases h with
  | mk name result hargs hconnector =>
      simp only [List.append_assoc, List.cons_append, List.nil_append] at hr
      -- the tokens before the arguments are no arrows, and no semicolon follows them
      obtain _ | ⟨_, _ | ⟨_, _ | ⟨_, hr⟩⟩⟩ := hr
      obtain ⟨_, rfl, hafter⟩ := revised_args hargs hr
      obtain ⟨_, _, rfl, hc, hresult⟩ := revised_connector hconnector hafter nofun
      obtain ⟨r, _, rfl, hrest⟩ := revised_result hresult
      exact ⟨_, _, _, by simp, .mk name r hargs hc, rfl, hrest⟩

theorem revises_field : Revises SpellsField id := by
  intro ts x us vs h hr
  cases h with
  | mk name type =>
      obtain _ | ⟨_, _ | ⟨_, _ | ⟨_, hr⟩⟩⟩ := hr
      exact ⟨_, _, _, rfl, .mk name type, rfl, hr⟩

/-- **Things one after another** are revised one after another, by induction on how they are spelt;
what is left of the revision after one thing is a revision of the others. -/
theorem revises_many {α : Type} {R : List Token → α → Prop} {f : α → α} (h : Revises R f) :
    Revises (Many R) (List.map f) := by
  intro ts xs us vs hm hr
  induction hm generalizing vs with
  | nil => exact ⟨[], vs, [], rfl, .nil, rfl, hr⟩
  | cons hx _ ih =>
      rw [List.append_assoc] at hr
      obtain ⟨ts', ws, x', rfl, hx', hfx, hr⟩ := h _ _ _ _ hx hr
      obtain ⟨ts'', us', xs', rfl, hxs', hfxs, hr⟩ := ih _ hr
      exact ⟨ts' ++ ts'', us', x' :: xs', by simp, .cons hx' hxs', by simp [hfx, hfxs], hr⟩

/-- A revised declaration is a declaration, which differs in results at most. -/
theorem revises_declaration : Revises SpellsDeclaration Declaration.withoutResults := by
  intro ts d us vs h hr
  cases h with
  | service name hbody =>
      simp only [List.append_assoc, List.cons_append, List.nil_append] at hr
      obtain _ | ⟨_, _ | ⟨_, _ | ⟨_, hr⟩⟩⟩ := hr
      obtain ⟨_, _, ps, rfl, hps, hsame, hclose⟩ := revises_many revises_procedure _ _ _ _ hbody hr
      obtain _ | ⟨_, hrest⟩ := hclose
      refine ⟨_, _, _, by simp, .service name hps, ?_, hrest⟩
      exact congrArg (fun ps => Declaration.service ⟨name, ps⟩) hsame
  | message name hbody =>
      simp only [List.append_assoc, List.cons_append, List.nil_append] at hr
      obtain _ | ⟨_, _ | ⟨_, _ | ⟨_, hr⟩⟩⟩ := hr
      obtain ⟨_, _, fs, rfl, hfs, hsame, hclose⟩ := revises_many revises_field _ _ _ _ hbody hr
      obtain _ | ⟨_, hrest⟩ := hclose
      refine ⟨_, _, _, by simp, .message name hfs, ?_, hrest⟩
      rw [List.map_id, List.map_id] at hsame
      rw [hsame]

/-- **Tokens that are revised** spell a contract again.  It is the same one, the results aside. -/
theorem spells_of_revised {ts us : List Token} {c : Contract} (h : Spells ts c)
    (hr : Revised ts us) : ∃ d, Spells us d ∧ d.withoutResults = c.withoutResults := by
  rw [← List.append_nil ts] at hr
  obtain ⟨us, _, ds, rfl, hds, hsame, hnil⟩ := revises_many revises_declaration _ _ _ _ h hr
  obtain _ | _ := hnil
  rw [List.append_nil]
  exact ⟨⟨ds⟩, hds, congrArg Contract.mk hsame⟩

/-! ### The results stand before semicolons -/

/-- The identifiers that stand directly before semicolons. -/
def resultNames : List Token → List String
  | .ident r :: .semicolon :: ts => r :: resultNames ts
  | _ :: ts => resultNames ts
  | [] => []

theorem resultNames_args {ts us : List Token} {as : List String} (h : Args ts as) :
    resultNames (ts ++ .rparen :: us) = resultNames us := by
  cases h with
  | none => rfl
  | some h =>
      induction h with
      | last a => rfl
      | more a _ ih => exact ih

/-- The one result that is found in the tokens of a procedure is its own. -/
theorem resultNames_procedure {ts : List Token} {x : Procedure} (us : List Token)
    (h : SpellsProcedure ts x) :
    resultNames (ts ++ us) = x.result :: resultNames us := by
  cases h with
  | @mk name result ts args connector hargs hconnector =>
      have hclosing : resultNames (connector :: .ident result :: .semicolon :: us) =
          result :: resultNames us := by
        cases hconnector <;> rfl
      simp only [List.append_assoc, List.cons_append, List.nil_append]
      exact (resultNames_args hargs).trans hclosing

/-- A field ends with a semicolon too, but a value type stands before that. -/
theorem resultNames_field {ts : List Token} {x : Field} (us : List Token) (h : SpellsField ts x) :
    resultNames (ts ++ us) = resultNames us := by
  cases h
  rfl

/-- The results of things that are spelt one after another are found one after another. -/
theorem resultNames_many {α : Type} {R : List Token → α → Prop} {g : α → List String}
    (h : ∀ ts x us, R ts x → resultNames (ts ++ us) = g x ++ resultNames us)
    {ts : List Token} {xs : List α} (hm : Many R ts xs) (us : List Token) :
    resultNames (ts ++ us) = xs.flatMap g ++ resultNames us := by
  induction hm with
  | nil => rfl
  | cons hx _ ih => rw [List.append_assoc, h _ _ _ hx, ih, List.flatMap_cons, List.append_assoc]

theorem resultNames_declaration {ts : List Token} {d : Declaration} (us : List Token)
    (h : SpellsDeclaration ts d) : resultNames (ts ++ us) = d.results ++ resultNames us := by
  cases h with
  | @service name ts ps hbody =>
      have hps := resultNames_many (g := fun p => [p.result]) (fun _ _ => resultNames_procedure)
        hbody (.rbrace :: us)
      rw [← List.map_eq_flatMap] at hps
      simp only [List.append_assoc]
      exact hps
  | @message name ts fs hbody =>
      have hfs := resultNames_many (g := fun _ => []) (fun _ _ => resultNames_field)
        hbody (.rbrace :: us)
      rw [List.flatMap_eq_nil_iff.mpr fun _ _ => rfl] at hfs
      simp only [List.append_assoc]
      exact hfs

/-- **The results of a contract** are the identifiers that stand directly before semicolons, as a
field has a value type there. -/
theorem resultNames_of_spells {ts : List Token} {c : Contract} (h : Spells ts c) :
    resultNames ts = c.results := by
  have hmany := resultNames_many (R := SpellsDeclaration) (fun _ _ => resultNames_declaration) h []
  rwa [List.append_nil, resultNames, List.append_nil] at hmany

theorem resultNames_sublist_cons (t : Token) (ts : List Token) :
    (resultNames ts).Sublist (resultNames (t :: ts)) := by
  cases t with
  | ident r =>
      cases ts with
      | nil => exact .refl _
      | cons u us =>
          cases u with
          | semicolon => exact List.sublist_cons_self r _
          | _ => exact .refl _
  | _ => exact .refl _

/-- Other connectors take no result away. -/
theorem resultNames_sublist {ts us : List Token} (h : List.Forall₂ Token.Reconnects ts us) :
    (resultNames ts).Sublist (resultNames us) := by
  fun_induction resultNames ts generalizing us with
  | case1 r ts ih =>
      cases h with
      | cons ht h =>
          cases h with
          | cons hs h =>
              cases ht
              cases hs
              exact (ih h).cons_cons r
  | case2 t ts hne ih =>
      cases h with
      | cons ht h => exact (ih h).trans (resultNames_sublist_cons _ _)
  | case3 =>
      cases h
      exact .refl _

/-- Other connectors leave the contract as it is. -/
theorem spells_of_reconnects {ts us : List Token} {c : Contract} (h : Spells ts c)
    (hr : List.Forall₂ Token.Reconnects ts us) : Spells us c := by
  obtain ⟨d, hd, hsame⟩ := spells_of_revised h (revised_of_reconnects hr)
  -- no result is lost, and there are as many as before
  have hsub : c.results.Sublist d.results := by
    rw [← resultNames_of_spells h, ← resultNames_of_spells hd]
    exact resultNames_sublist hr
  have hlen : c.results.length = d.results.length := by
    rw [← c.length_results, ← d.length_results, hsame]
  rwa [Contract.ext_results hsame (hsub.eq_of_length hlen).symm] at hd

namespace Contract

/-- Where no end of the input stands among them, all of the tokens count. -/
theorem ofTokens_eq_ok_iff_spells {ts : List Token} {c : Contract} (h : .endOfInput ∉ ts) :
    ofTokens ts = .ok c ↔ Spells ts c ∧ c.Limited := by
  have hends : ts.takeWhile (· != .endOfInput) = ts := by
    have happend := takeWhile_append_of_not_mem h []
    rwa [List.takeWhile_nil, List.append_nil] at happend
  rw [ofTokens_eq_ok_iff, hends]

theorem ofTokens_eq_ok_of_spells {ts : List Token} {c : Contract} (h : Spells ts c)
    (hlimited : c.Limited) : ofTokens ts = .ok c :=
  (ofTokens_eq_ok_iff_spells (endOfInput_not_mem_of_spells h)).mpr ⟨h, hlimited⟩

/-- **Connectors and results do not matter.**  From tokens that are read as a contract, others with
identifiers in the place of arrows are read as the same contract.  If other identifiers stand before
the semicolons too, then these are the results of what is read, in order; nothing else is changed, and
the check of the references has the same outcome. -/
theorem ofTokens_revised {ts : List Token} {c : Contract} (hts : .endOfInput ∉ ts)
    (h : ofTokens ts = .ok c) :
    (∀ us, List.Forall₂ Token.Reconnects ts us → ofTokens us = .ok c) ∧
      ∀ us, Revised ts us → ∃ d, ofTokens us = .ok d ∧ d.withoutResults = c.withoutResults ∧
        d.results = resultNames us ∧ d.check = c.check := by
  obtain ⟨hspells, hlimited⟩ := (ofTokens_eq_ok_iff_spells hts).mp h
  constructor
  · intro us hr
    exact ofTokens_eq_ok_of_spells (spells_of_reconnects hspells hr) hlimited
  · intro us hr
    obtain ⟨d, hd, hsame⟩ := spells_of_revised hspells hr
    have hdlimited : d.Limited := by rwa [← limited_withoutResults, hsame, limited_withoutResults]
    refine ⟨d, ofTokens_eq_ok_of_spells hd hdlimited, hsame, (resultNames_of_spells hd).symm, ?_⟩
    rw [← d.check_withoutResults, hsame, c.check_withoutResults]

/-- Identifiers that are spelt like keywords and marks do for the connector and for the result.  The
fault of the references stays the same. -/
theorem ofTokens_revised_twice :
    let body (connector : Token) (r r' : String) : List Token :=
      [.keyword .service, .ident "S", .lbrace,
        .keyword .procedure, .ident "p", .lparen, .rparen, connector, .ident r, .semicolon,
        .keyword .procedure, .ident "q", .lparen, .ident "M", .rparen, .arrow, .ident r', .semicolon,
        .rbrace]
    let c : Contract := ⟨[.service ⟨"S", [⟨"p", [], "R"⟩, ⟨"q", ["M"], "T"⟩]⟩]⟩
    ofTokens (body .arrow "R" "T") = .ok c ∧ ofTokens (body (.ident "->") "R" "T") = .ok c ∧
      ∃ d, ofTokens (body .arrow "srv" ";") = .ok d ∧ d.withoutResults = c.withoutResults ∧
        d.results = ["srv", ";"] ∧ d.check = .error (.undeclared "M" "q" "S") := by
  intro body c
  have hread : ofTokens (body .arrow "R" "T") = .ok c := rfl
  obtain ⟨hconnectors, hresults⟩ := ofTokens_revised (by decide) hread
  have hconnector : List.Forall₂ Token.Reconnects (body .arrow "R" "T")
      (body (.ident "->") "R" "T") := by
    repeat' constructor
  have hresult : Revised (body .arrow "R" "T") (body .arrow "srv" ";") := by
    repeat constructor
  exact ⟨hread, hconnectors _ hconnector, hresults _ hresult⟩

end Contract

end RpcContract
