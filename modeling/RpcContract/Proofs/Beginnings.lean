import RpcContract.Proofs.Survey

/-!
# Proofs — beginnings of contracts

`Begins ts p` says that the tokens `ts` are a beginning of some contract and that they lead to `p`:
they spell the declarations that are complete there, and then a part of the one that is begun.  A
token that can be followed makes a beginning longer (`Begins.follow`), so what a survey has read is a
beginning (`begins_of_run`).  Every place leads on to the end of a declaration (`exists_run_top`), so
every beginning is the beginning of some contract.
-/

namespace RpcContract.Reader

open Grammar

/-- Tokens that begin a procedure and lead to a place in a service. -/
inductive BeginsProcedure : List Token → ServicePlace → Prop where
  | start : BeginsProcedure [] .start
  | name : BeginsProcedure [.keyword .procedure] .name
  | opening (n : String) : BeginsProcedure [.keyword .procedure, .ident n] (.opening n)
  | firstArg (n : String) : BeginsProcedure [.keyword .procedure, .ident n, .lparen] (.firstArg n)
  | nextArg (n : String) {ts : List Token} {as : List String} : SomeArgs ts as →
    BeginsProcedure ([.keyword .procedure, .ident n, .lparen] ++ ts ++ [.comma]) (.nextArg n as)
  | afterArg (n : String) {ts : List Token} {as : List String} : SomeArgs ts as →
    BeginsProcedure ([.keyword .procedure, .ident n, .lparen] ++ ts) (.afterArg n as)
  | connector (n : String) {ts : List Token} {as : List String} : Args ts as →
    BeginsProcedure ([.keyword .procedure, .ident n, .lparen] ++ ts ++ [.rparen]) (.connector n as)
  | result (n : String) {ts : List Token} {as : List String} {c : Token} : Args ts as →
    Connector c →
    BeginsProcedure ([.keyword .procedure, .ident n, .lparen] ++ ts ++ [.rparen, c]) (.result n as)
  | closing (n r : String) {ts : List Token} {as : List String} {c : Token} : Args ts as →
    Connector c →
    BeginsProcedure ([.keyword .procedure, .ident n, .lparen] ++ ts ++ [.rparen, c, .ident r])
      (.closing ⟨n, as, r⟩)

/-- Tokens that begin a field and lead to a place in a message. -/
inductive BeginsField : List Token → MessagePlace → Prop where
  | start : BeginsField [] .start
  | type (n : String) : BeginsField [.ident n] (.type n)
  | closing (n : String) (type : ValueType) :
    BeginsField [.ident n, .valueType type] (.closing ⟨n, type⟩)

/-- Tokens that begin a declaration and lead to a place. -/
inductive BeginsDeclaration : List Token → Place → Prop where
  | top : BeginsDeclaration [] .top
  | serviceName : BeginsDeclaration [.keyword .service] .serviceName
  | messageName : BeginsDeclaration [.keyword .message] .messageName
  | serviceOpening (n : String) :
    BeginsDeclaration [.keyword .service, .ident n] (.serviceOpening n)
  | messageOpening (n : String) :
    BeginsDeclaration [.keyword .message, .ident n] (.messageOpening n)
  | inService (n : String) {ts us : List Token} {ps : List Procedure} {place : ServicePlace} :
    Many SpellsProcedure ts ps → BeginsProcedure us place →
    BeginsDeclaration ([.keyword .service, .ident n, .lbrace] ++ ts ++ us)
      (.inService ⟨n, ps⟩ place)
  | inMessage (n : String) {ts us : List Token} {fs : List Field} {place : MessagePlace} :
    Many SpellsField ts fs → BeginsField us place →
    BeginsDeclaration ([.keyword .message, .ident n, .lbrace] ++ ts ++ us)
      (.inMessage ⟨n, fs⟩ place)

/-- Tokens that lead to a place, with the declarations that are complete there. -/
def Begins (ts : List Token) (p : Progress) : Prop :=
  ∃ us vs, ts = us ++ vs ∧ Spells us p.contract ∧ BeginsDeclaration vs p.place

/-! ### One more token -/

theorem someArgs_append {ts : List Token} {as : List String} (h : SomeArgs ts as) (a : String) :
    SomeArgs (ts ++ [.comma, .ident a]) (as ++ [a]) := by
  induction h with
  | last b => exact .more b (.last a)
  | more b _ ih => exact .more b ih

theorem many_append {α : Type} {R : List Token → α → Prop} {ts us : List Token} {xs ys : List α}
    (h : Many R ts xs) (h' : Many R us ys) : Many R (ts ++ us) (xs ++ ys) := by
  induction h with
  | nil => exact h'
  | cons hx _ ih =>
      rw [List.append_assoc]
      exact .cons hx ih

/-- One more thing is spelt by its tokens behind those of the others, where the grammar has them in
front of the others. -/
theorem many_concat {α : Type} {R : List Token → α → Prop} {ts us : List Token} {xs : List α}
    {x : α} (h : Many R ts xs) (hx : R us x) : Many R (ts ++ us) (xs ++ [x]) := by
  simpa using many_append h (.cons hx .nil)

/-- What a token does in the body of a service: it goes on with a procedure, ends one, or ends the
body. -/
theorem follow_inService {us : List Token} {place : ServicePlace} (h : BeginsProcedure us place)
    {c : Contract} {s : Service} {t : Token} {q : Progress}
    (hq : follow ⟨c, .inService s place⟩ t = some q) :
    (∃ place', q = ⟨c, .inService s place'⟩ ∧ BeginsProcedure (us ++ [t]) place') ∨
    (∃ x, q = ⟨c, .inService ⟨s.name, s.procedures ++ [x]⟩ .start⟩ ∧
      SpellsProcedure (us ++ [t]) x) ∨
    (us = [] ∧ t = .rbrace ∧ q = ⟨⟨c.declarations ++ [.service s]⟩, .top⟩) := by
  cases h with
  | start =>
      cases t with
      | keyword word =>
          cases word with
          | procedure => cases hq; exact .inl ⟨_, rfl, .name⟩
          | service | message => cases hq
      | rbrace => cases hq; exact .inr (.inr ⟨rfl, rfl, rfl⟩)
      | _ => cases hq
  | name =>
      cases t with
      | ident n => cases hq; exact .inl ⟨_, rfl, .opening n⟩
      | _ => cases hq
  | opening n =>
      cases t with
      | lparen => cases hq; exact .inl ⟨_, rfl, .firstArg n⟩
      | _ => cases hq
  | firstArg n =>
      cases t with
      | rparen => cases hq; exact .inl ⟨_, rfl, .connector n .none⟩
      | ident a => cases hq; exact .inl ⟨_, rfl, .afterArg n (.last a)⟩
      | _ => cases hq
  | nextArg n hargs =>
      cases t with
      | ident a =>
          cases hq
          refine .inl ⟨_, rfl, ?_⟩
          rw [List.append_assoc, List.append_assoc]
          exact .afterArg n (someArgs_append hargs a)
      | _ => cases hq
  | afterArg n hargs =>
      cases t with
      | comma => cases hq; exact .inl ⟨_, rfl, .nextArg n hargs⟩
      | rparen => cases hq; exact .inl ⟨_, rfl, .connector n (.some hargs)⟩
      | _ => cases hq
  | connector n hargs =>
      rw [List.append_assoc]
      cases t with
      | arrow => cases hq; exact .inl ⟨_, rfl, .result n hargs .arrow⟩
      | ident a => cases hq; exact .inl ⟨_, rfl, .result n hargs (.ident a)⟩
      | _ => cases hq
  | result n hargs hc =>
      rw [List.append_assoc]
      cases t with
      | ident r => cases hq; exact .inl ⟨_, rfl, .closing n r hargs hc⟩
      | _ => cases hq
  | closing n r hargs hc =>
      rw [List.append_assoc]
      cases t with
      | semicolon => cases hq; exact .inr (.inl ⟨_, rfl, .mk n r hargs hc⟩)
      | _ => cases hq

/-- What a token does in the body of a message. -/
theorem follow_inMessage {us : List Token} {place : MessagePlace} (h : BeginsField us place)
    {c : Contract} {m : Message} {t : Token} {q : Progress}
    (hq : follow ⟨c, .inMessage m place⟩ t = some q) :
    (∃ place', q = ⟨c, .inMessage m place'⟩ ∧ BeginsField (us ++ [t]) place') ∨
    (∃ x, q = ⟨c, .inMessage ⟨m.name, m.fields ++ [x]⟩ .start⟩ ∧ SpellsField (us ++ [t]) x) ∨
    (us = [] ∧ t = .rbrace ∧ q = ⟨⟨c.declarations ++ [.message m]⟩, .top⟩) := by
  cases h with
  | start =>
      cases t with
      | ident n => cases hq; exact .inl ⟨_, rfl, .type n⟩
      | rbrace => cases hq; exact .inr (.inr ⟨rfl, rfl, rfl⟩)
      | _ => cases hq
  | type n =>
      cases t with
      | valueType type => cases hq; exact .inl ⟨_, rfl, .closing n type⟩
      | _ => cases hq
  | closing n type =>
      cases t with
      | semicolon => cases hq; exact .inr (.inl ⟨_, rfl, .mk n type⟩)
      | _ => cases hq

/-- **One more token.**  A token that can be followed makes a beginning longer.  There is one case
for each place; the places in bodies are left to `follow_inService` and `follow_inMessage`. -/
theorem Begins.follow {ts : List Token} {p q : Progress} {t : Token} (h : Begins ts p)
    (hq : follow p t = some q) : Begins (ts ++ [t]) q := by
  obtain ⟨c, place⟩ := p
  obtain ⟨ts, us, rfl, hts, hplace⟩ := h
  rw [List.append_assoc]
  cases hplace with
  | top =>
      cases t with
      | keyword word =>
          cases word with
          | service => cases hq; exact ⟨ts, _, rfl, hts, .serviceName⟩
          | message => cases hq; exact ⟨ts, _, rfl, hts, .messageName⟩
          | procedure => cases hq
      | _ => cases hq
  | serviceName =>
      cases t with
      | ident n => cases hq; exact ⟨ts, _, rfl, hts, .serviceOpening n⟩
      | _ => cases hq
  | messageName =>
      cases t with
      | ident n => cases hq; exact ⟨ts, _, rfl, hts, .messageOpening n⟩
      | _ => cases hq
  | serviceOpening n =>
      cases t with
      | lbrace => cases hq; exact ⟨ts, _, rfl, hts, .inService n .nil .start⟩
      | _ => cases hq
  | messageOpening n =>
      cases t with
      | lbrace => cases hq; exact ⟨ts, _, rfl, hts, .inMessage n .nil .start⟩
      | _ => cases hq
  | inService n hbs hus =>
      -- the procedure goes on, or it is complete, or the whole service is
      rcases follow_inService hus hq with ⟨place', rfl, h⟩ | ⟨x, rfl, hx⟩ | ⟨rfl, rfl, rfl⟩
      · exact ⟨ts, _, by simp, hts, .inService n hbs h⟩
      · exact ⟨ts, _, by simp, hts, .inService n (many_concat hbs hx) .start⟩
      · exact ⟨_, [], by simp, many_concat hts (.service n hbs), .top⟩
  | inMessage n hbs hus =>
      rcases follow_inMessage hus hq with ⟨place', rfl, h⟩ | ⟨x, rfl, hx⟩ | ⟨rfl, rfl, rfl⟩
      · exact ⟨ts, _, by simp, hts, .inMessage n hbs h⟩
      · exact ⟨ts, _, by simp, hts, .inMessage n (many_concat hbs hx) .start⟩
      · exact ⟨_, [], by simp, many_concat hts (.message n hbs), .top⟩

/-- **What a survey has read** is a beginning, by induction on the tokens: each token that the
survey follows makes the beginning longer. -/
theorem begins_of_run {ts us : List Token} {v w : Survey} (h : Begins ts v.progress)
    (hw : v.run us = some w) : Begins (ts ++ us) w.progress := by
  induction us generalizing ts v with
  | nil =>
      cases hw
      rwa [List.append_nil]
  | cons u us ih =>
      rw [Survey.run_cons] at hw
      obtain ⟨v', hv', hw⟩ := Option.bind_eq_some_iff.mp hw
      obtain ⟨q, hq, rfl⟩ := Option.map_eq_some_iff.mp hv'
      rw [List.append_cons]
      exact ih (h.follow hq) hw

theorem begins_start : Begins [] Progress.start :=
  ⟨[], [], rfl, .nil, .top⟩

/-- **The tokens of a contract** are the ones over which a survey ends between declarations.  A
survey reads every contract, and what it has read there is a beginning with nothing left open. -/
theorem spells_iff {ts : List Token} {c : Contract} :
    Spells ts c ↔ ∃ f, Survey.start.run ts = some ⟨f, c, .top⟩ := by
  refine ⟨fun h => ⟨_, Survey.run_of_spells h⟩, fun ⟨f, h⟩ => ?_⟩
  obtain ⟨us, vs, e, hus, hvs⟩ := begins_of_run begins_start h
  -- between declarations nothing is begun
  cases hvs
  rw [List.nil_append, List.append_nil] at e
  exact e ▸ hus

/-- No two contracts are spelt by the same tokens. -/
theorem spells_unique {ts : List Token} {c c' : Contract} (h : Spells ts c) (h' : Spells ts c') :
    c = c' := by
  have e := (Survey.run_of_spells h).symm.trans (Survey.run_of_spells h')
  exact congrArg (·.progress.contract) (Option.some.inj e)

/-- The end of the input leads nowhere, from any place. -/
theorem follow_endOfInput (p : Progress) : follow p .endOfInput = none := by
  obtain ⟨c, place⟩ := p
  cases place with
  | inService s place => cases place <;> rfl
  | inMessage m place => cases place <;> rfl
  | _ => rfl

/-- The end of the input is no part of a contract. -/
theorem endOfInput_not_mem_of_spells {ts : List Token} {c : Contract} (h : Spells ts c) :
    .endOfInput ∉ ts := by
  intro hmem
  obtain ⟨us, vs, rfl⟩ := List.append_of_mem hmem
  have hrun := Survey.run_of_spells h
  rw [Survey.run_append] at hrun
  obtain ⟨v, -, hv⟩ := Option.bind_eq_some_iff.mp hrun
  rw [Survey.run_cons, Survey.step, follow_endOfInput] at hv
  cases hv

/-! ### On to the end -/

/-- From every place there is a way to the end of the declaration. -/
theorem exists_run_top (v : Survey) : ∃ us f c, v.run us = some ⟨f, c, .top⟩ := by
  obtain ⟨f, c, place⟩ := v
  -- at each place, the shortest way out; a survey does not mind that names are empty or repeated
  cases place with
  | top => exact ⟨[], _, _, rfl⟩
  | serviceName | messageName => exact ⟨[.ident "", .lbrace, .rbrace], _, _, rfl⟩
  | serviceOpening n | messageOpening n => exact ⟨[.lbrace, .rbrace], _, _, rfl⟩
  | inService s place =>
      cases place with
      | start => exact ⟨[.rbrace], _, _, rfl⟩
      | name =>
          exact ⟨[.ident "", .lparen, .rparen, .arrow, .ident "", .semicolon, .rbrace], _, _, rfl⟩
      | opening n => exact ⟨[.lparen, .rparen, .arrow, .ident "", .semicolon, .rbrace], _, _, rfl⟩
      | firstArg n => exact ⟨[.rparen, .arrow, .ident "", .semicolon, .rbrace], _, _, rfl⟩
      | nextArg n as =>
          exact ⟨[.ident "", .rparen, .arrow, .ident "", .semicolon, .rbrace], _, _, rfl⟩
      | afterArg n as => exact ⟨[.rparen, .arrow, .ident "", .semicolon, .rbrace], _, _, rfl⟩
      | connector n as => exact ⟨[.arrow, .ident "", .semicolon, .rbrace], _, _, rfl⟩
      | result n as => exact ⟨[.ident "", .semicolon, .rbrace], _, _, rfl⟩
      | closing procedure => exact ⟨[.semicolon, .rbrace], _, _, rfl⟩
  | inMessage m place =>
      cases place with
      | start => exact ⟨[.rbrace], _, _, rfl⟩
      | type n => exact ⟨[.valueType .unit, .semicolon, .rbrace], _, _, rfl⟩
      | closing field => exact ⟨[.semicolon, .rbrace], _, _, rfl⟩

/-- Tokens that spell some contract, if others follow. -/
def Viable (ts : List Token) : Prop :=
  ∃ us c, Spells (ts ++ us) c

/-- **The beginnings of contracts** are the tokens that a survey can read: it reads all of a
contract, so the beginning of one too, and from every place there is a way to complete what is
begun. -/
theorem viable_iff {ts : List Token} : Viable ts ↔ ∃ v, Survey.start.run ts = some v := by
  constructor
  · rintro ⟨us, c, h⟩
    have hrun := Survey.run_of_spells h
    rw [Survey.run_append] at hrun
    obtain ⟨v, hv, -⟩ := Option.bind_eq_some_iff.mp hrun
    exact ⟨v, hv⟩
  · rintro ⟨v, hv⟩
    obtain ⟨us, f, c, hus⟩ := exists_run_top v
    refine ⟨us, c, spells_iff.mpr ⟨f, ?_⟩⟩
    rw [Survey.run_append, hv, Option.bind_some, hus]

end RpcContract.Reader
