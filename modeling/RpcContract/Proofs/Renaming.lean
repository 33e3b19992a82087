import Mathlib.Data.List.Basic
import Mathlib.Logic.Equiv.Basic
import RpcContract.Compile
import RpcContract.Proofs.Stops

/-!
# Proofs — renaming the identifiers

`Token.rename f` passes the name of an identifier through `f`, and leaves every other token as it
is; `Contract.rename f` passes every name of a contract through `f`.  The reader and the check of
the references compare names and do nothing else with them.  So for an injective `f`, every step of the
reader is carried to a step on the renamed tokens (`step_rename`), and so is every reading
(`readFrom_rename`), the check (`Contract.check_rename`), and the whole way from tokens to a sound
contract (`Contract.soundOfTokens_rename`).

A fault has its names renamed.  The report of an unexpected token shows that token, so it changes
only if the token is an identifier.  The text alone does not tell: an identifier may be spelt like a
mark.
-/

namespace RpcContract

/-! ### Renaming tokens, contracts and faults -/

/-- The token, with its name passed through `f` if it is an identifier. -/
def Token.rename (f : String → String) : Token → Token
  | .ident name => .ident (f name)
  | t => t

def Procedure.rename (f : String → String) (p : Procedure) : Procedure :=
  ⟨f p.name, p.args.map f, f p.result⟩

def Service.rename (f : String → String) (s : Service) : Service :=
  ⟨f s.name, s.procedures.map (·.rename f)⟩

def Field.rename (f : String → String) (x : Field) : Field :=
  ⟨f x.name, x.type⟩

def Message.rename (f : String → String) (m : Message) : Message :=
  ⟨f m.name, m.fields.map (·.rename f)⟩

def Declaration.rename (f : String → String) : Declaration → Declaration
  | .service s => .service (s.rename f)
  | .message m => .message (m.rename f)

/-- The contract with every name passed through `f`. -/
def Contract.rename (f : String → String) (c : Contract) : Contract :=
  ⟨c.declarations.map (·.rename f)⟩

def Scope.rename (f : String → String) : Scope → Scope
  | .service => .service
  | .message => .message
  | .procedure owner => .procedure (f owner)
  | .field owner => .field (f owner)

/-- The fault at the token `t`, with every name passed through `f`.  The report of an unexpected
token changes if that is an identifier. -/
def Fault.rename (f : String → String) (t : Token) : Fault → Fault
  | .unexpected found expected =>
    match t with
    | .ident name => .unexpected ("`" ++ f name ++ "`") expected
    | _ => .unexpected found expected
  | .duplicate scope name => .duplicate (scope.rename f) (f name)
  | .tooManyArgs procedure limit => .tooManyArgs (f procedure) limit
  | .undeclared name procedure service => .undeclared (f name) (f procedure) (f service)
  | .lexical fragment => .lexical fragment
  | .io reason => .io reason

/-- The outcome at the token `t`, with every name passed through `f`. -/
def renameOutcome {α : Type} (f : String → String) (rename : α → α) (t : Token) :
    Except Fault α → Except Fault α
  | .ok a => .ok (rename a)
  | .error e => .error (e.rename f t)

variable {f : String → String}

theorem Token.rename_ne_endOfInput {t : Token} (h : t ≠ .endOfInput) :
    t.rename f ≠ .endOfInput := by
  cases t <;> simp_all [rename]

namespace Reader

def ServicePlace.rename (f : String → String) : ServicePlace → ServicePlace
  | .start => .start
  | .name => .name
  | .opening n => .opening (f n)
  | .firstArg n => .firstArg (f n)
  | .nextArg n as => .nextArg (f n) (as.map f)
  | .afterArg n as => .afterArg (f n) (as.map f)
  | .connector n as => .connector (f n) (as.map f)
  | .result n as => .result (f n) (as.map f)
  | .closing p => .closing (p.rename f)

def MessagePlace.rename (f : String → String) : MessagePlace → MessagePlace
  | .start => .start
  | .type n => .type (f n)
  | .closing x => .closing (x.rename f)

def Place.rename (f : String → String) : Place → Place
  | .top => .top
  | .serviceName => .serviceName
  | .messageName => .messageName
  | .serviceOpening n => .serviceOpening (f n)
  | .messageOpening n => .messageOpening (f n)
  | .inService s place => .inService (s.rename f) (place.rename f)
  | .inMessage m place => .inMessage (m.rename f) (place.rename f)

def Progress.rename (f : String → String) (p : Progress) : Progress :=
  ⟨p.contract.rename f, p.place.rename f⟩

theorem Progress.rename_declare (f : String → String) (p : Progress) (d : Declaration) :
    (p.declare d).rename f = (p.rename f).declare (d.rename f) := by
  simp [Progress.declare, Progress.rename, Contract.rename, Place.rename]

/-! ### One step -/

/-- **Where a token leads does not depend on names**: renamed, it leads from the renamed place to
the renamed place. -/
theorem follow_rename (f : String → String) (p : Progress) (t : Token) :
    follow (p.rename f) (t.rename f) = (follow p t).map (·.rename f) := by
  obtain ⟨c, place⟩ := p
  cases place with
  | top =>
      cases t with
      | keyword word => cases word <;> rfl
      | _ => rfl
  | serviceName | messageName | serviceOpening _ | messageOpening _ => cases t <;> rfl
  | inService s place =>
      cases place with
      | start =>
          cases t with
          | keyword word => cases word <;> rfl
          | rbrace => exact congrArg some (.symm (Progress.rename_declare f ⟨c, _⟩ (.service s)))
          | _ => rfl
      | nextArg n as =>
          cases t with
          | ident a => simp [follow, Token.rename, Progress.rename, Progress.goto, Place.rename,
              ServicePlace.rename]
          | _ => rfl
      | closing procedure =>
          cases t with
          | semicolon => simp [follow, Token.rename, Progress.rename, Progress.goto, Place.rename,
              ServicePlace.rename, Service.rename]
          | _ => rfl
      | name | opening _ | firstArg _ | afterArg _ _ | connector _ _ | result _ _ =>
          cases t <;> rfl
  | inMessage m place =>
      cases place with
      | start =>
          cases t with
          | rbrace => exact congrArg some (.symm (Progress.rename_declare f ⟨c, _⟩ (.message m)))
          | _ => rfl
      | closing field =>
          cases t with
          | semicolon => simp [follow, Token.rename, Progress.rename, Progress.goto, Place.rename,
              MessagePlace.rename, Message.rename]
          | _ => rfl
      | type _ => cases t <;> rfl

theorem Place.expected_rename (f : String → String) (place : Place) :
    (place.rename f).expected = place.expected := by
  cases place with
  | inService s place => cases place <;> rfl
  | inMessage m place => cases place <;> rfl
  | _ => rfl

/-- A token is refused with the same alternatives, and shown by its new name. -/
theorem Place.refuse_rename (f : String → String) (place : Place) (t : Token) :
    (place.rename f).refuse (t.rename f) = (place.refuse t).rename f t := by
  rw [Place.refuse, Place.expected_rename]
  cases t <;> rfl

end Reader

/-! ### Names -/

namespace Contract

theorem services_rename (f : String → String) (c : Contract) :
    (c.rename f).services = c.services.map (·.rename f) :=
  services_map (fun d => by cases d <;> rfl) c

theorem messages_rename (f : String → String) (c : Contract) :
    (c.rename f).messages = c.messages.map (·.rename f) :=
  messages_map (fun d => by cases d <;> rfl) c

theorem serviceNames_rename (f : String → String) (c : Contract) :
    (c.rename f).serviceNames = c.serviceNames.map f := by
  simp only [serviceNames, services_rename, List.map_map]
  rfl

/-- The messages that a contract declares are renamed like the arguments that use them. -/
theorem messageNames_rename (f : String → String) (c : Contract) :
    (c.rename f).messageNames = c.messageNames.map f := by
  simp only [messageNames, messages_rename, List.map_map]
  rfl

end Contract

namespace Reader

/-- A name is taken after the renaming if it was taken before. -/
theorem ite_taken_rename (hf : Function.Injective f) {n : String} {names names' : List String}
    (h : names' = names.map f) (e : Fault) (t : Token) :
    (if f n ∈ names' then some (e.rename f t) else none) =
      (if n ∈ names then some e else none).map (·.rename f t) := by
  have hiff : f n ∈ names' ↔ n ∈ names := by rw [h, List.mem_map_of_injective hf]
  by_cases hn : n ∈ names
  · rw [if_pos hn, if_pos (hiff.mpr hn)]
    rfl
  · rw [if_neg hn, if_neg (mt hiff.mp hn)]
    rfl

/-- An injective renaming keeps which rule a token breaks: two names are the same after it exactly
when they were before. -/
theorem breach?_rename (hf : Function.Injective f) (p : Progress) (t : Token) :
    breach? (p.rename f) (t.rename f) = (breach? p t).map (·.rename f t) := by
  obtain ⟨c, place⟩ := p
  cases place with
  | top | serviceName | messageName | serviceOpening _ | messageOpening _ => cases t <;> rfl
  | inService s place =>
      cases place with
      | start =>
          cases t with
          | rbrace =>
              have hnames := c.serviceNames_rename f
              exact ite_taken_rename hf hnames (.duplicate .service s.name) .rbrace
          | _ => rfl
      | afterArg n as =>
          cases t with
          | comma =>
              simp only [breach?, Progress.rename, Place.rename, ServicePlace.rename, Token.rename,
                List.length_map]
              split <;> rfl
          | _ => rfl
      | closing x =>
          cases t with
          | semicolon =>
              have hnames :
                  (s.rename f).procedures.map (·.name) = (s.procedures.map (·.name)).map f := by
                simp [Service.rename, Procedure.rename]
              exact ite_taken_rename hf hnames (.duplicate (.procedure s.name) x.name) .semicolon
          | _ => rfl
      | name | opening _ | firstArg _ | nextArg _ _ | connector _ _ | result _ _ =>
          cases t <;> rfl
  | inMessage m place =>
      cases place with
      | start =>
          cases t with
          | rbrace =>
              have hnames := c.messageNames_rename f
              exact ite_taken_rename hf hnames (.duplicate .message m.name) .rbrace
          | _ => rfl
      | closing x =>
          cases t with
          | semicolon =>
              have hnames : (m.rename f).fields.map (·.name) = (m.fields.map (·.name)).map f := by
                simp [Message.rename, Field.rename]
              exact ite_taken_rename hf hnames (.duplicate (.field m.name) x.name) .semicolon
          | _ => rfl
      | type _ => cases t <;> rfl

/-- **One step, renamed.**  The token leads to the renamed place, breaks the renamed rule, or is
refused under its new name. -/
theorem step_rename (hf : Function.Injective f) (p : Progress) (t : Token) :
    step (p.rename f) (t.rename f) = renameOutcome f (·.rename f) t (step p t) := by
  rw [step, step, follow_rename, breach?_rename hf]
  cases follow p t with
  | none => exact congrArg Except.error (Place.refuse_rename f p.place t)
  | some q => cases breach? p t <;> rfl

/-- The end of the input is taken or refused whatever the names are. -/
theorem finish_rename (f : String → String) (p : Progress) :
    finish (p.rename f) = renameOutcome f (·.rename f) .endOfInput (finish p) := by
  have hrefuse := Place.refuse_rename f p.place .endOfInput
  obtain ⟨c, place⟩ := p
  cases place with
  | top => rfl
  | _ => exact congrArg Except.error hrefuse

/-! ### A whole reading -/

/-- **A reading, renamed**, with its fault at the token where it stops.  An unexpected token is
reported by that token's new name, which the old report does not hold; hence `stop`. -/
theorem readFrom_rename (hf : Function.Injective f) (p : Progress) (ts : List Token) :
    readFrom (p.rename f) (ts.map (·.rename f)) =
      renameOutcome f (·.rename f) (stop p ts) (readFrom p ts) := by
  induction p, ts using reading_induction with
  | nil p => exact finish_rename f p
  | finish p ts =>
      rw [stop_endOfInput]
      exact finish_rename f p
  | fault p t ts e ht hs =>
      have hs' := step_rename hf p t
      rw [hs] at hs'
      have ht' : t.rename f ≠ .endOfInput := Token.rename_ne_endOfInput ht
      rw [List.map_cons, readFrom_of_error ht' hs', readFrom_of_error ht hs, stop_of_error hs]
      rfl
  | taken p t ts q hs ih =>
      have hs' := step_rename hf p t
      rw [hs] at hs'
      rw [List.map_cons, readFrom_of_ok hs', ih, stop_of_ok hs, readFrom_of_ok hs]

/-- Reading stops after as many tokens as before, if different names stay different. -/
theorem reach_rename (hf : Function.Injective f) (p : Progress) (ts : List Token) :
    reach (p.rename f) (ts.map (·.rename f)) = reach p ts := by
  induction ts generalizing p with
  | nil => rfl
  | cons t ts ih =>
      have hs' := step_rename hf p t
      cases hs : step p t with
      | ok q =>
          rw [hs] at hs'
          rw [List.map_cons, reach_of_ok hs', ih, reach_of_ok hs]
      | error e =>
          rw [hs] at hs'
          rw [List.map_cons, reach_of_error hs', reach_of_error hs]

end Reader

/-! ### The check of the references -/

def Reference.rename (f : String → String) (r : Reference) : Reference :=
  ⟨f r.message, f r.procedure, f r.service⟩

theorem Service.references_rename (f : String → String) (s : Service) :
    (s.rename f).references = s.references.map (·.rename f) := by
  simp only [references, rename, Procedure.rename, List.flatMap_map, List.map_flatMap, List.map_map]
  rfl

theorem contains_map (hf : Function.Injective f) (names : List String) (n : String) :
    (names.map f).contains (f n) = names.contains n := by
  simp [List.contains_eq_mem, List.mem_map_of_injective hf]

namespace Contract

/-- The uses of messages in a contract, in order. -/
def uses (c : Contract) : List Reference := c.services.flatMap (·.references)

/-- How many uses of messages come before the first one whose message is not declared. -/
def soundUses (c : Contract) : Nat := c.uses.findIdx (! c.messageNames.contains ·.message)

theorem uses_rename (f : String → String) (c : Contract) :
    (c.rename f).uses = c.uses.map (·.rename f) := by
  simp only [uses, services_rename, List.flatMap_map, List.map_flatMap, Service.references_rename]

/-- A use is in order after the renaming if it was before. -/
theorem declared_rename (hf : Function.Injective f) (c : Contract) :
    (fun r : Reference => ! (c.rename f).messageNames.contains (r.rename f).message) =
      fun r => ! c.messageNames.contains r.message := by
  funext r
  rw [messageNames_rename, Reference.rename, contains_map hf]

/-- The first use that is not declared stays the first. -/
theorem undeclared?_rename (hf : Function.Injective f) (c : Contract) :
    undeclared? (c.rename f).services (c.rename f).messageNames =
      (undeclared? c.services c.messageNames).map (·.rename f) := by
  have huses := c.uses_rename f
  simp only [uses] at huses
  rw [undeclared?, huses, List.find?_map]
  exact congrArg (Option.map _) (congrArg (List.find? · _) (declared_rename hf c))

theorem soundUses_rename (hf : Function.Injective f) (c : Contract) :
    (c.rename f).soundUses = c.soundUses := by
  rw [soundUses, uses_rename, List.findIdx_map]
  exact congrArg (List.findIdx · _) (declared_rename hf c)

/-- **The check, renamed.**  What it reports does not depend on a token. -/
theorem check_rename (hf : Function.Injective f) (c : Contract) (t : Token) :
    (c.rename f).check = renameOutcome f id t c.check := by
  rw [check, checkReferences, undeclared?_rename hf, check, checkReferences]
  cases undeclared? c.services c.messageNames <;> rfl

/-- The contract that tokens spell, with its references checked. -/
def soundOfTokens (ts : List Token) : Except Fault Contract := do
  let c ← ofTokens ts
  c.check
  return c

theorem soundOfTokens_of_error {ts : List Token} {e : Fault} (h : ofTokens ts = .error e) :
    soundOfTokens ts = .error e := by
  rw [soundOfTokens, h]
  rfl

theorem soundOfTokens_of_ok {ts : List Token} {c : Contract} (h : ofTokens ts = .ok c) :
    soundOfTokens ts = c.check.map fun _ => c := by
  rw [soundOfTokens, h]
  change c.check >>= (fun _ => .ok c) = _
  cases c.check <;> rfl

/-- The check reports no token. -/
theorem check_ne_unexpected (c : Contract) (found expected : String) :
    c.check ≠ .error (.unexpected found expected) := by
  rw [check, checkReferences]
  cases undeclared? c.services c.messageNames with
  | none => nofun
  | some r => nofun

/-- Renamed tokens are read as the renamed contract, or have the renamed fault; an unexpected token
is the one at the stop. -/
theorem ofTokens_rename (hf : Function.Injective f) (ts : List Token) :
    ofTokens (ts.map (·.rename f)) =
      renameOutcome f (·.rename f) (Reader.stop .start ts) (ofTokens ts) := by
  rw [ofTokens, ofTokens]
  exact Reader.readFrom_rename hf .start ts

/-- The only fault that shows a token comes from reading, where the stop is. -/
theorem found_eq_shown {ts : List Token} {found expected : String}
    (h : soundOfTokens ts = .error (.unexpected found expected)) :
    found = (Reader.stop .start ts).shown := by
  cases hread : ofTokens ts with
  | error e =>
      rw [soundOfTokens_of_error hread] at h
      rw [Except.error.inj h] at hread
      exact Reader.found_eq_shown_stop hread
  | ok c =>
      rw [soundOfTokens_of_ok hread] at h
      cases hcheck : c.check with
      | ok _ => rw [hcheck] at h; cases h
      | error e =>
          rw [hcheck] at h
          cases h
          exact absurd hcheck (c.check_ne_unexpected found expected)

/-- **Identifiers matter only up to equality.**  For an injective `f`, the tokens with every
identifier renamed have the outcome of the tokens, renamed: the same contract with every name passed
through `f`, or the same fault at the same place.  An unexpected token is reported as it is at the
place where reading stops, so that report changes only if the token is an identifier.  The use of a
message that is not declared stands at the same place among all uses. -/
theorem soundOfTokens_rename (hf : Function.Injective f) (ts : List Token) :
    soundOfTokens (ts.map (·.rename f)) =
      renameOutcome f (·.rename f) (Reader.stop .start ts) (soundOfTokens ts) ∧
    Reader.reach .start (ts.map (·.rename f)) = Reader.reach .start ts ∧
    (∀ found expected, soundOfTokens ts = .error (.unexpected found expected) →
      found = (Reader.stop .start ts).shown) ∧
    ∀ c, ofTokens ts = .ok c →
      ofTokens (ts.map (·.rename f)) = .ok (c.rename f) ∧ (c.rename f).soundUses = c.soundUses := by
  have hread := ofTokens_rename hf ts
  refine ⟨?_, Reader.reach_rename hf .start ts, fun _ _ => found_eq_shown, fun c hc => ?_⟩
  · cases hts : ofTokens ts with
    | error e =>
        rw [hts] at hread
        rw [soundOfTokens_of_error hread, soundOfTokens_of_error hts]
        rfl
    | ok c =>
        -- the check shows no token, so the token at the stop may stand for any
        rw [hts] at hread
        rw [soundOfTokens_of_ok hread, soundOfTokens_of_ok hts,
          check_rename hf c (Reader.stop .start ts)]
        cases c.check <;> rfl
  · rw [hread, hc]
    exact ⟨rfl, soundUses_rename hf c⟩

/-- The names `A` and `;` change places.  An unexpected identifier is reported by its new name,
though this is how an unexpected mark is reported; a use of an undeclared message, by its new
names. -/
theorem soundOfTokens_swapped :
    let f : String → String := Equiv.swap "A" ";"
    let ts : List Token := [.keyword .message, .ident "A", .ident "A"]
    let us : List Token := [.keyword .service, .ident "S", .lbrace, .keyword .procedure, .ident "p",
      .lparen, .ident "A", .rparen, .arrow, .ident "R", .semicolon, .rbrace]
    Function.Injective f ∧
    soundOfTokens ts = .error (.unexpected "`A`" "LBRACE") ∧
    "`A`" = (Reader.stop .start ts).shown ∧
    soundOfTokens (ts.map (·.rename f)) = .error (.unexpected "`;`" "LBRACE") ∧
    ofTokens (us.map (·.rename f)) = .ok ⟨[.service ⟨"S", [⟨"p", [";"], "R"⟩]⟩]⟩ ∧
    soundOfTokens (us.map (·.rename f)) = .error (.undeclared ";" "p" "S") := by
  intro f ts us
  have hf : Function.Injective f := (Equiv.swap "A" ";").injective
  have hts : soundOfTokens ts = .error (.unexpected "`A`" "LBRACE") := rfl
  have hus : ofTokens us = .ok ⟨[.service ⟨"S", [⟨"p", ["A"], "R"⟩]⟩]⟩ := rfl
  obtain ⟨hrenamed, -, hfound, -⟩ := soundOfTokens_rename hf ts
  obtain ⟨husRenamed, -, -, hread⟩ := soundOfTokens_rename hf us
  refine ⟨hf, hts, hfound _ _ hts, hrenamed.trans ?_, (hread _ hus).1.trans ?_, husRenamed.trans ?_⟩
  · rw [hts]
    rfl
  · rfl
  · rw [soundOfTokens_of_ok hus]
    rfl

end Contract

end RpcContract
