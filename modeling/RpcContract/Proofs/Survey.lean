import RpcContract.Contract.Grammar
import RpcContract.Contract.Rules

/-!
# Proofs — surveys

The reader stops at the first token that the grammar has no use for, and at the first breach of a
rule.  A *survey* stops only at the former: it goes on after a breach, and remembers the first one.
Like the reader, it goes where `follow` leads and looks for a breach of the rules with `breach?`.

Over the tokens that spell a contract, a survey ends between declarations.  It then has that
contract, and its fault is the contract's first violation (`Survey.run_of_spells`).
-/

namespace RpcContract.Reader

open Grammar

/-! ### Surveys -/

/-- A reading that goes on after a breach: the first breach, if any, and what is read. -/
structure Survey where
  fault? : Option Fault
  progress : Progress

/-- Takes one token. -/
def Survey.step (v : Survey) (t : Token) : Option Survey :=
  (follow v.progress t).map fun q => ⟨v.fault?.or (breach? v.progress t), q⟩

/-- Takes tokens, one after another. -/
def Survey.run (v : Survey) (ts : List Token) : Option Survey :=
  ts.foldlM Survey.step v

/-- Nothing is read, and no rule is broken. -/
def Survey.start : Survey := ⟨none, .start⟩

namespace Survey

@[simp] theorem run_nil (v : Survey) : v.run [] = some v := rfl

/-- A survey goes on where it has come to, so the tokens of two parts may be surveyed apart. -/
theorem run_append (v : Survey) (ts us : List Token) :
    v.run (ts ++ us) = (v.run ts).bind (·.run us) :=
  List.foldlM_append

theorem run_cons (v : Survey) (t : Token) (ts : List Token) :
    v.run (t :: ts) = (v.step t).bind (·.run ts) :=
  List.foldlM_cons

theorem run_singleton (v : Survey) (t : Token) : v.run [t] = v.step t := by
  simp [run_cons]

/-! ### Over the tokens of a contract -/

/-- Things that are spelt one after another are judged one after another. -/
theorem run_many {α : Type} {R : List Token → α → Prop} {judge : List α → α → Option Fault}
    {P : List α → Progress}
    (h : ∀ f before {ts x}, R ts x →
      run ⟨f, P before⟩ ts = some ⟨f.or (judge before x), P (before ++ [x])⟩)
    {ts : List Token} {xs : List α} (hm : Many R ts xs) (f : Option Fault) (before : List α) :
    run ⟨f, P before⟩ ts =
      some ⟨f.or (firstFault judge before xs), P (before ++ xs)⟩ := by
  induction hm generalizing f before with
  | nil => simp [firstFault]
  | cons hx _ ih =>
      rw [run_append, h f before hx, Option.bind_some, ih]
      simp [firstFault, Option.or_assoc]

/-- Over the tokens of a field, a survey completes that field.  The breach that it meets, if any, is
the field's violation after those `before` it; an earlier breach `f` stays the first. -/
theorem run_field (c : Contract) (n : String) (f : Option Fault) (before : List Field)
    {ts : List Token} {x : Field} (h : SpellsField ts x) :
    run ⟨f, c, .inMessage ⟨n, before⟩ .start⟩ ts =
      some ⟨f.or (x.violation? n before), c, .inMessage ⟨n, before ++ [x]⟩ .start⟩ := by
  cases h
  cases f <;> rfl

/-- Tokens of one argument or more spell at least one, which is the count that decides whether the
comma after it is in order. -/
theorem length_pos_of_someArgs {ts : List Token} {as : List String} (h : SomeArgs ts as) :
    0 < as.length := by
  cases h <;> simp

/-- The arguments after those `before`.  A survey goes on after the limit, so there may be more of
them already; the breach is at a comma, and the last argument has none behind it. -/
theorem run_someArgs (c : Contract) (s : Service) (n : String) (f : Option Fault)
    (before : List String) {ts : List Token} {as : List String} (h : SomeArgs ts as) :
    run ⟨f, c, .inService s (.nextArg n before)⟩ ts =
      some ⟨f.or (if 1 < as.length ∧ maxArgs < before.length + as.length then
          some (.tooManyArgs n maxArgs) else none),
        c, .inService s (.afterArg n (before ++ as))⟩ := by
  induction h generalizing f before with
  | last a => cases f <;> rfl
  | @more a ts as hrest ih =>
      have hpos := length_pos_of_someArgs hrest
      simp only [run_cons, step, follow, breach?, Progress.goto, Option.map_some,
        Option.bind_some, ih, Option.or_none, Option.or_assoc, List.append_assoc,
        List.cons_append, List.nil_append, List.length_append, List.length_cons, List.length_nil]
      -- either the comma behind `a` is within the limit, or it is the first breach
      by_cases hlt : before.length + (0 + 1) < maxArgs
      · have hiff : (1 < as.length ∧ maxArgs < before.length + (0 + 1) + as.length) ↔
            (1 < as.length + 1 ∧ maxArgs < before.length + (as.length + 1)) := by omega
        simp only [if_pos hlt, Option.none_or, hiff]
      · have hmax : 1 < as.length + 1 ∧ maxArgs < before.length + (as.length + 1) := by omega
        rw [if_neg hlt, if_pos hmax, Option.some_or]

/-- Over an argument list and the mark that closes it, a survey holds the arguments.  It meets a
breach when they are more than the limit. -/
theorem run_args (c : Contract) (s : Service) (n : String) (f : Option Fault) {ts : List Token}
    {as : List String} (h : Args ts as) :
    run ⟨f, c, .inService s (.firstArg n)⟩ (ts ++ [.rparen]) =
      some ⟨f.or (if maxArgs < as.length then some (.tooManyArgs n maxArgs) else none),
        c, .inService s (.connector n as)⟩ := by
  cases h with
  | none => cases f <;> rfl
  | some h =>
      -- the first argument is read as if a comma stood before it
      have hfirst : run ⟨f, c, .inService s (.firstArg n)⟩ ts =
          run ⟨f, c, .inService s (.nextArg n [])⟩ ts := by
        cases h <;> rfl
      have hlen : (1 < as.length ∧ maxArgs < ([] : List String).length + as.length) ↔
          maxArgs < as.length := by
        simp only [List.length_nil, maxArgs]
        omega
      simp only [run_append, hfirst, run_someArgs c s n f [] h, Option.bind_some, run_singleton, hlen]
      simp [step, follow, breach?, Progress.goto]

/-- What follows the arguments of a procedure. -/
theorem run_closing (c : Contract) (n : String) (f : Option Fault) (before : List Procedure)
    (x : Procedure) {connector : Token} (h : Connector connector) :
    run ⟨f, c, .inService ⟨n, before⟩ (.connector x.name x.args)⟩
        [connector, .ident x.result, .semicolon] =
      some ⟨f.or (if x.name ∈ before.map (·.name) then
          some (.duplicate (.procedure n) x.name) else none),
        c, .inService ⟨n, before ++ [x]⟩ .start⟩ := by
  cases h <;> cases f <;> rfl

/-- The violations of a procedure, in the order in which a survey meets them: the number of its
arguments comes before its name, which is looked at when it is complete. -/
theorem violation?_eq_or (n : String) (before : List Procedure) (x : Procedure) :
    x.violation? n before =
      (if maxArgs < x.args.length then some (.tooManyArgs x.name maxArgs) else none).or
        (if x.name ∈ before.map (·.name) then some (.duplicate (.procedure n) x.name) else none) := by
  unfold Procedure.violation?
  split <;> rfl

/-- Over the tokens of a procedure, a survey completes that procedure, and the breach that it meets,
if any, is the procedure's violation after those `before` it. -/
theorem run_procedure (c : Contract) (n : String) (f : Option Fault) (before : List Procedure)
    {ts : List Token} {x : Procedure} (h : SpellsProcedure ts x) :
    run ⟨f, c, .inService ⟨n, before⟩ .start⟩ ts =
      some ⟨f.or (x.violation? n before), c, .inService ⟨n, before ++ [x]⟩ .start⟩ := by
  cases h with
  | @mk name result ts args connector hargs hconnector =>
      -- the closing parenthesis goes with the arguments, which may be none
      have htokens : [.keyword .procedure, .ident name, .lparen] ++ ts
            ++ [.rparen, connector, .ident result, .semicolon] =
          [.keyword .procedure, .ident name, .lparen] ++ ((ts ++ [.rparen]) ++
            [connector, .ident result, .semicolon]) := by simp
      have hopening : run ⟨f, c, .inService ⟨n, before⟩ .start⟩
          [.keyword .procedure, .ident name, .lparen] =
            some ⟨f, c, .inService ⟨n, before⟩ (.firstArg name)⟩ := by
        cases f <;> rfl
      rw [htokens, run_append, hopening, Option.bind_some, run_append, run_args _ _ _ _ hargs,
        Option.bind_some, run_closing c n _ before ⟨name, args, result⟩ hconnector,
        violation?_eq_or, Option.or_assoc]

/-- Over the tokens of a declaration, a survey comes back between declarations with that declaration
complete, and the breach that it meets, if any, is the declaration's violation. -/
theorem run_declaration (f : Option Fault) (before : List Declaration) {ts : List Token}
    {d : Declaration} (h : SpellsDeclaration ts d) :
    run ⟨f, ⟨before⟩, .top⟩ ts = some ⟨f.or (d.violation? before), ⟨before ++ [d]⟩, .top⟩ := by
  cases h with
  | @service name ts procedures hbody =>
      have hopening : run ⟨f, ⟨before⟩, .top⟩ [.keyword .service, .ident name, .lbrace] =
          some ⟨f, ⟨before⟩, .inService ⟨name, []⟩ .start⟩ := by
        cases f <;> rfl
      have hprocedures := run_many (P := fun ps => ⟨⟨before⟩, .inService ⟨name, ps⟩ .start⟩)
        (run_procedure ⟨before⟩ name) hbody f []
      rw [run_append, run_append, hopening, Option.bind_some, hprocedures, Option.bind_some,
        run_singleton, Declaration.violation?, ← Option.or_assoc]
      rfl
  | @message name ts fields hbody =>
      have hopening : run ⟨f, ⟨before⟩, .top⟩ [.keyword .message, .ident name, .lbrace] =
          some ⟨f, ⟨before⟩, .inMessage ⟨name, []⟩ .start⟩ := by
        cases f <;> rfl
      have hfields := run_many (P := fun fs => ⟨⟨before⟩, .inMessage ⟨name, fs⟩ .start⟩)
        (run_field ⟨before⟩ name) hbody f []
      rw [run_append, run_append, hopening, Option.bind_some, hfields, Option.bind_some,
        run_singleton, Declaration.violation?, ← Option.or_assoc]
      rfl

/-- **A survey over the tokens of a contract** ends between declarations.  It has that contract, and
its fault is the contract's first violation, as the two are found in the same order. -/
theorem run_of_spells {ts : List Token} {c : Contract} (h : Spells ts c) :
    start.run ts = some ⟨c.violation?, c, .top⟩ :=
  run_many (P := fun ds => ⟨⟨ds⟩, .top⟩) run_declaration h none []

end Survey

end RpcContract.Reader
