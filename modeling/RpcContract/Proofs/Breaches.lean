import RpcContract.Proofs.Rendering

/-!
# Proofs — the first breach

A contract breaks a rule in one of five ways: a procedure has too many arguments, or a name is taken
among the procedures of a service, the fields of a message, the services or the messages.  The
*first* breach is the one with nothing out of order before it, where a procedure or a field comes
before the end of its body, and the name of a declaration counts at that end (`FirstBreach`).

The walk of `Contract.violation?` finds the first breach (`violation?_eq_some_iff`).  So the reader,
which knows nothing of what follows a token, reports the same fault as a check of the whole contract
would.
-/

namespace RpcContract

open Grammar

/-- **A walk with a fault** has it at the first thing that is not in order: `judge` finds nothing in
those before it, and this fault in it, given those. -/
theorem firstFault_eq_some_iff {α : Type} {judge : List α → α → Option Fault} {f : Fault}
    {before xs : List α} :
    firstFault judge before xs = some f ↔
      ∃ ys x zs, xs = ys ++ x :: zs ∧ firstFault judge before ys = none ∧
        judge (before ++ ys) x = some f := by
  induction xs generalizing before with
  | nil => simp [firstFault]
  | cons x xs ih =>
      rw [firstFault, Option.or_eq_some_iff, ih]
      constructor
      · rintro (hx | ⟨hx, ys, y, zs, rfl, hys, hy⟩)
        · exact ⟨[], x, xs, rfl, rfl, by simpa using hx⟩
        · refine ⟨x :: ys, y, zs, rfl, ?_, by simpa using hy⟩
          rw [firstFault, hx, Option.none_or, hys]
      · rintro ⟨ys, y, zs, e, hys, hy⟩
        -- the thing at fault is the head, or else the head is in order
        cases ys with
        | nil =>
            obtain ⟨rfl, rfl⟩ := List.cons.inj e
            exact .inl (by simpa using hy)
        | cons y' ys =>
            obtain ⟨rfl, rfl⟩ := List.cons.inj e
            rw [firstFault, Option.or_eq_none_iff] at hys
            exact .inr ⟨hys.1, ys, y, zs, rfl, hys.2, by simpa using hy⟩

/-- The fault `f` is the first breach of a rule in a contract. -/
inductive Contract.FirstBreach (c : Contract) : Fault → Prop where
  | tooManyArgs {before after : List Declaration} {s : Service} {ps qs : List Procedure}
      {p : Procedure} :
    c.declarations = before ++ .service s :: after → (Contract.mk before).Limited →
    s.procedures = ps ++ p :: qs → (Declaration.service ⟨s.name, ps⟩).Limited →
    maxArgs < p.args.length → FirstBreach c (.tooManyArgs p.name maxArgs)
  | procedure {before after : List Declaration} {s : Service} {ps qs : List Procedure}
      {p : Procedure} :
    c.declarations = before ++ .service s :: after → (Contract.mk before).Limited →
    s.procedures = ps ++ p :: qs → (Declaration.service ⟨s.name, ps⟩).Limited →
    p.args.length ≤ maxArgs → p.name ∈ ps.map (·.name) →
    FirstBreach c (.duplicate (.procedure s.name) p.name)
  | service {before after : List Declaration} {s : Service} :
    c.declarations = before ++ .service s :: after → (Contract.mk before).Limited →
    (Declaration.service s).Limited → s.name ∈ (Contract.mk before).serviceNames →
    FirstBreach c (.duplicate .service s.name)
  | field {before after : List Declaration} {m : Message} {fs gs : List Field} {x : Field} :
    c.declarations = before ++ .message m :: after → (Contract.mk before).Limited →
    m.fields = fs ++ x :: gs → (Declaration.message ⟨m.name, fs⟩).Limited →
    x.name ∈ fs.map (·.name) → FirstBreach c (.duplicate (.field m.name) x.name)
  | message {before after : List Declaration} {m : Message} :
    c.declarations = before ++ .message m :: after → (Contract.mk before).Limited →
    (Declaration.message m).Limited → m.name ∈ (Contract.mk before).messageNames →
    FirstBreach c (.duplicate .message m.name)

/-- A procedure is at fault for its arguments, or else for its name; the first is found before the
second. -/
theorem Procedure.violation?_eq_some_iff {p : Procedure} {n : String} {before : List Procedure}
    {f : Fault} :
    p.violation? n before = some f ↔
      (maxArgs < p.args.length ∧ f = .tooManyArgs p.name maxArgs) ∨
        (p.args.length ≤ maxArgs ∧ p.name ∈ before.map (·.name) ∧
          f = .duplicate (.procedure n) p.name) := by
  unfold Procedure.violation?
  split
  · next h => simp [h, Nat.not_le.mpr h, eq_comm]
  · next h => simp [h, Nat.not_lt.mp h, eq_comm]

theorem Field.violation?_eq_some_iff {x : Field} {n : String} {before : List Field} {f : Fault} :
    x.violation? n before = some f ↔
      x.name ∈ before.map (·.name) ∧ f = .duplicate (.field n) x.name := by
  simp [Field.violation?, eq_comm]

/-- The fault of a body, or else of the name that it stands under. -/
theorem or_ite_eq_some_iff {body : Option Fault} {q : Prop} [Decidable q] {f g : Fault} :
    body.or (if q then some g else none) = some f ↔
      body = some f ∨ (body = none ∧ q ∧ f = g) := by
  rw [Option.or_eq_some_iff, Option.ite_none_right_eq_some, Option.some.injEq, eq_comm (a := g)]

namespace Contract

/-- The violation that is found is the first breach: the declarations, procedures and fields before
it are in order. -/
theorem FirstBreach.of_violation? {c : Contract} {f : Fault} (h : c.violation? = some f) :
    c.FirstBreach f := by
  obtain ⟨before, d, after, e, hbefore, hd⟩ := firstFault_eq_some_iff.mp h
  have hlimited : (Contract.mk before).Limited := (violation?_eq_none_iff ⟨before⟩).mp hbefore
  rw [List.nil_append] at hd
  -- the fault is in the body of this declaration, or else the declaration's own name is taken
  cases d with
  | service s =>
      rw [Declaration.violation?, or_ite_eq_some_iff] at hd
      rcases hd with hbody | ⟨hbody, hname, rfl⟩
      · obtain ⟨ps, p, qs, es, hps, hp⟩ := firstFault_eq_some_iff.mp hbody
        have hps := (procedures_in_order s.name ps).mp hps
        rcases Procedure.violation?_eq_some_iff.mp hp with ⟨hlt, rfl⟩ | ⟨hle, hname, rfl⟩
        · exact .tooManyArgs e hlimited es hps hlt
        · exact .procedure e hlimited es hps hle hname
      · exact .service e hlimited ((procedures_in_order s.name s.procedures).mp hbody) hname
  | message m =>
      rw [Declaration.violation?, or_ite_eq_some_iff] at hd
      rcases hd with hbody | ⟨hbody, hname, rfl⟩
      · obtain ⟨fs, x, gs, em, hfs, hx⟩ := firstFault_eq_some_iff.mp hbody
        obtain ⟨hname, rfl⟩ := Field.violation?_eq_some_iff.mp hx
        exact .field e hlimited em ((fields_in_order m.name fs).mp hfs) hname
      · exact .message e hlimited ((fields_in_order m.name m.fields).mp hbody) hname

/-- A fault of the first declaration that is not in order. -/
theorem violation?_of_declaration {c : Contract} {before after : List Declaration} {d : Declaration}
    {f : Fault} (e : c.declarations = before ++ d :: after)
    (hlimited : (Contract.mk before).Limited) (hd : d.violation? before = some f) :
    c.violation? = some f :=
  firstFault_eq_some_iff.mpr
    ⟨before, d, after, e, (violation?_eq_none_iff ⟨before⟩).mpr hlimited, hd⟩

/-- A fault of the first procedure that is not in order. -/
theorem violation?_of_procedure {s : Service} {before : List Declaration} {ps qs : List Procedure}
    {p : Procedure} {f : Fault} (e : s.procedures = ps ++ p :: qs)
    (hlimited : (Declaration.service ⟨s.name, ps⟩).Limited)
    (hp : p.violation? s.name ps = some f) :
    (Declaration.service s).violation? before = some f :=
  or_ite_eq_some_iff.mpr <| .inl <| firstFault_eq_some_iff.mpr
    ⟨ps, p, qs, e, (procedures_in_order s.name ps).mpr hlimited, hp⟩

/-- The first breach is the violation that is found, as the search meets nothing before it. -/
theorem violation?_of_firstBreach {c : Contract} {f : Fault} (h : c.FirstBreach f) :
    c.violation? = some f := by
  cases h with
  | tooManyArgs e hbefore es hps hlt =>
      refine violation?_of_declaration e hbefore (violation?_of_procedure es hps ?_)
      exact Procedure.violation?_eq_some_iff.mpr (.inl ⟨hlt, rfl⟩)
  | procedure e hbefore es hps hle hname =>
      refine violation?_of_declaration e hbefore (violation?_of_procedure es hps ?_)
      exact Procedure.violation?_eq_some_iff.mpr (.inr ⟨hle, hname, rfl⟩)
  | @service _ _ s e hbefore hs hname =>
      refine violation?_of_declaration e hbefore (or_ite_eq_some_iff.mpr (.inr ⟨?_, hname, rfl⟩))
      exact (procedures_in_order s.name s.procedures).mpr hs
  | @field _ _ m fs gs x e hbefore em hfs hname =>
      refine violation?_of_declaration e hbefore (or_ite_eq_some_iff.mpr (.inl ?_))
      exact firstFault_eq_some_iff.mpr ⟨fs, x, gs, em, (fields_in_order m.name fs).mpr hfs,
        Field.violation?_eq_some_iff.mpr ⟨hname, rfl⟩⟩
  | @message _ _ m e hbefore hm hname =>
      refine violation?_of_declaration e hbefore (or_ite_eq_some_iff.mpr (.inr ⟨?_, hname, rfl⟩))
      exact (fields_in_order m.name m.fields).mpr hm

/-- **The walk finds the first breach.**  Its fault is that of one procedure, field or declaration,
and everything that is written before that one is in order. -/
theorem violation?_eq_some_iff {c : Contract} {f : Fault} :
    c.violation? = some f ↔ c.FirstBreach f :=
  ⟨.of_violation?, violation?_of_firstBreach⟩

/-- **The reader reports the first breach.**  On tokens that spell a contract, it gives what a check
of that contract gives after the fact: the contract if it obeys the rules, and otherwise its first
breach. -/
theorem ofTokens_up_to_first_breach {ts : List Token} {c : Contract}
    (h : Spells (ts.takeWhile (· != .endOfInput)) c) :
    ofTokens ts = (match c.violation? with | some f => .error f | none => .ok c) ∧
      (ofTokens ts = .ok c ↔ c.Limited) ∧ ∀ f, ofTokens ts = .error f ↔ c.FirstBreach f := by
  have hread : ofTokens ts = (match c.violation? with | some f => .error f | none => .ok c) :=
    ofTokens_of_spells h
  refine ⟨hread, ?_, fun f => ?_⟩
  · rw [hread, ← violation?_eq_none_iff]
    cases c.violation? <;> simp
  · rw [hread, ← violation?_eq_some_iff]
    cases c.violation? <;> simp

/-- Three breaches in one service: its name is taken, and so is that of a procedure, which has too
many arguments.  The arguments come first. -/
theorem ofTokens_three_breaches :
    ∃ c : Contract,
      c.declarations = [.service ⟨"S", []⟩,
        .service ⟨"S", [⟨"f", [], "R"⟩, ⟨"f", List.replicate 33 "M", "R"⟩]⟩] ∧
      ofTokens (c.tokens ++ [.endOfInput]) = .error (.tooManyArgs "f" 32) ∧
      c.FirstBreach (.tooManyArgs "f" 32) := by
  let c : Contract := ⟨[.service ⟨"S", []⟩,
    .service ⟨"S", [⟨"f", [], "R"⟩, ⟨"f", List.replicate 33 "M", "R"⟩]⟩]⟩
  have hspells : Spells ((c.tokens ++ [Token.endOfInput]).takeWhile (· != .endOfInput)) c := by
    rw [takeWhile_append_endOfInput (Reader.endOfInput_not_mem_of_spells c.spells_tokens)]
    exact c.spells_tokens
  have herror : ofTokens (c.tokens ++ [.endOfInput]) = .error (.tooManyArgs "f" 32) := rfl
  exact ⟨c, rfl, herror, ((ofTokens_up_to_first_breach hspells).2.2 _).mp herror⟩

end Contract

end RpcContract
