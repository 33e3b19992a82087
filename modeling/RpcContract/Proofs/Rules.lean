import RpcContract.Contract.Rules

/-!
# Proofs — the rules as one walk finds them

`Contract.violation?` walks over a contract and keeps, at each point, what stands before it.
`Contract.Limited` states the same rules without a walk: names are unique in their scope, and no
procedure has more arguments than the limit.  The walk finds no violation exactly when they hold
(`violation?_eq_none_iff`).
-/

namespace RpcContract

/-- A contract that obeys the limits and whose names are unique, each in its scope. -/
structure Contract.Limited (c : Contract) : Prop where
  services : c.serviceNames.Nodup
  messages : c.messageNames.Nodup
  procedures : ∀ s ∈ c.services, (s.procedures.map (·.name)).Nodup
  fields : ∀ m ∈ c.messages, (m.fields.map (·.name)).Nodup
  arity : ∀ s ∈ c.services, ∀ p ∈ s.procedures, p.args.length ≤ maxArgs

/-- **A walk without a fault.**  If a thing is in order when it is in order by itself and goes with
each of those before it, then things are in order when each is by itself and any two go together. -/
theorem firstFault_eq_none_iff {α : Type} {judge : List α → α → Option Fault} {P : α → Prop}
    {R : α → α → Prop} (h : ∀ before x, judge before x = none ↔ P x ∧ ∀ y ∈ before, R y x)
    (before xs : List α) :
    firstFault judge before xs = none ↔
      (∀ x ∈ xs, P x ∧ ∀ y ∈ before, R y x) ∧ xs.Pairwise R := by
  induction xs generalizing before with
  | nil => simp [firstFault]
  | cons x xs ih =>
      rw [firstFault, Option.or_eq_none_iff, h, ih, List.pairwise_cons, List.forall_mem_cons]
      simp only [List.forall_mem_append, List.forall_mem_singleton]
      constructor
      · rintro ⟨hx, hxs, hpair⟩
        exact ⟨⟨hx, fun y hy => ⟨(hxs y hy).1, (hxs y hy).2.1⟩⟩, fun y hy => (hxs y hy).2.2, hpair⟩
      · rintro ⟨⟨hx, hxs⟩, hrel, hpair⟩
        exact ⟨hx, fun y hy => ⟨(hxs y hy).1, (hxs y hy).2, hrel y hy⟩, hpair⟩

/-- No field of a message is at fault when no two of them have one name. -/
theorem fields_in_order (n : String) (fs : List Field) :
    firstFault (Field.violation? n) [] fs = none ↔ (fs.map (·.name)).Nodup := by
  have h : ∀ before (x : Field),
      x.violation? n before = none ↔ True ∧ ∀ y ∈ before, y.name ≠ x.name := by
    intro before x
    simp [Field.violation?]
  rw [firstFault_eq_none_iff h, List.Nodup, List.pairwise_map]
  simp

/-- No procedure of a service is at fault when each keeps to the limit of arguments, and no two have
one name. -/
theorem procedures_in_order (n : String) (ps : List Procedure) :
    firstFault (Procedure.violation? n) [] ps = none ↔
      (∀ p ∈ ps, p.args.length ≤ maxArgs) ∧ (ps.map (·.name)).Nodup := by
  have h : ∀ before (x : Procedure), x.violation? n before = none ↔
      x.args.length ≤ maxArgs ∧ ∀ y ∈ before, y.name ≠ x.name := by
    intro before x
    unfold Procedure.violation?
    split
    · next hlt => simp [Nat.not_le.mpr hlt]
    · next hle => simp [Nat.not_lt.mp hle]
  rw [firstFault_eq_none_iff h, List.Nodup, List.pairwise_map]
  simp

/-- The parts of a declaration obey the rules. -/
def Declaration.Limited : Declaration → Prop
  | .service s =>
    (∀ p ∈ s.procedures, p.args.length ≤ maxArgs) ∧ (s.procedures.map (·.name)).Nodup
  | .message m => (m.fields.map (·.name)).Nodup

/-- Two declarations have different names, if they are of one kind. -/
def Declaration.Apart (d e : Declaration) : Prop :=
  (∀ s, d.service? = some s → ∀ s', e.service? = some s' → s.name ≠ s'.name) ∧
    ∀ m, d.message? = some m → ∀ m', e.message? = some m' → m.name ≠ m'.name

namespace Contract

theorem mem_services {c : Contract} {s : Service} :
    s ∈ c.services ↔ .service s ∈ c.declarations := by
  simp only [services, List.mem_filterMap]
  constructor
  · rintro ⟨d, hd, h⟩
    cases d with
    | service s' => cases h; exact hd
    | message => cases h
  · exact fun h => ⟨_, h, rfl⟩

theorem mem_messages {c : Contract} {m : Message} :
    m ∈ c.messages ↔ .message m ∈ c.declarations := by
  simp only [messages, List.mem_filterMap]
  constructor
  · rintro ⟨d, hd, h⟩
    cases d with
    | service => cases h
    | message m' => cases h; exact hd
  · exact fun h => ⟨_, h, rfl⟩

/-- A change to every declaration that makes no service of a message changes every service. -/
theorem services_map {f : Declaration → Declaration} {g : Service → Service}
    (h : ∀ d, (f d).service? = d.service?.map g) (c : Contract) :
    (Contract.mk (c.declarations.map f)).services = c.services.map g := by
  rw [services, services, List.filterMap_map, List.map_filterMap]
  exact congrArg (List.filterMap · c.declarations) (funext h)

theorem messages_map {f : Declaration → Declaration} {g : Message → Message}
    (h : ∀ d, (f d).message? = d.message?.map g) (c : Contract) :
    (Contract.mk (c.declarations.map f)).messages = c.messages.map g := by
  rw [messages, messages, List.filterMap_map, List.map_filterMap]
  exact congrArg (List.filterMap · c.declarations) (funext h)

end Contract

/-- A declaration is not at fault after others when it keeps to the rules by itself, and none of the
others takes its name. -/
theorem declaration_in_order (before : List Declaration) (d : Declaration) :
    d.violation? before = none ↔ d.Limited ∧ ∀ e ∈ before, e.Apart d := by
  cases d with
  | service s =>
      have hname : s.name ∉ (Contract.mk before).serviceNames ↔
          ∀ e ∈ before, e.Apart (.service s) := by
        simp only [Contract.serviceNames, Contract.services, List.mem_map, List.mem_filterMap,
          Declaration.Apart, Declaration.service?, Declaration.message?]
        grind
      rw [Declaration.violation?, Option.or_eq_none_iff, procedures_in_order, ← hname]
      simp [Declaration.Limited]
  | message m =>
      have hname : m.name ∉ (Contract.mk before).messageNames ↔
          ∀ e ∈ before, e.Apart (.message m) := by
        simp only [Contract.messageNames, Contract.messages, List.mem_map, List.mem_filterMap,
          Declaration.Apart, Declaration.service?, Declaration.message?]
        grind
      rw [Declaration.violation?, Option.or_eq_none_iff, fields_in_order, ← hname]
      simp [Declaration.Limited]

/-- Declarations are apart from one another when no two services have one name, nor two messages; a
service and a message may share theirs. -/
theorem pairwise_apart_iff (c : Contract) :
    c.declarations.Pairwise Declaration.Apart ↔ c.serviceNames.Nodup ∧ c.messageNames.Nodup := by
  rw [Contract.serviceNames, Contract.services, Contract.messageNames, Contract.messages,
    List.Nodup, List.pairwise_map, List.pairwise_filterMap, List.pairwise_map,
    List.pairwise_filterMap]
  exact List.pairwise_and_iff

/-- **The walk finds no violation** exactly when the rules hold: each declaration keeps to them by
itself, and no two declarations of a kind share a name. -/
theorem violation?_eq_none_iff (c : Contract) : c.violation? = none ↔ c.Limited := by
  rw [Contract.violation?, firstFault_eq_none_iff declaration_in_order, pairwise_apart_iff]
  constructor
  · rintro ⟨hparts, hs, hm⟩
    -- the parts of each declaration, as they are said of all services and all messages
    refine ⟨hs, hm, fun s h => ?_, fun m h => ?_, fun s h => ?_⟩
    · exact (hparts _ (Contract.mem_services.mp h)).1.2
    · exact (hparts _ (Contract.mem_messages.mp h)).1
    · exact (hparts _ (Contract.mem_services.mp h)).1.1
  · intro h
    refine ⟨fun d hd => ⟨?_, by simp⟩, h.services, h.messages⟩
    cases d with
    | service s =>
        have hs := Contract.mem_services.mpr hd
        exact ⟨h.arity s hs, h.procedures s hs⟩
    | message m => exact h.fields m (Contract.mem_messages.mpr hd)

end RpcContract
