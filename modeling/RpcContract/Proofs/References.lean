import Mathlib.Data.Prod.Lex
import RpcContract.Proofs.Compiling

/-!
# Proofs — the first undeclared message

An argument has a place in its contract: the number of its service, of its procedure in that service,
and its own number in the procedure.  Places are compared one number after another, which is the
order in which the arguments are written.  The check of the references reports the argument at the
first place where no message of that name is declared (`Contract.FirstUndeclared`).

Which names are declared is all that the check knows of the messages.  So it does not matter where
they stand among the services, in which order, or how often; and more of them do no harm.
-/

namespace RpcContract

namespace Contract

/-- Some message of the contract has the name. -/
def Declares (c : Contract) (name : String) : Prop :=
  ∃ m : Message, .message m ∈ c.declarations ∧ m.name = name

/-- The argument at a place, if there is one. -/
def useAt? (c : Contract) (i j k : ℕ) : Option Reference := do
  let s ← c.services[i]?
  let p ← s.procedures[j]?
  let a ← p.args[k]?
  return ⟨a, p.name, s.name⟩

/-- The use `r` is the first one whose message is not declared. -/
def FirstUndeclared (c : Contract) (r : Reference) : Prop :=
  ∃ i j k, c.useAt? i j k = some r ∧ ¬ c.Declares r.message ∧
    ∀ i' j' k' r', toLex (i', toLex (j', k')) < toLex (i, toLex (j, k)) →
      c.useAt? i' j' k' = some r' → c.Declares r'.message

theorem declares_iff {c : Contract} {name : String} :
    c.Declares name ↔ name ∈ c.messageNames := by
  simp only [Declares, messageNames, List.mem_map, mem_messages]

instance (c : Contract) (name : String) : Decidable (c.Declares name) :=
  decidable_of_iff _ declares_iff.symm

/-- A use at three positions is an argument of a procedure of a service, named with its owners. -/
theorem useAt?_eq_some_iff {c : Contract} {i j k : ℕ} {r : Reference} :
    c.useAt? i j k = some r ↔
      ∃ s p a, c.services[i]? = some s ∧ s.procedures[j]? = some p ∧ p.args[k]? = some a ∧
        r = ⟨a, p.name, s.name⟩ := by
  simp only [useAt?, Option.bind_eq_bind, Option.bind_eq_some_iff, Option.pure_def,
    Option.some.injEq, eq_comm (b := r)]
  constructor
  · rintro ⟨s, hs, p, hp, a, ha, h⟩
    exact ⟨s, p, a, hs, hp, ha, h⟩
  · rintro ⟨s, p, a, hs, hp, ha, h⟩
    exact ⟨s, hs, p, hp, a, ha, h⟩

end Contract

/-- The first result that is found, by its place. -/
theorem findSome?_eq_some_iff_getElem? {α β : Type} {f : α → Option β} {xs : List α} {b : β} :
    xs.findSome? f = some b ↔
      ∃ (i : ℕ) (x : α), xs[i]? = some x ∧ f x = some b ∧ ∀ j < i, ∀ y, xs[j]? = some y → f y = none := by
  rw [List.findSome?_eq_some_iff]
  constructor
  · rintro ⟨ys, x, zs, rfl, hx, hys⟩
    refine ⟨ys.length, x, by simp, hx, fun j hj y hy => ?_⟩
    rw [List.getElem?_append_left hj] at hy
    exact hys y (List.mem_of_getElem? hy)
  · rintro ⟨i, x, hi, hx, hbefore⟩
    obtain ⟨hlt, rfl⟩ := List.getElem?_eq_some_iff.mp hi
    refine ⟨xs.take i, xs[i], xs.drop (i + 1), by simp, hx, fun y hy => ?_⟩
    obtain ⟨j, hj, rfl⟩ := List.mem_take_iff_getElem.mp hy
    exact hbefore j (by omega) _ (List.getElem?_eq_getElem _)

/-- The use of a message as an argument, unless it is one of the given ones. -/
def undeclaredArg? (messages : List String) (s : Service) (p : Procedure) (a : String) :
    Option Reference :=
  if a ∈ messages then none else some ⟨a, p.name, s.name⟩

theorem find?_args (messages : List String) (s : Service) (p : Procedure) :
    (p.args.map (⟨·, p.name, s.name⟩ : String → Reference)).find? (! messages.contains ·.message) =
      p.args.findSome? (undeclaredArg? messages s p) := by
  rw [List.find?_map, List.find?_eq_findSome?_guard, List.map_findSome?]
  congr 1
  funext a
  by_cases ha : a ∈ messages <;> simp [undeclaredArg?, Option.guard, ha]

/-- The search goes through the services, the procedures of each, and the arguments of each. -/
theorem undeclared?_eq_findSome? (services : List Service) (messages : List String) :
    undeclared? services messages =
      services.findSome? fun s => s.procedures.findSome? fun p =>
        p.args.findSome? (undeclaredArg? messages s p) := by
  simp only [undeclared?, Service.references, List.find?_flatMap, find?_args]

theorem undeclaredArg?_eq_none_iff {messages : List String} {s : Service} {p : Procedure}
    {a : String} : undeclaredArg? messages s p a = none ↔ a ∈ messages := by
  simp [undeclaredArg?]

theorem undeclaredArg?_eq_some_iff {messages : List String} {s : Service} {p : Procedure}
    {a : String} {r : Reference} :
    undeclaredArg? messages s p a = some r ↔ a ∉ messages ∧ r = ⟨a, p.name, s.name⟩ := by
  simp [undeclaredArg?, eq_comm]

namespace Contract

/-- **The search finds the first use** whose message is not declared.  Services, procedures and
arguments are searched in this order, which is the lexical order of the three positions. -/
theorem undeclared?_eq_some_iff {c : Contract} {r : Reference} :
    undeclared? c.services c.messageNames = some r ↔ c.FirstUndeclared r := by
  simp only [undeclared?_eq_findSome?, findSome?_eq_some_iff_getElem?, List.findSome?_eq_none_iff,
    undeclaredArg?_eq_none_iff, undeclaredArg?_eq_some_iff, FirstUndeclared, declares_iff,
    useAt?_eq_some_iff, Prod.Lex.toLex_lt_toLex]
  constructor
  · rintro ⟨i, s, hs, ⟨j, p, hp, ⟨k, a, ha, ⟨hnot, rfl⟩, hargs⟩, hprocedures⟩, hservices⟩
    refine ⟨i, j, k, ⟨s, p, a, hs, hp, ha, rfl⟩, hnot, ?_⟩
    -- an earlier service, or an earlier procedure of the same, or an earlier argument of the same
    rintro i' j' k' _ (hi | ⟨rfl, hj | ⟨rfl, hk⟩⟩) ⟨s', p', a', hs', hp', ha', rfl⟩
    · exact hservices i' hi s' hs' p' (List.mem_of_getElem? hp') a' (List.mem_of_getElem? ha')
    · obtain rfl : s = s' := Option.some.inj (hs.symm.trans hs')
      exact hprocedures j' hj p' hp' a' (List.mem_of_getElem? ha')
    · obtain rfl : s = s' := Option.some.inj (hs.symm.trans hs')
      obtain rfl : p = p' := Option.some.inj (hp.symm.trans hp')
      exact hargs k' hk a' ha'
  · rintro ⟨i, j, k, ⟨s, p, a, hs, hp, ha, rfl⟩, hnot, hbefore⟩
    refine ⟨i, s, hs, ⟨j, p, hp, ⟨k, a, ha, ⟨hnot, rfl⟩, ?_⟩, ?_⟩, ?_⟩
    · intro k' hk a' ha'
      exact hbefore i j k' _ (.inr ⟨rfl, .inr ⟨rfl, hk⟩⟩) ⟨s, p, a', hs, hp, ha', rfl⟩
    · intro j' hj p' hp' a' ha'
      obtain ⟨k', ha'⟩ := List.mem_iff_getElem?.mp ha'
      exact hbefore i j' k' _ (.inr ⟨rfl, .inl hj⟩) ⟨s, p', a', hs, hp', ha', rfl⟩
    · intro i' hi s' hs' p' hp' a' ha'
      obtain ⟨j', hp'⟩ := List.mem_iff_getElem?.mp hp'
      obtain ⟨k', ha'⟩ := List.mem_iff_getElem?.mp ha'
      exact hbefore i' j' k' _ (.inl hi) ⟨s', p', a', hs', hp', ha', rfl⟩

/-- **The check fails at the first undeclared message**, and it reports that one together with its
procedure and service. -/
theorem check_eq_error_iff {c : Contract} {e : Fault} :
    c.check = .error e ↔ ∃ r, c.FirstUndeclared r ∧ e = r.fault := by
  simp only [← undeclared?_eq_some_iff]
  rw [check, checkReferences]
  cases undeclared? c.services c.messageNames <;> simp [eq_comm]

end Contract

/-- The search depends on which messages there are, and on nothing else about them. -/
theorem undeclared?_congr {messages messages' : List String}
    (h : ∀ n, n ∈ messages ↔ n ∈ messages') (services : List Service) :
    undeclared? services messages = undeclared? services messages' := by
  have hcontains : ∀ n, messages.contains n = messages'.contains n := by
    intro n
    rw [Bool.eq_iff_iff, List.contains_iff_mem, List.contains_iff_mem, h]
  simp only [undeclared?, hcontains]

namespace Contract

/-- **The check reports the first undeclared message.**  It fails at the first place where an argument
names no message of the contract, and only there.  Of the messages it matters which names they have;
more of them never make it fail. -/
theorem check_first_undeclared (c : Contract) :
    (∀ name procedure service, c.check = .error (.undeclared name procedure service) ↔
        c.FirstUndeclared ⟨name, procedure, service⟩) ∧
      ((∀ r, ¬ c.FirstUndeclared r) → c.check = .ok ()) ∧
      (∀ d : Contract, d.services = c.services → (∀ n, d.Declares n ↔ c.Declares n) →
        d.check = c.check) ∧
      ∀ d : Contract, d.services = c.services → (∀ n, c.Declares n → d.Declares n) →
        c.check = .ok () → d.check = .ok () := by
  refine ⟨fun name procedure service => ?_, fun h => ?_, fun d hs hn => ?_, fun d hs hn h => ?_⟩
  · rw [check_eq_error_iff]
    constructor
    · rintro ⟨⟨_, _, _⟩, hr, he⟩
      cases he
      exact hr
    · exact fun hr => ⟨_, hr, rfl⟩
  · cases hc : c.check with
    | ok _ => rfl
    | error e =>
        obtain ⟨r, hr, -⟩ := check_eq_error_iff.mp hc
        exact absurd hr (h r)
  · simp only [declares_iff] at hn
    rw [check, check, checkReferences, checkReferences, hs, undeclared?_congr hn]
  · -- more messages may be declared, so the search may end elsewhere, but not if it found nothing
    simp only [declares_iff] at hn
    rw [check_eq_ok_iff] at h ⊢
    rw [hs]
    exact fun s hmem p hp a ha => hn a (h s hmem p hp a ha)

/-- A service is no message of its name.  A message may follow the services that use it, stand before
them, or be declared twice. -/
theorem check_service_is_no_message :
    let s : Service := ⟨"S", [⟨"p", [], "R"⟩, ⟨"q", ["M", "S", "T"], "R"⟩]⟩
    let c : Contract := ⟨[.service s, .message ⟨"M", []⟩]⟩
    let d : Contract := ⟨[.message ⟨"M", []⟩, .service s, .message ⟨"M", [⟨"x", .unit⟩]⟩]⟩
    let e : Contract := ⟨[.service s, .message ⟨"T", []⟩, .message ⟨"S", []⟩, .message ⟨"M", []⟩]⟩
    c.FirstUndeclared ⟨"S", "q", "S"⟩ ∧ d.check = .error (.undeclared "S" "q" "S") ∧
      e.check = .ok () ∧ (Contract.mk (.message ⟨"R", []⟩ :: e.declarations)).check = .ok () := by
  intro s c d e
  have hc : c.check = .error (.undeclared "S" "q" "S") := rfl
  have he : e.check = .ok () := rfl
  obtain ⟨hfirst, -, hsame, -⟩ := check_first_undeclared c
  obtain ⟨-, -, -, hmore⟩ := check_first_undeclared e
  refine ⟨(hfirst "S" "q" "S").mp hc, (hsame d rfl fun n => ?_).trans hc, he, ?_⟩
  · rw [declares_iff, declares_iff]
    simp [c, d, messageNames, messages, Declaration.message?]
  · refine hmore _ rfl (fun n hn => ?_) he
    obtain ⟨m, hm, hname⟩ := hn
    exact ⟨m, List.mem_cons_of_mem _ hm, hname⟩

end Contract

end RpcContract
