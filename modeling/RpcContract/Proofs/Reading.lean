import RpcContract.Proofs.Beginnings
import RpcContract.Proofs.Rules

/-!
# Proofs — what the reader accepts

The reader stops at the first end of the input, so it takes the steps of the tokens before that, and
then the end (`readFrom_eq_bind`).  Over these tokens it does what a survey does, up to the first
breach of a rule, and there it stops (`foldlM_step_of_run`).  So it takes the tokens that spell a
contract to that contract, or to its first violation (`ofTokens_of_spells`), and it takes no other
tokens to a contract.
-/

namespace RpcContract.Reader

open Grammar

/-! ### Up to the end of the input -/

/-- A token that is not the end of the input is taken by a step, and reading goes on from there. -/
theorem readFrom_cons {p : Progress} {t : Token} {ts : List Token} (h : t ≠ .endOfInput) :
    readFrom p (t :: ts) = step p t >>= fun q => readFrom q ts := by
  cases t with
  | endOfInput => exact absurd rfl h
  | _ => rfl

/-- **Only the tokens before the first end of the input are read.**  Each is taken by a step, and
then comes the end, whether it stands there or the tokens are used up. -/
theorem readFrom_eq_bind (p : Progress) (ts : List Token) :
    readFrom p ts = (ts.takeWhile (· != .endOfInput)).foldlM step p >>= finish := by
  induction ts generalizing p with
  | nil => rfl
  | cons t ts ih =>
      by_cases ht : t = .endOfInput
      · -- it stops the reader, and nothing of the list is left before it
        subst ht
        rfl
      · rw [readFrom_cons ht, List.takeWhile_cons_of_pos (by simpa using ht), List.foldlM_cons,
          bind_assoc]
        exact bind_congr ih

/-! ### Along a survey -/

/-- A survey keeps the first breach. -/
theorem fault?_of_run {e : Fault} {p : Progress} {ts : List Token} {w : Survey}
    (h : Survey.run ⟨some e, p⟩ ts = some w) : w.fault? = some e := by
  induction ts generalizing p with
  | nil => cases h; rfl
  | cons t ts ih =>
      rw [Survey.run_cons] at h
      obtain ⟨v, hv, h⟩ := Option.bind_eq_some_iff.mp h
      obtain ⟨q, -, rfl⟩ := Option.map_eq_some_iff.mp hv
      exact ih h

/-- **The reader follows a survey** up to the first breach.  There it stops with that fault, while
the survey goes on to the end and keeps the fault, so the two still agree. -/
theorem foldlM_step_of_run {p : Progress} {ts : List Token} {w : Survey}
    (h : Survey.run ⟨none, p⟩ ts = some w) : ts.foldlM step p = outcome w.fault? w.progress := by
  induction ts generalizing p with
  | nil => cases h; rfl
  | cons t ts ih =>
      rw [Survey.run_cons] at h
      obtain ⟨v, hv, h⟩ := Option.bind_eq_some_iff.mp h
      obtain ⟨q, hq, rfl⟩ := Option.map_eq_some_iff.mp hv
      rw [List.foldlM_cons, step, hq]
      -- after a breach the reader is done, and the survey keeps that breach
      cases hb : breach? p t with
      | none =>
          rw [hb] at h
          exact ih h
      | some e =>
          rw [hb] at h
          rw [fault?_of_run h]
          rfl

/-- What the reader reads without a fault, a survey reads without a breach. -/
theorem run_of_foldlM_step {p q : Progress} {ts : List Token} (h : ts.foldlM step p = .ok q) :
    Survey.run ⟨none, p⟩ ts = some ⟨none, q⟩ := by
  induction ts generalizing p with
  | nil => cases h; rfl
  | cons t ts ih =>
      rw [List.foldlM_cons, step] at h
      cases hq : follow p t with
      | none =>
          rw [hq] at h
          cases h
      | some q' =>
          cases hb : breach? p t with
          | some e =>
              rw [hq, hb] at h
              cases h
          | none =>
              rw [hq, hb] at h
              rw [Survey.run_cons, Survey.step, hq, hb]
              exact ih h

/-- All of the tokens before an end of the input are looked at. -/
theorem takeWhile_append_of_not_mem {ts : List Token} (h : .endOfInput ∉ ts) (us : List Token) :
    (ts ++ us).takeWhile (· != .endOfInput) = ts ++ us.takeWhile (· != .endOfInput) := by
  apply List.takeWhile_append_of_pos
  intro t ht
  rw [bne_iff_ne]
  rintro rfl
  exact h ht

/-- The end is taken only between declarations, and gives what is complete by then. -/
theorem finish_eq_ok_iff {p : Progress} {c : Contract} : finish p = .ok c ↔ p = ⟨c, .top⟩ := by
  obtain ⟨d, place⟩ := p
  cases place with
  | top => simp [finish]
  | _ => simp [finish]

end RpcContract.Reader

namespace RpcContract.Contract

open Grammar Reader

/-- **The tokens of a contract** are read as that contract, unless it violates a rule; then they are
refused for the first violation, and for nothing else. -/
theorem ofTokens_of_spells {ts : List Token} {c : Contract}
    (h : Spells (ts.takeWhile (· != .endOfInput)) c) : ofTokens ts = outcome c.violation? c := by
  rw [ofTokens, readFrom_eq_bind, foldlM_step_of_run (Survey.run_of_spells h)]
  cases c.violation? <;> rfl

/-- What is read spells the contract that it is read as, since a survey reads it too and ends at the
same place. -/
theorem spells_of_ofTokens {ts : List Token} {c : Contract} (h : ofTokens ts = .ok c) :
    Spells (ts.takeWhile (· != .endOfInput)) c := by
  rw [ofTokens, readFrom_eq_bind] at h
  cases hp : (ts.takeWhile (· != .endOfInput)).foldlM step .start with
  | error e =>
      rw [hp] at h
      cases h
  | ok p =>
      rw [hp] at h
      obtain rfl := finish_eq_ok_iff.mp h
      exact spells_iff.mpr ⟨none, run_of_foldlM_step hp⟩

/-- What is read as a contract is what spells one that keeps to the limits. -/
theorem ofTokens_eq_ok_iff {ts : List Token} {c : Contract} :
    ofTokens ts = .ok c ↔ Spells (ts.takeWhile (· != .endOfInput)) c ∧ c.Limited := by
  constructor
  · intro h
    have hspells := spells_of_ofTokens h
    refine ⟨hspells, (violation?_eq_none_iff c).mp ?_⟩
    rw [ofTokens_of_spells hspells] at h
    cases hv : c.violation? with
    | none => rfl
    | some e =>
        rw [hv] at h
        cases h
  · rintro ⟨hspells, hlimited⟩
    rw [ofTokens_of_spells hspells, (violation?_eq_none_iff c).mpr hlimited]
    rfl

/-- **The reader accepts exactly the grammar**, within the limits: the tokens before the first end of
the input are read as a contract when they spell it and it obeys the rules.  They spell one contract
at most. -/
theorem ofTokens_accepts_grammar (ts : List Token) :
    (∀ c, ofTokens ts = .ok c ↔ Spells (ts.takeWhile (· != .endOfInput)) c ∧ c.Limited) ∧
      ∀ c c', Spells (ts.takeWhile (· != .endOfInput)) c →
        Spells (ts.takeWhile (· != .endOfInput)) c' → c = c' :=
  ⟨fun _ => ofTokens_eq_ok_iff, fun _ _ => spells_unique⟩

end RpcContract.Contract
