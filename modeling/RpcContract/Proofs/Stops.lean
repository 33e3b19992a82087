import RpcContract.Proofs.Unexpected

/-!
# Proofs — where reading stops

Reading goes on token by token until the end of the input, or until a token that is at fault, and
looks at nothing behind that.  `reach` is the number of
tokens that are taken before the stop, and `stop` is the token that stands there; a list of tokens
that is used up stops at the end of the input.

`reading_induction` follows a reading to its stop: there is one case for each way to stop, and one
for a token that is taken.  So what stands behind the stop may be left out, or put there, without
any change to the outcome (`Contract.ofTokens_append`).
-/

namespace RpcContract.Reader

/-- How many tokens are taken before reading stops. -/
def reach (p : Progress) : List Token → Nat
  | [] => 0
  | t :: ts =>
    match step p t with
    | .ok q => reach q ts + 1
    | .error _ => 0

/-- The token at which reading stops. -/
def stop (p : Progress) (ts : List Token) : Token :=
  ts.getD (reach p ts) .endOfInput

/-- The end of the input is never taken. -/
theorem step_endOfInput (p : Progress) :
    step p .endOfInput = .error (p.place.refuse .endOfInput) := by
  rw [step, follow_endOfInput]

theorem ne_endOfInput_of_step {p q : Progress} {t : Token} (h : step p t = .ok q) :
    t ≠ .endOfInput := by
  rintro rfl
  rw [step_endOfInput] at h
  cases h

/-- A reading, followed to its stop: the tokens are used up, or the end of the input stands there,
or a token at fault; before that, tokens are taken one by one. -/
@[elab_as_elim]
theorem reading_induction {motive : Progress → List Token → Prop}
    (nil : ∀ p, motive p [])
    (finish : ∀ p ts, motive p (.endOfInput :: ts))
    (fault : ∀ p t ts e, t ≠ .endOfInput → step p t = .error e → motive p (t :: ts))
    (taken : ∀ p t ts q, step p t = .ok q → motive q ts → motive p (t :: ts))
    (p : Progress) (ts : List Token) : motive p ts := by
  induction ts generalizing p with
  | nil => exact nil p
  | cons t ts ih =>
      cases hs : step p t with
      | ok q => exact taken p t ts q hs (ih q)
      | error e =>
          by_cases ht : t = .endOfInput
          · subst ht
            exact finish p ts
          · exact fault p t ts e ht hs

section

variable {p q : Progress} {t : Token} {ts : List Token} {e : Fault}

/-- After a token that is taken, reading goes on from the place that it leads to. -/
theorem readFrom_of_ok (h : step p t = .ok q) : readFrom p (t :: ts) = readFrom q ts := by
  rw [readFrom_cons (ne_endOfInput_of_step h), h]
  rfl

/-- Reading ends with the fault of the first token that is not taken. -/
theorem readFrom_of_error (ht : t ≠ .endOfInput) (h : step p t = .error e) :
    readFrom p (t :: ts) = .error e := by
  rw [readFrom_cons ht, h]
  rfl

theorem reach_of_ok (h : step p t = .ok q) : reach p (t :: ts) = reach q ts + 1 := by
  simp only [reach, h]

theorem reach_of_error (h : step p t = .error e) : reach p (t :: ts) = 0 := by
  simp only [reach, h]

theorem stop_of_ok (h : step p t = .ok q) : stop p (t :: ts) = stop q ts := by
  rw [stop, reach_of_ok h, List.getD_cons_succ]
  rfl

theorem stop_of_error (h : step p t = .error e) : stop p (t :: ts) = t := by
  rw [stop, reach_of_error h, List.getD_cons_zero]

@[simp] theorem stop_endOfInput (p : Progress) (ts : List Token) :
    stop p (.endOfInput :: ts) = .endOfInput :=
  stop_of_error (step_endOfInput p)

end

/-- **An unexpected token** is refused where reading stops, by the place that is reached there.  No
other fault is reported in this form. -/
theorem refuse_of_readFrom {p : Progress} {ts : List Token} {found expected : String}
    (h : readFrom p ts = .error (.unexpected found expected)) :
    ∃ place : Place, place.refuse (stop p ts) = .unexpected found expected := by
  induction p, ts using reading_induction with
  | nil p => exact ⟨p.place, (refuse_of_finish h).2⟩
  | finish p ts =>
      rw [stop_endOfInput]
      exact ⟨p.place, (refuse_of_finish h).2⟩
  | fault p t ts e ht hs =>
      rw [readFrom_of_error ht hs] at h
      rw [Except.error.inj h] at hs
      rw [stop_of_error hs]
      exact ⟨p.place, (refuse_of_step hs).2⟩
  | taken p t ts q hs ih =>
      rw [stop_of_ok hs]
      exact ih (readFrom_of_ok hs ▸ h)

/-- What an unexpected token is reported as is how the token at the stop is shown. -/
theorem found_eq_shown_stop {p : Progress} {ts : List Token} {found expected : String}
    (h : readFrom p ts = .error (.unexpected found expected)) : found = (stop p ts).shown := by
  obtain ⟨place, hplace⟩ := refuse_of_readFrom h
  exact (Fault.unexpected.inj hplace).1.symm

/-! ### Behind the stop -/

/-- Nothing behind an end of the input is looked at, and a missing one is like a present one. -/
theorem readFrom_append_endOfInput (p : Progress) (ts us : List Token) :
    readFrom p (ts ++ .endOfInput :: us) = readFrom p ts := by
  induction p, ts using reading_induction with
  | nil | finish => rfl
  | fault p t ts e ht hs =>
      rw [List.cons_append, readFrom_of_error ht hs, readFrom_of_error ht hs]
  | taken p t ts q hs ih => rw [List.cons_append, readFrom_of_ok hs, readFrom_of_ok hs, ih]

/-- If the end is at fault, then it is reported as the end. -/
theorem unexpected_of_finish {p : Progress} {e : Fault} (h : finish p = .error e) :
    ∃ expected, e = .unexpected "end of input" expected :=
  ⟨_, (refuse_of_finish h).2.symm⟩

/-- A fault that is not the end of the input stands at a token, and nothing behind that token is
looked at. -/
theorem readFrom_append_of_error {p : Progress} {ts : List Token} {e : Fault}
    (h : readFrom p ts = .error e) (he : ∀ expected, e ≠ .unexpected "end of input" expected)
    (us : List Token) : readFrom p (ts ++ us) = .error e := by
  induction p, ts using reading_induction with
  | nil p | finish p ts =>
      obtain ⟨expected, hend⟩ := unexpected_of_finish h
      exact absurd hend (he expected)
  | fault p t ts f ht hs =>
      rw [readFrom_of_error ht hs] at h
      rw [List.cons_append, readFrom_of_error ht hs, h]
  | taken p t ts q hs ih =>
      rw [List.cons_append, readFrom_of_ok hs]
      exact ih (readFrom_of_ok hs ▸ h)

end RpcContract.Reader

namespace RpcContract.Contract

open Reader

/-- **Reading is decided where it stops.**  What follows the first end of the input does not matter,
nor whether that end is there; and a fault that is not at the end stays the same fault, whatever
tokens follow. -/
theorem ofTokens_append (ts us : List Token) :
    ofTokens (ts ++ [.endOfInput] ++ us) = ofTokens ts ∧
      ∀ e, ofTokens ts = .error e → (∀ expected, e ≠ .unexpected "end of input" expected) →
        ofTokens (ts ++ us) = .error e := by
  simp only [ofTokens]
  refine ⟨?_, fun e h he => readFrom_append_of_error h he us⟩
  rw [List.append_assoc, List.singleton_append]
  exact readFrom_append_endOfInput .start ts us

/-- An identifier may be spelt like the report of the end, and is still no end. -/
theorem ofTokens_append_spelt_end :
    let ts : List Token := [.keyword .message, .ident "M", .ident "end of input"]
    let us : List Token := [.lbrace, .rbrace, .endOfInput]
    ofTokens ts = .error (.unexpected "`end of input`" "LBRACE") ∧
    ofTokens (ts ++ us) = .error (.unexpected "`end of input`" "LBRACE") ∧
    ofTokens (ts ++ [.endOfInput] ++ us) = .error (.unexpected "`end of input`" "LBRACE") := by
  intro ts us
  have hts : ofTokens ts = .error (.unexpected "`end of input`" "LBRACE") := rfl
  obtain ⟨hend, hmore⟩ := ofTokens_append ts us
  refine ⟨hts, hmore _ hts ?_, hend.trans hts⟩
  intro expected h
  exact absurd (Fault.unexpected.inj h).1 (by decide)

end RpcContract.Contract
