import RpcContract.Proofs.Reading

/-!
# Proofs — where a token is unexpected

The reader refuses a token, or the end of the input, at the earliest point where the tokens can no
longer be those of a contract, the rules aside.  It names what it found there and lists alternatives:
each of them would have done, and nothing else would have, but what closes a list of declarations,
procedures, fields or arguments (`Report`).

Which tokens may stand at a place is `Place.accepts`; the reader goes on with these and no others
(`isSome_follow`).
-/

namespace RpcContract

open Grammar Reader

/-- The tokens that an alternative stands for. -/
def Expected.covers : Expected → Token → Bool
  | .kind k, t => t.kind == k
  | .keyword word, t => t == .keyword word

/-- Every alternative stands for some token. -/
theorem Expected.exists_covers (a : Expected) : ∃ t, a.covers t = true := by
  cases a with
  | keyword word => exact ⟨.keyword word, by simp [covers]⟩
  | kind k =>
      cases k with
      | keyword => exact ⟨.keyword .service, rfl⟩
      | ident => exact ⟨.ident "", rfl⟩
      | valueType => exact ⟨.valueType .unit, rfl⟩
      | semicolon => exact ⟨.semicolon, rfl⟩
      | comma => exact ⟨.comma, rfl⟩
      | lparen => exact ⟨.lparen, rfl⟩
      | rparen => exact ⟨.rparen, rfl⟩
      | lbrace => exact ⟨.lbrace, rfl⟩
      | rbrace => exact ⟨.rbrace, rfl⟩
      | arrow => exact ⟨.arrow, rfl⟩
      | endOfInput => exact ⟨.endOfInput, rfl⟩

namespace Reader

/-- A place in a body where a procedure or a field may start. -/
def Place.startsItem : Place → Bool
  | .inService _ .start | .inMessage _ .start => true
  | _ => false

/-- The place at the start of the arguments. -/
def Place.startsArgs : Place → Bool
  | .inService _ (.firstArg _) => true
  | _ => false

/-- The tokens that may stand at a place: those that it asks for, and those that close what may
otherwise go on. -/
def Place.accepts (place : Place) (t : Token) : Bool :=
  place.expected.any (·.covers t) || (place.startsItem && t == .rbrace)
    || (place.startsArgs && t == .rparen)

/-- **A place accepts the tokens that can be followed**, so `accepts`, which looks at the place
alone, says what may come next. -/
theorem isSome_follow (p : Progress) (t : Token) : (follow p t).isSome = p.place.accepts t := by
  obtain ⟨c, place⟩ := p
  cases t with
  | keyword word =>
      cases place with
      | inService s place => cases place <;> cases word <;> rfl
      | inMessage m place => cases place <;> cases word <;> rfl
      | _ => cases word <;> rfl
  | _ =>
      cases place with
      | inService s place => cases place <;> rfl
      | inMessage m place => cases place <;> rfl
      | _ => rfl

/-! ### The place that a survey reaches -/

/-- After a viable beginning, the tokens that keep it viable are those that the place reached has a
use for. -/
theorem viable_append_iff {ts : List Token} {v : Survey} (h : Survey.start.run ts = some v)
    (t : Token) : Viable (ts ++ [t]) ↔ v.progress.place.accepts t = true := by
  rw [viable_iff, Survey.run_append, h, Option.bind_some, Survey.run_singleton, Survey.step,
    ← isSome_follow]
  cases follow v.progress t <;> simp

theorem exists_spells_iff {ts : List Token} {v : Survey} (h : Survey.start.run ts = some v) :
    (∃ c, Spells ts c) ↔ v.progress.place = .top := by
  constructor
  · rintro ⟨c, hc⟩
    have e := h.symm.trans (Survey.run_of_spells hc)
    rw [Option.some.inj e]
  · intro htop
    obtain ⟨f, c, place⟩ := v
    obtain rfl : place = .top := htop
    exact ⟨c, spells_iff.mpr ⟨f, h⟩⟩

/-- A procedure or a field may stand next. -/
def ItemMayStart (ts : List Token) : Prop :=
  ∃ us, ((∃ x, SpellsProcedure us x) ∨ ∃ x, SpellsField us x) ∧ Viable (ts ++ us)

/-- Where a place starts an item, the beginning may go on with a procedure or a field.  So a mark
that closes the body may stand there although the report does not list it. -/
theorem itemMayStart_of_place {ts : List Token} {v : Survey} (h : Survey.start.run ts = some v)
    (hp : v.progress.place.startsItem = true) : ItemMayStart ts := by
  have hviable : ∀ us w, v.run us = some w → Viable (ts ++ us) := by
    intro us w hw
    refine viable_iff.mpr ⟨w, ?_⟩
    rw [Survey.run_append, h, Option.bind_some, hw]
  obtain ⟨f, c, place⟩ := v
  cases place with
  | inService s place =>
      cases place with
      | start => exact ⟨_, .inl ⟨_, .mk "" "" .none .arrow⟩, hviable _ _ rfl⟩
      | _ => cases hp
  | inMessage m place =>
      cases place with
      | start => exact ⟨_, .inr ⟨_, .mk "" .unit⟩, hviable _ _ rfl⟩
      | _ => cases hp
  | _ => cases hp

/-- The other place that lists too little is right behind the mark that opens the arguments. -/
theorem getLast?_of_place {ts : List Token} {v : Survey} (h : Survey.start.run ts = some v)
    (hp : v.progress.place.startsArgs = true) : ts.getLast? = some .lparen := by
  obtain ⟨us, vs, rfl, -, hvs⟩ := begins_of_run begins_start h
  obtain ⟨f, c, place⟩ := v
  cases hvs with
  | inService n _ hbegins =>
      cases hbegins with
      | firstArg m =>
          rw [List.getLast?_append, List.getLast?_append]
          rfl
      | _ => cases hp
  | _ => cases hp

end Reader

/-- The reader's report is right about the tokens `before ++ after`, if it refuses the first of
`after`, or the end of the input where `after` is empty. -/
structure Report (before after : List Token) (found : String) (alternatives : List Expected) :
    Prop where
  /-- What stands before the offence is the beginning of some contract. -/
  viable : Viable before
  /-- With the token that is refused it is the beginning of none; the report shows its text. -/
  token : ∀ t ∈ after.head?,
    ¬ Viable (before ++ [t]) ∧ ∃ text, t.text? = some text ∧ found = "`" ++ text ++ "`"
  /-- If the end is refused, then it is no whole contract. -/
  ending : after = [] → (¬ ∃ c, Spells before c) ∧ found = "end of input"
  /-- Every token that the report lists may stand there. -/
  listed : ∀ a ∈ alternatives,
    (∃ t, a.covers t = true) ∧ ∀ t, a.covers t = true → Viable (before ++ [t])
  /-- Another token that may stand there closes a body or an empty list of arguments. -/
  closing : ∀ t, Viable (before ++ [t]) → (∃ a ∈ alternatives, a.covers t = true) ∨
    (t = .rbrace ∧ ItemMayStart before) ∨ (t = .rparen ∧ before.getLast? = some .lparen)
  /-- The end may stand there only where the report lists what opens a declaration. -/
  complete : (∃ c, Spells before c) → alternatives = [.keyword .service, .keyword .message]

namespace Reader

/-- The alternatives of the place reached are right, whatever is refused there. -/
theorem report_of_run {before after : List Token} {v : Survey} {found : String}
    (h : Survey.start.run before = some v)
    (htoken : ∀ t ∈ after.head?, v.progress.place.accepts t = false ∧
      ∃ text, t.text? = some text ∧ found = "`" ++ text ++ "`")
    (hending : after = [] → v.progress.place ≠ .top ∧ found = "end of input") :
    Report before after found v.progress.place.expected where
  viable := viable_iff.mpr ⟨v, h⟩
  token t ht := by
    refine ⟨?_, (htoken t ht).2⟩
    rw [viable_append_iff h, (htoken t ht).1]
    simp
  ending e := by
    refine ⟨?_, (hending e).2⟩
    rw [exists_spells_iff h]
    exact (hending e).1
  listed a ha := by
    refine ⟨a.exists_covers, fun t ht => (viable_append_iff h t).mpr ?_⟩
    have hany : v.progress.place.expected.any (·.covers t) = true := List.any_eq_true.mpr ⟨a, ha, ht⟩
    simp [Place.accepts, hany]
  closing t ht := by
    rw [viable_append_iff h, Place.accepts, Bool.or_eq_true, Bool.or_eq_true, Bool.and_eq_true,
      Bool.and_eq_true, beq_iff_eq, beq_iff_eq, List.any_eq_true] at ht
    rcases ht with (hlist | ⟨hitem, rfl⟩) | ⟨hargs, rfl⟩
    · exact .inl hlist
    · exact .inr (.inl ⟨rfl, itemMayStart_of_place h hitem⟩)
    · exact .inr (.inr ⟨rfl, getLast?_of_place h hargs⟩)
  complete hc := by
    rw [(exists_spells_iff h).mp hc]
    rfl

/-! ### The faults of the reader -/

theorem breach?_ne_unexpected (p : Progress) (t : Token) (found expected : String) :
    breach? p t ≠ some (.unexpected found expected) := by
  unfold breach?
  split <;> simp

/-- A fault of a reading is the fault of its first step that has one. -/
theorem exists_of_foldlM_error {p : Progress} {ts : List Token} {e : Fault}
    (h : ts.foldlM step p = .error e) :
    ∃ us t vs q, ts = us ++ t :: vs ∧ us.foldlM step p = .ok q ∧ step q t = .error e := by
  induction ts generalizing p with
  | nil => cases h
  | cons t ts ih =>
      rw [List.foldlM_cons] at h
      cases hs : step p t with
      | error e' =>
          rw [hs] at h
          cases h
          exact ⟨[], t, ts, p, rfl, rfl, hs⟩
      | ok q =>
          rw [hs] at h
          obtain ⟨us, u, vs, r, rfl, hus, hu⟩ := ih h
          refine ⟨t :: us, u, vs, r, rfl, ?_, hu⟩
          rw [List.foldlM_cons, hs]
          exact hus

/-- A step that finds a token unexpected is at a place that does not accept it. -/
theorem refuse_of_step {p : Progress} {t : Token} {found expected : String}
    (h : step p t = .error (.unexpected found expected)) :
    p.place.accepts t = false ∧ p.place.refuse t = .unexpected found expected := by
  rw [step] at h
  rw [← isSome_follow]
  cases hq : follow p t with
  | none =>
      rw [hq] at h
      exact ⟨rfl, Except.error.inj h⟩
  | some q =>
      rw [hq] at h
      cases hb : breach? p t with
      | none =>
          rw [hb] at h
          cases h
      | some f =>
          rw [hb] at h
          obtain rfl : f = .unexpected found expected := Except.error.inj h
          exact absurd hb (breach?_ne_unexpected p t found expected)

theorem refuse_of_finish {p : Progress} {e : Fault} (h : finish p = .error e) :
    p.place ≠ .top ∧ p.place.refuse .endOfInput = e := by
  obtain ⟨c, place⟩ := p
  cases place with
  | top => cases h
  | _ => exact ⟨nofun, Except.error.inj h⟩

end Reader

/-- **A syntax fault is reported at the first offence**, and the report is right about it: what
stands before the offence begins some contract, the token that is named cannot go on with it, and
every token that is listed can. -/
theorem unexpected_at_first_offence {ts : List Token} {found expected : String}
    (h : Contract.ofTokens ts = .error (.unexpected found expected)) :
    ∃ before after alternatives, ts.takeWhile (· != .endOfInput) = before ++ after ∧
      expected = " or ".intercalate (alternatives.map (·.text)) ∧
      Report before after found alternatives := by
  rw [Contract.ofTokens, readFrom_eq_bind] at h
  cases hread : (ts.takeWhile (· != .endOfInput)).foldlM step .start with
  | error e =>
      rw [hread] at h
      cases h
      -- a token is at fault: what is taken before it is the beginning, and it is refused
      obtain ⟨us, t, vs, q, hts, hus, ht⟩ := exists_of_foldlM_error hread
      obtain ⟨hplace, hrefuse⟩ := refuse_of_step ht
      obtain ⟨rfl, rfl⟩ := Fault.unexpected.inj hrefuse
      have hne : t ≠ .endOfInput := by
        have hmem : t ∈ ts.takeWhile (· != .endOfInput) := by simp [hts]
        simpa using List.all_eq_true.mp List.all_takeWhile t hmem
      have htext : ∃ text, t.text? = some text ∧ t.shown = "`" ++ text ++ "`" := by
        cases t with
        | endOfInput => exact absurd rfl hne
        | _ => exact ⟨_, rfl, rfl⟩
      refine ⟨us, t :: vs, q.place.expected, hts, rfl, ?_⟩
      refine report_of_run (run_of_foldlM_step hus) (fun u hu => ?_) (by simp)
      obtain rfl : t = u := by simpa using hu
      exact ⟨hplace, htext⟩
  | ok q =>
      -- all tokens are taken, and the end is refused
      rw [hread] at h
      obtain ⟨hplace, hrefuse⟩ := refuse_of_finish h
      obtain ⟨rfl, rfl⟩ := Fault.unexpected.inj hrefuse
      refine ⟨_, [], q.place.expected, (List.append_nil _).symm, rfl, ?_⟩
      exact report_of_run (run_of_foldlM_step hread) (by simp) fun _ => ⟨hplace, rfl⟩

/-- A procedure is refused in a message, where a field may stand or the message may end. -/
theorem unexpected_in_message :
    Contract.ofTokens [.keyword .message, .ident "M", .lbrace, .keyword .procedure, .endOfInput] =
      .error (.unexpected "`proc`" "IDENT") ∧
    ∃ before after alternatives,
      [.keyword .message, .ident "M", .lbrace, .keyword .procedure, .endOfInput].takeWhile
        (· != .endOfInput) = before ++ after ∧
      "IDENT" = " or ".intercalate (alternatives.map (·.text)) ∧
      Report before after "`proc`" alternatives :=
  ⟨rfl, unexpected_at_first_offence rfl⟩

end RpcContract
