import RpcContract.Proofs.Fragments

/-!
# Proofs — the runs of a text

A character *ends* runs when it is a space, a delimiter, a line feed, or a carriage return right
before a line feed.  A *run* of a text is a nonempty part of it in which no character ends runs, and
which cannot be made longer on either side (`IsRun`).

`Cut` says what the fragments of a text are without saying how they are found: the text is put
together from separators, delimiters and runs, and the fragments are the delimiters and the runs.
Every text has one cut, the one that `fragments` finds (`cut_iff`).  So the first fragment with a
property that no delimiter has is the leftmost run with it (`Cut.leftmost`).
-/

namespace RpcContract.Fragment

/-- The character `c` ends runs where `rest` follows it: it is a space, a delimiter, or part of a
line break. -/
def Ends (c : Char) (rest : List Char) : Prop :=
  c = ' ' ∨ c = '\n' ∨ (c = '\r' ∧ rest.head? = some '\n') ∨ c ∈ delimiters

instance (c : Char) (rest : List Char) : Decidable (Ends c rest) :=
  inferInstanceAs (Decidable (_ ∨ _ ∨ _ ∨ _))

/-- No character of the first text ends runs where the second text follows. -/
def Unbroken : List Char → List Char → Prop
  | [], _ => True
  | c :: cs, rest => ¬ Ends c (cs ++ rest) ∧ Unbroken cs rest

/-- No run goes on into the text: it is empty, or its first character ends runs. -/
def Stops : List Char → Prop
  | [] => True
  | c :: cs => Ends c cs

/-- `run` is a run of the text `before ++ run ++ after`. -/
structure IsRun (before run after : List Char) : Prop where
  /-- A run has characters. -/
  nonempty : run ≠ []
  /-- None of them ends runs. -/
  unbroken : Unbroken run after
  /-- What stands right before the run, if anything, ends runs. -/
  starts : ∀ c ∈ before.getLast?, Ends c (run ++ after)
  /-- So does what stands right after it. -/
  stops : Stops after

/-- `run` is a run of the text with a property, and every run of the text with that property begins
where it begins, or further on. -/
def IsLeftmostRun (p : List Char → Prop) (text run : List Char) : Prop :=
  ∃ before after, text = before ++ run ++ after ∧ IsRun before run after ∧ p run ∧
    ∀ before' run' after', text = before' ++ run' ++ after' → IsRun before' run' after' → p run' →
      before.length ≤ before'.length

/-- What separates fragments and belongs to none. -/
inductive Separator : List Char → Prop where
  | space : Separator [' ']
  | lineFeed : Separator ['\n']
  | carriageReturn : Separator ['\r', '\n']

/-- A text is put together from separators, delimiters and runs, of which the delimiters and the
runs are the fragments. -/
inductive Cut : List Char → List (List Char) → Prop where
  | nil : Cut [] []
  | separator {s cs : List Char} {fs : List (List Char)} : Separator s → Cut cs fs → Cut (s ++ cs) fs
  | delimiter {d : Char} {cs : List Char} {fs : List (List Char)} :
    d ∈ delimiters → Cut cs fs → Cut (d :: cs) ([d] :: fs)
  | run {r cs : List Char} {fs : List (List Char)} :
    r ≠ [] → Unbroken r cs → Stops cs → Cut cs fs → Cut (r ++ cs) (r :: fs)

theorem forall_delimiters {p : Char → Prop} :
    (∀ d ∈ delimiters, p d) ↔ p '(' ∧ p ')' ∧ p '\x7b' ∧ p '\x7d' ∧ p ';' ∧ p ',' := by
  simp [delimiters]

/-- A text in two parts is unbroken when each part is, where what follows it follows. -/
theorem unbroken_append {xs ys rest : List Char} :
    Unbroken (xs ++ ys) rest ↔ Unbroken xs (ys ++ rest) ∧ Unbroken ys rest := by
  induction xs with
  | nil => simp [Unbroken]
  | cons x xs ih => simp only [List.cons_append, Unbroken, ih, List.append_assoc, and_assoc]

/-- A run that goes on stops nowhere. -/
theorem eq_nil_of_stops {xs ys rest : List Char} (hu : Unbroken (xs ++ ys) rest)
    (hs : Stops (ys ++ rest)) : ys = [] := by
  cases ys with
  | nil => rfl
  | cons y ys => exact absurd hs (unbroken_append.mp hu).2.1

/-! ### The walk finds the cut -/

theorem flush_nil (rest : List (List Char)) : flush [] rest = rest := rfl

theorem flush_of_ne_nil {run : List Char} (h : run ≠ []) (rest : List (List Char)) :
    flush run rest = run :: rest :=
  if_neg (by simpa using h)

/-- At a separator the walk hands out the run that it holds, if any, and starts anew behind it. -/
theorem scan_separator {s : List Char} (h : Separator s) (run cs : List Char) :
    scan run (s ++ cs) = flush run (scan [] cs) := by
  cases h with
  | space => simp [scan]
  | lineFeed | carriageReturn => rfl

theorem not_delimiter : ' ' ∉ delimiters ∧ '\n' ∉ delimiters ∧ '\r' ∉ delimiters := by
  decide

/-- At a delimiter the walk hands out the run that it holds, if any, and then the delimiter. -/
theorem scan_delimiter {d : Char} (h : d ∈ delimiters) (run cs : List Char) :
    scan run (d :: cs) = flush run ([d] :: scan [] cs) := by
  obtain ⟨hs, hn, hr⟩ := not_delimiter
  rw [scan.eq_4 run d cs (fun e => hn (e ▸ h)) (fun _ e _ => hr (e ▸ h)),
    if_neg fun e : d = ' ' => hs (e ▸ h), if_pos h]

theorem scan_of_not_ends {c : Char} {cs : List Char} (h : ¬ Ends c cs) (run : List Char) :
    scan run (c :: cs) = scan (run ++ [c]) cs := by
  simp only [Ends, not_or, not_and] at h
  obtain ⟨hs, hn, hr, hd⟩ := h
  rw [scan.eq_4 run c cs hn fun cs' e e' => hr e (by rw [e']; rfl), if_neg hs, if_neg hd]

theorem scan_unbroken {xs cs : List Char} (h : Unbroken xs cs) (run : List Char) :
    scan run (xs ++ cs) = scan (run ++ xs) cs := by
  induction xs generalizing run with
  | nil => simp
  | cons x xs ih =>
      rw [List.cons_append, scan_of_not_ends h.1, ih h.2]
      simp

/-- What ends runs is a delimiter, or the beginning of a separator. -/
theorem Ends.separator_or_delimiter {c : Char} {cs : List Char} (h : Ends c cs) :
    (∃ s rest, Separator s ∧ c :: cs = s ++ rest) ∨ c ∈ delimiters := by
  rcases h with rfl | rfl | ⟨rfl, hcs⟩ | hd
  · exact .inl ⟨_, cs, .space, rfl⟩
  · exact .inl ⟨_, cs, .lineFeed, rfl⟩
  · obtain ⟨rest, rfl⟩ := List.head?_eq_some_iff.mp hcs
    exact .inl ⟨_, rest, .carriageReturn, rfl⟩
  · exact .inr hd

theorem scan_stops {cs : List Char} (h : Stops cs) (run : List Char) :
    scan run cs = flush run (scan [] cs) := by
  cases cs with
  | nil => rfl
  | cons c cs =>
      rcases h.separator_or_delimiter with ⟨s, rest, hs, e⟩ | hd
      · rw [e, scan_separator hs, scan_separator hs, flush_nil]
      · rw [scan_delimiter hd, scan_delimiter hd, flush_nil]

/-- **The walk finds every cut**, so a text has one cut at most.  The walk holds nothing where a
part of the cut begins, and each part is what it hands out next. -/
theorem Cut.scan_eq {text : List Char} {fs : List (List Char)} (h : Cut text fs) :
    scan [] text = fs := by
  induction h with
  | nil => rfl
  | separator hs _ ih => rw [scan_separator hs, flush_nil, ih]
  | delimiter hd _ ih => rw [scan_delimiter hd, flush_nil, ih]
  | run hne hu hstop _ ih =>
      rw [scan_unbroken hu, scan_stops hstop, List.nil_append, flush_of_ne_nil hne, ih]

theorem Cut.flush {run cs : List Char} {fs : List (List Char)} (hu : Unbroken run cs)
    (hs : Stops cs) (h : Cut cs fs) : Cut (run ++ cs) (flush run fs) := by
  rcases eq_or_ne run [] with rfl | hne
  · exact h
  · rw [flush_of_ne_nil hne]
    exact .run hne hu hs h

/-- The walk finds a cut.  The run that it holds is broken nowhere, in view of what follows. -/
theorem cut_scan {run cs : List Char} (h : Unbroken run cs) : Cut (run ++ cs) (scan run cs) := by
  fun_induction scan run cs with
  | case1 run => exact .flush h trivial .nil
  | case2 run cs ih => exact .flush h (.inr (.inl rfl)) (.separator .lineFeed (ih trivial))
  | case3 run cs ih =>
      exact .flush h (.inr (.inr (.inl ⟨rfl, rfl⟩))) (.separator .carriageReturn (ih trivial))
  | case4 run cs _ _ ih => exact .flush h (.inl rfl) (.separator .space (ih trivial))
  | case5 run c cs _ _ _ hd ih =>
      exact .flush h (.inr (.inr (.inr hd))) (.delimiter hd (ih trivial))
  | case6 run c cs hn hr hs hd ih =>
      have hc : ¬ Ends c cs := by
        rintro (e | e | ⟨e, hcs⟩ | hd')
        · exact hs e
        · exact hn e
        · obtain ⟨rest, rfl⟩ := List.head?_eq_some_iff.mp hcs
          exact hr rest e rfl
        · exact hd hd'
      have hu : Unbroken (run ++ [c]) cs := unbroken_append.mpr ⟨h, hc, trivial⟩
      simpa using ih hu

/-- **Every text has one cut**, and `fragments` finds it.  So a statement about the fragments of a
text may be proved along its cut. -/
theorem cut_iff {text : List Char} {fs : List (List Char)} : Cut text fs ↔ fragments text = fs := by
  rw [fragments_eq_scan]
  exact ⟨Cut.scan_eq, fun h => h ▸ @cut_scan [] _ trivial⟩

/-! ### The leftmost run -/

/-- A run of a text whose first character ends runs is a run of the rest. -/
theorem IsRun.of_cons {c : Char} {cs before run after : List Char} (h : IsRun before run after)
    (e : c :: cs = before ++ run ++ after) (hc : Ends c cs) :
    ∃ before', before = c :: before' ∧ cs = before' ++ run ++ after ∧ IsRun before' run after := by
  cases before with
  | nil =>
      obtain ⟨x, run, rfl⟩ := List.exists_cons_of_ne_nil h.nonempty
      obtain ⟨rfl, rfl⟩ := List.cons.inj e
      exact absurd hc h.unbroken.1
  | cons x before =>
      obtain ⟨rfl, rfl⟩ := List.cons.inj e
      refine ⟨before, rfl, rfl, h.nonempty, h.unbroken, fun y hy => h.starts y ?_, h.stops⟩
      rw [List.getLast?_cons, Option.mem_def.mp hy]
      rfl

theorem IsRun.cons {c : Char} {before run after : List Char} (h : IsRun before run after)
    (hc : Ends c (before ++ run ++ after)) : IsRun (c :: before) run after := by
  refine ⟨h.nonempty, h.unbroken, fun y hy => ?_, h.stops⟩
  cases hl : before.getLast? with
  | none =>
      obtain rfl := List.getLast?_eq_none_iff.mp hl
      obtain rfl : c = y := by simpa using hy
      exact hc
  | some x =>
      rw [List.getLast?_cons, hl] at hy
      exact h.starts y (hl ▸ hy)

/-- The runs of a text that begins with the run `r`: this one, and those of the rest. -/
theorem IsRun.of_append {r cs before run after : List Char} (h : IsRun before run after)
    (e : r ++ cs = before ++ run ++ after) (hu : Unbroken r cs) (hs : Stops cs) :
    (before = [] ∧ run = r) ∨
      ∃ before', before = r ++ before' ∧ cs = before' ++ run ++ after ∧ IsRun before' run after := by
  rw [List.append_assoc] at e
  rcases List.append_eq_append_iff.mp e with ⟨x, rfl, hx⟩ | ⟨x, rfl, hx⟩
  · refine .inr ⟨x, rfl, hx.trans (List.append_assoc ..).symm, h.nonempty, h.unbroken, ?_, h.stops⟩
    intro y hy
    refine h.starts y ?_
    rw [List.getLast?_append, Option.mem_def.mp hy]
    rfl
  · left
    rcases List.eq_nil_or_concat before with rfl | ⟨before, c, rfl⟩
    · refine ⟨rfl, ?_⟩
      rw [List.nil_append] at hu ⊢
      -- both runs begin here, and neither goes on where the other one stops
      rcases List.append_eq_append_iff.mp hx with ⟨y, rfl, rfl⟩ | ⟨y, rfl, rfl⟩
      · rw [eq_nil_of_stops hu h.stops, List.append_nil]
      · rw [eq_nil_of_stops h.unbroken hs, List.append_nil]
    · have hc : Ends c (run ++ after) := h.starts c (by simp)
      rw [hx] at hc
      rw [List.concat_append] at hu
      exact absurd hc (unbroken_append.mp hu).2.1

/-- The leftmost run of a kind stays that one when a character that ends runs is put before the
text, as no run begins with it. -/
theorem IsLeftmostRun.cons {p : List Char → Prop} {c : Char} {cs run : List Char}
    (h : IsLeftmostRun p cs run) (hc : Ends c cs) : IsLeftmostRun p (c :: cs) run := by
  obtain ⟨before, after, rfl, hrun, hp, hleft⟩ := h
  refine ⟨c :: before, after, rfl, hrun.cons hc, hp, fun before' run' after' e h' hp' => ?_⟩
  obtain ⟨b, rfl, e, h'⟩ := h'.of_cons e hc
  exact Nat.succ_le_succ (hleft b run' after' e h' hp')

/-- Further left than a run of the rest stands only the run `r`. -/
theorem IsLeftmostRun.append {p : List Char → Prop} {r cs run : List Char}
    (h : IsLeftmostRun p cs run) (hu : Unbroken r cs) (hs : Stops cs) (hr : ¬ p r) :
    IsLeftmostRun p (r ++ cs) run := by
  obtain ⟨before, after, rfl, hrun, hp, hleft⟩ := h
  have hb : before ≠ [] := by
    rintro rfl
    obtain ⟨x, xs, rfl⟩ := List.exists_cons_of_ne_nil hrun.nonempty
    exact hrun.unbroken.1 hs
  refine ⟨r ++ before, after, by simp, ⟨hrun.nonempty, hrun.unbroken, ?_, hrun.stops⟩, hp, ?_⟩
  · rw [List.getLast?_append_of_ne_nil _ hb]
    exact hrun.starts
  · intro before' run' after' e h' hp'
    rcases h'.of_append e hu hs with ⟨-, rfl⟩ | ⟨b, rfl, e, h'⟩
    · exact absurd hp' hr
    · rw [List.length_append, List.length_append]
      exact Nat.add_le_add_left (hleft b run' after' e h' hp') _

/-- **The leftmost run.**  The first fragment with a property that no delimiter has is the leftmost
run with it. -/
theorem Cut.leftmost {p : List Char → Bool} (hp : ∀ d ∈ delimiters, p [d] = false)
    {text run : List Char} {fs : List (List Char)} (h : Cut text fs)
    (hrun : fs.find? p = some run) : IsLeftmostRun (p · = true) text run := by
  induction h with
  | nil => simp at hrun
  | separator hs _ ih =>
      cases hs with
      | space => exact (ih hrun).cons (.inl rfl)
      | lineFeed => exact (ih hrun).cons (.inr (.inl rfl))
      | carriageReturn =>
          exact ((ih hrun).cons (.inr (.inl rfl))).cons (.inr (.inr (.inl ⟨rfl, rfl⟩)))
  | delimiter hd _ ih =>
      rw [List.find?_cons, hp _ hd] at hrun
      exact (ih hrun).cons (.inr (.inr (.inr hd)))
  | @run r cs fs hne hu hs _ ih =>
      rw [List.find?_cons] at hrun
      cases hr : p r with
      | true =>
          -- it begins where the text does, and nothing begins before that
          rw [hr] at hrun
          obtain rfl := Option.some.inj hrun
          exact ⟨[], cs, rfl, ⟨hne, hu, by simp, hs⟩, hr, fun _ _ _ _ _ _ => Nat.zero_le _⟩
      | false =>
          rw [hr] at hrun
          exact (ih hrun).append hu hs (by simp [hr])

end RpcContract.Fragment
