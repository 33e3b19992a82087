import RpcContract.Proofs.Runs

/-!
# Proofs — what the passes keep

The fragments of a text hold its characters in order, each once, but for those of its separators
(`Cut.flatten_eq`).  No fragment is empty (`Cut.ne_nil`), and a fragment that holds a delimiter
holds nothing else (`Cut.delimiter_not_mem`).  The passes around the delimiters may come in any order:
a pass more only adds its character to those that are fragments alone (`flatMap_isolate_sweep`).
-/

namespace RpcContract.Fragment

/-- A text without its spaces and line breaks. -/
def unseparated : List Char → List Char
  | [] => []
  | '\n' :: cs => unseparated cs
  | '\r' :: '\n' :: cs => unseparated cs
  | c :: cs => if c = ' ' then unseparated cs else c :: unseparated cs

theorem unseparated_separator {s : List Char} (h : Separator s) (cs : List Char) :
    unseparated (s ++ cs) = unseparated cs := by
  cases h with
  | space => simp [unseparated]
  | lineFeed | carriageReturn => rfl

theorem unseparated_delimiter {d : Char} (h : d ∈ delimiters) (cs : List Char) :
    unseparated (d :: cs) = d :: unseparated cs := by
  obtain ⟨hs, hn, hr⟩ := not_delimiter
  rw [unseparated.eq_4 d cs (fun e => hn (e ▸ h)) (fun _ e _ => hr (e ▸ h)),
    if_neg fun e : d = ' ' => hs (e ▸ h)]

theorem unseparated_of_not_ends {c : Char} {cs : List Char} (h : ¬ Ends c cs) :
    unseparated (c :: cs) = c :: unseparated cs := by
  simp only [Ends, not_or, not_and] at h
  obtain ⟨hs, hn, hr, -⟩ := h
  rw [unseparated.eq_4 c cs hn fun cs' e e' => hr e (by rw [e']; rfl), if_neg hs]

theorem unseparated_unbroken {xs cs : List Char} (h : Unbroken xs cs) :
    unseparated (xs ++ cs) = xs ++ unseparated cs := by
  induction xs with
  | nil => rfl
  | cons x xs ih => rw [List.cons_append, unseparated_of_not_ends h.1, ih h.2, List.cons_append]

/-- A run holds no delimiter, as a delimiter would have ended it. -/
theorem Unbroken.delimiter_not_mem {xs cs : List Char} (h : Unbroken xs cs) :
    ∀ c ∈ xs, c ∉ delimiters := by
  induction xs with
  | nil => simp
  | cons x xs ih =>
      rw [List.forall_mem_cons]
      exact ⟨fun hx => h.1 (.inr (.inr (.inr hx))), ih h.2⟩

/-- **No character is lost**, but for the separators: the fragments, put together, are the text
without these. -/
theorem Cut.flatten_eq {text : List Char} {fs : List (List Char)} (h : Cut text fs) :
    fs.flatten = unseparated text := by
  induction h with
  | nil => rfl
  | separator hs _ ih => rw [unseparated_separator hs, ih]
  | delimiter hd _ ih => rw [unseparated_delimiter hd, List.flatten_cons, ih, List.singleton_append]
  | run _ hu _ _ ih => rw [unseparated_unbroken hu, List.flatten_cons, ih]

/-- No fragment is empty: a run has characters, and a delimiter is one. -/
theorem Cut.ne_nil {text : List Char} {fs : List (List Char)} (h : Cut text fs) :
    ∀ f ∈ fs, f ≠ [] := by
  induction h with
  | nil => simp
  | separator _ _ ih => exact ih
  | delimiter _ _ ih => exact List.forall_mem_cons.mpr ⟨by simp, ih⟩
  | run hne _ _ _ ih => exact List.forall_mem_cons.mpr ⟨hne, ih⟩

/-- A fragment of several characters is a run, so it holds no delimiter. -/
theorem Cut.delimiter_not_mem {text : List Char} {fs : List (List Char)} (h : Cut text fs) :
    ∀ f ∈ fs, 1 < f.length → ∀ c ∈ f, c ∉ delimiters := by
  induction h with
  | nil => simp
  | separator _ _ ih => exact ih
  | delimiter _ _ ih => exact List.forall_mem_cons.mpr ⟨by simp, ih⟩
  | run _ hu _ _ ih => exact List.forall_mem_cons.mpr ⟨fun _ => hu.delimiter_not_mem, ih⟩

/-- **The passes are one walk**, in which every separator, every delimiter and every run is met
once, from left to right.  So the fragments together are the text without its separators, none is empty,
none of several characters holds a delimiter, and the delimiters may be taken in any order. -/
theorem fragments_in_one_walk (text : List Char) :
    fragments text = scan [] text ∧
    (∀ fs, Cut text fs ↔ fs = fragments text) ∧
    (fragments text).flatten = unseparated text ∧
    (∀ f ∈ fragments text, f ≠ [] ∧ (1 < f.length → ∀ c ∈ f, c ∉ delimiters)) ∧
    ∀ ds, ds.Perm delimiters → isolateAll ds ((lines text).flatMap words) = fragments text := by
  have hcut : Cut text (fragments text) := cut_iff.mpr rfl
  refine ⟨fragments_eq_scan text, fun fs => ?_, hcut.flatten_eq, fun f hf => ?_, fun ds hds => ?_⟩
  · rw [cut_iff, eq_comm]
  · exact ⟨hcut.ne_nil f hf, hcut.delimiter_not_mem f hf⟩
  · exact isolateAll_lines_congr (fun c => hds.mem_iff) text

/-- A glued arrow is one fragment, also if the passes go around the delimiters backwards; the
carriage return that is no part of a line break is another. -/
theorem fragments_backwards :
    delimiters.reverse.Perm delimiters ∧
    isolateAll delimiters.reverse ((lines "p()->R;\r \r\n".toList).flatMap words) =
      [['p'], ['('], [')'], ['-', '>', 'R'], [';'], ['\r']] ∧
    ∀ c ∈ ['-', '>', 'R'], c ∉ delimiters := by
  have hperm : delimiters.reverse.Perm delimiters := List.reverse_perm delimiters
  have hfragments : fragments "p()->R;\r \r\n".toList =
      [['p'], ['('], [')'], ['-', '>', 'R'], [';'], ['\r']] := rfl
  obtain ⟨-, -, -, hfragment, horder⟩ := fragments_in_one_walk "p()->R;\r \r\n".toList
  rw [hfragments] at hfragment horder
  exact ⟨hperm, horder _ hperm, (hfragment ['-', '>', 'R'] (by decide)).2 (by decide)⟩

end RpcContract.Fragment
