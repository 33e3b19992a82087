import Mathlib.Data.List.SplitBy
import RpcContract.Token.Lexer

/-!
# Proofs — the cut of a text

`fragments` goes over a text in passes, first by lines, then by spaces, then around each delimiter.
`fragments_eq_scan` says that the passes together are the one walk `scan`.  Between the two stands
`sweep`, the walk over one line: a pass around one more delimiter takes a sweep to a sweep
(`flatMap_isolate_sweep`), so the order of the passes does not matter.
-/

namespace RpcContract.Fragment

theorem flush_append (run : List Char) (xs ys : List (List Char)) :
    flush run xs ++ ys = flush run (xs ++ ys) := by
  unfold flush
  split <;> rfl

/-- The fragments of a line that follows the characters `run`: the characters `blanks` belong to no
fragment, and the characters `marks` are fragments alone. -/
def sweep (blanks marks run : List Char) : List Char → List (List Char)
  | [] => flush run []
  | c :: cs =>
    if c ∈ blanks then flush run (sweep blanks marks [] cs)
    else if c ∈ marks then flush run ([c] :: sweep blanks marks [] cs)
    else sweep blanks marks (run ++ [c]) cs

/-! ### The passes around the delimiters -/

theorem isolate_nil (d : Char) : isolate d [] = [] := rfl

/-- A piece without the delimiter stays whole. -/
theorem isolate_of_not_mem {d : Char} {piece : List Char} (h : d ∉ piece) :
    isolate d piece = flush piece [] := by
  rcases eq_or_ne piece [] with rfl | hne
  · rfl
  · have hchain : piece.IsChain fun a b => (a != d && b != d) = true := by
      refine (List.pairwise_of_forall_mem_list fun a ha b hb => ?_).isChain
      have hd : ∀ c ∈ piece, c ≠ d := fun c hc e => h (e ▸ hc)
      simp [hd a ha, hd b hb]
    rw [isolate, List.splitBy_of_isChain hne hchain, flush, if_neg (by simpa using hne)]

/-- An occurrence of `d` is a piece by itself, and the cuts on its two sides are made apart from
each other. -/
theorem isolate_append_cons (d : Char) (xs ys : List Char) :
    isolate d (xs ++ d :: ys) = isolate d xs ++ [d] :: isolate d ys := by
  have htail : isolate d ([d] ++ ys) = isolate d [d] ++ isolate d ys :=
    List.splitBy_append (by simp)
  rw [isolate, List.splitBy_append_cons ys (by simp)]
  exact congrArg (isolate d xs ++ ·) htail

/-- The pass around one delimiter, as a walk. -/
theorem isolate_eq_sweep {d : Char} {run : List Char} (cs : List Char) (h : d ∉ run) :
    isolate d (run ++ cs) = sweep [] [d] run cs := by
  induction cs generalizing run with
  | nil => rw [List.append_nil, isolate_of_not_mem h]; rfl
  | cons c cs ih =>
      rcases eq_or_ne c d with rfl | hc
      · rw [isolate_append_cons, isolate_of_not_mem h, flush_append, sweep]
        simp [← @ih [] (by simp)]
      · have hrun : d ∉ run ++ [c] := by simp [h, hc.symm]
        rw [sweep, if_neg (by simp), if_neg (by simpa using hc), ← ih hrun, List.append_assoc]
        rfl

/-- A mark ends what stands before it, whatever run that began with. -/
theorem sweep_append_cons {marks : List Char} {d : Char} (h : d ∈ marks)
    (run xs ys : List Char) :
    sweep [] marks run (xs ++ d :: ys) = sweep [] marks run xs ++ [d] :: sweep [] marks [] ys := by
  induction xs generalizing run with
  | nil => simp [sweep, h, flush_append]
  | cons x xs ih =>
      by_cases hx : x ∈ marks
      · simp [sweep, hx, ih, flush_append]
      · simp [sweep, hx, ih]

/-- A sweep looks at its marks only through the characters that it meets. -/
theorem sweep_congr {marks marks' cs : List Char} (h : ∀ c ∈ cs, (c ∈ marks ↔ c ∈ marks'))
    (blanks run : List Char) : sweep blanks marks run cs = sweep blanks marks' run cs := by
  induction cs generalizing run with
  | nil => rfl
  | cons c cs ih =>
      rw [List.forall_mem_cons] at h
      simp only [sweep, h.1, ih h.2]

theorem isolate_singleton (d c : Char) : isolate d [c] = [[c]] := rfl

theorem flatMap_flush (d : Char) (run : List Char) (xs : List (List Char)) :
    (flush run xs).flatMap (isolate d) = isolate d run ++ xs.flatMap (isolate d) := by
  unfold flush
  split
  · next h => rw [List.isEmpty_iff.mp h, isolate_nil, List.nil_append]
  · rw [List.flatMap_cons]

/-- To cut a run around `d` is to sweep over it with `d` as one more mark, if the run holds none of
the earlier marks. -/
theorem isolate_run {d : Char} {marks run : List Char} (h : ∀ c ∈ run, c ∉ marks) :
    isolate d run = sweep [] (d :: marks) [] run :=
  (isolate_eq_sweep run (by simp)).trans (sweep_congr (fun c hc => by simp [h c hc]) [] [])

/-- **One pass more.**  A pass around `d` over a sweep is the sweep with `d` among its marks. -/
theorem flatMap_isolate_sweep (d : Char) {marks run : List Char} (cs : List Char)
    (h : ∀ c ∈ run, c ∉ marks) :
    (sweep [] marks run cs).flatMap (isolate d) = sweep [] (d :: marks) [] (run ++ cs) := by
  induction cs generalizing run with
  | nil =>
      rw [sweep, flatMap_flush, List.flatMap_nil, List.append_nil, List.append_nil,
        isolate_run h]
  | cons c cs ih =>
      -- a mark ends the run before it in both walks; another character joins the run
      by_cases hc : c ∈ marks
      · rw [sweep_append_cons (List.mem_cons_of_mem d hc), ← isolate_run h, sweep,
          if_neg (by simp), if_pos hc, flatMap_flush, List.flatMap_cons, isolate_singleton,
          ih (by simp)]
        rfl
      · have hrun : ∀ x ∈ run ++ [c], x ∉ marks := by
          intro x hx
          rcases List.mem_append.mp hx with hx | hx
          · exact h x hx
          · rwa [List.mem_singleton.mp hx]
        rw [sweep, if_neg (by simp), if_neg hc, ih hrun, List.append_assoc]
        rfl

theorem isolateAll_cons (d : Char) (ds : List Char) (pieces : List (List Char)) :
    isolateAll (d :: ds) pieces = isolateAll ds (pieces.flatMap (isolate d)) := rfl

theorem isolateAll_flatMap {α : Type} (ds : List Char) (f : α → List (List Char)) (xs : List α) :
    isolateAll ds (xs.flatMap f) = xs.flatMap fun x => isolateAll ds (f x) := by
  induction ds generalizing f with
  | nil => rfl
  | cons d ds ih => simp only [isolateAll_cons, List.flatMap_assoc, ih]

/-- **Each pass adds its mark.**  To cut the pieces of a sweep around further characters, one after
another, is to sweep with all of them as marks at once. -/
theorem isolateAll_sweep (ds marks cs : List Char) :
    isolateAll ds (sweep [] marks [] cs) = sweep [] (ds.reverse ++ marks) [] cs := by
  induction ds generalizing marks with
  | nil => rfl
  | cons d ds ih =>
      rw [isolateAll_cons, flatMap_isolate_sweep d cs (by simp), List.nil_append, ih]
      simp

theorem sweep_no_marks (run cs : List Char) : sweep [] [] run cs = flush (run ++ cs) [] := by
  induction cs generalizing run with
  | nil => rw [List.append_nil]; rfl
  | cons c cs ih => simp [sweep, ih]

/-- **The passes around the delimiters are one sweep.**  Each pass adds its delimiter to the marks,
and in the end a piece is swept with all of them. -/
theorem isolateAll_singleton (ds : List Char) {piece : List Char} (h : piece ≠ []) :
    isolateAll ds [piece] = sweep [] ds [] piece := by
  have hpiece : [piece] = sweep [] [] [] piece := by
    rw [sweep_no_marks, List.nil_append, flush, if_neg (by simpa using h)]
  rw [hpiece, isolateAll_sweep]
  exact sweep_congr (fun c _ => by simp) [] []

/-! ### The passes by lines and by spaces -/

/-- The empty parts between spaces may be left out where they give nothing. -/
theorem flatMap_words {α : Type} {f : List Char → List α} (hf : f [] = []) (line : List Char) :
    (words line).flatMap f = (line.splitOn ' ').flatMap f := by
  unfold words
  induction line.splitOn ' ' with
  | nil => rfl
  | cons w ws ih =>
      rcases eq_or_ne w [] with rfl | hw
      · simpa [hf] using ih
      · simp [hw, ih]

/-- A sweep that drops spaces sweeps the parts between them. -/
theorem sweep_space (marks run line : List Char) {w : List Char} {ws : List (List Char)}
    (hs : line.splitOn ' ' = w :: ws) :
    sweep [' '] marks run line = sweep [] marks run w ++ ws.flatMap (sweep [] marks []) := by
  induction line generalizing run w ws with
  | nil =>
      obtain ⟨rfl, rfl⟩ := List.cons.inj hs
      simp [sweep]
  | cons c cs ih =>
      obtain ⟨v, vs, hv⟩ := List.exists_cons_of_ne_nil (List.splitOn_ne_nil ' ' cs)
      rw [List.splitOn_cons_eq_if_modifyHead, hv] at hs
      by_cases hc : c = ' '
      · subst hc
        obtain ⟨rfl, rfl⟩ := List.cons.inj hs
        simp [sweep, ih [] hv, flush_append]
      · rw [if_neg (by simpa using hc), List.modifyHead_cons] at hs
        obtain ⟨rfl, rfl⟩ := List.cons.inj hs
        by_cases hm : c ∈ marks
        · simp [sweep, hc, hm, ih [] hv, flush_append]
        · simp [sweep, hc, hm, ih _ hv]

/-- The passes over a line come to one sweep over it, with the space left out at each cut. -/
theorem isolateAll_words (ds line : List Char) :
    isolateAll ds (words line) = sweep [' '] ds [] line := by
  have hwords : isolateAll ds (words line) = (words line).flatMap fun w => isolateAll ds [w] := by
    rw [← isolateAll_flatMap, List.flatMap_singleton']
  have hword : ∀ w ∈ words line, isolateAll ds [w] = sweep [] ds [] w := by
    intro w hw
    refine isolateAll_singleton ds ?_
    simpa using (List.mem_filter.mp hw).2
  obtain ⟨w, ws, hs⟩ := List.exists_cons_of_ne_nil (List.splitOn_ne_nil ' ' line)
  rw [hwords, List.flatMap_congr hword, flatMap_words rfl, hs, List.flatMap_cons,
    sweep_space ds [] line hs]

/-- The passes look at the characters that they go around only as a set. -/
theorem isolateAll_lines_congr {ds ds' : List Char} (h : ∀ c, c ∈ ds ↔ c ∈ ds') (text : List Char) :
    isolateAll ds ((lines text).flatMap words) = isolateAll ds' ((lines text).flatMap words) := by
  rw [isolateAll_flatMap, isolateAll_flatMap]
  refine List.flatMap_congr fun line _ => ?_
  rw [isolateAll_words, isolateAll_words]
  exact sweep_congr (fun c _ => h c) [' '] []

theorem lines_ne_nil (text : List Char) : lines text ≠ [] := by
  fun_induction lines text with
  | case1 | case2 | case3 => simp
  | case4 c cs _ _ ih => simpa using ih

/-- The walk over a text is a sweep of each of its lines. -/
theorem scan_eq_sweep (run : List Char) {text line : List Char} {rest : List (List Char)}
    (h : lines text = line :: rest) :
    scan run text =
      sweep [' '] delimiters run line ++ rest.flatMap (sweep [' '] delimiters []) := by
  fun_induction lines text generalizing run line rest with
  | case1 =>
      obtain ⟨rfl, rfl⟩ := List.cons.inj h
      simp [scan, sweep]
  | case2 cs ih | case3 cs ih =>
      obtain ⟨l, ls, hl⟩ := List.exists_cons_of_ne_nil (lines_ne_nil cs)
      obtain ⟨rfl, rfl⟩ := List.cons.inj h
      simp [scan, sweep, hl, ih [] hl, flush_append]
  | case4 c cs hn hr ih =>
      obtain ⟨l, ls, hl⟩ := List.exists_cons_of_ne_nil (lines_ne_nil cs)
      rw [hl, List.modifyHead_cons] at h
      obtain ⟨rfl, rfl⟩ := List.cons.inj h
      rw [scan.eq_4 run c cs hn hr]
      by_cases hc : c = ' '
      · simp [sweep, hc, ih [] hl, flush_append]
      · by_cases hd : c ∈ delimiters
        · simp [sweep, hc, hd, ih [] hl, flush_append]
        · simp [sweep, hc, hd, ih _ hl]

/-- **The passes are one walk.**  A line is swept for spaces and delimiters, and at the end of a
line the walk flushes its run as a sweep does. -/
theorem fragments_eq_scan (text : List Char) : fragments text = scan [] text := by
  obtain ⟨line, rest, h⟩ := List.exists_cons_of_ne_nil (lines_ne_nil text)
  rw [fragments, isolateAll_flatMap,
    List.flatMap_congr fun line _ => isolateAll_words delimiters line, scan_eq_sweep [] h, h,
    List.flatMap_cons]

end RpcContract.Fragment
