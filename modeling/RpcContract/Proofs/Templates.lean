import Mathlib.Data.List.Infix
import RpcContract.Artifact

/-!
# Proofs — filled templates

A text is *cut into* pieces by a mark when the pieces, joined by the mark, are the text, and the mark
stands in the text only between two of them (`CutsInto`).  The first character of the placeholder is
not repeated in it, so two of its occurrences never overlap, and `cut` finds all of them
(`cutsInto_cut`).

What is inserted between the pieces may hold parts of the mark.  They cannot be completed to a mark by
the pieces around them, if each piece borders on what is inserted with a character that is not one of
the mark's (`Fenced`): then the mark stands in the joined text only if it stands in what was inserted
(`isInfix_intercalate_iff`).  Every template is fenced, and has a placeholder (`fenced_template`).
-/

namespace RpcContract

/-! ### Cutting a text at a mark -/

/-- A mark cuts a text into pieces, at every place where it stands in the text. -/
structure CutsInto (mark text : List Char) (pieces : List (List Char)) : Prop where
  /-- There is a piece, even of an empty text. -/
  ne_nil : pieces ≠ []
  /-- Joined by the mark, the pieces are the text. -/
  joined : mark.intercalate pieces = text
  /-- The mark stands in no piece. -/
  free : ∀ piece ∈ pieces, ¬ mark <:+: piece
  /-- Wherever the mark stands in the text, it stands between two pieces. -/
  between : ∀ before after, before ++ mark ++ after = text →
    ∃ ps qs, ps ≠ [] ∧ qs ≠ [] ∧ ps ++ qs = pieces ∧
      mark.intercalate ps = before ∧ mark.intercalate qs = after

theorem isPrefix_intercalate (mark p : List Char) (ps : List (List Char)) :
    p <+: mark.intercalate (p :: ps) := by
  cases ps with
  | nil => rw [List.intercalate_singleton]
  | cons q ps =>
      rw [List.intercalate_cons_cons, List.append_assoc]
      exact List.prefix_append ..

section

variable {first : Char} {others : List Char}

/-- Two occurrences of a mark do not overlap, if its first character is not repeated in it. -/
theorem eq_or_behind (h : first ∉ others) {before after rest : List Char}
    (e : before ++ (first :: others) ++ after = first :: others ++ rest) :
    before = [] ∧ after = rest ∨
      ∃ between, before = first :: others ++ between ∧
        between ++ (first :: others) ++ after = rest := by
  rw [List.append_assoc] at e
  rcases List.append_eq_append_iff.mp e with ⟨as, hmark, has⟩ | ⟨bs, rfl, hbs⟩
  · cases before with
    | nil =>
        rw [List.nil_append] at hmark
        rw [← hmark] at has
        exact .inl ⟨rfl, List.append_cancel_left has⟩
    | cons b before =>
        -- the second occurrence starts behind the first character of the first one
        obtain ⟨rfl, rfl⟩ := List.cons.inj hmark
        cases as with
        | nil => exact .inr ⟨[], by simp, by simpa using has⟩
        | cons a as =>
            obtain ⟨rfl, -⟩ := List.cons.inj has
            exact absurd (List.mem_append_right before List.mem_cons_self) h
  · exact .inr ⟨bs, rfl, by rw [hbs, List.append_assoc]⟩

namespace CutsInto

theorem nil : CutsInto (first :: others) [] [[]] where
  ne_nil := List.cons_ne_nil _ _
  joined := List.intercalate_singleton
  free := by simp
  between := by
    intro before after e
    simp at e

/-- A mark in front ends an empty piece. -/
theorem mark_append (h : first ∉ others) {rest : List Char} {pieces : List (List Char)}
    (hrest : CutsInto (first :: others) rest pieces) :
    CutsInto (first :: others) (first :: others ++ rest) ([] :: pieces) where
  ne_nil := List.cons_ne_nil _ _
  joined := by rw [List.intercalate_cons_of_ne_nil hrest.ne_nil, hrest.joined, List.nil_append]
  free := by
    intro piece hpiece
    rcases List.mem_cons.mp hpiece with rfl | hpiece
    · simp
    · exact hrest.free piece hpiece
  between := by
    intro before after e
    rcases eq_or_behind h e with ⟨rfl, rfl⟩ | ⟨between, rfl, hbetween⟩
    · exact ⟨[[]], pieces, List.cons_ne_nil _ _, hrest.ne_nil, rfl, List.intercalate_singleton,
        hrest.joined⟩
    · obtain ⟨ps, qs, hps, hqs, happend, rfl, hafter⟩ := hrest.between between after hbetween
      refine ⟨[] :: ps, qs, List.cons_ne_nil _ _, hqs, ?_, ?_, hafter⟩
      · rw [List.cons_append, happend]
      · rw [List.intercalate_cons_of_ne_nil hps, List.nil_append]

/-- A character that begins no mark goes to the first piece. -/
theorem cons {c : Char} {cs p : List Char} {ps : List (List Char)}
    (h : ¬ first :: others <+: c :: cs) (hcs : CutsInto (first :: others) cs (p :: ps)) :
    CutsInto (first :: others) (c :: cs) ((c :: p) :: ps) where
  ne_nil := List.cons_ne_nil _ _
  joined := by rw [List.intercalate_cons_cons_left, hcs.joined]
  free := by
    intro piece hpiece hmark
    rcases List.mem_cons.mp hpiece with rfl | hpiece
    · rcases List.infix_cons_iff.mp hmark with hstart | hinside
      · have hbegins : p <+: cs := by
          rw [← hcs.joined]
          exact isPrefix_intercalate ..
        exact h (hstart.trans (List.cons_prefix_cons.mpr ⟨rfl, hbegins⟩))
      · exact hcs.free p List.mem_cons_self hinside
    · exact hcs.free piece (List.mem_cons_of_mem p hpiece) hmark
  between := by
    intro before after e
    cases before with
    | nil => exact absurd ⟨after, e⟩ h
    | cons b before =>
        obtain ⟨rfl, hbefore⟩ := List.cons.inj e
        obtain ⟨ps', qs, hps, hqs, happend, rfl, hafter⟩ := hcs.between before after hbefore
        obtain ⟨p', ps', rfl⟩ := List.exists_cons_of_ne_nil hps
        obtain ⟨rfl, rfl⟩ := List.cons.inj happend
        exact ⟨(b :: p') :: ps', qs, List.cons_ne_nil _ _, hqs, rfl,
          List.intercalate_cons_cons_left .., hafter⟩

end CutsInto

/-- The recursion skips what is left of a mark that has been found. -/
theorem cutsInto_cutFrom (h : first ∉ others) (text : List Char) (skip : Nat) :
    CutsInto (first :: others) (text.drop skip) (cutFrom (first :: others) skip text) := by
  induction text generalizing skip with
  | nil =>
      rw [List.drop_nil]
      exact .nil
  | cons c cs ih =>
      cases skip with
      | succ skip => exact ih skip
      | zero =>
          rw [List.drop_zero, cutFrom]
          split
          · next hmark =>
              -- the other characters of the mark are skipped one by one
              obtain ⟨rest, hrest⟩ := List.isPrefixOf_iff_prefix.mp hmark
              have hcs : cs = others ++ rest := (List.cons.inj hrest).2.symm
              have hskip : cs.drop others.length = rest := by rw [hcs, List.drop_left]
              rw [← hrest]
              have htail := ih others.length
              rw [hskip] at htail
              exact htail.mark_append h
          · next hmark =>
              have htail := ih 0
              rw [List.drop_zero] at htail
              obtain ⟨p, ps, hpieces⟩ := List.exists_cons_of_ne_nil htail.ne_nil
              rw [hpieces] at htail ⊢
              exact htail.cons fun hstart => hmark (List.isPrefixOf_iff_prefix.mpr hstart)

/-- **Every occurrence is found**, from left to right.  The first character of the mark stands
nowhere else in it, so no two occurrences overlap and none is passed over. -/
theorem cutsInto_cut (h : first ∉ others) (text : List Char) :
    CutsInto (first :: others) text (cut (first :: others) text) :=
  cutsInto_cutFrom h text 0

end

/-! ### Joining pieces by what is inserted -/

/-- What is inserted between two pieces borders on characters that are not the mark's. -/
def Fenced (mark p q : List Char) : Prop :=
  (∃ c ∈ p.getLast?, c ∉ mark) ∧ ∃ c ∈ q.head?, c ∉ mark

-- The instance for `∃ c` would try every character.
instance (mark : List Char) : DecidableRel (Fenced mark) := fun p q =>
  decidable_of_iff (p.getLast?.any (· ∉ mark) ∧ q.head?.any (· ∉ mark)) (by
    simp only [Fenced, Option.any_eq_true, decide_eq_true_eq, Option.mem_def])

section

variable {mark : List Char}

/-- A mark does not reach over the end of a text, if its last character is not the mark's. -/
theorem isInfix_append_iff_of_last {xs ys : List Char} (h : ∃ c ∈ xs.getLast?, c ∉ mark) :
    mark <:+: xs ++ ys ↔ mark <:+: xs ∨ mark <:+: ys := by
  rw [List.infix_append_iff]
  refine or_congr_right (or_iff_left_of_imp ?_)
  rintro ⟨l₁, l₂, rfl, hl₁, hl₂⟩
  obtain ⟨c, hc, hmark⟩ := h
  rcases List.eq_nil_or_concat' l₁ with rfl | ⟨l, d, rfl⟩
  · exact hl₂.isInfix
  · -- what the mark has on this side ends as the text does
    obtain ⟨t, rfl⟩ := hl₁
    rw [← List.append_assoc, List.getLast?_concat] at hc
    obtain rfl := Option.mem_some.mp hc
    have hd : d ∈ l ++ [d] := List.mem_append_right l (List.mem_singleton_self d)
    exact absurd (List.mem_append_left l₂ hd) hmark

/-- Nor does it reach over the beginning of a text. -/
theorem isInfix_append_iff_of_head {xs ys : List Char} (h : ∃ c ∈ ys.head?, c ∉ mark) :
    mark <:+: xs ++ ys ↔ mark <:+: xs ∨ mark <:+: ys := by
  have hlast : ∃ c ∈ ys.reverse.getLast?, c ∉ mark.reverse := by simpa using h
  rw [← List.reverse_infix, List.reverse_append, isInfix_append_iff_of_last hlast,
    List.reverse_infix, List.reverse_infix, or_comm]

theorem mem_head?_intercalate {base q : List Char} {c : Char} (h : c ∈ q.head?)
    (qs : List (List Char)) : c ∈ (base.intercalate (q :: qs)).head? := by
  cases q with
  | nil => cases h
  | cons d q =>
      rw [List.intercalate_cons_cons_left]
      exact h

/-- Where pieces are fenced and free of a mark, the mark stands in what is joined only if it stands
in what the pieces are joined by, and there are two pieces at least. -/
theorem isInfix_intercalate_cons_iff {base p : List Char} {ps : List (List Char)}
    (hfree : ∀ piece ∈ p :: ps, ¬ mark <:+: piece) (hfenced : (p :: ps).IsChain (Fenced mark)) :
    mark <:+: base.intercalate (p :: ps) ↔ ps ≠ [] ∧ mark <:+: base := by
  have hp : ¬ mark <:+: p := hfree p List.mem_cons_self
  induction ps generalizing p with
  | nil =>
      rw [List.intercalate_singleton]
      exact iff_of_false hp fun h => h.1 rfl
  | cons q qs ih =>
      -- fences on both sides of `base` keep the mark from reaching into it, or out of it
      obtain ⟨⟨hlast, c, hc, hmark⟩, hrest⟩ := List.isChain_cons_cons.mp hfenced
      have hq : ∀ piece ∈ q :: qs, ¬ mark <:+: piece :=
        fun piece hpiece => hfree piece (List.mem_cons_of_mem p hpiece)
      have hhead : ∃ c ∈ (base.intercalate (q :: qs)).head?, c ∉ mark :=
        ⟨c, mem_head?_intercalate hc qs, hmark⟩
      have hinside : mark <:+: base.intercalate (q :: qs) ↔ qs ≠ [] ∧ mark <:+: base :=
        ih hq hrest (hq q List.mem_cons_self)
      rw [List.intercalate_cons_cons, List.append_assoc, isInfix_append_iff_of_last hlast,
        isInfix_append_iff_of_head hhead, hinside]
      simp only [hp, false_or, ne_eq, reduceCtorEq, not_false_eq_true, true_and]
      exact or_iff_left_of_imp And.right

/-- **No mark arises where two texts meet.**  Between fenced pieces, of which there are at least two,
a mark stands in the joined text exactly if it stands in what is inserted. -/
theorem isInfix_intercalate_iff {base : List Char} {pieces : List (List Char)}
    (hfree : ∀ piece ∈ pieces, ¬ mark <:+: piece) (hfenced : pieces.IsChain (Fenced mark))
    (h : 1 < pieces.length) : mark <:+: base.intercalate pieces ↔ mark <:+: base := by
  match pieces with
  | p :: q :: ps =>
      rw [isInfix_intercalate_cons_iff hfree hfenced]
      exact and_iff_right (List.cons_ne_nil q ps)

end

theorem length_intercalate_cons (base p : List Char) (ps : List (List Char)) :
    (base.intercalate (p :: ps)).length = (p :: ps).flatten.length + ps.length * base.length := by
  induction ps generalizing p with
  | nil => simp
  | cons q ps ih =>
      rw [List.intercalate_cons_cons, List.flatten_cons, List.length_append, List.length_append,
        List.length_append, ih q, List.length_cons, Nat.succ_mul]
      omega

/-- **What is inserted can be recovered**, if there is a place where it is inserted: its length is
known from the length of the joined text, and it stands behind the first piece. -/
theorem intercalate_left_injective {pieces : List (List Char)} (h : 1 < pieces.length)
    {base base' : List Char} (e : base.intercalate pieces = base'.intercalate pieces) :
    base = base' := by
  match pieces with
  | p :: q :: ps =>
      have hlength : base.length = base'.length := by
        have hsum := congrArg List.length e
        rw [length_intercalate_cons, length_intercalate_cons] at hsum
        exact Nat.eq_of_mul_eq_mul_left (Nat.succ_pos ps.length) (Nat.add_left_cancel hsum)
      rw [List.intercalate_cons_cons, List.intercalate_cons_cons, List.append_assoc,
        List.append_assoc] at e
      exact (List.append_inj (List.append_cancel_left e) hlength).1

/-! ### The templates -/

/-- To fill a template is to join its pieces by the base name. -/
theorem toList_fill (template base : String) :
    (fill template base).toList =
      base.toList.intercalate (cut placeholder.toList template.toList) :=
  String.toList_ofList

theorem toList_placeholder : placeholder.toList = ['F', 'I', 'X', 'M', 'E'] :=
  String.toList_ofList

/-- A template is cut at its placeholders, and at nothing else. -/
theorem cutsInto_template (template : String) :
    CutsInto placeholder.toList template.toList (cut placeholder.toList template.toList) := by
  rw [toList_placeholder]
  exact cutsInto_cut (by decide) template.toList

-- A line that is given as a string matches `String.ofList` with its characters, so rewriting by this
-- lemma spells a template out; evaluating `String.toList` would decode every line.
/-- The characters of lines, one line after another; a template is evaluated in this form. -/
theorem toList_unlines_cons (line : List Char) (lines : List String) :
    (unlines (String.ofList line :: lines)).toList = line ++ '\n' :: (unlines lines).toList := by
  simp [unlines]

/-- Every template has a placeholder, and its pieces keep the base name apart from their own text. -/
theorem fenced_template : ∀ a ∈ Artifact.all,
    1 < (cut placeholder.toList a.template.toList).length ∧
      (cut placeholder.toList a.template.toList).IsChain (Fenced placeholder.toList) := by
  simp only [Artifact.all, List.forall_mem_cons, List.not_mem_nil, false_imp_iff, implies_true,
    and_true, toList_placeholder]
  unfold Artifact.server Artifact.client Artifact.proto Artifact.service
  refine ⟨?_, ?_, ?_, ?_⟩
  all_goals
    repeat rw [toList_unlines_cons]
    decide +kernel

/-- **Templates are filled in one pass, and completely.**  The contents of a script are the pieces of
its template with the base name at every cut.  They hold the placeholder exactly if the base name
does, and the base name can be recovered from them. -/
theorem emit_fills_templates {i : Nat} {a : Artifact} (ha : Artifact.all[i]? = some a)
    (base : String) :
    ∃ file pieces, (emit base)[i]? = some file ∧
      CutsInto placeholder.toList a.template.toList pieces ∧
      file.contents.toList = base.toList.intercalate pieces ∧
      (placeholder.toList <:+: file.contents.toList ↔ placeholder.toList <:+: base.toList) ∧
      ∀ other file', (emit other)[i]? = some file' → file'.contents = file.contents →
        other = base := by
  have hfile : ∀ base, (emit base)[i]? = some (a.generate base) := by
    intro base
    rw [emit, List.getElem?_map, ha]
    rfl
  have hcut := cutsInto_template a.template
  obtain ⟨hplaces, hfenced⟩ := fenced_template a (List.mem_of_getElem? ha)
  refine ⟨a.generate base, _, hfile base, hcut, toList_fill a.template base, ?_, ?_⟩
  · rw [Artifact.generate, toList_fill]
    exact isInfix_intercalate_iff hcut.free hfenced hplaces
  · intro other file' hother hsame
    rw [hfile other] at hother
    cases hother
    have hcontents := congrArg String.toList hsame
    rw [Artifact.generate, Artifact.generate, toList_fill, toList_fill] at hcontents
    exact String.toList_inj.mp (intercalate_left_injective hplaces hcontents)

/-- A placeholder in the base name stays, and is not filled again; parts of one that two copies would
complete do not make one. -/
theorem emit_fills_templates_nested :
    Artifact.all[3]? = some Artifact.service ∧
    (∃ file, (emit "FIXFIXMEME")[3]? = some file ∧
      placeholder.toList <:+: file.contents.toList ∧
      ∀ other file', (emit other)[3]? = some file' → file'.contents = file.contents →
        other = "FIXFIXMEME") ∧
    Artifact.all[0]? = some Artifact.server ∧
    ∃ file, (emit "MEFIX")[0]? = some file ∧ ¬ placeholder.toList <:+: file.contents.toList := by
  obtain ⟨nested, -, hnested, -, -, hholds, hrecovered⟩ :=
    emit_fills_templates (show Artifact.all[3]? = some Artifact.service from rfl) "FIXFIXMEME"
  obtain ⟨parts, -, hparts, -, -, hfree, -⟩ :=
    emit_fills_templates (show Artifact.all[0]? = some Artifact.server from rfl) "MEFIX"
  have hinside : placeholder.toList <:+: "FIXFIXMEME".toList := by decide +kernel
  have houtside : ¬ placeholder.toList <:+: "MEFIX".toList := by decide +kernel
  exact ⟨rfl, ⟨nested, hnested, hholds.mpr hinside, hrecovered⟩, rfl,
    parts, hparts, fun h => houtside (hfree.mp h)⟩

end RpcContract
