import RpcContract.Proofs.Scripts

/-!
# Proofs — cutting a path before it is read as text, and after

A path is cut at two marks, the slash and the dot.  A decoding *keeps* a mark when it decodes what
stands before and after an occurrence of the mark apart from each other, gives another mark for it,
and gives that one for nothing else (`KeepsMark`).  Under such a decoding, the parts of a path are
the parts of the decoded path: its components, the name of its file, and the stem of that name.

The lenient reader keeps every byte of ASCII (`keepsMark_lossyFrom`).  So the base name of a path is
the stem of its text (`baseName?_eq_textStem?`), even where a slash or a dot breaks off a sequence of
several bytes.
-/

namespace RpcContract

open Text

/-! ### Cuts at a mark -/

/-- A list is free of a mark, or the mark divides it into two. -/
@[elab_as_elim]
theorem mark_induction {α : Type} {a : α} {motive : List α → Prop}
    (free : ∀ xs, a ∉ xs → motive xs)
    (mark : ∀ xs ys, motive xs → motive ys → motive (xs ++ a :: ys)) (xs : List α) : motive xs := by
  induction h : xs.length using Nat.strongRecOn generalizing xs with
  | ind n ih =>
      by_cases ha : a ∈ xs
      · obtain ⟨ys, zs, rfl⟩ := List.append_of_mem ha
        rw [List.length_append, List.length_cons] at h
        exact mark ys zs (ih ys.length (by omega) ys rfl) (ih zs.length (by omega) zs rfl)
      · exact free xs ha

theorem exists_last_of_mem {α : Type} {a : α} {xs : List α} (h : a ∈ xs) :
    ∃ ys zs, xs = ys ++ a :: zs ∧ a ∉ zs := by
  obtain ⟨ys, zs, hsplit, hys⟩ := List.eq_append_cons_of_mem (List.mem_reverse.mpr h)
  refine ⟨zs.reverse, ys.reverse, ?_, fun ha => hys (List.mem_reverse.mp ha)⟩
  rw [← List.reverse_reverse xs, hsplit]
  simp

/-- The parts between the marks hold no mark, and are parts of the whole. -/
theorem mem_splitOn {α : Type} [DecidableEq α] {a : α} {xs part : List α}
    (h : part ∈ xs.splitOn a) : a ∉ part ∧ part <:+: xs := by
  induction xs using mark_induction (a := a) with
  | free xs ha =>
      rw [List.splitOn_eq_singleton ha, List.mem_singleton] at h
      subst h
      exact ⟨ha, List.infix_refl part⟩
  | mark xs ys ihx ihy =>
      rw [List.splitOn_append_cons_self, List.mem_append] at h
      rcases h with h | h
      · obtain ⟨ha, hxs⟩ := ihx h
        exact ⟨ha, hxs.trans (List.prefix_append _ _).isInfix⟩
      · obtain ⟨ha, hys⟩ := ihy h
        exact ⟨ha, hys.trans ((List.suffix_cons a ys).trans (List.suffix_append xs _)).isInfix⟩

/-- A decoding keeps the mark `a`, as `b`. -/
structure KeepsMark {α β : Type} (f : List α → List β) (a : α) (b : β) : Prop where
  /-- The two sides of the mark are decoded apart from each other. -/
  append_cons : ∀ xs ys, f (xs ++ a :: ys) = f xs ++ b :: f ys
  /-- Only the mark is decoded as `b`. -/
  mem : ∀ xs, b ∈ f xs → a ∈ xs
  /-- Something is decoded as something. -/
  eq_nil : ∀ xs, f xs = [] ↔ xs = []

namespace KeepsMark

variable {α β : Type} {f : List α → List β} {a : α} {b : β}

theorem map_nil (h : KeepsMark f a b) : f [] = [] := (h.eq_nil []).mpr rfl

theorem mem_iff (h : KeepsMark f a b) (xs : List α) : b ∈ f xs ↔ a ∈ xs := by
  refine ⟨h.mem xs, fun ha => ?_⟩
  obtain ⟨ys, zs, rfl⟩ := List.append_of_mem ha
  rw [h.append_cons]
  simp

/-- What is decoded as marks only is marks only. -/
theorem eq_replicate_iff (h : KeepsMark f a b) (n : Nat) (xs : List α) :
    f xs = List.replicate n b ↔ xs = List.replicate n a := by
  induction n generalizing xs with
  | zero => exact h.eq_nil xs
  | succ n ih =>
      constructor
      · intro hxs
        have ha : a ∈ xs := h.mem xs (by simp [hxs])
        obtain ⟨ys, zs, rfl, hys⟩ := List.eq_append_cons_of_mem ha
        rw [h.append_cons] at hxs
        -- before the first mark there is nothing, since it would be decoded as marks
        have hnil : f ys = [] := by
          rw [List.eq_nil_iff_forall_not_mem]
          intro y hy
          have hb : y ∈ List.replicate (n + 1) b := hxs ▸ List.mem_append_left _ hy
          rw [List.eq_of_mem_replicate hb] at hy
          exact hys (h.mem ys hy)
        rw [hnil, List.nil_append, List.replicate_succ, List.cons.injEq] at hxs
        rw [(h.eq_nil ys).mp hnil, (ih zs).mp hxs.2]
        rfl
      · rintro rfl
        have hrest := h.append_cons [] (List.replicate n a)
        rw [h.map_nil, (ih _).mpr rfl] at hrest
        exact hrest

variable [DecidableEq α] [DecidableEq β]

/-- **The parts between marks**, decoded, are the parts of what is decoded.  The induction takes the
text apart at a mark, where the decoding does too. -/
theorem splitOn_map (h : KeepsMark f a b) (xs : List α) :
    (f xs).splitOn b = (xs.splitOn a).map f := by
  induction xs using mark_induction (a := a) with
  | free xs ha =>
      have hb : b ∉ f xs := fun hb => ha (h.mem xs hb)
      rw [List.splitOn_eq_singleton ha, List.splitOn_eq_singleton hb, List.map_singleton]
  | mark xs ys ihx ihy =>
      rw [h.append_cons, List.splitOn_append_cons_self, List.splitOn_append_cons_self, ihx, ihy,
        List.map_append]

/-- What stands before the last mark is decoded apart from the rest, so it may be cut off before
decoding or after. -/
theorem beforeLastDot_map (h : KeepsMark f a b) (name : List α) :
    Path.beforeLastDot b (f name) = f (Path.beforeLastDot a name) := by
  by_cases ha : a ∈ name
  · obtain ⟨xs, ys, rfl, hys⟩ := exists_last_of_mem ha
    have hb : b ∉ f ys := fun hb => hys (h.mem ys hb)
    rw [h.append_cons, Path.beforeLastDot_append_cons hys, Path.beforeLastDot_append_cons hb]
  · have hb : b ∉ f name := fun hb => ha (h.mem name hb)
    rw [Path.beforeLastDot_of_not_mem ha, Path.beforeLastDot_of_not_mem hb, h.map_nil]

/-- **The stem of a name**, decoded, is the stem of what is decoded; a name is its own stem in both,
or in neither. -/
theorem stem_map (h : KeepsMark f a b) (name : List α) :
    Path.stem b (f name) = f (Path.stem a name) := by
  unfold Path.stem
  dsimp only
  rw [h.beforeLastDot_map]
  by_cases hnil : Path.beforeLastDot a name = []
  · rw [hnil, h.map_nil]
    rfl
  · have hne : f (Path.beforeLastDot a name) ≠ [] := fun e => hnil ((h.eq_nil _).mp e)
    rw [if_neg (by simpa using hne), if_neg (by simpa using hnil)]

variable {slash dot : α} {slash' dot' : β}

/-- The components that say something are the same. -/
theorem components_map (hslash : KeepsMark f slash slash') (hdot : KeepsMark f dot dot')
    (path : List α) :
    Path.components slash' dot' (f path) = (Path.components slash dot path).map f := by
  unfold Path.components
  rw [hslash.splitOn_map, List.filter_map]
  congr 1
  refine List.filter_congr fun part _ => ?_
  have hone : f part = [dot'] ↔ part = [dot] := hdot.eq_replicate_iff 1 part
  simp [hone, hdot.eq_nil]

/-- **The name of the file**, decoded, is the name in what is decoded: a component says nothing, or
goes up, exactly if its decoded form does. -/
theorem fileName?_map (hslash : KeepsMark f slash slash') (hdot : KeepsMark f dot dot')
    (path : List α) :
    Path.fileName? slash' dot' (f path) = (Path.fileName? slash dot path).map f := by
  have htwo : ∀ part, f part = [dot', dot'] ↔ part = [dot, dot] := hdot.eq_replicate_iff 2
  unfold Path.fileName?
  rw [components_map hslash hdot, List.getLast?_map, Option.filter_map]
  congr 2
  funext part
  simp [htwo]

end KeepsMark

/-! ### Base names -/

/-- **The lenient reader keeps every byte of ASCII.**  It is no part of a longer sequence and ends
any that is under way, and nothing else is read as its character. -/
theorem keepsMark_lossyFrom {a : UInt8} (ha : a.toNat < 0x80) :
    KeepsMark (Utf8.lossyFrom none) a (Char.ofNat a.toNat) :=
  ⟨Utf8.lossyFrom_append_ascii Utf8.wide_none ha,
    fun _ => Utf8.mem_of_mem_lossyFrom Utf8.wide_none ha,
    fun bs => by simp [Utf8.lossyFrom_eq_nil_iff Utf8.wide_none]⟩

namespace Path

theorem keepsMark_slash : KeepsMark (Utf8.lossyFrom none) slashByte '/' :=
  keepsMark_lossyFrom (by decide)

theorem keepsMark_dot : KeepsMark (Utf8.lossyFrom none) dotByte '.' :=
  keepsMark_lossyFrom (by decide)

/-- The stem of the file at a path that is a text. -/
def textStem? (path : String) : Option String :=
  (fileName? '/' '.' path.toList).map (String.ofList ∘ stem '.')

/-- The path may be cut before it is read as text, or after. -/
theorem baseName?_eq_textStem? (path : List UInt8) :
    baseName? path = textStem? (Utf8.lossy path) := by
  have hstem : ∀ name, Utf8.lossy (stem dotByte name) =
      String.ofList (stem '.' (Utf8.lossyFrom none name)) := by
    intro name
    rw [keepsMark_dot.stem_map, Utf8.lossy]
  unfold baseName? textStem? Utf8.lossy
  rw [String.toList_ofList, keepsMark_slash.fileName?_map keepsMark_dot, Option.map_map]
  exact Option.map_congr fun name _ => hstem name

section

variable {α : Type} [DecidableEq α] {slash dot : α}

theorem isPrefix_stem (name : List α) : stem dot name <+: name := by
  unfold stem
  dsimp only
  split
  · exact List.prefix_refl name
  · rw [beforeLastDot, ← List.reverse_suffix, List.reverse_reverse]
    exact (List.drop_suffix 1 _).trans (List.dropWhile_suffix _)

/-- The name of the file at a path is its last component, unless that one goes up. -/
theorem fileName?_eq_some_iff {path name : List α} :
    fileName? slash dot path = some name ↔
      (components slash dot path).getLast? = some name ∧ name ≠ [dot, dot] := by
  rw [fileName?, Option.filter_eq_some_iff, decide_eq_true_iff]

/-- A component is a part of the path that has characters and no slash. -/
theorem mem_components {path name : List α} (h : name ∈ components slash dot path) :
    name ≠ [] ∧ slash ∉ name ∧ name <:+: path := by
  obtain ⟨hmem, hsays⟩ := List.mem_filter.mp h
  exact ⟨(of_decide_eq_true hsays).1, mem_splitOn hmem⟩

/-- The name of a file is a part of its path, has something in it, and no slash. -/
theorem of_fileName? {path name : List α} (h : fileName? slash dot path = some name) :
    name ≠ [] ∧ slash ∉ name ∧ name <:+: path :=
  mem_components (List.mem_of_getLast? (fileName?_eq_some_iff.mp h).1)

end

theorem infix_of_textStem? {path b : String} (h : textStem? path = some b) :
    b.toList <:+: path.toList := by
  obtain ⟨name, hname, rfl⟩ := Option.map_eq_some_iff.mp h
  rw [Function.comp_apply, String.toList_ofList]
  exact (isPrefix_stem name).isInfix.trans (of_fileName? hname).2.2

/-- **A path may be cut before it is read as text, or after.**  The base name of a path is the stem
of its text, whatever ill-formed parts the path has.  If the path is well-formed, it is the stem of
the text that it encodes, so each U+FFFD in it stands in that text. -/
theorem baseName?_decoded :
    (∀ path, baseName? path = textStem? (Utf8.lossy path)) ∧
    ∀ s, baseName? (Utf8.encode s) = textStem? s ∧
      ∀ b, baseName? (Utf8.encode s) = some b → b.toList <:+: s.toList := by
  have htext : ∀ s, baseName? (Utf8.encode s) = textStem? s := fun s => by
    rw [baseName?_eq_textStem?, Utf8.lossy_encode]
  exact ⟨baseName?_eq_textStem?, fun s =>
    ⟨htext s, fun b h => infix_of_textStem? ((htext s).symm.trans h)⟩⟩

/-- A sequence is broken off by a dot, and another one by the end of the stem. -/
theorem baseName?_decoded_truncated :
    let path := [0x61, 0x2F, 0xE2, 0x82, 0x2E, 0x62, 0xF0, 0x9F, 0x2E, 0xFF]
    Utf8.lossy path = "a/\ufffd.b\ufffd.\ufffd" ∧ baseName? path = some "\ufffd.b\ufffd" ∧
    textStem? "a/\ufffd.b\ufffd.\ufffd" = some "\ufffd.b\ufffd" ∧
    baseName? (Utf8.encode "d/é.x") = some "é" ∧ "é".toList <:+: "d/é.x".toList := by
  intro path
  have hlossy : Utf8.lossy path = "a/\ufffd.b\ufffd.\ufffd" := rfl
  have hpath : baseName? path = some "\ufffd.b\ufffd" := rfl
  have htext : baseName? (Utf8.encode "d/é.x") = some "é" := rfl
  obtain ⟨hbytes, hwell⟩ := baseName?_decoded
  refine ⟨hlossy, hpath, ?_, htext, (hwell "d/é.x").2 "é" htext⟩
  rw [← hlossy, ← hbytes, hpath]

end Path

end RpcContract
