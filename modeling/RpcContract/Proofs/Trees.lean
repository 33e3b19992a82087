import Mathlib.Data.List.Sort
import RpcContract.FileTree

/-!
# Proofs — file trees

A working directory is what `get?` finds in it: trees that hold the same there are equal, if they do
not differ elsewhere (`ext_get?`), and an insertion changes what stands at one location
(`get?_insert`, and from the root `entryAt?_insert`).  Whether a file may be written depends on its
name and on the directories that are there, so writing a file keeps every later answer
(`denial?_insert`).

A path is followed from directory to directory.  So a path that leads to a file has the name of that
file for its last component (`fileName?_of_locate`), and it leads to the same location in every tree
that has the same directories, and something wherever the first tree has something
(`locate_of_keeps`).
-/

namespace RpcContract

theorem lookup_cons_eq_ite (x : Location × Entry) (xs : List (Location × Entry)) (k : Location) :
    (x :: xs).lookup k = if k = x.1 then some x.2 else xs.lookup k := by
  obtain ⟨l, e⟩ := x
  rw [List.lookup_cons]
  by_cases h : k = l
  · rw [if_pos h, beq_iff_eq.mpr h]
  · rw [if_neg h, beq_eq_false_iff_ne.mpr h]

/-- Insertion changes what is found at the location where it takes place, and nowhere else. -/
theorem lookup_insertEntry (l : Location) (e : Entry) (xs : List (Location × Entry))
    (k : Location) :
    (insertEntry l e xs).lookup k = if k = l then some e else xs.lookup k := by
  induction xs with
  | nil => exact lookup_cons_eq_ite (l, e) [] k
  | cons x xs ih =>
      rw [insertEntry]
      split
      · exact lookup_cons_eq_ite (l, e) (x :: xs) k
      · split
        · next h =>
            rw [lookup_cons_eq_ite, lookup_cons_eq_ite x]
            by_cases hk : k = l
            · rw [if_pos hk, if_pos hk]
            · rw [if_neg hk, if_neg hk, if_neg fun e => hk (e.trans h.symm)]
        · next h =>
            rw [lookup_cons_eq_ite, lookup_cons_eq_ite, ih]
            by_cases hk : k = l
            · rw [if_neg fun e => h (hk.symm.trans e), if_pos hk, if_pos hk]
            · rw [if_neg hk, if_neg hk]

namespace FileTree

/-- An insertion changes what the working directory holds at one location, and nowhere else. -/
@[simp] theorem get?_insert (t : FileTree) (l : Location) (e : Entry) (k : Location) :
    (t.insert l e).get? k = if k = l then some e else t.get? k :=
  lookup_insertEntry l e t.entries k

/-- The entry that is found at a location is the one that stands there, as no location comes twice. -/
theorem mem_entries_iff {t : FileTree} {l : Location} {e : Entry} :
    (l, e) ∈ t.entries ↔ t.get? l = some e := by
  rw [get?, List.lookup_eq_some_iff]
  constructor
  · intro h
    obtain ⟨xs, ys, hsplit⟩ := List.append_of_mem h
    refine ⟨xs, ys, hsplit, fun p hp => bne_iff_ne.mpr fun heq => ?_⟩
    -- whatever stands before it is at a smaller location
    have hlt : p.1 < l :=
      (List.pairwise_append.mp (hsplit ▸ t.sorted)).2.2 p hp _ List.mem_cons_self
    rw [heq] at hlt
    exact List.lt_irrefl _ hlt
  · rintro ⟨xs, ys, hsplit, -⟩
    rw [hsplit]
    simp

/-- **Trees that hold the same are equal**: in the working directory, which is at the same location,
and elsewhere. -/
theorem ext_get? {t u : FileTree} (h : ∀ l, t.get? l = u.get? l)
    (hw : t.workingDirectory = u.workingDirectory) (he : t.elsewhere = u.elsewhere) : t = u := by
  have : Std.Antisymm fun x y : Location × Entry => x.1 < y.1 :=
    ⟨fun x _ hxy hyx => absurd (List.lt_trans hxy hyx) (List.lt_irrefl x.1)⟩
  have : Std.Irrefl fun x y : Location × Entry => x.1 < y.1 := ⟨fun x => List.lt_irrefl x.1⟩
  -- two lists in the same strict order with the same members are one list
  have hmem : ∀ x, x ∈ t.entries ↔ x ∈ u.entries := by
    rintro ⟨l, e⟩
    rw [mem_entries_iff, mem_entries_iff, h]
  obtain ⟨xs, hxs, w, o⟩ := t
  obtain ⟨ys, hys, w', o'⟩ := u
  obtain rfl : xs = ys := hxs.eq_of_mem_iff hys hmem
  obtain rfl : w = w' := hw
  obtain rfl : o = o' := he
  rfl

/-! ### Locations from the root -/

/-- The working directory and the directories on the way to it are always there. -/
theorem entryAt?_of_prefix {t : FileTree} {l : Location} (h : l <+: t.workingDirectory) :
    t.entryAt? l = some .directory := by
  rw [entryAt?, if_pos (List.isPrefixOf_iff_prefix.mpr h)]

theorem not_append_prefix (w : Location) {l : Location} (h : l ≠ []) : ¬ w ++ l <+: w := by
  intro hp
  have hle := hp.length_le
  have hpos := List.length_pos_iff.mpr h
  rw [List.length_append] at hle
  omega

/-- What stands below the working directory is what the working directory holds. -/
theorem entryAt?_append (t : FileTree) {l : Location} (h : l ≠ []) :
    t.entryAt? (t.workingDirectory ++ l) = t.get? l := by
  have hdeep : ¬ (t.workingDirectory ++ l).isPrefixOf t.workingDirectory := fun hl =>
    not_append_prefix _ h (List.isPrefixOf_iff_prefix.mp hl)
  rw [entryAt?, if_neg hdeep, List.isPrefixOf?_eq_some_iff_append_eq.mpr rfl]

/-- What stands neither on the way to the working directory nor below it is kept apart. -/
theorem entryAt?_of_not_prefix {t : FileTree} {l : Location} (h : ¬ l <+: t.workingDirectory)
    (h' : ¬ t.workingDirectory <+: l) : t.entryAt? l = t.elsewhere l := by
  have hnone : t.workingDirectory.isPrefixOf? l = none := by
    rw [Option.eq_none_iff_forall_ne_some]
    intro below hbelow
    exact h' ⟨below, List.isPrefixOf?_eq_some_iff_append_eq.mp hbelow⟩
  rw [entryAt?, if_neg fun hl => h (List.isPrefixOf_iff_prefix.mp hl), hnone]

/-- **An insertion changes one location**, which is below the working directory. -/
theorem entryAt?_insert (t : FileTree) {k : Location} (hk : k ≠ []) (e : Entry) (l : Location) :
    (t.insert k e).entryAt? l =
      if l = t.workingDirectory ++ k then some e else t.entryAt? l := by
  -- a location is on the way to the working directory, below it, or apart from it
  by_cases hup : l <+: t.workingDirectory
  · have hne : l ≠ t.workingDirectory ++ k := by
      rintro rfl
      exact not_append_prefix _ hk hup
    rw [if_neg hne, entryAt?_of_prefix hup]
    exact entryAt?_of_prefix (t := t.insert k e) hup
  by_cases hdown : t.workingDirectory <+: l
  · obtain ⟨below, rfl⟩ := hdown
    have hbelow : below ≠ [] := by
      rintro rfl
      exact hup (List.append_nil _ ▸ List.prefix_refl _)
    rw [entryAt?_append t hbelow]
    refine (entryAt?_append (t.insert k e) hbelow).trans ?_
    simp only [get?_insert, List.append_cancel_left_eq]
  · have hne : l ≠ t.workingDirectory ++ k := by
      rintro rfl
      exact hdown (List.prefix_append _ _)
    rw [if_neg hne, entryAt?_of_not_prefix hup hdown]
    exact entryAt?_of_not_prefix (t := t.insert k e) hup hdown

/-! ### Writing a file -/

/-- The reason why a file of a given name cannot be written, if there is one. -/
def denial? (t : FileTree) (name : List UInt8) : Option Denial :=
  if maxNameBytes < name.length then some .nameTooLong
  else
    match t.get? [name] with
    | some .directory => some .isDirectory
    | _ => none

/-- A write is denied for its reason, or else it puts the file into the working directory. -/
theorem write_eq (t : FileTree) (name : List UInt8) (contents : ByteArray) :
    t.write name contents =
      match t.denial? name with
      | some denial => .error denial
      | none => .ok (t.insert [name] (.file contents)) := by
  unfold write denial?
  split
  · rfl
  · cases t.get? [name] with
    | none => rfl
    | some e => cases e <;> rfl

/-- A file may be written only where there is no directory of its name. -/
theorem get?_ne_directory {t : FileTree} {name : List UInt8} (h : t.denial? name = none) :
    t.get? [name] ≠ some .directory := by
  intro hdir
  unfold denial? at h
  rw [hdir] at h
  split at h <;> cases h

/-- A file that may be written changes nothing about what may be written. -/
theorem denial?_insert {t : FileTree} {name : List UInt8} (h : t.denial? name = none)
    (contents : ByteArray) (n : List UInt8) :
    (t.insert [name] (.file contents)).denial? n = t.denial? n := by
  by_cases hn : n = name
  · subst hn
    rw [h]
    unfold denial? at h ⊢
    split at h
    · cases h
    · rw [if_neg ‹_›, get?_insert, if_pos rfl]
  · have hloc : ([n] : Location) ≠ [name] := fun e => hn (List.cons.inj e).1
    rw [denial?, get?_insert, if_neg hloc]
    rfl

/-! ### Following a path -/

/-- A tree with the same working directory as another, which holds something wherever the other does,
and a directory wherever it has one. -/
structure Keeps (t u : FileTree) : Prop where
  workingDirectory : u.workingDirectory = t.workingDirectory
  entries : ∀ l, (t.entryAt? l).isSome → (u.entryAt? l).isSome
  directories : ∀ l, t.entryAt? l = some .directory → u.entryAt? l = some .directory

theorem Keeps.refl (t : FileTree) : t.Keeps t :=
  ⟨rfl, fun _ h => h, fun _ h => h⟩

theorem Keeps.trans {t u v : FileTree} (h : t.Keeps u) (h' : u.Keeps v) : t.Keeps v :=
  ⟨h'.workingDirectory.trans h.workingDirectory, fun l hl => h'.entries l (h.entries l hl),
    fun l hl => h'.directories l (h.directories l hl)⟩

/-- A file that may be written takes the place of no directory, so the tree keeps what it had. -/
theorem keeps_insert {t : FileTree} {name : List UInt8} (h : t.denial? name = none)
    (contents : ByteArray) : t.Keeps (t.insert [name] (.file contents)) := by
  have hname : ([name] : Location) ≠ [] := List.cons_ne_nil _ _
  refine ⟨rfl, fun l hl => ?_, fun l hl => ?_⟩
  · rw [entryAt?_insert t hname]
    split
    · rfl
    · exact hl
  · rw [entryAt?_insert t hname, if_neg]
    · exact hl
    · rintro rfl
      rw [entryAt?_append t hname] at hl
      exact get?_ne_directory h hl

/-- What one component of a path does: it stays in a directory, goes up from it, or goes down to
something that the directory holds. -/
inductive Follows (t : FileTree) : Location → List UInt8 → Location → Prop where
  | stay {l : Location} {c : List UInt8} :
    t.entryAt? l = some .directory → c = [] ∨ c = [Path.dotByte] → Follows t l c l
  | up {l : Location} :
    t.entryAt? l = some .directory → Follows t l [Path.dotByte, Path.dotByte] l.dropLast
  | down {l : Location} {c : List UInt8} :
    t.entryAt? l = some .directory → c ≠ [] → c ≠ [Path.dotByte] →
    c ≠ [Path.dotByte, Path.dotByte] → c.length ≤ maxNameBytes → (t.entryAt? (l ++ [c])).isSome →
    Follows t l c (l ++ [c])

/-- A look-up finds what a directory holds under a name that is not too long. -/
theorem lookup_eq_ok_iff {t : FileTree} {l l' : Location} {c : List UInt8} :
    t.lookup l c = .ok l' ↔
      c.length ≤ maxNameBytes ∧ (t.entryAt? (l ++ [c])).isSome ∧ l' = l ++ [c] := by
  unfold lookup
  split
  · next h => simp [Nat.not_le.mpr h]
  · next h =>
      cases hl : t.entryAt? (l ++ [c]) with
      | none => simp
      | some e => simp [Nat.not_lt.mp h, eq_comm]

/-- `Follows` is what the tree does with a component. -/
theorem follow_eq_ok_iff {t : FileTree} {l l' : Location} {c : List UInt8} :
    t.follow l c = .ok l' ↔ t.Follows l c l' := by
  constructor
  · intro h
    unfold follow at h
    split at h
    · next hdir =>
        split at h
        · next hc =>
            cases h
            exact .stay hdir hc
        · next hc =>
            rw [not_or] at hc
            split at h
            · next hup =>
                cases h
                exact hup ▸ .up hdir
            · next hup =>
                obtain ⟨hlen, hl, rfl⟩ := lookup_eq_ok_iff.mp h
                exact .down hdir hc.1 hc.2 hup hlen hl
    · cases h
  · intro h
    cases h with
    | stay hdir hc => rw [follow, hdir]; exact if_pos hc
    | up hdir => rw [follow, hdir]; rfl
    | down hdir hne hdot hup hlen hl =>
        rw [follow, hdir]
        dsimp only
        rw [if_neg (not_or.mpr ⟨hne, hdot⟩), if_neg hup]
        exact lookup_eq_ok_iff.mpr ⟨hlen, hl, rfl⟩

/-- What the components of a path do one after another. -/
inductive Leads (t : FileTree) : Location → List (List UInt8) → Location → Prop where
  | nil (l : Location) : Leads t l [] l
  | cons {l l₁ l' : Location} {c : List UInt8} {cs : List (List UInt8)} :
    t.Follows l c l₁ → Leads t l₁ cs l' → Leads t l (c :: cs) l'

theorem foldlM_follow_eq_ok_iff {t : FileTree} {l l' : Location} {cs : List (List UInt8)} :
    cs.foldlM t.follow l = .ok l' ↔ t.Leads l cs l' := by
  constructor
  · intro h
    induction cs generalizing l with
    | nil => cases h; exact .nil _
    | cons c cs ih =>
        rw [List.foldlM_cons] at h
        cases hc : t.follow l c with
        | error denial => rw [hc] at h; cases h
        | ok l₁ =>
            rw [hc] at h
            exact .cons (follow_eq_ok_iff.mp hc) (ih h)
  · intro h
    induction h with
    | nil => rfl
    | cons hc _ ih => rw [List.foldlM_cons, follow_eq_ok_iff.mpr hc]; exact ih

/-- A path leads somewhere when it has bytes, but not too many, and its components lead there from
its start. -/
theorem locate_eq_ok_iff {t : FileTree} {path : List UInt8} {l : Location} :
    t.locate path = .ok l ↔
      path ≠ [] ∧ path.length ≤ maxPathBytes ∧
        t.Leads (t.startOf path) (path.splitOn Path.slashByte) l := by
  rw [← foldlM_follow_eq_ok_iff, locate]
  split
  · next h => simp [h]
  · next h =>
      split
      · next hlen => simp [Nat.not_le.mpr hlen]
      · next hlen => simp [h, Nat.not_lt.mp hlen]

/-- The bytes that are read are those of the file that the path leads to. -/
theorem read_eq_ok_iff {t : FileTree} {path : List UInt8} {contents : ByteArray} :
    t.read path = .ok contents ↔
      ∃ l, t.locate path = .ok l ∧ t.entryAt? l = some (.file contents) := by
  unfold read
  cases t.locate path with
  | error denial => simp [bind, Except.bind]
  | ok l =>
      simp only [bind, Except.bind, Except.ok.injEq, exists_eq_left']
      cases t.entryAt? l with
      | none => simp [throw, throwThe, MonadExceptOf.throw]
      | some e => cases e <;> simp [throw, throwThe, MonadExceptOf.throw, pure, Except.pure]

/-- A file apart from the working directory is read by a path from the root, or by one that goes
up. -/
example :
    let name : List UInt8 := Text.Utf8.encode "a"
    let t : FileTree :=
      { empty with elsewhere := fun l => if l = [name] then some (.file "x".toUTF8) else none }
    t.readText (Text.Utf8.encode "/a") = .ok "x" ∧ t.readText (Text.Utf8.encode "../a") = .ok "x" :=
  ⟨rfl, rfl⟩

/-! ### Paths in a tree that keeps another -/

/-- A component does in a tree that keeps another what it does in that one. -/
theorem Follows.of_keeps {t u : FileTree} (h : t.Keeps u) {l l' : Location} {c : List UInt8}
    (hc : t.Follows l c l') : u.Follows l c l' := by
  cases hc with
  | stay hdir hc => exact .stay (h.directories _ hdir) hc
  | up hdir => exact .up (h.directories _ hdir)
  | down hdir hne hdot hup hlen hl =>
      exact .down (h.directories _ hdir) hne hdot hup hlen (h.entries _ hl)

theorem Leads.of_keeps {t u : FileTree} (h : t.Keeps u) {l l' : Location}
    {cs : List (List UInt8)} (hcs : t.Leads l cs l') : u.Leads l cs l' := by
  induction hcs with
  | nil l => exact .nil l
  | cons hc _ ih => exact .cons (hc.of_keeps h) ih

/-- **A path leads to the same location** in every tree that keeps the one it was followed in: it
passes the same directories, and finds what it found. -/
theorem locate_of_keeps {t u : FileTree} (h : t.Keeps u) {path : List UInt8} {l : Location}
    (hpath : t.locate path = .ok l) : u.locate path = .ok l := by
  rw [locate_eq_ok_iff] at hpath ⊢
  rw [startOf, h.workingDirectory]
  exact ⟨hpath.1, hpath.2.1, hpath.2.2.of_keeps h⟩

/-! ### Paths that lead to a file -/

/-- Every location on the way down to this one holds a directory. -/
def Reached (t : FileTree) (l : Location) : Prop :=
  ∀ k, k <+: l → k ≠ l → t.entryAt? k = some .directory

/-- The parent of a location that is reached is reached too, and it is a directory; the root, which
is its own parent, always is one. -/
theorem Reached.parent {t : FileTree} {l : Location} (h : t.Reached l) :
    t.Reached l.dropLast ∧ t.entryAt? l.dropLast = some .directory := by
  by_cases hl : l = []
  · subst hl
    exact ⟨h, entryAt?_of_prefix (List.nil_prefix)⟩
  · have hproper : ∀ k, k <+: l.dropLast → k ≠ l := by
      rintro k hk rfl
      have hle := hk.length_le
      have hpos := List.length_pos_iff.mpr hl
      rw [List.length_dropLast] at hle
      omega
    refine ⟨fun k hk _ => h k (hk.trans (List.dropLast_prefix _)) (hproper k hk), ?_⟩
    exact h _ (List.dropLast_prefix _) (hproper _ (List.prefix_refl _))

/-- Components lead only through directories. -/
theorem Follows.reached {t : FileTree} {l l' : Location} {c : List UInt8}
    (hc : t.Follows l c l') (h : t.Reached l) : t.Reached l' := by
  cases hc with
  | stay => exact h
  | up => exact h.parent.1
  | down hdir =>
      intro k hk hne
      rcases List.prefix_concat_iff.mp hk with hk | hk
      · exact absurd hk hne
      · by_cases hkl : k = l
        · rw [hkl]
          exact hdir
        · exact h k hk hkl

/-- The last component is followed from a location that the others have reached. -/
theorem Leads.exists_last {t : FileTree} {l l' : Location} {cs : List (List UInt8)}
    {c : List UInt8} (h : t.Leads l (cs ++ [c]) l') (hl : t.Reached l) :
    ∃ l₁, t.Reached l₁ ∧ t.Follows l₁ c l' := by
  induction cs generalizing l with
  | nil =>
      cases h with
      | cons hc hrest => cases hrest; exact ⟨l, hl, hc⟩
  | cons b cs ih =>
      cases h with
      | cons hb hrest => exact ih hrest (hb.reached hl)

/-- A component that leads to a file is that file's name. -/
theorem Follows.exists_of_file {t : FileTree} {l l' : Location} {c : List UInt8}
    {contents : ByteArray} (hc : t.Follows l c l') (h : t.Reached l)
    (hfile : t.entryAt? l' = some (.file contents)) :
    l' = l ++ [c] ∧ c ≠ [] ∧ c ≠ [Path.dotByte] ∧ c ≠ [Path.dotByte, Path.dotByte] := by
  cases hc with
  | stay hdir => rw [hdir] at hfile; cases hfile
  | up => rw [h.parent.2] at hfile; cases hfile
  | down _ hne hdot hup => exact ⟨rfl, hne, hdot, hup⟩

/-- A path starts where only directories are passed, as the working directory is always there. -/
theorem reached_startOf (t : FileTree) (path : List UInt8) : t.Reached (t.startOf path) := by
  intro k hk _
  unfold startOf at hk
  split at hk
  · exact entryAt?_of_prefix (hk.trans List.nil_prefix)
  · exact entryAt?_of_prefix hk

/-- **A path that leads to a file** has the name of the file for its last component.  Any other last
component leads to a directory, since only directories are passed on the way. -/
theorem fileName?_of_locate {t : FileTree} {path : List UInt8} {l : Location} {contents : ByteArray}
    (hpath : t.locate path = .ok l) (hfile : t.entryAt? l = some (.file contents)) :
    ∃ parent name, l = parent ++ [name] ∧
      Path.fileName? Path.slashByte Path.dotByte path = some name := by
  obtain ⟨-, -, hleads⟩ := locate_eq_ok_iff.mp hpath
  obtain hnil | ⟨cs, c, hcs⟩ := List.eq_nil_or_concat (path.splitOn Path.slashByte)
  · exact absurd hnil (List.splitOn_ne_nil _ _)
  · rw [List.concat_eq_append] at hcs
    rw [hcs] at hleads
    obtain ⟨parent, hreached, hc⟩ := hleads.exists_last (t.reached_startOf path)
    obtain ⟨hl, hne, hdot, hup⟩ := hc.exists_of_file hreached hfile
    refine ⟨parent, c, hl, ?_⟩
    simp [Path.fileName?, Path.components, hcs, hne, hdot, hup]

end FileTree

end RpcContract
