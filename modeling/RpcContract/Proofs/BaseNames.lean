import RpcContract.Proofs.Marks

/-!
# Proofs — base names

The components of a path are those of its parts on the two sides of any slash
(`components_append_cons`).  So what follows the last component that says something does not change
the base name, nor does a directory before the path.

A base name has characters and no slash, since these come from the bytes of a name; the scripts that
are named after it stand in the working directory, and none of them is the input (`SafeBaseName`).
A text with an extension is the base name of its own path (`baseName?_of_extension`), unless the two
are `..`.
-/

namespace RpcContract

open Text

/-! ### Components -/

namespace Path

section

variable {α : Type} [DecidableEq α] {slash dot : α}

/-- The components on the two sides of a slash. -/
theorem components_append_cons (xs ys : List α) :
    components slash dot (xs ++ slash :: ys) =
      components slash dot xs ++ components slash dot ys := by
  unfold components
  rw [List.splitOn_append_cons_self, List.filter_append]

theorem components_of_not_mem {name : List α} (hslash : slash ∉ name) (hne : name ≠ [])
    (hdot : name ≠ [dot]) : components slash dot name = [name] := by
  unfold components
  rw [List.splitOn_eq_singleton hslash, List.filter_singleton]
  simp [hne, hdot]

/-- What follows a slash and says nothing does not change the name. -/
theorem fileName?_append_of_components_nil {rest : List α} (h : components slash dot rest = [])
    (path : List α) : fileName? slash dot (path ++ slash :: rest) = fileName? slash dot path := by
  unfold fileName?
  rw [components_append_cons, h, List.append_nil]

/-- What stands before a slash does not change a name behind it. -/
theorem fileName?_append_cons {path name : List α} (h : fileName? slash dot path = some name)
    (directory : List α) : fileName? slash dot (directory ++ slash :: path) = some name := by
  obtain ⟨hlast, hup⟩ := fileName?_eq_some_iff.mp h
  have hne : components slash dot path ≠ [] := by
    intro e
    rw [e] at hlast
    cases hlast
  rw [fileName?_eq_some_iff, components_append_cons, List.getLast?_append_of_ne_nil _ hne]
  exact ⟨hlast, hup⟩

theorem stem_ne_nil {name : List α} (h : name ≠ []) : stem dot name ≠ [] := by
  unfold stem
  dsimp only
  split
  · exact h
  · next hbefore => simpa using hbefore

end

/-! ### The base name of a path -/

/-- A path has a base name when it has the name of a file, of which it is the stem as text. -/
theorem baseName?_eq_some_iff {path : List UInt8} {b : String} :
    baseName? path = some b ↔
      ∃ name, fileName? slashByte dotByte path = some name ∧ Utf8.lossy (stem dotByte name) = b :=
  Option.map_eq_some_iff

theorem baseName?_append_of_components_nil {rest : List UInt8}
    (h : components slashByte dotByte rest = []) (path : List UInt8) :
    baseName? (path ++ slashByte :: rest) = baseName? path := by
  rw [baseName?, fileName?_append_of_components_nil h, baseName?]

/-- The directory that a path is taken from has no say in its base name. -/
theorem baseName?_directory {path : List UInt8} {b : String} (h : baseName? path = some b)
    (directory : List UInt8) : baseName? (directory ++ slashByte :: path) = some b := by
  obtain ⟨name, hname, hb⟩ := baseName?_eq_some_iff.mp h
  exact baseName?_eq_some_iff.mpr ⟨name, fileName?_append_cons hname directory, hb⟩

/-- **A base name is a name**: it has characters, and no slash.  The stem that it is read from is
not empty and has no slash, and the decoding makes something of every byte, but a slash of none but
its own. -/
theorem baseName?_is_name {path : List UInt8} {b : String} (h : baseName? path = some b) :
    b ≠ "" ∧ '/' ∉ b.toList := by
  obtain ⟨name, hname, rfl⟩ := baseName?_eq_some_iff.mp h
  obtain ⟨hne, hslash, -⟩ := of_fileName? hname
  rw [Utf8.lossy, String.toList_ofList]
  constructor
  · intro e
    have hnil : Utf8.lossyFrom none (stem dotByte name) = [] := by
      simpa using congrArg String.toList e
    exact stem_ne_nil hne ((keepsMark_dot.eq_nil _).mp hnil)
  · intro hmem
    exact hslash ((isPrefix_stem name).subset (keepsMark_slash.mem _ hmem))

/-- **A text with an extension** is its own base name: the last dot is the one before the extension,
and the bytes before it are read back as the text.  Only `..` names no file. -/
theorem baseName?_of_extension {n : String} {ext : List UInt8} (hn : n ≠ "")
    (hslash : '/' ∉ n.toList) (hext : slashByte ∉ ext) (hdot : dotByte ∉ ext)
    (hup : Utf8.encode n ++ dotByte :: ext ≠ [dotByte, dotByte]) :
    baseName? (Utf8.encode n ++ dotByte :: ext) = some n := by
  have hchars : Utf8.lossyFrom none (Utf8.encode n) = n.toList := by
    have hlossy := congrArg String.toList (Utf8.lossy_encode n)
    rwa [Utf8.lossy, String.toList_ofList] at hlossy
  have hne : Utf8.encode n ≠ [] := by
    intro e
    rw [e] at hchars
    exact hn (String.toList_inj.mp hchars.symm)
  -- a slash among the bytes would be read as one in the text
  have hfree : slashByte ∉ Utf8.encode n ++ dotByte :: ext := by
    rw [List.mem_append, List.mem_cons, not_or, not_or, ← keepsMark_slash.mem_iff, hchars]
    exact ⟨hslash, by decide, hext⟩
  have hname : fileName? slashByte dotByte (Utf8.encode n ++ dotByte :: ext) =
      some (Utf8.encode n ++ dotByte :: ext) := by
    have hlong : Utf8.encode n ++ dotByte :: ext ≠ [dotByte] := by
      intro e
      rcases List.append_eq_singleton_iff.mp e with ⟨hnil, -⟩ | ⟨-, hnil⟩
      · exact hne hnil
      · cases hnil
    rw [fileName?_eq_some_iff, components_of_not_mem hfree (by simp) hlong]
    exact ⟨rfl, hup⟩
  refine baseName?_eq_some_iff.mpr ⟨_, hname, ?_⟩
  rw [stem_append_cons hne hdot, Utf8.lossy_encode]

/-! ### Scripts named after a base name -/

/-- What holds of the base name of a path. -/
structure SafeBaseName (path : List UInt8) (b : String) : Prop where
  /-- It is a name: it has characters, and no slash. -/
  isName : b ≠ "" ∧ '/' ∉ b.toList
  /-- Four scripts are named after it, and their names differ. -/
  distinct : (emit b).length = 4 ∧ ((emit b).map (·.name)).Nodup
  /-- Each of them stands in the working directory. -/
  plain : ∀ f ∈ emit b, '/' ∉ f.name.toList ∧ f.name ≠ "." ∧ f.name ≠ ".."
  /-- None of them has the name of the file at the path. -/
  notInput : ∃ name, fileName? slashByte dotByte path = some name ∧
    ∀ f ∈ emit b, Utf8.encode f.name ≠ name
  /-- A slash behind the path does not change it, with a dot or without. -/
  trailing : baseName? (path ++ [slashByte]) = some b ∧
    baseName? (path ++ [slashByte, dotByte]) = some b
  /-- Nor does a directory before the path. -/
  directory : ∀ d, baseName? (d ++ slashByte :: path) = some b

theorem safeBaseName {path : List UInt8} {b : String} (h : baseName? path = some b) :
    SafeBaseName path b where
  isName := baseName?_is_name h
  distinct := ⟨length_emit b, nodup_names b⟩
  plain := by
    intro f hf
    obtain ⟨a, ha, rfl⟩ := List.mem_map.mp hf
    exact Artifact.fileName_plain ha (baseName?_is_name h).2
  notInput := by
    obtain ⟨name, hname, rfl⟩ := baseName?_eq_some_iff.mp h
    refine ⟨name, hname, fun f hf => ?_⟩
    obtain ⟨a, ha, rfl⟩ := List.mem_map.mp hf
    exact Artifact.fileName_ne_input ha name
  trailing := by
    have hslash : components slashByte dotByte [] = [] := rfl
    have hdot : components slashByte dotByte [dotByte] = [] := rfl
    rw [baseName?_append_of_components_nil hslash, baseName?_append_of_components_nil hdot]
    exact ⟨h, h⟩
  directory := baseName?_directory h

/-- **Base names are safe.**  The scripts that are named after the base name of a path stand in the
working directory, apart from each other and from the input, and what says nothing in the path does
not change the base name.  A text with an extension is the base name of its path, in any
directory. -/
theorem baseName?_safe :
    (∀ path b, baseName? path = some b → SafeBaseName path b) ∧
    ∀ (d ext : List UInt8) (n : String), n ≠ "" → '/' ∉ n.toList → slashByte ∉ ext → dotByte ∉ ext →
      Utf8.encode n ++ dotByte :: ext ≠ [dotByte, dotByte] →
        baseName? (d ++ slashByte :: (Utf8.encode n ++ dotByte :: ext)) = some n :=
  ⟨fun _ _ => safeBaseName, fun d _ _ hn hslash hext hdot hup =>
    baseName?_directory (baseName?_of_extension hn hslash hext hdot hup) d⟩

/-- The name `...baz` has the stem `..`, and so has the name `...`; neither leads out of the working
directory. -/
theorem baseName?_safe_dots :
    baseName? (Utf8.encode "d//...baz/.") = some ".." ∧
    SafeBaseName (Utf8.encode "d//...baz/.") ".." ∧
    (emit "..").map (·.name) = ["...server.js", "...client.js", "...proto.js", "...service.js"] ∧
    baseName? (Utf8.encode "d" ++ slashByte :: (Utf8.encode ".." ++ [dotByte])) = some ".." := by
  obtain ⟨hsafe, hextension⟩ := baseName?_safe
  have hbase : baseName? (Utf8.encode "d//...baz/.") = some ".." := rfl
  exact ⟨hbase, hsafe _ _ hbase, rfl,
    hextension (Utf8.encode "d") [] ".." (by decide) (by decide) (by decide) (by decide) (by decide)⟩

end Path

end RpcContract
