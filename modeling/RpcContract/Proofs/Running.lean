import RpcContract.Proofs.Compiling
import RpcContract.Proofs.Writing

/-!
# Proofs — running the command

A run compiles the contract at a path when its arguments are that path, not empty and not an option,
or that path and the mark `--` (`ofArgs_eq_compile_iff`).  Reading and compiling come before the
first write, and a path that can be read has a base name.  So a run either changes nothing and
reports a fault, or it writes scripts as far as the tree allows and announces each of them
(`Emitted`).

The input is no script of its own, and its path leads to it through directories, which are never
written over.  So a second run reads the same contract as the first one, writes the same scripts as
far as the first did, and leaves everything as it is.
-/

namespace RpcContract.CommandLine

open Text

/-! ### The arguments -/

/-- Arguments that ask for the contract at a path to be compiled. -/
inductive IsInput : List (List UInt8) → List UInt8 → Prop where
  | plain {input : List UInt8} : input ≠ [] → isOption input = false → IsInput [input] input
  | marked {input : List UInt8} : input ≠ [] → IsInput [Utf8.encode "--", input] input
  | ended {input : List UInt8} :
    input ≠ [] → isOption input = false → IsInput [input, Utf8.encode "--"] input

/-- What asks for help is an option, so no path is taken for a request for help. -/
theorem isOption_of_isHelp {arg : List UInt8} (h : isHelp arg = true) : isOption arg = true := by
  rcases Bool.or_eq_true_iff.mp h with h | h
  · rw [beq_iff_eq.mp h]
    decide
  · obtain ⟨rest, rfl⟩ := List.isPrefixOf_iff_prefix.mp h
    rfl

/-- The positional arguments ask for a compilation when they are one path, and not an empty one. -/
theorem ofPositionals_eq_compile_iff {args : List (List UInt8)} {input : List UInt8} :
    Request.ofPositionals args = .compile input ↔ args = [input] ∧ input ≠ [] := by
  constructor
  · intro h
    unfold Request.ofPositionals at h
    split at h
    · next a =>
        split at h
        · cases h
        · next ha =>
            cases h
            exact ⟨rfl, fun e => ha (List.isEmpty_iff.mpr e)⟩
    · cases h
  · rintro ⟨rfl, hne⟩
    exact if_neg fun e => hne (List.isEmpty_iff.mp e)

/-- A positional argument is kept, and the arguments go on after it. -/
theorem ofArgsAfter_none_cons {arg : List UInt8} (h : isOption arg = false)
    (args : List (List UInt8)) :
    Request.ofArgsAfter none (arg :: args) = .ofArgsAfter (some arg) args := by
  have hmark : arg ≠ Utf8.encode "--" := by
    rintro rfl
    exact absurd h (by decide)
  have hhelp : ¬ isHelp arg = true := fun hh => by
    rw [isOption_of_isHelp hh] at h
    cases h
  rw [Request.ofArgsAfter, if_neg hmark, if_neg hhelp, if_neg (by simp [h])]

theorem ofArgsAfter_mark (input : Option (List UInt8)) (args : List (List UInt8)) :
    Request.ofArgsAfter input (Utf8.encode "--" :: args) =
      .ofPositionals (input.toList ++ args) := by
  rw [Request.ofArgsAfter, if_pos rfl]

/-- After a positional argument, nothing but the mark may follow. -/
theorem eq_of_ofArgsAfter_some {a input : List UInt8} {args : List (List UInt8)}
    (h : Request.ofArgsAfter (some a) args = .compile input) :
    a = input ∧ input ≠ [] ∧ (args = [] ∨ args = [Utf8.encode "--"]) := by
  cases args with
  | nil =>
      obtain ⟨e, hne⟩ := ofPositionals_eq_compile_iff.mp h
      exact ⟨(List.cons.inj e).1, hne, .inl rfl⟩
  | cons b args =>
      rw [Request.ofArgsAfter] at h
      split at h
      · next hb =>
          obtain ⟨e, hne⟩ := ofPositionals_eq_compile_iff.mp h
          obtain ⟨rfl, rfl⟩ := List.cons.inj e
          exact ⟨rfl, hne, .inr (by rw [hb])⟩
      · split at h
        · split at h <;> cases h
        · rw [if_pos (by simp)] at h
          cases h

/-- **The arguments that ask for a compilation** are one path, or that path with the mark `--` on
either side of it; behind the mark the path may look like an option. -/
theorem ofArgs_eq_compile_iff {args : List (List UInt8)} {input : List UInt8} :
    Request.ofArgs args = .compile input ↔ IsInput args input := by
  constructor
  · intro h
    cases args with
    | nil => cases h
    | cons a args =>
        by_cases hopt : isOption a = true
        · -- an option is refused, or asks for help, unless it is the mark
          rw [Request.ofArgs, Request.ofArgsAfter] at h
          split at h
          · next ha =>
              obtain ⟨e, hne⟩ := ofPositionals_eq_compile_iff.mp h
              obtain rfl : args = [input] := e
              exact ha ▸ .marked hne
          · split at h
            · cases h
            · rw [if_pos (by simp [hopt])] at h
              cases h
        · rw [Bool.not_eq_true] at hopt
          rw [Request.ofArgs, ofArgsAfter_none_cons hopt] at h
          obtain ⟨rfl, hne, rfl | rfl⟩ := eq_of_ofArgsAfter_some h
          · exact .plain hne hopt
          · exact .ended hne hopt
  · intro h
    cases h with
    | plain hne hopt =>
        rw [Request.ofArgs, ofArgsAfter_none_cons hopt]
        exact ofPositionals_eq_compile_iff.mpr ⟨rfl, hne⟩
    | marked hne =>
        rw [Request.ofArgs, ofArgsAfter_mark]
        exact ofPositionals_eq_compile_iff.mpr ⟨rfl, hne⟩
    | ended hne hopt =>
        rw [Request.ofArgs, ofArgsAfter_none_cons hopt, ofArgsAfter_mark]
        exact ofPositionals_eq_compile_iff.mpr ⟨rfl, hne⟩

theorem IsInput.unique {args : List (List UInt8)} {input input' : List UInt8}
    (h : IsInput args input) (h' : IsInput args input') : input = input' := by
  have e := (ofArgs_eq_compile_iff.mpr h).symm.trans (ofArgs_eq_compile_iff.mpr h')
  exact Request.compile.inj e

/-! ### The input -/

theorem readText_eq_ok_iff {tree : FileTree} {input : List UInt8} {text : String} :
    tree.readText input = .ok text ↔
      ∃ contents, tree.read input = .ok contents ∧ textOf contents = .ok text :=
  bind_eq_ok_iff

/-- A path that can be read has a base name, as it leads to a file and so ends with that file's
name. -/
theorem baseName?_of_read {tree : FileTree} {input : List UInt8} {contents : ByteArray}
    (h : tree.read input = .ok contents) :
    ∃ l name, tree.locate input = .ok (l ++ [name]) ∧
      tree.entryAt? (l ++ [name]) = some (.file contents) ∧
      Path.baseName? input = some (Utf8.lossy (Path.stem Path.dotByte name)) := by
  obtain ⟨_, hl, hfile⟩ := FileTree.read_eq_ok_iff.mp h
  obtain ⟨l, name, rfl, hname⟩ := FileTree.fileName?_of_locate hl hfile
  exact ⟨l, name, hl, hfile, by rw [Path.baseName?, hname]; rfl⟩

/-- Scripts that are put in place leave the input where it is, and as it is. -/
theorem read_putAll {tree : FileTree} {input : List UInt8} {contents : ByteArray} {base : String}
    {fs : List GeneratedFile} (h : tree.read input = .ok contents)
    (hbase : Path.baseName? input = some base) (hfs : fs <+: emit base)
    (hallows : ∀ f ∈ fs, tree.Allows f) :
    (tree.putAll fs).locate input = tree.locate input ∧
      (tree.putAll fs).read input = .ok contents := by
  obtain ⟨l, name, hl, hfile, hname⟩ := baseName?_of_read h
  have hl' := FileTree.locate_of_keeps (FileTree.keeps_putAll hallows) hl
  refine ⟨hl'.trans hl.symm, FileTree.read_eq_ok_iff.mpr ⟨_, hl', ?_⟩⟩
  obtain rfl : base = _ := Option.some.inj (hbase.symm.trans hname)
  -- a script has another name than the input, so it is written at another location
  have hne : ∀ f ∈ fs, l ++ [name] ≠ tree.workingDirectory ++ [Utf8.encode f.name] := by
    intro f hf e
    have hlast : name = Utf8.encode f.name := by simpa using congrArg List.getLast? e
    obtain ⟨a, ha, rfl⟩ := List.mem_map.mp (hfs.subset hf)
    exact Artifact.fileName_ne_input ha name hlast.symm
  rw [FileTree.entryAt?_putAll_of_ne hne, hfile]

/-! ### What a run comes to -/

section

variable {s : Session} {input : List UInt8} {text : String}

/-- An input that cannot be read is a fault, and nothing is done.  Once it is read, its text
decides. -/
theorem compileFile_eq (s : Session) (input : List UInt8) :
    (compileFile .ofTree input).run s =
      match s.tree.readText input with
      | .error denial => (.error (.io denial.message), s)
      | .ok text =>
        match generated input text with
        | .error fault => (.error fault, s)
        | .ok files => (writeAll .ofTree files).run s := by
  have hread : (Host.ofTree.readText input).run s =
      pure ((s.tree.readText input).mapError (·.message), s) := rfl
  rw [compileFile, StateT.run_bind, hread, pure_bind]
  cases s.tree.readText input with
  | error denial => rfl
  | ok text =>
      dsimp only [Except.mapError]
      cases generated input text <;> rfl

/-- A text that does not compile is a fault, and nothing is done. -/
theorem compileFile_of_fault {fault : Fault} (h : s.tree.readText input = .ok text)
    (hc : compile text = .error fault) : (compileFile .ofTree input).run s = (.error fault, s) := by
  rw [compileFile_eq, h]
  simp only [generated, hc, bind, Except.bind]

/-- A text that compiles has the scripts for the base name of its path written. -/
theorem compileFile_of_ok {base : String} {c : Contract} (h : s.tree.readText input = .ok text)
    (hc : compile text = .ok c) (hbase : Path.baseName? input = some base) :
    (compileFile .ofTree input).run s = (writeAll .ofTree (emit base)).run s := by
  rw [compileFile_eq, h]
  simp only [generated, hc, hbase, bind, Except.bind, pure, Except.pure]

end

section

variable {tree : FileTree} {args : List (List UInt8)} {input : List UInt8} {text : String}
  {s : Session}

theorem run_of_compileFile_ok (hinput : IsInput args input)
    (h : (compileFile .ofTree input).run ⟨tree, "", ""⟩ = (.ok (), s))
    (usage : List (List UInt8) → String) :
    run tree args usage = (s.tree, ⟨0, s.stdout, s.stderr⟩) := by
  simp only [run, command, ofArgs_eq_compile_iff.mpr hinput, StateT.run_bind, h]
  rfl

/-- If compiling the input ends with a fault, the run fails, and the fault is the last that it
shows. -/
theorem run_of_compileFile_error (hinput : IsInput args input) {fault : Fault}
    (h : (compileFile .ofTree input).run ⟨tree, "", ""⟩ = (.error fault, s))
    (usage : List (List UInt8) → String) :
    run tree args usage = (s.tree, ⟨1, s.stdout, s.stderr ++ complaint fault⟩) := by
  simp only [run, command, ofArgs_eq_compile_iff.mpr hinput, StateT.run_bind, h]
  rfl

/-- **An input that cannot be read** is reported, and the tree is left as it is. -/
theorem run_of_denied (hinput : IsInput args input) {denial : Denial}
    (h : tree.readText input = .error denial) (usage : List (List UInt8) → String) :
    run tree args usage = (tree, ⟨1, "", complaint (.io denial.message)⟩) := by
  have hcompile : (compileFile .ofTree input).run ⟨tree, "", ""⟩ =
      (.error (.io denial.message), ⟨tree, "", ""⟩) := by
    rw [compileFile_eq, h]
  rw [run_of_compileFile_error hinput hcompile, String.empty_append]

/-- **An input that does not compile** is reported, and the tree is left as it is. -/
theorem run_of_fault (hinput : IsInput args input) {fault : Fault}
    (h : tree.readText input = .ok text) (hc : compile text = .error fault)
    (usage : List (List UInt8) → String) :
    run tree args usage = (tree, ⟨1, "", complaint fault⟩) := by
  have hcompile := compileFile_of_fault (s := ⟨tree, "", ""⟩) h hc
  rw [run_of_compileFile_error hinput hcompile, String.empty_append]

/-- What writing shows: a line for each script that is written, and the denial, if there is one. -/
def Report.ofWritten (fs : List GeneratedFile) : Option Denial → Report
  | none => ⟨0, announced fs, ""⟩
  | some denial => ⟨1, announced fs, complaint (.io denial.message)⟩

/-- **An input that compiles** has its scripts written, as far as the tree allows. -/
theorem run_of_written (hinput : IsInput args input) {c : Contract} {base : String}
    {fs : List GeneratedFile} {denial? : Option Denial} (h : tree.readText input = .ok text)
    (hc : compile text = .ok c) (hbase : Path.baseName? input = some base)
    (hw : tree.Written (emit base) fs denial?) (usage : List (List UInt8) → String) :
    run tree args usage = (tree.putAll fs, .ofWritten fs denial?) := by
  have hcompile :=
    (compileFile_of_ok (s := ⟨tree, "", ""⟩) h hc hbase).trans (writeAll_of_written hw)
  cases denial? with
  | none =>
      rw [run_of_compileFile_ok hinput hcompile]
      simp only [Session.putAll, String.empty_append, Report.ofWritten]
  | some denial =>
      rw [run_of_compileFile_error hinput hcompile]
      simp only [Session.putAll, String.empty_append, Report.ofWritten]

end

theorem complaint_io (reason : String) :
    complaint (.io reason) = "error: I/O error: " ++ reason ++ "\n" := by
  have hwords : "error: " ++ "I/O error: " = "error: I/O error: " := by simp
  unfold complaint Fault.message
  dsimp only
  rw [← String.append_assoc, hwords]

/-- What a run that writes scripts leaves and shows, when it writes the first `k` of them. -/
structure Emitted (tree : FileTree) (files : List GeneratedFile) (k : Nat)
    (result : FileTree × Report) : Prop where
  /-- The first `k` scripts are in the working directory. -/
  written : ∀ f ∈ files.take k,
    result.1.get? [Utf8.encode f.name] = some (.file f.contents.toUTF8)
  /-- Nothing stands anywhere else in it but what stood there before. -/
  unchanged : ∀ l, (∀ f ∈ files.take k, l ≠ [Utf8.encode f.name]) → result.1.get? l = tree.get? l
  /-- The working directory is where it was, and nothing is changed apart from it. -/
  outside : result.1.workingDirectory = tree.workingDirectory ∧
    result.1.elsewhere = tree.elsewhere
  /-- The first `k` scripts are announced, in order. -/
  stdout : result.2.stdout =
    String.join ((files.take k).map fun f => "Generated " ++ f.name ++ "\n")
  /-- The run succeeds exactly when these are all. -/
  complete : k = files.length ↔ result.2.status = 0 ∧ result.2.stderr = ""
  /-- Otherwise the next script is denied, and that is what the run reports. -/
  denied : ∀ h : k < files.length, ∃ denial,
    result.1.write (Utf8.encode files[k].name) files[k].contents.toUTF8 = .error denial ∧
      result.2.status = 1 ∧ result.2.stderr = "error: I/O error: " ++ denial.message ++ "\n"

/-- A run that gets as far as `fs` has written as many scripts as these are. -/
theorem emitted_of_written {tree : FileTree} {files fs : List GeneratedFile}
    {denial? : Option Denial} (hnodup : (files.map fun f => Utf8.encode f.name).Nodup)
    (h : tree.Written files fs denial?) :
    Emitted tree files fs.length (tree.putAll fs, .ofWritten fs denial?) := by
  have htake : files.take fs.length = fs := (List.prefix_iff_eq_take.mp h.isPrefix).symm
  have hstdout : (Report.ofWritten fs denial?).stdout =
      String.join (fs.map fun f => "Generated " ++ f.name ++ "\n") := by
    cases denial? <;> rfl
  refine ⟨?_, ?_, tree.outside_putAll fs, by rw [htake]; exact hstdout, ?_, ?_⟩
  · rw [htake]
    exact fun f hf => FileTree.get?_putAll_of_mem (h.nodup hnodup) hf tree
  · rw [htake]
    exact fun l hl => FileTree.get?_putAll_of_ne hl tree
  · cases h with
    | all => exact iff_of_true rfl ⟨rfl, rfl⟩
    | upTo => exact iff_of_false (by simp) (by simp [Report.ofWritten])
  · intro hlt
    cases h with
    | all => exact absurd hlt (Nat.lt_irrefl _)
    | @upTo _ gs f denial hfs hf =>
        refine ⟨denial, ?_, rfl, complaint_io denial.message⟩
        rw [FileTree.write_eq, List.getElem_append_right (Nat.le_refl _)]
        simp [FileTree.denial?_putAll hfs, hf]

/-- A contract that compiles has its scripts written, as far as the tree allows. -/
theorem exists_written_of_compile {tree : FileTree} {args : List (List UInt8)} {input : List UInt8}
    {text : String} {c : Contract} (hinput : IsInput args input)
    (ht : tree.readText input = .ok text) (hc : compile text = .ok c)
    (usage : List (List UInt8) → String) :
    ∃ base fs denial?, Path.baseName? input = some base ∧ tree.Written (emit base) fs denial? ∧
      run tree args usage = (tree.putAll fs, .ofWritten fs denial?) := by
  obtain ⟨contents, hread, -⟩ := readText_eq_ok_iff.mp ht
  obtain ⟨-, name, -, -, hbase⟩ := baseName?_of_read hread
  obtain ⟨fs, denial?, hwritten⟩ := tree.exists_written (emit _)
  exact ⟨_, fs, denial?, hbase, hwritten, run_of_written hinput ht hc hbase hwritten usage⟩

/-- **A run changes what it announces.**  If the input cannot be read or does not compile, nothing
is changed, and the fault is reported.  Otherwise some of the four scripts are written, from the
first one on; these are announced, and nothing else is changed.  If they are not all, the next one
is denied, and that is reported. -/
theorem run_changes_announced (tree : FileTree) {args : List (List UInt8)} {input : List UInt8}
    (h : IsInput args input) (usage : List (List UInt8) → String) :
    (∀ denial, tree.readText input = .error denial →
      run tree args usage = (tree, ⟨1, "", "error: I/O error: " ++ denial.message ++ "\n"⟩)) ∧
    (∀ text fault, tree.readText input = .ok text → compile text = .error fault →
      run tree args usage = (tree, ⟨1, "", "error: " ++ fault.message ++ "\n"⟩)) ∧
    ∀ text c, tree.readText input = .ok text → compile text = .ok c →
      ∃ base, Path.baseName? input = some base ∧ (emit base).length = 4 ∧
        ∃ k ≤ 4, Emitted tree (emit base) k (run tree args usage) := by
  refine ⟨fun denial hd => ?_, fun text fault ht hc => run_of_fault h ht hc usage,
    fun text c ht hc => ?_⟩
  · rw [run_of_denied h hd, complaint_io]
  · obtain ⟨base, fs, denial?, hbase, hwritten, hrun⟩ := exists_written_of_compile h ht hc usage
    refine ⟨base, hbase, length_emit base, fs.length, hwritten.isPrefix.length_le, ?_⟩
    rw [hrun]
    exact emitted_of_written (nodup_fileNames base) hwritten

/-- A directory has the name of the second script, so only the first one is written. -/
theorem run_directory_in_the_way :
    ∃ tree : FileTree,
      tree.get? [Utf8.encode "a.client.js"] = some .directory ∧
      tree.readText (Utf8.encode "a.baz") = .ok "msg M\x7b\x7d" ∧
      (run tree [Utf8.encode "a.baz"]).2 = ⟨1, "Generated a.server.js\n",
        "error: I/O error: Is a directory (os error 21)\n"⟩ ∧
      ∃ k ≤ 4, Emitted tree (emit "a") k (run tree [Utf8.encode "a.baz"]) := by
  let tree := (FileTree.empty.insert [Utf8.encode "a.client.js"] .directory).insert
    [Utf8.encode "a.baz"] (.file "msg M\x7b\x7d".toUTF8)
  have ht : tree.readText (Utf8.encode "a.baz") = .ok "msg M\x7b\x7d" := rfl
  have hc : compile "msg M\x7b\x7d" = .ok ⟨[.message ⟨"M", []⟩]⟩ := rfl
  have hinput : IsInput [Utf8.encode "a.baz"] (Utf8.encode "a.baz") :=
    .plain (by decide) (by decide)
  obtain ⟨base, hbase, -, hemitted⟩ := (run_changes_announced tree hinput _).2.2 _ _ ht hc
  obtain rfl : "a" = base := Option.some.inj hbase
  exact ⟨tree, rfl, ht, rfl, hemitted⟩

/-- What a run leaves is the tree as it was, or with scripts in place of which the next is denied,
if there is one. -/
theorem run_eq (tree : FileTree) (args : List (List UInt8)) (usage : List (List UInt8) → String) :
    (run tree args usage).1 = tree ∨
      ∃ input text c base fs denial?, IsInput args input ∧ tree.readText input = .ok text ∧
        compile text = .ok c ∧ Path.baseName? input = some base ∧
        tree.Written (emit base) fs denial? ∧
        run tree args usage = (tree.putAll fs, .ofWritten fs denial?) := by
  cases hreq : Request.ofArgs args with
  | help => exact .inl (by rw [run, command, hreq]; rfl)
  | invalid => exact .inl (by rw [run, command, hreq]; rfl)
  | compile input =>
      have hinput := ofArgs_eq_compile_iff.mp hreq
      cases ht : tree.readText input with
      | error denial => exact .inl (by rw [run_of_denied hinput ht])
      | ok text =>
          cases hc : compile text with
          | error fault => exact .inl (by rw [run_of_fault hinput ht hc])
          | ok c =>
              obtain ⟨base, fs, denial?, hbase, hw, hrun⟩ :=
                exists_written_of_compile hinput ht hc usage
              exact .inr ⟨input, text, c, base, fs, denial?, hinput, ht, hc, hbase, hw, hrun⟩

/-- **A second run changes nothing**, and shows what the first one showed.  The input that a run has
read stays where it is, and as it is. -/
theorem run_twice (tree : FileTree) (args : List (List UInt8))
    (usage : List (List UInt8) → String) :
    run (run tree args usage).1 args usage = run tree args usage ∧
      ∀ input contents, IsInput args input → tree.read input = .ok contents →
        (run tree args usage).1.locate input = tree.locate input ∧
          (run tree args usage).1.read input = .ok contents := by
  rcases run_eq tree args usage with
    hsame | ⟨input, text, c, base, fs, denial?, hinput, ht, hc, hbase, hw, hrun⟩
  · rw [hsame]
    exact ⟨rfl, fun _ _ _ hread => ⟨rfl, hread⟩⟩
  · have hkept : ∀ contents, tree.read input = .ok contents →
        (tree.putAll fs).locate input = tree.locate input ∧
          (tree.putAll fs).read input = .ok contents :=
      fun contents hread => read_putAll hread hbase hw.isPrefix hw.allows
    rw [hrun]
    refine ⟨?_, fun input' contents hinput' hread => ?_⟩
    · -- the second run reads the same text, gets as far, and puts the scripts where they are
      obtain ⟨contents, hread, htext⟩ := readText_eq_ok_iff.mp ht
      have ht' : (tree.putAll fs).readText input = .ok text :=
        readText_eq_ok_iff.mpr ⟨contents, (hkept contents hread).2, htext⟩
      rw [run_of_written hinput ht' hc hbase hw.again,
        FileTree.putAll_putAll (hw.nodup (nodup_fileNames base))]
    · obtain rfl := hinput.unique hinput'
      exact hkept contents hread

/-- The input has the name of a script, and lies where the scripts are written. -/
theorem run_twice_on_script_name :
    ∃ (tree : FileTree) (contents : ByteArray),
      tree.get? [Utf8.encode "a.server.js"] = some (.file contents) ∧
      (run tree [Utf8.encode "a.server.js"]).2.status = 0 ∧
      (run tree [Utf8.encode "a.server.js"]).1.read (Utf8.encode "a.server.js") = .ok contents ∧
      run (run tree [Utf8.encode "a.server.js"]).1 [Utf8.encode "a.server.js"] =
        run tree [Utf8.encode "a.server.js"] := by
  let contents := "msg M\x7b\x7d".toUTF8
  let tree := FileTree.empty.insert [Utf8.encode "a.server.js"] (.file contents)
  have hinput : IsInput [Utf8.encode "a.server.js"] (Utf8.encode "a.server.js") :=
    .plain (by decide) (by decide)
  obtain ⟨hagain, hkept⟩ := run_twice tree [Utf8.encode "a.server.js"] _
  have hstatus : (run tree [Utf8.encode "a.server.js"]).2.status = 0 := by decide +kernel
  exact ⟨tree, contents, rfl, hstatus, (hkept _ contents hinput rfl).2, hagain⟩

end RpcContract.CommandLine
