import RpcContract.CommandLine
import RpcContract.Proofs.Scripts
import RpcContract.Proofs.Trees

/-!
# Proofs — writing the scripts

Scripts are written one after another until one is denied.  `Written` says how far this gets: which
scripts come first that the tree allows, and what denies the next one, if there is one.  Writing
does just that (`writeAll_of_written`): the tree it leaves holds these scripts (`putAll`) and is
unchanged elsewhere, and it shows one line for each.

The scripts that are in place do not change what the tree allows.  So writing gets just as far a
second time (`Written.again`), and puts every script where it already is (`putAll_putAll`).
-/

namespace RpcContract

open Text CommandLine

/-! ### Scripts in a tree -/

namespace FileTree

/-- The tree lets a script be written. -/
def Allows (t : FileTree) (f : GeneratedFile) : Prop :=
  t.denial? (Utf8.encode f.name) = none

/-- A tree with a script in it. -/
def put (t : FileTree) (f : GeneratedFile) : FileTree :=
  t.insert [Utf8.encode f.name] (.file f.contents.toUTF8)

/-- A tree with scripts in it. -/
def putAll (t : FileTree) (files : List GeneratedFile) : FileTree :=
  files.foldl put t

theorem putAll_cons (t : FileTree) (f : GeneratedFile) (files : List GeneratedFile) :
    t.putAll (f :: files) = (t.put f).putAll files := rfl

/-- Scripts are put into the working directory, which stays where it is, and change nothing apart
from it. -/
theorem outside_putAll (t : FileTree) (files : List GeneratedFile) :
    (t.putAll files).workingDirectory = t.workingDirectory ∧
      (t.putAll files).elsewhere = t.elsewhere := by
  induction files generalizing t with
  | nil => exact ⟨rfl, rfl⟩
  | cons f files ih => exact ih (t.put f)

theorem denial?_put {t : FileTree} {f : GeneratedFile} (h : t.Allows f) (name : List UInt8) :
    (t.put f).denial? name = t.denial? name :=
  denial?_insert h _ name

theorem Allows.put {t : FileTree} {f g : GeneratedFile} (hf : t.Allows f) (hg : t.Allows g) :
    (t.put f).Allows g :=
  (denial?_put hf _).trans hg

/-- Scripts that are all allowed at first change nothing about what may be written. -/
theorem denial?_putAll {t : FileTree} {files : List GeneratedFile} (h : ∀ f ∈ files, t.Allows f)
    (name : List UInt8) : (t.putAll files).denial? name = t.denial? name := by
  induction files generalizing t with
  | nil => rfl
  | cons f files ih =>
      rw [List.forall_mem_cons] at h
      rw [putAll_cons, ih fun g hg => h.1.put (h.2 g hg), denial?_put h.1]

/-- Scripts that are allowed take the place of no directory, so every path leads where it did. -/
theorem keeps_putAll {t : FileTree} {files : List GeneratedFile} (h : ∀ f ∈ files, t.Allows f) :
    t.Keeps (t.putAll files) := by
  induction files generalizing t with
  | nil => exact .refl t
  | cons f files ih =>
      rw [List.forall_mem_cons] at h
      exact (keeps_insert h.1 _).trans (ih fun g hg => h.1.put (h.2 g hg))

/-- Scripts change nothing in the working directory but at their own names. -/
theorem get?_putAll_of_ne {files : List GeneratedFile} {l : Location}
    (h : ∀ f ∈ files, l ≠ [Utf8.encode f.name]) (t : FileTree) :
    (t.putAll files).get? l = t.get? l := by
  induction files generalizing t with
  | nil => rfl
  | cons f files ih =>
      rw [List.forall_mem_cons] at h
      rw [putAll_cons, ih h.2, put, get?_insert, if_neg h.1]

/-- Scripts below the working directory change nothing at the other locations from the root. -/
theorem entryAt?_putAll_of_ne {files : List GeneratedFile} {t : FileTree} {l : Location}
    (h : ∀ f ∈ files, l ≠ t.workingDirectory ++ [Utf8.encode f.name]) :
    (t.putAll files).entryAt? l = t.entryAt? l := by
  induction files generalizing t with
  | nil => rfl
  | cons f files ih =>
      rw [List.forall_mem_cons] at h
      rw [putAll_cons, ih (t := t.put f) h.2, put, entryAt?_insert t (List.cons_ne_nil _ _),
        if_neg h.1]

/-- Each of several scripts is in place in the end, if no two of them have one name. -/
theorem get?_putAll_of_mem {files : List GeneratedFile}
    (hnodup : (files.map fun f => Utf8.encode f.name).Nodup) {f : GeneratedFile} (hf : f ∈ files)
    (t : FileTree) :
    (t.putAll files).get? [Utf8.encode f.name] = some (.file f.contents.toUTF8) := by
  induction files generalizing t with
  | nil => cases hf
  | cons g files ih =>
      rw [List.map_cons, List.nodup_cons] at hnodup
      rw [putAll_cons]
      rcases List.mem_cons.mp hf with rfl | hf
      · -- the scripts that follow have other names
        rw [get?_putAll_of_ne, put, get?_insert, if_pos rfl]
        intro g hg e
        exact hnodup.1 (List.mem_map.mpr ⟨g, hg, (List.cons.inj e).1.symm⟩)
      · exact ih hnodup.2 hf (t.put g)

/-- Scripts that are in place already are put where they are, so nothing changes. -/
theorem putAll_putAll {files : List GeneratedFile}
    (hnodup : (files.map fun f => Utf8.encode f.name).Nodup) (t : FileTree) :
    (t.putAll files).putAll files = t.putAll files := by
  obtain ⟨hw, he⟩ := outside_putAll (t.putAll files) files
  refine ext_get? (fun l => ?_) hw he
  by_cases h : ∃ f ∈ files, l = [Utf8.encode f.name]
  · obtain ⟨f, hf, rfl⟩ := h
    rw [get?_putAll_of_mem hnodup hf, get?_putAll_of_mem hnodup hf]
  · rw [get?_putAll_of_ne fun f hf e => h ⟨f, hf, e⟩]

/-- How far writing scripts gets: the scripts that are written, and what denies the next one. -/
inductive Written (t : FileTree) :
    List GeneratedFile → List GeneratedFile → Option Denial → Prop where
  | all {files : List GeneratedFile} : (∀ f ∈ files, t.Allows f) → Written t files files none
  | upTo {fs gs : List GeneratedFile} {f : GeneratedFile} {denial : Denial} :
    (∀ g ∈ fs, t.Allows g) → t.denial? (Utf8.encode f.name) = some denial →
    Written t (fs ++ f :: gs) fs (some denial)

/-- Writing always gets somewhere: to the end, or to the first script that the tree denies. -/
theorem exists_written (t : FileTree) (files : List GeneratedFile) :
    ∃ fs denial?, t.Written files fs denial? := by
  induction files with
  | nil => exact ⟨[], none, .all (by simp)⟩
  | cons f files ih =>
      cases hf : t.denial? (Utf8.encode f.name) with
      | some denial => exact ⟨[], some denial, @Written.upTo t [] files f denial (by simp) hf⟩
      | none =>
          obtain ⟨fs, denial?, h⟩ := ih
          cases h with
          | all hall => exact ⟨_, _, .all (List.forall_mem_cons.mpr ⟨hf, hall⟩)⟩
          | upTo hfs hg => exact ⟨_, _, .upTo (List.forall_mem_cons.mpr ⟨hf, hfs⟩) hg⟩

namespace Written

variable {t : FileTree} {files fs : List GeneratedFile} {denial? : Option Denial}

/-- The scripts that are written are allowed by the tree as it was at first. -/
theorem allows (h : t.Written files fs denial?) : ∀ f ∈ fs, t.Allows f := by
  cases h with
  | all hall => exact hall
  | upTo hfs _ => exact hfs

theorem isPrefix (h : t.Written files fs denial?) : fs <+: files := by
  cases h with
  | all => exact List.prefix_refl _
  | upTo => exact List.prefix_append ..

/-- Scripts with names of their own keep them apart when only some are written. -/
theorem nodup (h : t.Written files fs denial?)
    (hnodup : (files.map fun f => Utf8.encode f.name).Nodup) :
    (fs.map fun f => Utf8.encode f.name).Nodup :=
  hnodup.sublist (h.isPrefix.sublist.map _)

/-- Writing gets just as far a second time, as the scripts in place do not change what the tree
allows. -/
theorem again (h : t.Written files fs denial?) : (t.putAll fs).Written files fs denial? := by
  have hsame : ∀ name, (t.putAll fs).denial? name = t.denial? name := denial?_putAll h.allows
  cases h with
  | all hall => exact .all fun f hf => (hsame _).trans (hall f hf)
  | upTo hfs hf => exact .upTo (fun g hg => (hsame _).trans (hfs g hg)) ((hsame _).trans hf)

end Written

end FileTree

/-! ### What writing shows -/

namespace CommandLine

/-- The lines that announce scripts. -/
def announced (files : List GeneratedFile) : String :=
  String.join (files.map announcement)

/-- A session in which scripts are written and announced. -/
def Session.putAll (s : Session) (files : List GeneratedFile) : Session :=
  { s with tree := s.tree.putAll files, stdout := s.stdout ++ announced files }

@[simp] theorem Session.putAll_nil (s : Session) : s.putAll [] = s := by
  rw [putAll, announced, List.map_nil, String.join_nil, String.append_empty]
  rfl

theorem Session.putAll_cons (s : Session) (f : GeneratedFile) (files : List GeneratedFile) :
    s.putAll (f :: files) =
      putAll { s with tree := s.tree.put f, stdout := s.stdout ++ announcement f } files := by
  rw [putAll, announced, List.map_cons, String.join_cons, ← String.append_assoc]
  rfl

/-- A script that the tree denies is the fault, and the last that is tried.  One that it allows is
written and announced before the others. -/
theorem writeAll_cons (s : Session) (f : GeneratedFile) (files : List GeneratedFile) :
    (writeAll .ofTree (f :: files)).run s =
      match s.tree.denial? (Utf8.encode f.name) with
      | some denial => (.error (.io denial.message), s)
      | none => (writeAll .ofTree files).run
          { s with tree := s.tree.put f, stdout := s.stdout ++ announcement f } := by
  have hwrite : (Host.ofTree.write (Utf8.encode f.name) f.contents.toUTF8).run s =
      match s.tree.denial? (Utf8.encode f.name) with
      | some denial => (.error denial.message, s)
      | none => (.ok (), { s with tree := s.tree.put f }) := by
    simp only [Host.ofTree, StateT.run, FileTree.write_eq]
    cases s.tree.denial? (Utf8.encode f.name) <;> rfl
  rw [writeAll, StateT.run_bind, hwrite]
  cases s.tree.denial? (Utf8.encode f.name) <;> rfl

/-- Scripts that the tree allows are all written before the others, as none of them makes the tree
deny another. -/
theorem writeAll_append {s : Session} {fs : List GeneratedFile} (h : ∀ f ∈ fs, s.tree.Allows f)
    (gs : List GeneratedFile) :
    (writeAll .ofTree (fs ++ gs)).run s = (writeAll .ofTree gs).run (s.putAll fs) := by
  induction fs generalizing s with
  | nil => rw [List.nil_append, Session.putAll_nil]
  | cons f fs ih =>
      rw [List.forall_mem_cons] at h
      rw [List.cons_append, writeAll_cons, h.1, Session.putAll_cons]
      exact ih fun g hg => h.1.put (h.2 g hg)

/-- **Scripts are written as far as the tree allows**, and announced so far; the denial of the next
one, if there is one, is the fault. -/
theorem writeAll_of_written {s : Session} {files fs : List GeneratedFile} {denial? : Option Denial}
    (h : s.tree.Written files fs denial?) :
    (writeAll .ofTree files).run s =
      (outcome (denial?.map fun denial => .io denial.message) (), s.putAll fs) := by
  cases h with
  | all hall =>
      have hwrite := writeAll_append hall []
      rw [List.append_nil] at hwrite
      exact hwrite
  | @upTo fs gs f denial hfs hf =>
      have hdenied : (s.putAll fs).tree.denial? (Utf8.encode f.name) = some denial :=
        (FileTree.denial?_putAll hfs _).trans hf
      rw [writeAll_append hfs, writeAll_cons, hdenied]
      rfl

end CommandLine

end RpcContract
