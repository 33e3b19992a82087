import Mathlib.Data.List.Nodup
import RpcContract.Artifact
import RpcContract.Path
import RpcContract.Proofs.Utf8

/-!
# Proofs — the names of the scripts

A script is named after its base name, with an ending of its own.  So the scripts of one base name
have different names (`nodup_fileNames`).  The ending has two dots, and a stem loses one of them: a
name that is that of a script has a longer stem than the script has a base name.  Hence no script
has the name of the file that it is generated from (`fileName_ne_input`), even if that is itself the
name of a script, or no text at all.
-/

namespace RpcContract

open Text

namespace Path

theorem dropWhile_reverse_append {α : Type} [DecidableEq α] {dot : α} {ys : List α} (h : dot ∉ ys)
    (zs : List α) : (ys.reverse ++ zs).dropWhile (· ≠ dot) = zs.dropWhile (· ≠ dot) := by
  refine List.dropWhile_append_of_pos fun y hy => ?_
  rw [decide_eq_true_iff]
  rintro rfl
  exact h (List.mem_reverse.mp hy)

/-- A dot is the last one when none follows it. -/
theorem beforeLastDot_append_cons {α : Type} [DecidableEq α] {dot : α} {xs ys : List α}
    (h : dot ∉ ys) : beforeLastDot dot (xs ++ dot :: ys) = xs := by
  rw [beforeLastDot, List.reverse_append, List.reverse_cons, List.append_assoc,
    dropWhile_reverse_append h]
  simp

theorem beforeLastDot_of_not_mem {α : Type} [DecidableEq α] {dot : α} {name : List α}
    (h : dot ∉ name) : beforeLastDot dot name = [] := by
  rw [beforeLastDot, ← List.append_nil name.reverse, dropWhile_reverse_append h]
  rfl

/-- The stem of a name is what stands before its last dot, unless that is nothing. -/
theorem stem_append_cons {α : Type} [DecidableEq α] {dot : α} {xs ys : List α} (hne : xs ≠ [])
    (h : dot ∉ ys) : stem dot (xs ++ dot :: ys) = xs := by
  simp [stem, beforeLastDot_append_cons h, hne]

end Path

namespace Artifact

/-- What the name of a script's file has after the base name. -/
def ending (a : Artifact) : String :=
  "." ++ a.suffix ++ "." ++ a.extension

/-- A script is named by the base name and an ending of its own. -/
theorem fileName_eq_append (a : Artifact) (base : String) : a.fileName base = base ++ a.ending := by
  rw [fileName, ending]
  simp only [String.append_assoc]

/-- The bytes of a script's name begin with those of the base name, so two scripts for one base name
differ in their endings. -/
theorem encode_fileName (a : Artifact) (base : String) :
    Utf8.encode (a.fileName base) = Utf8.encode base ++ Utf8.encode a.ending := by
  rw [fileName_eq_append, Utf8.encode_append]

/-- A script stands in the working directory: its name has no slash, if its base name has none, and
it names no directory. -/
theorem fileName_plain {a : Artifact} (ha : a ∈ all) {base : String} (h : '/' ∉ base.toList) :
    '/' ∉ (a.fileName base).toList ∧ a.fileName base ≠ "." ∧ a.fileName base ≠ ".." := by
  have hending : ∀ a ∈ all, '/' ∉ a.ending.toList ∧ 2 < a.ending.toList.length := by decide
  obtain ⟨hslash, hlength⟩ := hending a ha
  have hlong : ∀ name : String, name.toList.length ≤ 2 → a.fileName base ≠ name := by
    rintro _ hname rfl
    rw [fileName_eq_append, String.toList_append, List.length_append] at hname
    omega
  refine ⟨?_, hlong "." (by decide), hlong ".." (by decide)⟩
  rw [fileName_eq_append, String.toList_append, List.mem_append, not_or]
  exact ⟨h, hslash⟩

/-- The stem of a script's name is its base name and its suffix. -/
theorem stem_fileName {a : Artifact} (ha : a ∈ all) (base : String) :
    Path.stem Path.dotByte (Utf8.encode (a.fileName base)) =
      Utf8.encode (base ++ "." ++ a.suffix) := by
  have hext : ∀ a ∈ all, Path.dotByte ∉ Utf8.encode a.extension := by decide
  have hname : Utf8.encode (a.fileName base) =
      Utf8.encode (base ++ "." ++ a.suffix) ++ Path.dotByte :: Utf8.encode a.extension := by
    rw [fileName, Utf8.encode_append, Utf8.encode_append, List.append_assoc]
    rfl
  have hne : Utf8.encode (base ++ "." ++ a.suffix) ≠ [] := by
    rw [Utf8.encode_append, Utf8.encode_append]
    intro h
    exact List.cons_ne_nil _ _ (List.append_eq_nil_iff.mp (List.append_eq_nil_iff.mp h).1).2
  rw [hname, Path.stem_append_cons hne (hext a ha)]

/-- **No script is written over its input.**  The ending of a script holds two dots at least, so the
stem of its name is longer than the base name; the base name of the input is the stem of the input's
own name. -/
theorem fileName_ne_input {a : Artifact} (ha : a ∈ all) (name : List UInt8) :
    Utf8.encode (a.fileName (Utf8.lossy (Path.stem Path.dotByte name))) ≠ name := by
  intro h
  -- then the base name is its own beginning, with the suffix behind it
  have hstem := stem_fileName ha (Utf8.lossy (Path.stem Path.dotByte name))
  rw [h] at hstem
  have hbase := congrArg (String.length ∘ Utf8.lossy) hstem
  rw [Function.comp_apply, Function.comp_apply, Utf8.lossy_encode, String.length_append,
    String.length_append] at hbase
  have hdot : ".".length = 1 := rfl
  omega

end Artifact

/-- The scripts for one base name have names of their own, as bytes, so none is written over
another. -/
theorem nodup_fileNames (base : String) :
    ((emit base).map fun f => Utf8.encode f.name).Nodup := by
  have hnames : (emit base).map (fun f => Utf8.encode f.name) =
      (Artifact.all.map fun a => Utf8.encode a.ending).map (Utf8.encode base ++ ·) := by
    rw [emit, List.map_map, List.map_map]
    exact List.map_congr_left fun a _ => a.encode_fileName base
  rw [hnames]
  exact List.Nodup.map (List.append_right_injective _) (by decide)

theorem nodup_names (b : String) : ((emit b).map (·.name)).Nodup := by
  have hbytes := nodup_fileNames b
  rw [← Function.comp_def Utf8.encode, ← List.map_map] at hbytes
  exact hbytes.of_map Utf8.encode

theorem length_emit (base : String) : (emit base).length = 4 := rfl

end RpcContract
