import Mathlib.Data.List.TakeWhile
import RpcContract.Proofs.Scripts
import RpcContract.Proofs.Templates

/-!
# Proofs — what the scripts require

A script requires another one of its directory by a call of `require` with a literal that starts with
`./`.  The literal stands in single quotes, and ends at the first quote after the one that opens it.
`requirements` lists these literals, wherever in a text they stand.

The call and the beginning of the literal end in a slash, and no other character of theirs is one.  A
base name has no slash, so every call that a script holds is one of its template, whatever the base
name is (`required_intercalate`).  The literal holds the base name as it is, and with it the quotes of
the base name.  So a script requires the scripts that are generated with it exactly if the base name
has no quote; otherwise it requires what stands before the first quote, which is none of them
(`emit_requires`).
-/

namespace RpcContract

open Text

/-! ### Calls in a text -/

/-- The quote around a literal. -/
def quoteMark : Char := '\x27'

/-- What stands before the first quote of a text. -/
def beforeQuote (text : List Char) : List Char :=
  text.takeWhile (· ≠ quoteMark)

/-- The literal that a text begins with, from the quote that opens it to the next one. -/
def literal? : List Char → Option (List Char)
  | [] => none
  | c :: text => if c = quoteMark ∧ quoteMark ∈ text then some (beforeQuote text) else none

/-- How a call begins. -/
def call : List Char := ['r', 'e', 'q', 'u', 'i', 'r', 'e', '(']

/-- The literal of a call that a text begins with, if it starts with `./`. -/
def requirement? (text : List Char) : Option (List Char) :=
  if call <+: text then (literal? (text.drop call.length)).filter (['.', '/'] <+: ·) else none

/-- The literals of all calls in a text that start with `./`. -/
def required (text : List Char) : List (List Char) :=
  text.tails.filterMap requirement?

/-- A text up to its first quote. -/
def upToQuote (text : String) : String :=
  String.ofList (beforeQuote text.toList)

/-- What a script requires of its own directory. -/
def requirements (script : String) : List String :=
  (required script.toList).map String.ofList

/-- A call up to the slash of its literal. -/
def opening : List Char := call ++ [quoteMark, '.']

theorem takeWhile_append_cons {α : Type} [DecidableEq α] {a : α} {xs : List α} (h : a ∉ xs)
    (ys : List α) : (xs ++ a :: ys).takeWhile (· ≠ a) = xs := by
  have hxs : ∀ x ∈ xs, decide (x ≠ a) = true := by
    intro x hx
    rw [decide_eq_true_iff]
    rintro rfl
    exact h hx
  rw [List.takeWhile_append_of_pos hxs, List.takeWhile_cons_of_neg (by simp), List.append_nil]

theorem beforeQuote_append_of_mem {xs : List Char} (h : quoteMark ∈ xs) (ys : List Char) :
    beforeQuote (xs ++ ys) = beforeQuote xs := by
  obtain ⟨as, bs, rfl, has⟩ := List.eq_append_cons_of_mem h
  rw [beforeQuote, beforeQuote, List.append_assoc, List.cons_append, takeWhile_append_cons has,
    takeWhile_append_cons has]

theorem beforeQuote_append_beforeQuote (xs ys : List Char) :
    beforeQuote (xs ++ beforeQuote ys) = beforeQuote (xs ++ ys) := by
  unfold beforeQuote
  rw [List.takeWhile_append, List.takeWhile_append, List.takeWhile_takeWhile]
  simp only [Bool.decide_and, Bool.decide_eq_true, Bool.and_self]

theorem beforeQuote_eq_self_iff {xs : List Char} : beforeQuote xs = xs ↔ quoteMark ∉ xs := by
  rw [beforeQuote, List.takeWhile_eq_self_iff]
  grind

/-- A literal stands at the front of a text when a quote opens it and another one closes it. -/
theorem literal?_eq_some_iff {text l : List Char} :
    literal? text = some l ↔
      ∃ rest, text = quoteMark :: rest ∧ quoteMark ∈ rest ∧ beforeQuote rest = l := by
  cases text with
  | nil => simp [literal?]
  | cons c rest =>
      rw [literal?]
      split
      · next h => simp [h]
      · next h => grind

/-- Where a text begins with a call, its first slash is that of the literal. -/
theorem exists_of_requirement? {text l : List Char} (h : requirement? text = some l) :
    ∃ rest, text = opening ++ '/' :: rest := by
  unfold requirement? at h
  split at h
  · next hcall =>
      obtain ⟨rest, rfl⟩ := hcall
      rw [List.drop_left, Option.filter_eq_some_iff, literal?_eq_some_iff] at h
      obtain ⟨⟨rest, rfl, -, rfl⟩, hdir⟩ := h
      obtain ⟨tail, htail⟩ := (of_decide_eq_true hdir).trans (List.takeWhile_prefix _)
      exact ⟨tail, by rw [← htail]; simp [opening]⟩
  · cases h

/-- A text that begins with a call and its literal's slash. -/
theorem requirement?_opening {rest : List Char} (h : quoteMark ∈ rest) :
    requirement? (opening ++ '/' :: rest) = some ('.' :: '/' :: beforeQuote rest) := by
  have htext : opening ++ '/' :: rest = call ++ quoteMark :: '.' :: '/' :: rest := by simp [opening]
  have hliteral : literal? (quoteMark :: '.' :: '/' :: rest) =
      some ('.' :: '/' :: beforeQuote rest) :=
    literal?_eq_some_iff.mpr ⟨_, rfl, by simp [h], rfl⟩
  rw [htext, requirement?, if_pos (List.prefix_append ..), List.drop_left, hliteral,
    Option.filter_some, if_pos (by simp)]

/-- A call names a path that begins with a dot and a slash, so without a slash there is none. -/
theorem requirement?_of_not_mem {text : List Char} (h : '/' ∉ text) : requirement? text = none := by
  rw [Option.eq_none_iff_forall_ne_some]
  intro l hl
  obtain ⟨rest, rfl⟩ := exists_of_requirement? hl
  simp at h

/-- The first slash of a call stands right behind the words that open it.  If others stand there,
the text is no call. -/
theorem requirement?_of_ne_opening {u : List Char} (hu : '/' ∉ u) (hne : u ≠ opening)
    (v : List Char) : requirement? (u ++ '/' :: v) = none := by
  rw [Option.eq_none_iff_forall_ne_some]
  intro l hl
  obtain ⟨rest, hrest⟩ := exists_of_requirement? hl
  have hfirst := congrArg (List.takeWhile (· ≠ '/')) hrest
  rw [takeWhile_append_cons hu, takeWhile_append_cons (by decide)] at hfirst
  exact hne hfirst

theorem required_cons (c : Char) (cs : List Char) :
    required (c :: cs) = (requirement? (c :: cs)).toList ++ required cs := by
  rw [required, List.tails_cons, List.filterMap_cons, required]
  cases requirement? (c :: cs) with
  | none => rfl
  | some l => rfl

/-- Without a slash, nothing is required. -/
theorem required_of_not_mem {text : List Char} (h : '/' ∉ text) : required text = [] := by
  induction text with
  | nil => rfl
  | cons c cs ih =>
      rw [required_cons, requirement?_of_not_mem h, ih fun hmem => h (List.mem_cons_of_mem c hmem)]
      rfl

/-- **At its first slash**, a text requires something if a call stands before the slash.  What is
required is the literal of the call, and the search goes on behind the slash. -/
theorem required_append_cons {u v : List Char} (hu : '/' ∉ u) (hv : quoteMark ∈ v) :
    required (u ++ '/' :: v) =
      if opening <:+ u then ('.' :: '/' :: beforeQuote v) :: required v else required v := by
  induction u with
  | nil =>
      have hnone : requirement? ('/' :: v) = none := requirement?_of_ne_opening hu (by decide) v
      rw [List.nil_append, required_cons, hnone, if_neg (by decide)]
      rfl
  | cons c u ih =>
      have htail := ih fun hmem => hu (List.mem_cons_of_mem c hmem)
      rw [List.cons_append, required_cons, ← List.cons_append, htail]
      by_cases hcall : c :: u = opening
      · -- the call starts here, so what is left of it is no call
        have hshort : ¬ opening <:+ u := by
          intro hsuffix
          have hle := hsuffix.length_le
          rw [← hcall, List.length_cons] at hle
          omega
        rw [hcall, requirement?_opening hv, if_neg hshort, if_pos List.suffix_rfl]
        rfl
      · have hsuffix : opening <:+ c :: u ↔ opening <:+ u := by
          rw [List.suffix_cons_iff]
          exact or_iff_right (Ne.symm hcall)
        rw [requirement?_of_ne_opening hu hcall]
        simp only [hsuffix, Option.toList_none, List.nil_append]

/-! ### Calls in a template -/

/-- The base name stands between a piece that ends with a call and a piece that ends the literal. -/
def Requires (p q : List Char) : Prop :=
  opening ++ ['/'] <:+ p ∧ '/' ∉ p.dropLast ∧ quoteMark ∈ q

instance : DecidableRel Requires :=
  fun _ _ => inferInstanceAs (Decidable (_ ∧ _ ∧ _))

/-- **All calls are the template's.**  Each piece but the first ends the literal of a call.  The
base name has no slash, so it opens no call, and each call ends in the piece after its base name. -/
theorem required_intercalate {base pre p : List Char} {ps : List (List Char)} (hbase : '/' ∉ base)
    (hpre : '/' ∉ pre) (hcalls : (p :: ps).IsChain Requires)
    (hlast : ∀ q ∈ (p :: ps).getLast?, '/' ∉ q) :
    required (pre ++ base.intercalate (p :: ps)) =
      ps.map fun q => '.' :: '/' :: beforeQuote (base ++ q) := by
  induction ps generalizing pre p with
  | nil =>
      rw [List.intercalate_singleton]
      refine required_of_not_mem fun hmem => ?_
      rcases List.mem_append.mp hmem with hmem | hmem
      · exact hpre hmem
      · exact hlast p rfl hmem
  | cons q ps ih =>
      -- the first slash is the last character of the first piece, where a call opens
      obtain ⟨⟨⟨w, rfl⟩, hslash, hquote⟩, hrest⟩ := List.isChain_cons_cons.mp hcalls
      rw [← List.append_assoc, List.dropLast_concat] at hslash
      have hu : '/' ∉ pre ++ (w ++ opening) := by
        rw [List.mem_append, not_or]
        exact ⟨hpre, hslash⟩
      have hv : quoteMark ∈ base ++ q := List.mem_append_right base hquote
      obtain ⟨more, hmore⟩ := isPrefix_intercalate base q ps
      have htext : pre ++ base.intercalate ((w ++ (opening ++ ['/'])) :: q :: ps) =
          (pre ++ (w ++ opening)) ++ '/' :: (base ++ base.intercalate (q :: ps)) := by
        rw [List.intercalate_cons_cons]
        simp only [List.append_assoc, List.cons_append, List.nil_append]
      have hliteral : beforeQuote (base ++ base.intercalate (q :: ps)) = beforeQuote (base ++ q) := by
        rw [← hmore, ← List.append_assoc, beforeQuote_append_of_mem hv]
      have hquoted : quoteMark ∈ base ++ base.intercalate (q :: ps) := by
        rw [← hmore, ← List.append_assoc]
        exact List.mem_append_left more hv
      rw [htext, required_append_cons hu hquoted, if_pos (by simp [← List.append_assoc]), hliteral,
        ih hbase hrest hlast, List.map_cons]

/-- The pieces of a template require the files with given endings. -/
structure RequireEndings (pieces endings : List (List Char)) : Prop where
  /-- The base name stands in the literals of calls, and nowhere else. -/
  calls : pieces.IsChain Requires
  /-- There is no call behind them. -/
  last : ∀ q ∈ pieces.getLast?, '/' ∉ q
  /-- In the literals, the endings follow the base name. -/
  endings : pieces.tail.map beforeQuote = endings

/-- **Calls in a filled template.**  The scripts that are required are the base name with each of
the endings, cut off at the first quote. -/
theorem RequireEndings.required {pieces endings : List (List Char)} (h : RequireEndings pieces endings)
    (hne : pieces ≠ []) {base : List Char} (hbase : '/' ∉ base) :
    required (base.intercalate pieces) =
      endings.map fun ending => '.' :: '/' :: beforeQuote (base ++ ending) := by
  obtain ⟨p, ps, rfl⟩ := List.exists_cons_of_ne_nil hne
  have hrequired := required_intercalate hbase (List.not_mem_nil) h.calls h.last
  rw [List.nil_append] at hrequired
  rw [hrequired, ← h.endings, List.map_map, List.tail_cons]
  refine List.map_congr_left fun q _ => ?_
  rw [Function.comp_apply, beforeQuote_append_beforeQuote]

namespace Artifact

/-- The template of the server has two calls, with the endings of `proto` and of `service`. -/
theorem server_endings :
    RequireEndings (cut placeholder.toList server.template.toList)
      ([proto, service].map (·.ending.toList)) := by
  rw [toList_placeholder]
  unfold server
  repeat rw [toList_unlines_cons]
  exact ⟨by decide +kernel, by decide +kernel, by decide +kernel⟩

/-- The template of the client has one call, with the ending of `proto`. -/
theorem client_endings :
    RequireEndings (cut placeholder.toList client.template.toList)
      ([proto].map (·.ending.toList)) := by
  rw [toList_placeholder]
  unfold client
  repeat rw [toList_unlines_cons]
  exact ⟨by decide +kernel, by decide +kernel, by decide +kernel⟩

/-- A script requires what its template says, up to the first quote of the base name. -/
theorem requirements_generate {a : Artifact} {others : List Artifact}
    (h : RequireEndings (cut placeholder.toList a.template.toList)
      (others.map (·.ending.toList))) {b : String} (hb : '/' ∉ b.toList) :
    requirements (a.generate b).contents =
      others.map fun other => "./" ++ upToQuote (other.fileName b) := by
  have hne := (cutsInto_template a.template).ne_nil
  rw [requirements, generate, toList_fill, h.required hne hb, List.map_map, List.map_map]
  refine List.map_congr_left fun other _ => ?_
  have hdir : "./" = String.ofList ['.', '/'] := rfl
  rw [Function.comp_apply, Function.comp_apply, upToQuote, fileName_eq_append, String.toList_append,
    hdir, ← String.ofList_append]
  rfl

theorem requirements_server {b : String} (hb : '/' ∉ b.toList) :
    requirements (server.generate b).contents =
      [proto, service].map fun other => "./" ++ upToQuote (other.fileName b) :=
  requirements_generate server_endings hb

theorem requirements_client {b : String} (hb : '/' ∉ b.toList) :
    requirements (client.generate b).contents =
      [proto].map fun other => "./" ++ upToQuote (other.fileName b) :=
  requirements_generate client_endings hb

/-- The endings hold no quote, so the name of a script has one when the base name does. -/
theorem quoteMark_mem_fileName_iff {a : Artifact} (ha : a ∈ all) (b : String) :
    quoteMark ∈ (a.fileName b).toList ↔ quoteMark ∈ b.toList := by
  have hending : ∀ a ∈ all, quoteMark ∉ a.ending.toList := by decide
  rw [fileName_eq_append, String.toList_append, List.mem_append]
  exact or_iff_left (hending a ha)

end Artifact

theorem upToQuote_eq_self {text : String} (h : quoteMark ∉ text.toList) : upToQuote text = text := by
  rw [upToQuote, beforeQuote_eq_self_iff.mpr h, String.ofList_toList]

theorem quoteMark_not_mem_upToQuote (text : String) : quoteMark ∉ (upToQuote text).toList := by
  rw [upToQuote, String.toList_ofList]
  intro h
  simpa using List.mem_takeWhile_imp h

open Artifact in
/-- **What the scripts require.**  In the order of its calls, the server requires the two scripts that
it needs, and the client the one, if the base name has no quote.  In general each is required up to
the first quote of its name, which is no script at all if the base name has a quote. -/
theorem emit_requires {b : String} (hb : '/' ∉ b.toList) :
    emit b = [server.generate b, client.generate b, proto.generate b, service.generate b] ∧
    requirements (server.generate b).contents =
      ["./" ++ upToQuote (proto.generate b).name, "./" ++ upToQuote (service.generate b).name] ∧
    requirements (client.generate b).contents = ["./" ++ upToQuote (proto.generate b).name] ∧
    (quoteMark ∉ b.toList →
      requirements (server.generate b).contents =
        ["./" ++ (proto.generate b).name, "./" ++ (service.generate b).name] ∧
      requirements (client.generate b).contents = ["./" ++ (proto.generate b).name]) ∧
    (quoteMark ∈ b.toList →
      ∀ r ∈ requirements (server.generate b).contents ++ requirements (client.generate b).contents,
        ∀ file ∈ emit b, r ≠ "./" ++ file.name) := by
  have hserver := requirements_server hb
  have hclient := requirements_client hb
  refine ⟨rfl, hserver, hclient, fun hquote => ?_, fun hquote r hr file hfile => ?_⟩
  · have hname : ∀ a ∈ all, upToQuote (a.fileName b) = a.fileName b := fun a ha =>
      upToQuote_eq_self (mt (quoteMark_mem_fileName_iff ha b).mp hquote)
    have hproto := hname proto (by simp only [all, List.mem_cons, true_or, or_true])
    have hservice := hname service (by simp only [all, List.mem_cons, true_or, or_true])
    rw [hserver, hclient, List.map_cons, List.map_singleton, List.map_singleton, hproto, hservice]
    exact ⟨rfl, rfl⟩
  · -- the name of a script holds the quote of the base name, and no literal holds a quote
    rw [hserver, hclient, ← List.map_append] at hr
    obtain ⟨other, -, rfl⟩ := List.mem_map.mp hr
    obtain ⟨a, ha, rfl⟩ := List.mem_map.mp hfile
    intro e
    have hsame : upToQuote (other.fileName b) = a.fileName b := (String.append_right_inj _).mp e
    refine quoteMark_not_mem_upToQuote (other.fileName b) ?_
    rw [hsame]
    exact (quoteMark_mem_fileName_iff ha b).mpr hquote

open Artifact in
/-- The scripts for the contract in `calc.baz` require others that are written with them. -/
theorem emit_requires_calc :
    '/' ∉ "calc".toList ∧ quoteMark ∉ "calc".toList ∧
    requirements (server.generate "calc").contents = ["./calc.proto.js", "./calc.service.js"] ∧
    requirements (client.generate "calc").contents = ["./calc.proto.js"] := by
  have hslash : '/' ∉ "calc".toList := by decide
  have hquote : quoteMark ∉ "calc".toList := by decide
  obtain ⟨-, -, -, hplain, -⟩ := emit_requires hslash
  exact ⟨hslash, hquote, hplain hquote⟩

open Artifact in
/-- The scripts for the contract in `it's.baz` require `./it`, and there is no such script. -/
theorem requirements_of_quoted_name :
    Path.baseName? (Utf8.encode "it's.baz") = some "it's" ∧
    (emit "it's").map (·.name) =
      ["it's.server.js", "it's.client.js", "it's.proto.js", "it's.service.js"] ∧
    requirements (server.generate "it's").contents = ["./it", "./it"] ∧
    requirements (client.generate "it's").contents = ["./it"] := by
  have hslash : '/' ∉ "it's".toList := by decide
  refine ⟨rfl, rfl, ?_, ?_⟩
  · rw [requirements_server hslash]
    decide +kernel
  · rw [requirements_client hslash]
    decide +kernel

end RpcContract
