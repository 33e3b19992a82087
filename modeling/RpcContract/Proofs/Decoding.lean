import Mathlib.Logic.Function.Basic
import RpcContract.Compile
import RpcContract.Contract.Json
import RpcContract.Json.Reader
import RpcContract.Proofs.Literals

/-!
# Proofs — reading the JSON form back

A value's indented form is read as that value, whatever stands after it (`Numberless.readsBack`).
The values of interest hold no number: a number alone does not show where it ends.  Blanks are
skipped before every value and every mark, and no value begins with a blank or with a bracket that
closes, so neither the indents nor the two forms of an empty array can mislead the reader.

Hence the JSON text of a contract is read as its JSON value, from which the contract can be taken
back; so contracts with the same text are the same (`Contract.toText_injective`).
-/

namespace RpcContract

namespace Json

/-- A value that holds no number. -/
inductive Numberless : Json → Prop where
  | null : Numberless .null
  | bool (b : Bool) : Numberless (.bool b)
  | string (s : String) : Numberless (.string s)
  | array {items : List Json} : (∀ j ∈ items, Numberless j) → Numberless (.array items)
  | object {members : List (String × Json)} :
    (∀ m ∈ members, Numberless m.2) → Numberless (.object members)

/-! ### Blanks -/

theorem skipBlanks_cons {c : Char} (h : isBlank c = false) (cs : List Char) :
    skipBlanks (c :: cs) = c :: cs := by
  simp [skipBlanks, h]

@[simp] theorem skipBlanks_newline (depth : Nat) (cs : List Char) :
    skipBlanks (newline depth ++ cs) = skipBlanks cs := by
  refine List.dropWhile_append_of_pos fun c hc => ?_
  rcases List.mem_cons.mp hc with rfl | hc
  · rfl
  · rw [List.eq_of_mem_replicate hc]
    rfl

theorem readValue_newline (fuel depth : Nat) (cs : List Char) :
    readValue fuel (newline depth ++ cs) = readValue fuel cs := by
  cases fuel with
  | zero => rfl
  | succ fuel => simp only [readValue, skipBlanks_newline]

theorem readValue_space (fuel : Nat) (cs : List Char) :
    readValue fuel (' ' :: cs) = readValue fuel cs := by
  cases fuel with
  | zero => rfl
  | succ fuel => rfl

theorem readItems_newline (fuel depth : Nat) (cs : List Char) :
    readItems fuel (newline depth ++ cs) = readItems fuel cs := by
  cases fuel with
  | zero => rfl
  | succ fuel => simp only [readItems, readValue_newline]

theorem readMembers_newline (fuel depth : Nat) (cs : List Char) :
    readMembers fuel (newline depth ++ cs) = readMembers fuel cs := by
  cases fuel with
  | zero => rfl
  | succ fuel => simp only [readMembers, skipBlanks_newline]

/-! ### Values -/

theorem prettyItems_eq_map (depth : Nat) (items : List Json) :
    prettyItems depth items = items.map (prettyChars depth) := by
  induction items with
  | nil => rfl
  | cons item items ih => rw [prettyItems, ih, List.map_cons]

/-- The indented form of one member of an object. -/
def prettyMember (depth : Nat) (member : String × Json) : List Char :=
  Text.quoteChars member.1.toList ++ ':' :: ' ' :: prettyChars depth member.2

theorem prettyMembers_eq_map (depth : Nat) (members : List (String × Json)) :
    prettyMembers depth members = members.map (prettyMember depth) := by
  induction members with
  | nil => rfl
  | cons member members ih => rw [prettyMembers, ih, List.map_cons, prettyMember]

/-- A quoted string is read back, and the text behind it is left. -/
theorem readString_quoteChars (s : String) (rest : List Char) :
    readString (Text.quoteChars s.toList ++ rest) = some (s, rest) := by
  simp [readString, Text.readLiteral_quoteChars]

/-- A value begins with a character that is no blank and closes no array. -/
theorem Numberless.exists_head {j : Json} (h : Numberless j) (depth : Nat) :
    ∃ c cs, prettyChars depth j = c :: cs ∧ isBlank c = false ∧ c ≠ ']' := by
  have hblock : ∀ (opening closing : Char) (items : List (List Char)),
      ∃ cs, block opening closing depth items = opening :: cs := by
    intro opening closing items
    unfold block
    split <;> exact ⟨_, rfl⟩
  cases h with
  | null => exact ⟨_, _, rfl, by decide, by decide⟩
  | bool b => cases b <;> exact ⟨_, _, rfl, by decide, by decide⟩
  | string s => exact ⟨_, _, rfl, by decide, by decide⟩
  | @array items _ =>
      obtain ⟨cs, hcs⟩ := hblock '[' ']' (prettyItems (depth + 1) items)
      exact ⟨'[', cs, hcs, by decide, by decide⟩
  | @object members _ =>
      obtain ⟨cs, hcs⟩ := hblock '\x7b' '\x7d' (prettyMembers (depth + 1) members)
      exact ⟨'\x7b', cs, hcs, by decide, by decide⟩

/-- The indented form of a value is read as that value, by a reader that has a step for each of its
characters and one more. -/
def ReadsBack (j : Json) : Prop :=
  ∀ (depth fuel : Nat) (rest : List Char), (prettyChars depth j).length ≤ fuel →
    readValue (fuel + 1) (prettyChars depth j ++ rest) = some (j, rest)

/-- One item of an array: what follows it decides how the reader goes on. -/
theorem readItems_pretty {j : Json} (h : ReadsBack j) {depth fuel : Nat}
    (hfuel : (prettyChars depth j).length ≤ fuel) (rest : List Char) :
    readItems (fuel + 2) (prettyChars depth j ++ rest) =
      match skipBlanks rest with
      | ',' :: rest => (readItems (fuel + 1) rest).map fun (items, rest) => (j :: items, rest)
      | ']' :: rest => some ([j], rest)
      | _ => none := by
  rw [readItems, h depth fuel rest hfuel]
  rfl

/-- One member of an object: what follows it decides how the reader goes on. -/
theorem readMembers_pretty {m : String × Json} (h : ReadsBack m.2) {depth fuel : Nat}
    (hfuel : (prettyMember depth m).length ≤ fuel) (rest : List Char) :
    readMembers (fuel + 2) (prettyMember depth m ++ rest) =
      match skipBlanks rest with
      | ',' :: rest => (readMembers (fuel + 1) rest).map fun (members, rest) => (m :: members, rest)
      | '\x7d' :: rest => some ([m], rest)
      | _ => none := by
  have htext : prettyMember depth m ++ rest =
      Text.quoteChars m.1.toList ++ ':' :: (' ' :: (prettyChars depth m.2 ++ rest)) := by
    simp [prettyMember]
  have hname : skipBlanks (prettyMember depth m ++ rest) = prettyMember depth m ++ rest := rfl
  have hvalue :
      readValue (fuel + 1) (' ' :: (prettyChars depth m.2 ++ rest)) = some (m.2, rest) := by
    rw [readValue_space]
    refine h depth fuel rest ?_
    simp only [prettyMember, List.length_append, List.length_cons] at hfuel
    omega
  rw [readMembers, hname, htext, readString_quoteChars]
  change (readValue (fuel + 1) (' ' :: (prettyChars depth m.2 ++ rest))).bind _ = _
  rw [hvalue]
  rfl

/-- Texts with a comma and a new line between them. -/
def rows (depth : Nat) (texts : List (List Char)) : List Char :=
  List.intercalate (',' :: newline depth) texts

theorem rows_singleton (depth : Nat) (text : List Char) : rows depth [text] = text :=
  List.intercalate_singleton

theorem rows_cons_cons (depth : Nat) (text text' : List Char) (texts : List (List Char)) :
    rows depth (text :: text' :: texts) =
      text ++ ',' :: (newline depth ++ rows depth (text' :: texts)) := by
  rw [rows, List.intercalate_cons_cons, List.append_assoc]
  rfl

theorem exists_rows_eq_append (depth : Nat) (text : List Char) (texts : List (List Char)) :
    ∃ cs, rows depth (text :: texts) = text ++ cs := by
  cases texts with
  | nil => exact ⟨[], by rw [rows_singleton, List.append_nil]⟩
  | cons text' texts => exact ⟨_, rows_cons_cons depth text text' texts⟩

/-- A block that is not empty puts its rows between the brackets, one step further in. -/
theorem block_of_ne_nil (opening closing : Char) (depth : Nat) {texts : List (List Char)}
    (h : texts ≠ []) :
    block opening closing depth texts =
      opening ::
        (newline (depth + 1) ++ (rows (depth + 1) texts ++ (newline depth ++ [closing]))) := by
  rw [block, if_neg (by simpa using h)]
  simp [rows]

/-- **Things in rows** are read one by one, and then the mark that closes them: by a reader that
goes on after a comma, and stops at that mark. -/
theorem read_rows {α : Type} {read : Nat → List Char → Option (List α × List Char)}
    {text : α → List Char} {closing : Char} {xs : List α}
    (hlast : ∀ x ∈ xs, ∀ fuel outer rest, (text x).length ≤ fuel →
      read (fuel + 2) (text x ++ (newline outer ++ closing :: rest)) = some ([x], rest))
    (hmore : ∀ x ∈ xs, ∀ fuel inner rest, (text x).length ≤ fuel →
      read (fuel + 2) (text x ++ ',' :: (newline inner ++ rest)) =
        (read (fuel + 1) rest).map fun (ys, rest) => (x :: ys, rest))
    (hne : xs ≠ []) (inner outer fuel : Nat) (rest : List Char)
    (hfuel : (rows inner (xs.map text)).length ≤ fuel) :
    read (fuel + 2) (rows inner (xs.map text) ++ (newline outer ++ closing :: rest)) =
      some (xs, rest) := by
  induction xs generalizing fuel with
  | nil => exact absurd rfl hne
  | cons x xs ih =>
      rw [List.forall_mem_cons] at hlast hmore
      cases xs with
      | nil =>
          rw [List.map_singleton, rows_singleton] at hfuel ⊢
          exact hlast.1 fuel outer rest hfuel
      | cons x' xs =>
          rw [List.map_cons, List.map_cons, rows_cons_cons, ← List.map_cons] at hfuel ⊢
          simp only [List.length_append, List.length_cons] at hfuel
          -- each row costs one step of the reader, and has a comma that pays for it
          obtain ⟨fuel, rfl⟩ : ∃ n, fuel = n + 1 := ⟨fuel - 1, by omega⟩
          rw [List.append_assoc, List.cons_append, List.append_assoc,
            hmore.1 (fuel + 1) inner _ (by omega),
            ih hlast.2 hmore.2 (by simp) fuel (by omega), Option.map_some]

/-- The items of an array, and the mark that closes it. -/
theorem readItems_rows {items : List Json} (h : ∀ j ∈ items, ReadsBack j) (hne : items ≠ [])
    (inner outer fuel : Nat) (rest : List Char)
    (hfuel : (rows inner (items.map (prettyChars inner))).length ≤ fuel) :
    readItems (fuel + 2)
        (rows inner (items.map (prettyChars inner)) ++ (newline outer ++ ']' :: rest)) =
      some (items, rest) := by
  refine read_rows (fun j hj fuel outer rest hfuel => ?_) (fun j hj fuel inner rest hfuel => ?_)
    hne inner outer fuel rest hfuel
  · rw [readItems_pretty (h j hj) hfuel, skipBlanks_newline]
    rfl
  · rw [readItems_pretty (h j hj) hfuel, skipBlanks_cons (by decide)]
    simp only [readItems_newline]

/-- The members of an object, and the mark that closes it. -/
theorem readMembers_rows {members : List (String × Json)} (h : ∀ m ∈ members, ReadsBack m.2)
    (hne : members ≠ []) (inner outer fuel : Nat) (rest : List Char)
    (hfuel : (rows inner (members.map (prettyMember inner))).length ≤ fuel) :
    readMembers (fuel + 2)
        (rows inner (members.map (prettyMember inner)) ++ (newline outer ++ '\x7d' :: rest)) =
      some (members, rest) := by
  refine read_rows (fun m hm fuel outer rest hfuel => ?_) (fun m hm fuel inner rest hfuel => ?_)
    hne inner outer fuel rest hfuel
  · rw [readMembers_pretty (h m hm) hfuel, skipBlanks_newline]
    rfl
  · rw [readMembers_pretty (h m hm) hfuel, skipBlanks_cons (by decide)]
    simp only [readMembers_newline]

/-- An array that is not empty: its first item does not begin with the mark that closes it. -/
theorem readValue_array {fuel depth : Nat} {c : Char} {cs rest : List Char} {items : List Json}
    (hblank : isBlank c = false) (hc : c ≠ ']')
    (h : readItems fuel (c :: cs) = some (items, rest)) :
    readValue (fuel + 1) ('[' :: (newline depth ++ c :: cs)) = some (.array items, rest) := by
  have hopen :
      skipBlanks ('[' :: (newline depth ++ c :: cs)) = '[' :: (newline depth ++ c :: cs) := rfl
  rw [readValue, hopen]
  simp only [skipBlanks_newline, skipBlanks_cons hblank]
  split
  · next e => exact absurd (List.cons.inj e).1 hc
  · rw [h, Option.map_some]

/-- An object that is not empty: its first member begins with a quotation mark. -/
theorem readValue_object {fuel depth : Nat} {cs rest : List Char} {members : List (String × Json)}
    (h : readMembers fuel ('"' :: cs) = some (members, rest)) :
    readValue (fuel + 1) ('\x7b' :: (newline depth ++ '"' :: cs)) =
      some (.object members, rest) := by
  have hopen : skipBlanks ('\x7b' :: (newline depth ++ '"' :: cs)) =
      '\x7b' :: (newline depth ++ '"' :: cs) := rfl
  rw [readValue, hopen]
  simp only [skipBlanks_newline, skipBlanks_cons (show isBlank '"' = false by decide)]
  split
  · next e => exact absurd (List.cons.inj e).1 (by decide)
  · rw [h, Option.map_some]

/-- **A value without numbers** is read back from its indented form, at any depth and before any
text.  The induction is on the value; arrays and objects go through `readItems_rows` and
`readMembers_rows`. -/
theorem Numberless.readsBack {j : Json} (h : Numberless j) : ReadsBack j := by
  induction h with
  | null => intro depth fuel rest _; rfl
  | bool b => intro depth fuel rest _; cases b <;> rfl
  | string s =>
      intro depth fuel rest _
      exact congrArg (Option.map _) (readString_quoteChars s rest)
  | @array items h ih =>
      intro depth fuel rest hfuel
      cases items with
      | nil => rfl
      | cons j items =>
          -- the first item begins with a character that is no blank and does not close the array
          obtain ⟨c, cs, hhead, hblank, hc⟩ := (h j (by simp)).exists_head (depth + 1)
          obtain ⟨ys, hys⟩ := exists_rows_eq_append (depth + 1) (prettyChars (depth + 1) j)
            (items.map (prettyChars (depth + 1)))
          rw [prettyChars, prettyItems_eq_map, block_of_ne_nil _ _ _ (by simp)] at hfuel ⊢
          simp only [List.length_append, List.length_cons] at hfuel
          obtain ⟨fuel, rfl⟩ : ∃ n, fuel = n + 2 := ⟨fuel - 2, by omega⟩
          have hitems := readItems_rows ih (by simp) (depth + 1) depth fuel rest (by omega)
          rw [List.map_cons, hys, hhead] at hitems ⊢
          simp only [List.cons_append, List.append_assoc, List.nil_append] at hitems ⊢
          exact readValue_array hblank hc hitems
  | @object members h ih =>
      intro depth fuel rest hfuel
      cases members with
      | nil => rfl
      | cons m members =>
          obtain ⟨ys, hys⟩ := exists_rows_eq_append (depth + 1) (prettyMember (depth + 1) m)
            (members.map (prettyMember (depth + 1)))
          rw [prettyChars, prettyMembers_eq_map, block_of_ne_nil _ _ _ (by simp)] at hfuel ⊢
          simp only [List.length_append, List.length_cons] at hfuel
          obtain ⟨fuel, rfl⟩ : ∃ n, fuel = n + 2 := ⟨fuel - 2, by omega⟩
          have hmembers := readMembers_rows ih (by simp) (depth + 1) depth fuel rest (by omega)
          rw [List.map_cons, hys, prettyMember, Text.quoteChars] at hmembers ⊢
          simp only [List.cons_append, List.append_assoc, List.nil_append] at hmembers ⊢
          exact readValue_object hmembers

/-- **A value without numbers is read back** from its indented form, with nothing left over. -/
theorem Numberless.ofText?_pretty {j : Json} (h : Numberless j) : ofText? j.pretty = some j := by
  have hread : readValue (j.pretty.length + 1) j.pretty.toList = some (j, []) := by
    have hback := h.readsBack 0 j.pretty.length []
    rw [pretty, String.length_ofList, String.toList_ofList] at *
    simpa using hback
  rw [ofText?, hread]
  rfl

end Json

/-! ### Contracts -/

theorem mapM_map_eq_some {α β : Type} {f : β → Option α} {g : α → β} (h : ∀ x, f (g x) = some x)
    (xs : List α) : (xs.map g).mapM f = some xs := by
  induction xs with
  | nil => rfl
  | cons x xs ih => simp [h, ih]

theorem ValueType.ofName?_name (t : ValueType) : ofName? t.name = some t := by
  cases t <;> rfl

theorem Procedure.ofJson?_toJson (p : Procedure) : ofJson? p.toJson = some p := by
  have hargs : (Json.ofNames p.args).names? = some p.args := by
    rw [Json.ofNames, Json.names?]
    refine mapM_map_eq_some (fun a => ?_) p.args
    rfl
  simp [toJson, ofJson?, hargs]

theorem Field.ofJson?_toJson (f : Field) : ofJson? f.toJson = some f := by
  simp [toJson, ofJson?, ValueType.ofName?_name]

/-- A declaration is read back from its value, in which the kind of the declaration is spelt out. -/
theorem Declaration.ofJson?_toJson (d : Declaration) : ofJson? d.toJson = some d := by
  cases d with
  | service s =>
      simp [toJson, ofJson?, Keyword.text, mapM_map_eq_some Procedure.ofJson?_toJson]
  | message m =>
      simp [toJson, ofJson?, Keyword.text, mapM_map_eq_some Field.ofJson?_toJson]

/-- **A contract is read back** from its value: every part of it is a member of some object there,
under a name of its own. -/
theorem Contract.ofJson?_toJson (c : Contract) : ofJson? c.toJson = some c := by
  simp [toJson, ofJson?, mapM_map_eq_some Declaration.ofJson?_toJson]

open Json (Numberless)

theorem numberless_array_map {α : Type} {g : α → Json} (h : ∀ x, Numberless (g x)) (xs : List α) :
    Numberless (.array (xs.map g)) := by
  refine .array fun j hj => ?_
  obtain ⟨x, -, rfl⟩ := List.mem_map.mp hj
  exact h x

theorem Procedure.numberless_toJson (p : Procedure) : Numberless p.toJson := by
  have hargs : Numberless (.ofNames p.args) := numberless_array_map .string p.args
  exact .object (by simp [Numberless.string, hargs])

theorem Field.numberless_toJson (f : Field) : Numberless f.toJson :=
  .object (by simp [Numberless.string])

theorem Declaration.numberless_toJson (d : Declaration) : Numberless d.toJson := by
  cases d with
  | service s =>
      have hprocedures := numberless_array_map Procedure.numberless_toJson s.procedures
      exact .object (by simp [Numberless.string, hprocedures])
  | message m =>
      have hfields := numberless_array_map Field.numberless_toJson m.fields
      exact .object (by simp [Numberless.string, hfields])

/-- Contracts hold names and lists, so their values hold no numbers. -/
theorem Contract.numberless_toJson (c : Contract) : Numberless c.toJson := by
  have hdeclarations := numberless_array_map Declaration.numberless_toJson c.declarations
  exact .object (by simp [hdeclarations])

theorem Contract.ofText?_toText (c : Contract) : Json.ofText? c.toText = some c.toJson :=
  c.numberless_toJson.ofText?_pretty

/-- Contracts with the same text are the same. -/
theorem Contract.toText_injective : Function.Injective toText := by
  intro c d h
  have hjson : some c.toJson = some d.toJson := by rw [← ofText?_toText, h, ofText?_toText]
  have hback : some c = some d := by
    rw [← ofJson?_toJson c, Option.some.inj hjson, ofJson?_toJson]
  exact Option.some.inj hback

/-- **The JSON form can be read back.**  The text of a contract, whatever its names are, is read as
the contract's JSON value with nothing left over, and the contract can be taken from that value.
So the text determines the contract: two texts compile to the same contract if and only if their
contracts have the same JSON text. -/
theorem Contract.toText_decodes :
    (∀ c : Contract, Json.ofText? c.toText = some c.toJson ∧ ofJson? c.toJson = some c) ∧
    Function.Injective toText ∧
    ∀ (a b : String) (c d : Contract), compile a = .ok c → compile b = .ok d →
      (c = d ↔ c.toText = d.toText) := by
  refine ⟨fun c => ⟨c.ofText?_toText, c.ofJson?_toJson⟩, toText_injective, ?_⟩
  intro a b c d _ _
  exact toText_injective.eq_iff.symm

/-- The connector and the layout leave no trace in the JSON text, but the order of the declarations
does. -/
theorem Contract.toText_in_order :
    ∃ c d : Contract,
      compile "msg A\x7b\x7d srv S\x7bproc p(A) to R;\x7d" = .ok c ∧
      compile "msg A \x7b \x7d\nsrv S \x7b\n  proc p(A) -> R;\n\x7d" = .ok c ∧
      compile "srv S\x7bproc p(A) to R;\x7d msg A\x7b\x7d" = .ok d ∧
      c.toText ≠ d.toText := by
  let s : Declaration := .service ⟨"S", [⟨"p", ["A"], "R"⟩]⟩
  let m : Declaration := .message ⟨"A", []⟩
  have hc : compile "msg A\x7b\x7d srv S\x7bproc p(A) to R;\x7d" = .ok ⟨[m, s]⟩ := rfl
  have hd : compile "srv S\x7bproc p(A) to R;\x7d msg A\x7b\x7d" = .ok ⟨[s, m]⟩ := rfl
  have hne : (⟨[m, s]⟩ : Contract) ≠ ⟨[s, m]⟩ := by decide
  exact ⟨⟨[m, s]⟩, ⟨[s, m]⟩, hc, rfl, hd, mt (toText_decodes.2.2 _ _ _ _ hc hd).mpr hne⟩

end RpcContract
