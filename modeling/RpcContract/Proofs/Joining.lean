import Mathlib.Data.List.Lattice
import Mathlib.Data.List.Nodup
import RpcContract.Proofs.Compiling
import RpcContract.Proofs.Seams

/-!
# Proofs — contracts in several texts

Texts that parse one by one can be joined by line feeds.  Their tokens then stand one after another,
and spell the declarations of their contracts one after another (`Contract.concat`).  The joined
text compiles when the contracts are *compatible*: no two of them declare services of one name or
messages of one name, and every argument is a message of some of them.  Names inside a service or a
message are settled by each text alone, and a message may be declared before or after its use, so
the order of the texts plays no part.
-/

namespace RpcContract

open Grammar

/-- The declarations of several contracts, as one contract. -/
def Contract.concat (cs : List Contract) : Contract :=
  ⟨cs.flatMap (·.declarations)⟩

/-- Contracts that can stand together: what is said of all of them holds whatever their order. -/
structure Contract.Compatible (cs : List Contract) : Prop where
  /-- No two of them declare services of one name. -/
  services : cs.Pairwise fun c d => c.serviceNames.Disjoint d.serviceNames
  /-- No two of them declare messages of one name. -/
  messages : cs.Pairwise fun c d => c.messageNames.Disjoint d.messageNames
  /-- Every argument is a message of some of them. -/
  references : ∀ c ∈ cs, ∀ s ∈ c.services, ∀ p ∈ s.procedures, ∀ a ∈ p.args,
    ∃ d ∈ cs, a ∈ d.messageNames

namespace Contract

theorem services_concat (cs : List Contract) : (concat cs).services = cs.flatMap (·.services) :=
  List.filterMap_flatMap

theorem messages_concat (cs : List Contract) : (concat cs).messages = cs.flatMap (·.messages) :=
  List.filterMap_flatMap

theorem serviceNames_concat (cs : List Contract) :
    (concat cs).serviceNames = cs.flatMap (·.serviceNames) := by
  rw [serviceNames, services_concat, List.map_flatMap]
  rfl

theorem messageNames_concat (cs : List Contract) :
    (concat cs).messageNames = cs.flatMap (·.messageNames) := by
  rw [messageNames, messages_concat, List.map_flatMap]
  rfl

/-- Contracts within the limits keep within them together, unless two of them share a name. -/
theorem limited_concat_iff {cs : List Contract} (h : ∀ c ∈ cs, c.Limited) :
    (concat cs).Limited ↔
      cs.Pairwise (fun c d => c.serviceNames.Disjoint d.serviceNames) ∧
        cs.Pairwise fun c d => c.messageNames.Disjoint d.messageNames := by
  have hs : (concat cs).serviceNames.Nodup ↔
      cs.Pairwise fun c d => c.serviceNames.Disjoint d.serviceNames := by
    rw [serviceNames_concat, List.nodup_flatMap]
    exact and_iff_right fun c hc => (h c hc).services
  have hm : (concat cs).messageNames.Nodup ↔
      cs.Pairwise fun c d => c.messageNames.Disjoint d.messageNames := by
    rw [messageNames_concat, List.nodup_flatMap]
    exact and_iff_right fun c hc => (h c hc).messages
  rw [← hs, ← hm]
  refine ⟨fun hc => ⟨hc.services, hc.messages⟩, fun ⟨hsn, hmn⟩ => ⟨hsn, hmn, ?_, ?_, ?_⟩⟩
  · rw [services_concat, List.forall_mem_flatMap]
    exact fun c hc => (h c hc).procedures
  · rw [messages_concat, List.forall_mem_flatMap]
    exact fun c hc => (h c hc).fields
  · rw [services_concat, List.forall_mem_flatMap]
    exact fun c hc => (h c hc).arity

/-- The references of joined contracts are sound when each names a message of some of them,
whichever that is. -/
theorem references_concat_iff {cs : List Contract} :
    (∀ s ∈ (concat cs).services, ∀ p ∈ s.procedures, ∀ a ∈ p.args,
        a ∈ (concat cs).messageNames) ↔
      ∀ c ∈ cs, ∀ s ∈ c.services, ∀ p ∈ s.procedures, ∀ a ∈ p.args,
        ∃ d ∈ cs, a ∈ d.messageNames := by
  rw [services_concat, messageNames_concat, List.forall_mem_flatMap]
  simp only [List.mem_flatMap]

/-- The order of contracts that can stand together does not matter. -/
theorem Compatible.perm {cs ds : List Contract} (h : cs.Perm ds) (hc : Compatible cs) :
    Compatible ds := by
  refine ⟨(h.pairwise_iff List.Disjoint.symm).mp hc.services,
    (h.pairwise_iff List.Disjoint.symm).mp hc.messages, fun c hmem s hs p hp a ha => ?_⟩
  obtain ⟨d, hd, had⟩ := hc.references c (h.mem_iff.mpr hmem) s hs p hp a ha
  exact ⟨d, h.mem_iff.mp hd, had⟩

end Contract

open Contract

/-- A text that parses has tokens, and they spell a contract within the limits. -/
theorem exists_tokens_of_parse {text : String} {c : Contract} (h : parse text = .ok c) :
    ∃ ts, tokenize text = .ok (ts ++ [.endOfInput]) ∧ Spells ts c ∧ c.Limited := by
  obtain ⟨ts, hnames, hlayout, hspells, hlimited⟩ := parse_eq_ok_iff.mp h
  exact ⟨ts, tokenize_eq_ok_iff.mpr ⟨ts, rfl, hnames, hlayout⟩, hspells, hlimited⟩

/-- Texts, each on lines of its own. -/
def joined (texts : List String) : String :=
  "\n".intercalate texts

/-- The tokens of joined texts spell the declarations of all of them. -/
theorem exists_tokens_of_joined {blocks : List (String × Contract)}
    (h : ∀ b ∈ blocks, parse b.1 = .ok b.2) :
    ∃ ts, tokenize (joined (blocks.map (·.1))) = .ok (ts ++ [.endOfInput]) ∧
      Spells ts (concat (blocks.map (·.2))) := by
  induction blocks with
  | nil => exact ⟨[], rfl, .nil⟩
  | cons b blocks ih =>
      rw [List.forall_mem_cons] at h
      obtain ⟨ts, hts, hspells, -⟩ := exists_tokens_of_parse h.1
      obtain ⟨us, hus, hrest⟩ := ih h.2
      have hall : Spells (ts ++ us) (concat ((b :: blocks).map (·.2))) :=
        Reader.many_append hspells hrest
      -- a line feed stands before every text but the first
      cases blocks with
      | nil =>
          have hnil : us = [] := by
            have e : [] ++ [Token.endOfInput] = us ++ [.endOfInput] := Except.ok.inj hus
            exact (List.append_cancel_right e).symm
          refine ⟨ts, by simpa [joined] using hts, ?_⟩
          simpa [hnil] using hall
      | cons b' blocks =>
          refine ⟨ts ++ us, ?_, hall⟩
          rw [joined, List.map_cons, List.map_cons, String.intercalate_cons_cons]
          exact tokenize_lineFeed hts hus

/-- Texts that can be read by themselves are read, joined by line breaks, as the joined contracts,
if these keep to the limits together. -/
theorem parse_joined_iff {blocks : List (String × Contract)}
    (h : ∀ b ∈ blocks, parse b.1 = .ok b.2) {c : Contract} :
    parse (joined (blocks.map (·.1))) = .ok c ↔
      c = concat (blocks.map (·.2)) ∧ c.Limited := by
  obtain ⟨ts, hts, hspells⟩ := exists_tokens_of_joined h
  rw [parse, hts]
  change ofTokens (ts ++ [.endOfInput]) = .ok c ↔ _
  rw [ofTokens_eq_ok_iff,
    takeWhile_append_endOfInput (Reader.endOfInput_not_mem_of_spells hspells)]
  refine and_congr_left' ⟨fun hc => Reader.spells_unique hc hspells, ?_⟩
  rintro rfl
  exact hspells

/-- Joined texts compile to their contracts together, if these can stand together. -/
theorem compile_joined_iff {blocks : List (String × Contract)}
    (h : ∀ b ∈ blocks, parse b.1 = .ok b.2) {c : Contract} :
    compile (joined (blocks.map (·.1))) = .ok c ↔
      Compatible (blocks.map (·.2)) ∧ c = concat (blocks.map (·.2)) := by
  have hlimited : ∀ d ∈ blocks.map (·.2), d.Limited := by
    intro d hd
    obtain ⟨b, hb, rfl⟩ := List.mem_map.mp hd
    obtain ⟨-, -, -, hl⟩ := exists_tokens_of_parse (h b hb)
    exact hl
  rw [compile_eq_ok_iff, parse_joined_iff h]
  constructor
  · rintro ⟨⟨rfl, hl⟩, hrefs⟩
    obtain ⟨hs, hm⟩ := (limited_concat_iff hlimited).mp hl
    exact ⟨⟨hs, hm, references_concat_iff.mp hrefs⟩, rfl⟩
  · rintro ⟨hc, rfl⟩
    exact ⟨⟨rfl, (limited_concat_iff hlimited).mpr ⟨hc.services, hc.messages⟩⟩,
      references_concat_iff.mpr hc.references⟩

/-- **Texts compose.**  Texts that parse one by one compile together exactly when their contracts
are compatible, and then to the declarations of all of them in order.  So in any other order they
compile if and only if they do in this one, to the declarations of the same contracts in that
order. -/
theorem compile_joined (blocks : List (String × Contract))
    (h : ∀ b ∈ blocks, parse b.1 = .ok b.2) :
    (∀ c, compile (joined (blocks.map (·.1))) = .ok c ↔
      Compatible (blocks.map (·.2)) ∧ c = concat (blocks.map (·.2))) ∧
    ∀ blocks' : List (String × Contract), blocks'.Perm blocks →
      ((∃ c, compile (joined (blocks'.map (·.1))) = .ok c) ↔
        ∃ c, compile (joined (blocks.map (·.1))) = .ok c) ∧
      ∀ c, compile (joined (blocks'.map (·.1))) = .ok c → c = concat (blocks'.map (·.2)) := by
  refine ⟨fun _ => compile_joined_iff h, fun blocks' hperm => ?_⟩
  have h' : ∀ b ∈ blocks', parse b.1 = .ok b.2 := fun b hb => h b (hperm.mem_iff.mp hb)
  refine ⟨?_, fun c hc => ((compile_joined_iff h').mp hc).2⟩
  simp only [compile_joined_iff h, compile_joined_iff h', exists_and_left, exists_eq, and_true]
  exact ⟨.perm (hperm.map _), .perm (hperm.symm.map _)⟩

/-- A service and the message that it uses, in two texts of which either may come first. -/
theorem compile_joined_either_way :
    ∃ s m : Contract, s.serviceNames = ["A"] ∧ m.messageNames = ["A"] ∧
      compile "srv A\x7bproc f(A,A)-> R;\x7d\r\n\nmsg A\x7bx unit;\x7d" = .ok (concat [s, m]) ∧
      compile "msg A\x7bx unit;\x7d\nsrv A\x7bproc f(A,A)-> R;\x7d\r\n" = .ok (concat [m, s]) := by
  let s : Contract := ⟨[.service ⟨"A", [⟨"f", ["A", "A"], "R"⟩]⟩]⟩
  let m : Contract := ⟨[.message ⟨"A", [⟨"x", .unit⟩]⟩]⟩
  have hs : parse "srv A\x7bproc f(A,A)-> R;\x7d\r\n" = .ok s := rfl
  have hm : parse "msg A\x7bx unit;\x7d" = .ok m := rfl
  let blocks := [("srv A\x7bproc f(A,A)-> R;\x7d\r\n", s), ("msg A\x7bx unit;\x7d", m)]
  have hparse : ∀ b ∈ blocks, parse b.1 = .ok b.2 :=
    List.forall_mem_cons.mpr ⟨hs, List.forall_mem_singleton.mpr hm⟩
  have hcompatible : Compatible [s, m] := by
    refine ⟨List.pairwise_pair.mpr ?_, List.pairwise_pair.mpr ?_, by decide⟩
    · exact List.disjoint_nil_right _
    · exact List.disjoint_nil_left _
  obtain ⟨hjoin, horder⟩ := compile_joined blocks hparse
  have hok : compile (joined (blocks.map (·.1))) = .ok (concat [s, m]) :=
    (hjoin _).mpr ⟨hcompatible, rfl⟩
  obtain ⟨hiff, hcontract⟩ := horder blocks.reverse (List.reverse_perm blocks)
  obtain ⟨c, hc⟩ := hiff.mpr ⟨_, hok⟩
  exact ⟨s, m, rfl, rfl, hok, hcontract c hc ▸ hc⟩

end RpcContract
