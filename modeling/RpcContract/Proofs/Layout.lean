import RpcContract.Contract.Rules
import RpcContract.Proofs.Runs
import RpcContract.Token.Lexer

/-!
# Proofs — layouts

A *layout* of tokens is a text in which they stand in order, with blanks before, between and after
them.  Blanks are spaces and line breaks; two tokens need none between them when one of them is a
delimiter.  `tokenize_eq_ok_iff` says that a text has the tokens of which it is a layout, and no
others.  A text that is a layout of none is refused for its leftmost run that is neither a word nor
an arrow (`exists_leftmost_of_tokenize`).
-/

namespace RpcContract

open Fragment

/-- A token whose text is a delimiter. -/
def Token.isDelimiter : Token → Bool
  | .semicolon | .comma | .lparen | .rparen | .lbrace | .rbrace => true
  | _ => false

/-- Spaces and line breaks, or nothing. -/
inductive Blank : List Char → Prop where
  | nil : Blank []
  | cons {p s : List Char} : Separator p → Blank s → Blank (p ++ s)

/-- The text of each token, with blanks after it: some at least between two tokens of which neither
is a delimiter. -/
inductive Spread : List Token → List Char → Prop where
  | nil : Spread [] []
  | cons {t : Token} {ts : List Token} {w : String} {s cs : List Char} :
    t.text? = some w → Blank s →
    (∀ u ∈ ts.head?, t.isDelimiter = false → u.isDelimiter = false → s ≠ []) →
    Spread ts cs → Spread (t :: ts) (w.toList ++ s ++ cs)

/-- A text that holds the tokens and blanks. -/
def IsLayout (ts : List Token) (text : List Char) : Prop :=
  ∃ s cs, Blank s ∧ Spread ts cs ∧ text = s ++ cs

/-! ### Tokens and fragments -/

/-- A word character never ends a run: it is no delimiter, no space and no part of a line break. -/
theorem not_ends_of_isWordChar {c : Char} (h : isWordChar c = true) (rest : List Char) :
    ¬ Ends c rest := by
  have hd : ∀ d ∈ delimiters, isWordChar d = false := forall_delimiters.mpr (by decide)
  rintro (rfl | rfl | ⟨rfl, -⟩ | hc)
  · exact absurd h (by decide)
  · exact absurd h (by decide)
  · exact absurd h (by decide)
  · rw [hd c hc] at h
    cases h

theorem unbroken_of_isWord {w : List Char} (h : isWord w = true) (rest : List Char) :
    Unbroken w rest := by
  have hall : ∀ c ∈ w, isWordChar c = true := by
    simpa using (Bool.and_eq_true_iff.mp h).2
  clear h
  induction w with
  | nil => trivial
  | cons c w ih =>
      rw [List.forall_mem_cons] at hall
      exact ⟨not_ends_of_isWordChar hall.1 _, ih hall.2⟩

theorem ne_nil_of_isWord {w : List Char} (h : isWord w = true) : w ≠ [] := by
  rintro rfl
  cases h

theorem unbroken_arrow (rest : List Char) : Unbroken ['-', '>'] rest := by
  simp [Unbroken, Ends, delimiters]

/-- The three kinds of fragments that are tokens: words, the arrow, and delimiters alone. -/
theorem isToken_iff {f : List Char} :
    isToken f = true ↔ isWord f = true ∨ f = ['-', '>'] ∨ ∃ d ∈ delimiters, f = [d] := by
  simp [isToken, or_assoc]

namespace Token

theorem ofText_eq_ident {w : String} (h : ∀ t ∈ reserved, t.text? ≠ some w) :
    ofText w = .ident w := by
  have hnone : reserved.find? (·.text? == some w) = none :=
    List.find?_eq_none.mpr fun t ht => by simpa using h t ht
  rw [ofText, hnone]
  rfl

/-- A text is read as a token of that text. -/
theorem text?_ofText (w : String) : (ofText w).text? = some w := by
  unfold ofText
  cases h : reserved.find? (·.text? == some w) with
  | none => rfl
  | some t => simpa using List.find?_some h

theorem not_reserved_of_ofText {w n : String} (h : ofText w = .ident n) :
    n = w ∧ ∀ t ∈ reserved, t.text? ≠ some w := by
  have hkind : ∀ t ∈ reserved, t.kind ≠ .ident := by decide
  have hn : some n = some w := by rw [← text?_ofText w, h]; rfl
  refine ⟨Option.some.inj hn, fun t ht htw => ?_⟩
  have hsome : (reserved.find? (·.text? == some w)).isSome = true :=
    List.find?_isSome.mpr ⟨t, ht, by simpa using htw⟩
  obtain ⟨u, hu⟩ := Option.isSome_iff_exists.mp hsome
  refine hkind u (List.mem_of_find?_eq_some hu) ?_
  rw [ofText, hu] at h
  exact congrArg kind h

/-- The text of a token is read as that token, provided that an identifier has a name for it. -/
theorem ofText_text {t : Token} {w : String} (h : t.text? = some w)
    (hn : ∀ n, t = .ident n → IsName n) : ofText w = t := by
  cases t with
  | keyword word => cases h; cases word <;> rfl
  | valueType type => cases h; cases type <;> rfl
  | ident => cases h; exact ofText_eq_ident (hn w rfl).2
  | endOfInput => cases h
  | semicolon | comma | lparen | rparen | lbrace | rbrace | arrow => cases h; rfl

/-- The text of a token is a delimiter, a word or an arrow. -/
theorem text_cases {t : Token} {w : String} (h : t.text? = some w)
    (hn : ∀ n, t = .ident n → IsName n) :
    (t.isDelimiter = true ∧ ∃ d ∈ delimiters, w.toList = [d]) ∨
      (t.isDelimiter = false ∧ (isWord w.toList = true ∨ w.toList = ['-', '>'])) := by
  cases t with
  | keyword word => cases h; exact .inr ⟨rfl, .inl (by cases word <;> rfl)⟩
  | valueType type => cases h; exact .inr ⟨rfl, .inl (by cases type <;> rfl)⟩
  | ident => cases h; exact .inr ⟨rfl, .inl (hn w rfl).1⟩
  | endOfInput => cases h
  | arrow => cases h; exact .inr ⟨rfl, .inr rfl⟩
  | semicolon | comma | lparen | rparen | lbrace | rbrace =>
      cases h
      exact .inl ⟨rfl, _, by decide, rfl⟩

/-- The text of a token is a fragment that passes as a token, if identifiers are names. -/
theorem isToken_text {t : Token} {w : String} (h : t.text? = some w)
    (hn : ∀ n, t = .ident n → IsName n) : isToken w.toList = true := by
  rcases text_cases h hn with ⟨-, d, hd, e⟩ | ⟨-, hword | harrow⟩
  · exact isToken_iff.mpr (.inr (.inr ⟨d, hd, e⟩))
  · exact isToken_iff.mpr (.inl hword)
  · exact isToken_iff.mpr (.inr (.inl harrow))

/-- An identifier that is read from a token's text has a name for it. -/
theorem isName_of_ofText {f : List Char} {n : String} (hf : isToken f = true)
    (h : ofText (String.ofList f) = .ident n) : IsName n := by
  obtain ⟨rfl, hres⟩ := not_reserved_of_ofText h
  refine ⟨?_, hres⟩
  have hmark : ∀ d ∈ delimiters, ∃ t ∈ reserved, t.text? = some (String.ofList [d]) :=
    forall_delimiters.mpr (by decide)
  rcases isToken_iff.mp hf with hw | rfl | ⟨d, hd, rfl⟩
  · rwa [String.toList_ofList]
  · exact absurd rfl (hres .arrow (by decide))
  · obtain ⟨t, ht, htd⟩ := hmark d hd
    exact absurd htd (hres t ht)

end Token

/-! ### Layouts and cuts -/

theorem Blank.cut {s cs : List Char} {fs : List (List Char)} (hs : Blank s) (h : Cut cs fs) :
    Cut (s ++ cs) fs := by
  induction hs with
  | nil => exact h
  | cons hp _ ih =>
      rw [List.append_assoc]
      exact .separator hp ih

theorem Blank.stops {s : List Char} (hs : Blank s) (hne : s ≠ []) (cs : List Char) :
    Stops (s ++ cs) := by
  cases hs with
  | nil => exact absurd rfl hne
  | cons hp _ =>
      cases hp with
      | space => exact .inl rfl
      | lineFeed => exact .inr (.inl rfl)
      | carriageReturn => exact .inr (.inr (.inl ⟨rfl, rfl⟩))

theorem unbroken_text {w : List Char} (h : isWord w = true ∨ w = ['-', '>']) :
    w ≠ [] ∧ ∀ rest, Unbroken w rest := by
  rcases h with h | rfl
  · exact ⟨ne_nil_of_isWord h, unbroken_of_isWord h⟩
  · exact ⟨by simp, unbroken_arrow⟩

/-- A run stops before tokens exactly when the first of them is a delimiter. -/
theorem Spread.stops_iff {ts : List Token} {cs : List Char} (h : Spread ts cs)
    (hn : ∀ n, .ident n ∈ ts → IsName n) :
    Stops cs ↔ ∀ t ∈ ts.head?, t.isDelimiter = true := by
  cases h with
  | nil => simp [Stops]
  | @cons t ts w s cs hw _ _ _ =>
      simp only [List.head?_cons, Option.mem_some_iff, forall_eq']
      rcases Token.text_cases hw fun n e => hn n (by simp [e]) with ⟨ht, d, hd, e⟩ | ⟨ht, hword⟩
      · rw [e]
        exact iff_of_true (.inr (.inr (.inr hd))) ht
      · obtain ⟨hne, hu⟩ := unbroken_text hword
        refine iff_of_false (fun hs => hne ?_) (by simp [ht])
        rw [List.append_assoc] at hs
        exact @eq_nil_of_stops [] _ _ (hu _) hs

theorem Spread.endOfInput_not_mem {ts : List Token} {cs : List Char} (h : Spread ts cs) :
    .endOfInput ∉ ts := by
  induction h with
  | nil => simp
  | cons hw _ _ _ ih =>
      rw [List.mem_cons, not_or]
      refine ⟨?_, ih⟩
      rintro rfl
      cases hw

/-- The end of the input has no text, so it is laid out nowhere. -/
theorem IsLayout.endOfInput_not_mem {ts : List Token} {cs : List Char} (h : IsLayout ts cs) :
    .endOfInput ∉ ts := by
  obtain ⟨_, _, _, hspread, _⟩ := h
  exact hspread.endOfInput_not_mem

/-- The identifiers among the tokens of fragments are names, as the other fragments are reserved. -/
theorem isName_of_mem_map {fs : List (List Char)} (hfs : ∀ f ∈ fs, isToken f = true) {n : String}
    (h : .ident n ∈ fs.map (Token.ofText ∘ String.ofList)) : IsName n := by
  obtain ⟨f, hf, e⟩ := List.mem_map.mp h
  exact Token.isName_of_ofText (hfs f hf) e

/-- A layout of tokens is cut into their texts. -/
theorem Spread.cut {ts : List Token} {cs : List Char} (h : Spread ts cs)
    (hn : ∀ n, .ident n ∈ ts → IsName n) :
    ∃ fs, Cut cs fs ∧ (∀ f ∈ fs, isToken f = true) ∧
      fs.map (Token.ofText ∘ String.ofList) = ts := by
  induction h with
  | nil => exact ⟨[], .nil, by simp, rfl⟩
  | @cons t ts w s cs hw hs hgap hrest ih =>
      have hnt : ∀ n, t = .ident n → IsName n := fun n e => hn n (by simp [e])
      obtain ⟨fs, hcut, hfs, rfl⟩ := ih fun n h => hn n (List.mem_cons_of_mem _ h)
      have hof : Token.ofText (String.ofList w.toList) = t := by
        rw [String.ofList_toList]
        exact Token.ofText_text hw hnt
      have hnr : ∀ n, .ident n ∈ fs.map (Token.ofText ∘ String.ofList) → IsName n :=
        fun _ => isName_of_mem_map hfs
      have hall : ∀ f ∈ w.toList :: fs, isToken f = true :=
        List.forall_mem_cons.mpr ⟨Token.isToken_text hw hnt, hfs⟩
      refine ⟨w.toList :: fs, ?_, hall, congrArg (· :: _) hof⟩
      rw [List.append_assoc]
      rcases Token.text_cases hw hnt with ⟨-, d, hd, e⟩ | ⟨hf, hword⟩
      · rw [e]
        exact .delimiter hd (hs.cut hcut)
      · obtain ⟨hne, hu⟩ := unbroken_text hword
        refine .run hne (hu _) ?_ (hs.cut hcut)
        -- the run stops at the blanks, or else the next token is a delimiter
        by_cases hempty : s = []
        · subst hempty
          refine (hrest.stops_iff hnr).mpr fun u hu => ?_
          by_contra hud
          exact hgap u hu hf (by simpa using hud) rfl
        · exact hs.stops hempty cs

/-- A text that is cut into the texts of tokens is a layout of them. -/
theorem layout_of_cut {text : List Char} {fs : List (List Char)} (h : Cut text fs)
    (hfs : ∀ f ∈ fs, isToken f = true) :
    IsLayout (fs.map (Token.ofText ∘ String.ofList)) text := by
  induction h with
  | nil => exact ⟨[], [], .nil, .nil, rfl⟩
  | separator hp _ ih =>
      obtain ⟨s, cs, hs, hspread, rfl⟩ := ih hfs
      exact ⟨_, cs, .cons hp hs, hspread, (List.append_assoc ..).symm⟩
  | @delimiter d _ _ hd _ ih =>
      rw [List.forall_mem_cons] at hfs
      obtain ⟨s, cs, hs, hspread, rfl⟩ := ih hfs.2
      have ht : ∀ d ∈ delimiters, (Token.ofText (String.ofList [d])).isDelimiter = true :=
        forall_delimiters.mpr (by decide)
      have hgap : ∀ {u : Token}, (Token.ofText (String.ofList [d])).isDelimiter = false →
          u.isDelimiter = false → s ≠ [] := fun hf => by
        rw [ht d hd] at hf
        cases hf
      exact ⟨[], _, .nil, .cons (Token.text?_ofText _) hs (fun _ _ => hgap) hspread, by simp⟩
  | @run r cs fs hne hu hstop _ ih =>
      rw [List.forall_mem_cons] at hfs
      obtain ⟨s, cs, hs, hspread, rfl⟩ := ih hfs.2
      refine ⟨[], _, .nil, .cons (Token.text?_ofText _) hs ?_ hspread, by simp⟩
      -- a word or an arrow right behind a run would be part of it
      rintro u hu' - hud rfl
      rw [(hspread.stops_iff fun _ => isName_of_mem_map hfs.2).mp hstop u hu'] at hud
      cases hud

/-! ### The tokens of a text -/

theorem tokenize_of_find?_none {text : String}
    (h : (fragments text.toList).find? (! isToken ·) = none) :
    tokenize text =
      .ok ((fragments text.toList).map (Token.ofText ∘ String.ofList) ++ [.endOfInput]) := by
  simp only [tokenize, h]

theorem tokenize_of_find?_some {text : String} {f : List Char}
    (h : (fragments text.toList).find? (! isToken ·) = some f) :
    tokenize text = .error (.lexical (String.ofList f)) := by
  simp only [tokenize, h]

/-- A text has the tokens of which it is a layout, and then the end of the input. -/
theorem tokenize_eq_ok_iff {text : String} {us : List Token} :
    tokenize text = .ok us ↔
      ∃ ts, us = ts ++ [.endOfInput] ∧ (∀ n, .ident n ∈ ts → IsName n) ∧
        IsLayout ts text.toList := by
  constructor
  · intro h
    cases hfind : (fragments text.toList).find? (! isToken ·) with
    | some f =>
        rw [tokenize_of_find?_some hfind] at h
        cases h
    | none =>
        have hfs : ∀ f ∈ fragments text.toList, isToken f = true := by
          simpa using List.find?_eq_none.mp hfind
        rw [tokenize_of_find?_none hfind] at h
        exact ⟨_, (Except.ok.inj h).symm, fun _ => isName_of_mem_map hfs,
          layout_of_cut (cut_iff.mpr rfl) hfs⟩
  · rintro ⟨ts, rfl, hn, s, cs, hs, hspread, e⟩
    -- a text has one cut, so the texts of the tokens are its fragments
    obtain ⟨fs, hcut, hfs, rfl⟩ := hspread.cut hn
    have hfrag : fragments text.toList = fs := by
      rw [e]
      exact cut_iff.mp (hs.cut hcut)
    rw [tokenize_of_find?_none, hfrag]
    rw [hfrag]
    simpa using hfs

/-- A run that is no token: neither a word nor an arrow. -/
def IsJunk (run : List Char) : Prop :=
  isWord run = false ∧ run ≠ ['-', '>']

/-- Junk, described by its characters alone, is what the test for tokens refuses among runs. -/
theorem isJunk_iff {before run after : List Char} (h : IsRun before run after) :
    IsJunk run ↔ isToken run = false := by
  have hd : ¬ ∃ d ∈ delimiters, run = [d] := by
    rintro ⟨d, hd, rfl⟩
    exact h.unbroken.1 (.inr (.inr (.inr hd)))
  rw [← Bool.not_eq_true, isToken_iff, IsJunk, ← Bool.not_eq_true, not_or, not_or]
  exact ⟨fun ⟨hw, ha⟩ => ⟨hw, ha, hd⟩, fun ⟨hw, ha, _⟩ => ⟨hw, ha⟩⟩

/-- A text that has no tokens is refused for its leftmost run that is none. -/
theorem exists_leftmost_of_tokenize {text : String} (h : ∀ us, tokenize text ≠ .ok us) :
    ∃ run, IsLeftmostRun IsJunk text.toList run ∧
      tokenize text = .error (.lexical (String.ofList run)) := by
  cases hfind : (fragments text.toList).find? (! isToken ·) with
  | none => exact absurd (tokenize_of_find?_none hfind) (h _)
  | some run =>
      have hd : ∀ d ∈ delimiters, (! isToken [d]) = false := forall_delimiters.mpr (by decide)
      have hcut : Cut text.toList (fragments text.toList) := cut_iff.mpr rfl
      refine ⟨run, ?_, tokenize_of_find?_some hfind⟩
      obtain ⟨before, after, e, hrun, hp, hleft⟩ := hcut.leftmost hd hfind
      refine ⟨before, after, e, hrun, (isJunk_iff hrun).mpr (by simpa using hp), ?_⟩
      intro before' run' after' e' h' hj
      exact hleft before' run' after' e' h' (by simpa using (isJunk_iff h').mp hj)

/-- **A text has the tokens of which it is a layout**, and no others.  A text that is a layout of none
is refused for its leftmost run that is neither a word nor an arrow. -/
theorem tokenize_iff_layout (text : String) :
    (∀ ts, tokenize text = .ok (ts ++ [.endOfInput]) ↔
      .endOfInput ∉ ts ∧ (∀ n, .ident n ∈ ts → IsName n) ∧ IsLayout ts text.toList) ∧
    ((¬ ∃ ts, .endOfInput ∉ ts ∧ (∀ n, .ident n ∈ ts → IsName n) ∧ IsLayout ts text.toList) →
      ∃ run, IsLeftmostRun IsJunk text.toList run ∧
        tokenize text = .error (.lexical (String.ofList run))) := by
  refine ⟨fun ts => ?_, fun hnone => exists_leftmost_of_tokenize fun us hus => ?_⟩
  · rw [tokenize_eq_ok_iff]
    constructor
    · rintro ⟨ts', e, hn, hl⟩
      obtain rfl := List.append_cancel_right e
      exact ⟨hl.endOfInput_not_mem, hn, hl⟩
    · rintro ⟨-, hn, hl⟩
      exact ⟨ts, rfl, hn, hl⟩
  · obtain ⟨ts, -, hn, hl⟩ := tokenize_eq_ok_iff.mp hus
    exact hnone ⟨ts, hl.endOfInput_not_mem, hn, hl⟩

/-- A glued arrow comes before a lone carriage return. -/
theorem tokenize_glued_arrow :
    tokenize "p()->R; \r\r\n" = .error (.lexical "->R") ∧
      ∃ run, IsLeftmostRun IsJunk "p()->R; \r\r\n".toList run ∧
        tokenize "p()->R; \r\r\n" = .error (.lexical (String.ofList run)) := by
  have herr : tokenize "p()->R; \r\r\n" = .error (.lexical "->R") := rfl
  refine ⟨herr, (tokenize_iff_layout "p()->R; \r\r\n").2 ?_⟩
  rintro ⟨ts, hts⟩
  have hok := ((tokenize_iff_layout "p()->R; \r\r\n").1 ts).mpr hts
  rw [herr] at hok
  cases hok

end RpcContract
