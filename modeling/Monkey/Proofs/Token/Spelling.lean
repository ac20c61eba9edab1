import Monkey.Proofs.Syntax.WellFormed
import Monkey.Token.Scan

/-! # How tokens are spelled

`Token.Closed cs ts` says that the characters `cs` are split into the tokens `ts` whatever stands
behind them, and `Token.Spells cs ts` that they are as long as no letter, digit or underscore does.
Names and numbers are of the second sort, symbols and quoted text of the first; texts put one behind
the other are split one after the other. A text of which the last token is a semicolon is closed too
(`Token.scan_append`).

In the other direction, whatever comes out of a text is a token that can: `Token.lexed_of_mem_scan`.
-/

namespace Monkey.Token

variable {c : Char} {cs ds rest : List Char} {ts us : List Token}

/-! ## One step of the scanner -/

theorem scanChars_nil : scanChars [] = [] := by
  rw [scanChars]
  rfl

theorem scanChars_blank (h : isBlank c = true) (cs : List Char) :
    scanChars (c :: cs) = scanChars cs := by
  have hd : (c :: cs).dropWhile isBlank = cs.dropWhile isBlank := List.dropWhile_cons_of_pos h
  rw [scanChars, scanChars]
  split <;> split <;> simp_all

theorem scanChars_of_dropWhile (h : cs.dropWhile isBlank = c :: rest) :
    scanChars cs = (head c rest).1 :: scanChars (head c rest).2 := by
  rw [scanChars]
  split
  · simp_all
  · rename_i e
    rw [h] at e
    cases e
    rfl

theorem scanChars_cons (h : isBlank c = false) (cs : List Char) :
    scanChars (c :: cs) = (head c cs).1 :: scanChars (head c cs).2 :=
  scanChars_of_dropWhile (List.dropWhile_cons_of_neg (by rw [h]; exact Bool.false_ne_true))

/-- Two characters that a test tells apart are different. -/
theorem ne_of_test {p : Char → Bool} {d : Char} (hc : p c = true) (hd : p d = false) : c ≠ d := by
  rintro rfl
  rw [hc] at hd
  cases hd

/-- A test that no blank passes is passed by no blank. -/
theorem isBlank_of_test {p : Char → Bool} (hc : p c = true)
    (hp : [' ', '\t', '\n', '\x0c', '\r'].all (!p ·) = true) : isBlank c = false := by
  simp only [List.all_cons, List.all_nil, Bool.and_true, Bool.and_eq_true, Bool.not_eq_true'] at hp
  obtain ⟨h₁, h₂, h₃, h₄, h₅⟩ := hp
  simp only [isBlank, ne_of_test hc h₁, ne_of_test hc h₂, ne_of_test hc h₃, ne_of_test hc h₄,
    ne_of_test hc h₅, decide_false, Bool.or_false]

theorem head_letter (h : isLetter c = true) (cs : List Char) :
    head c cs =
      (ofWord (String.ofList (c :: cs.takeWhile isWordChar)), cs.dropWhile isWordChar) := by
  have hq : isQuote c = false := decide_eq_false (ne_of_test h (by decide))
  rw [head, if_neg (ne_of_test h (by decide)), if_neg (ne_of_test h (by decide)), hq, if_neg nofun,
    if_pos h]

theorem isLetter_of_isDigit (h : c.isDigit = true) : isLetter c = false := by
  have hle : c.val.toNat ≤ 57 := (Char.isDigit_iff_toNat.1 h).2
  rw [Bool.eq_false_iff]
  intro hl
  rcases Bool.or_eq_true_iff.1 hl with ha | hu
  · rcases Bool.or_eq_true_iff.1 ha with hA | ha
    · have hge : 65 ≤ c.val.toNat := (of_decide_eq_true hA).1
      omega
    · have hge : 97 ≤ c.val.toNat := of_decide_eq_true (Bool.and_eq_true_iff.1 ha).1
      omega
  · exact ne_of_test h (by decide) (of_decide_eq_true hu)

theorem head_digit (h : c.isDigit = true) (cs : List Char) :
    head c cs =
      (.int (String.ofList (c :: cs.takeWhile Char.isDigit)), cs.dropWhile Char.isDigit) := by
  have hq : isQuote c = false := decide_eq_false (ne_of_test h (by decide))
  rw [head, if_neg (ne_of_test h (by decide)), if_neg (ne_of_test h (by decide)), hq, if_neg nofun,
    isLetter_of_isDigit h, if_neg nofun, if_pos h]

/-! ## Runs of characters -/

/-- No letter, digit or underscore comes first. -/
def Breaks (cs : List Char) : Prop := ∀ c ∈ cs.head?, isWordChar c = false

/-- A run ends where something comes that does not belong to it. -/
theorem takeWhile_append {p : Char → Bool} (hp : ∀ c ∈ cs, p c = true)
    (hr : ∀ c ∈ rest.head?, p c = false) : (cs ++ rest).takeWhile p = cs := by
  rw [List.takeWhile_append_of_pos hp]
  cases rest with
  | nil => simp
  | cons c rest => simp [hr c rfl]

theorem dropWhile_append {p : Char → Bool} (hp : ∀ c ∈ cs, p c = true)
    (hr : ∀ c ∈ rest.head?, p c = false) : (cs ++ rest).dropWhile p = rest := by
  rw [List.dropWhile_append_of_pos hp]
  cases rest with
  | nil => rfl
  | cons c rest => simp [hr c rfl]

/-! ## Texts and their tokens -/

/-- Whatever follows, the characters are split into these tokens. -/
def Closed (cs : List Char) (ts : List Token) : Prop :=
  ∀ rest, scanChars (cs ++ rest) = ts ++ scanChars rest

/-- The characters are split into these tokens if no word goes on behind them. -/
def Spells (cs : List Char) (ts : List Token) : Prop :=
  ∀ rest, Breaks rest → scanChars (cs ++ rest) = ts ++ scanChars rest

theorem Closed.spells (h : Closed cs ts) : Spells cs ts := fun rest _ => h rest

theorem Closed.scanChars_eq (h : Closed cs ts) : scanChars cs = ts := by
  simpa [scanChars_nil] using h []

theorem Closed.append (h : Closed cs ts) (h' : Closed ds us) : Closed (cs ++ ds) (ts ++ us) := by
  intro rest
  rw [List.append_assoc, h, h', List.append_assoc]

theorem Closed.append_spells (h : Closed cs ts) (h' : Spells ds us) :
    Spells (cs ++ ds) (ts ++ us) := by
  intro rest hr
  rw [List.append_assoc, h, h' rest hr, List.append_assoc]

/-- A text that is closed, and closes a word that stands before it. -/
structure Separates (cs : List Char) (ts : List Token) : Prop where
  closed : Closed cs ts
  breaks : cs.head?.any (!isWordChar ·) = true

theorem Separates.append (h : Separates cs ts) (h' : Closed ds us) :
    Separates (cs ++ ds) (ts ++ us) := by
  refine ⟨h.closed.append h', ?_⟩
  have hb := h.breaks
  cases cs with
  | nil => cases hb
  | cons c cs => exact hb

theorem Spells.append_separates (h : Spells cs ts) (h' : Separates ds us) :
    Closed (cs ++ ds) (ts ++ us) := by
  intro rest
  have hr : Breaks (ds ++ rest) := by
    have hb := h'.breaks
    cases ds with
    | nil => cases hb
    | cons d ds =>
      rintro _ ⟨⟩
      exact Bool.not_eq_true' _ ▸ hb
  rw [List.append_assoc, h (ds ++ rest) hr, h'.closed, List.append_assoc]

theorem separates_blank : Separates [' '] [] := ⟨scanChars_blank (by decide), rfl⟩

theorem spells_word (hc : isLetter c = true) (hcs : ∀ d ∈ cs, isWordChar d = true) :
    Spells (c :: cs) [ofWord (String.ofList (c :: cs))] := by
  intro rest hr
  rw [List.cons_append, scanChars_cons (isBlank_of_test hc (by decide)), head_letter hc,
    takeWhile_append hcs hr, dropWhile_append hcs hr]
  rfl

theorem ofWord_of_isName {s : String} (h : ∀ k : Keyword, k.text ≠ s) : ofWord s = .ident s := by
  rw [ofWord]
  cases hk : Keyword.ofText? s with
  | none => rfl
  | some k => exact absurd (Keyword.ofText?_eq_some.1 hk) (h k)

theorem ofWord_text (k : Keyword) : ofWord k.text = .word k := by
  rw [ofWord, Keyword.ofText?_eq_some.2 rfl]

theorem spells_ident {s : String} (h : IsName s) : Spells s.toList [.ident s] := by
  obtain ⟨⟨c, cs, hs, hc, hcs⟩, hk⟩ := h
  have hw := spells_word hc hcs
  rw [← hs, String.ofList_toList, ofWord_of_isName hk] at hw
  exact hw

theorem spells_keyword (k : Keyword) : Spells k.text.toList [.word k] := by
  obtain ⟨c, cs, hs, hc, hcs⟩ : ∃ c cs, k.text.toList = c :: cs ∧ isLetter c = true ∧
      cs.all isWordChar = true := by
    cases k <;> exact ⟨_, _, rfl, rfl, rfl⟩
  have hw := spells_word hc (List.all_eq_true.1 hcs)
  rw [← hs, String.ofList_toList, ofWord_text] at hw
  exact hw

/-- Only a digit makes a number longer. -/
theorem scanChars_numeral {s : String} (h : IsNumeral s) (hr : ∀ d ∈ rest.head?, d.isDigit = false) :
    scanChars (s.toList ++ rest) = .int s :: scanChars rest := by
  obtain ⟨hne, hd⟩ := h
  obtain ⟨c, cs, hs⟩ := List.exists_cons_of_ne_nil hne
  rw [hs] at hd
  obtain ⟨hc, hcs⟩ := List.forall_mem_cons.1 hd
  rw [hs, List.cons_append, scanChars_cons (isBlank_of_test hc (by decide)), head_digit hc,
    takeWhile_append hcs hr, dropWhile_append hcs hr, ← hs, String.ofList_toList]

theorem spells_numeral {s : String} (h : IsNumeral s) : Spells s.toList [.int s] := by
  intro rest hr
  refine scanChars_numeral h fun d hd => ?_
  have := hr d hd
  rw [isWordChar, Bool.or_eq_false_iff] at this
  exact this.2

theorem closed_quoted {s : String} (h : '"' ∉ s.toList) :
    Closed ('"' :: (s.toList ++ ['"'])) [.str s] := by
  intro rest
  have hs : ∀ c ∈ s.toList, (!isQuote c) = true := by
    intro c hc
    have hne : c ≠ '"' := fun he => h (he ▸ hc)
    simp [isQuote, hne]
  have hq : ∀ c ∈ ('"' :: rest).head?, (!isQuote c) = false := by
    rintro _ ⟨⟩
    rfl
  have hh : head '"' (s.toList ++ '"' :: rest) = (.str s, rest) := by
    rw [head, if_neg (by decide), if_neg (by decide), if_pos (by decide), quoted,
      dropWhile_append hs hq, takeWhile_append hs hq, String.ofList_toList]
  rw [List.cons_append, List.append_assoc, List.singleton_append, scanChars_cons (by decide), hh]
  rfl

/-- A symbol that no equals sign can turn into another one. -/
theorem separates_symbol {s : Symbol} (h : s ≠ .assign ∧ s ≠ .bang) :
    Separates s.text.toList [.sym s] := by
  cases s with
  | assign => exact absurd rfl h.1
  | bang => exact absurd rfl h.2
  | _ => exact ⟨fun _ => scanChars_cons (by decide) _, rfl⟩

/-- A text between two symbols. -/
theorem Spells.enclose {o c : Symbol} (h : Spells cs ts) (ho : o ≠ .assign ∧ o ≠ .bang)
    (hc : c ≠ .assign ∧ c ≠ .bang) :
    Separates (o.text.toList ++ (cs ++ c.text.toList)) (.sym o :: (ts ++ [.sym c])) :=
  (separates_symbol ho).append (h.append_separates (separates_symbol hc))

theorem Spells.parens (h : Spells cs ts) :
    Separates ("(".toList ++ (cs ++ ")".toList)) (.sym .openParen :: (ts ++ [.sym .closeParen])) :=
  h.enclose (o := .openParen) (c := .closeParen) (by decide) (by decide)

theorem Spells.brackets (h : Spells cs ts) : Separates ("[".toList ++ (cs ++ "]".toList))
    (.sym .openBracket :: (ts ++ [.sym .closeBracket])) :=
  h.enclose (o := .openBracket) (c := .closeBracket) (by decide) (by decide)

theorem Spells.braces (h : Spells cs ts) : Separates ("\x7b".toList ++ (cs ++ "\x7d".toList))
    (.sym .openBrace :: (ts ++ [.sym .closeBrace])) :=
  h.enclose (o := .openBrace) (c := .closeBrace) (by decide) (by decide)

/-- Any symbol is closed by a blank behind it. -/
theorem separates_symbol_blank (s : Symbol) : Separates (s.text.toList ++ [' ']) [.sym s] := by
  have hone (c : Char) (hc : isBlank c = false) (hw : isWordChar c = false)
      (hh : ∀ rest, head c (' ' :: rest) = (.sym s, ' ' :: rest)) :
      Separates [c, ' '] [.sym s] := by
    refine ⟨fun rest => ?_, by simp [hw]⟩
    rw [List.cons_append, List.singleton_append, scanChars_cons hc, hh,
      scanChars_blank (by decide)]
    rfl
  by_cases h₁ : s = .assign
  · subst h₁
    exact hone '=' (by decide) (by decide) fun _ => rfl
  by_cases h₂ : s = .bang
  · subst h₂
    exact hone '!' (by decide) (by decide) fun _ => rfl
  exact (separates_symbol ⟨h₁, h₂⟩).append separates_blank.closed

theorem closed_keyword_blank (k : Keyword) : Closed (k.text.toList ++ [' ']) [.word k] :=
  (spells_keyword k).append_separates separates_blank

/-- The bang is a symbol of its own unless an equals sign follows. -/
theorem spells_bang {t : Token} (h : Spells cs (t :: ts)) (h₁ : t ≠ .sym .assign)
    (h₂ : t ≠ .sym .equal) : Spells ('!' :: cs) (.sym .bang :: t :: ts) := by
  have hself : scanChars cs = t :: ts := by
    have := h [] nofun
    rwa [List.append_nil, scanChars_nil, List.append_nil] at this
  intro rest hr
  have hh : head '!' (cs ++ rest) = (.sym .bang, cs ++ rest) := by
    cases cs with
    | nil =>
      rw [scanChars_nil] at hself
      cases hself
    | cons c cs =>
      have hc : c ≠ '=' := by
        rintro rfl
        rw [scanChars_cons (by decide), head, if_pos rfl] at hself
        obtain ⟨ht, -⟩ := List.cons.inj hself
        unfold withEquals at ht
        split at ht
        · exact h₂ ht.symm
        · exact h₁ ht.symm
      rw [head, if_neg (by decide), if_pos rfl, withEquals]
      intro _ he
      exact hc (List.cons.inj he).1
  rw [List.cons_append, scanChars_cons (by decide), hh, h rest hr]
  rfl

/-! ## Texts in two parts -/

/-- A run that has ended is not changed by what comes later. -/
theorem span_append {p : Char → Bool} (h : cs.dropWhile p ≠ []) (ds : List Char) :
    (cs ++ ds).takeWhile p = cs.takeWhile p ∧ (cs ++ ds).dropWhile p = cs.dropWhile p ++ ds := by
  induction cs with
  | nil => exact absurd rfl h
  | cons c cs ih =>
    cases hc : p c with
    | true =>
      rw [List.dropWhile_cons_of_pos hc] at h
      obtain ⟨ht, hd⟩ := ih h
      rw [List.cons_append, List.takeWhile_cons_of_pos hc, List.takeWhile_cons_of_pos hc,
        List.dropWhile_cons_of_pos hc, List.dropWhile_cons_of_pos hc, ht, hd]
      exact ⟨rfl, rfl⟩
    | false => simp [hc]

theorem withEquals_append {d s : Symbol} (h : (withEquals d s cs).2 ≠ []) (ds : List Char) :
    withEquals d s (cs ++ ds) = ((withEquals d s cs).1, (withEquals d s cs).2 ++ ds) := by
  cases cs with
  | nil => exact absurd rfl h
  | cons c cs =>
    by_cases hc : c = '='
    · subst hc
      rfl
    · unfold withEquals
      split <;> split <;> simp_all

theorem quoted_append (h : (quoted cs).2 ≠ []) (ds : List Char) :
    quoted (cs ++ ds) = ((quoted cs).1, (quoted cs).2 ++ ds) := by
  cases hq : cs.dropWhile (!isQuote ·) with
  | nil =>
    rw [quoted, hq] at h
    exact absurd rfl h
  | cons c rest =>
    obtain ⟨ht, hd⟩ := span_append (p := (!isQuote ·)) (by rw [hq]; exact List.cons_ne_nil c rest) ds
    rw [quoted, quoted, hd, ht, hq]
    rfl

/-- A token that has something behind it is not changed by what comes later. -/
theorem head_append (h : (head c cs).2 ≠ []) (ds : List Char) :
    head c (cs ++ ds) = ((head c cs).1, (head c cs).2 ++ ds) := by
  by_cases h₁ : c = '='
  · simp only [head, if_pos h₁] at h ⊢
    exact withEquals_append h ds
  by_cases h₂ : c = '!'
  · simp only [head, if_neg h₁, if_pos h₂] at h ⊢
    exact withEquals_append h ds
  by_cases h₃ : isQuote c = true
  · simp only [head, if_neg h₁, if_neg h₂, if_pos h₃] at h ⊢
    exact quoted_append h ds
  by_cases h₄ : isLetter c = true
  · rw [head_letter h₄] at h
    obtain ⟨ht, hd⟩ := span_append h ds
    rw [head_letter h₄, head_letter h₄, ht, hd]
  by_cases h₅ : c.isDigit = true
  · rw [head_digit h₅] at h
    obtain ⟨ht, hd⟩ := span_append h ds
    rw [head_digit h₅, head_digit h₅, ht, hd]
  · simp only [head, if_neg h₁, if_neg h₂, if_neg h₃, if_neg h₄, if_neg h₅]

theorem eq_of_head_semicolon (h : (head c cs).1 = .sym .semicolon) : c = ';' := by
  unfold head at h
  split at h
  · unfold withEquals at h
    split at h <;> cases h
  split at h
  · unfold withEquals at h
    split at h <;> cases h
  split at h
  · unfold quoted at h
    split at h <;> cases h
  split at h
  · unfold ofWord at h
    split at h <;> cases h
  split at h
  · cases h
  · unfold ofChar at h
    split at h
    · rename_i s hs
      cases h
      unfold symbol? at hs
      split at hs <;> cases hs
      rfl
    · cases h

/-- A text without tokens is closed, as it consists of blanks. -/
theorem closed_of_scanChars_eq_nil (h : scanChars cs = []) : Closed cs [] := by
  induction cs with
  | nil => exact fun _ => rfl
  | cons c cs ih =>
    intro rest
    cases hc : isBlank c with
    | false =>
      rw [scanChars_cons hc] at h
      cases h
    | true =>
      rw [scanChars_blank hc] at h
      rw [List.cons_append, scanChars_blank hc]
      exact ih h rest

/-- A text is closed if its last token is a semicolon, whatever blanks are behind it. -/
theorem closed_of_getLast?_scanChars (h : (scanChars cs).getLast? = some (.sym .semicolon)) :
    Closed cs (scanChars cs) := by
  fun_induction scanChars cs with
  | case1 cs _ => cases h
  | case2 cs c rest hcs ih =>
    intro ds
    have hblank : (cs ++ ds).dropWhile isBlank = c :: (rest ++ ds) := by
      rw [(span_append (by rw [hcs]; exact List.cons_ne_nil c rest) ds).2, hcs]
      rfl
    rw [scanChars_of_dropWhile hblank]
    rcases hts : scanChars (head c rest).2 with _ | ⟨t, ts⟩
    · -- The semicolon is here, and only blanks are behind it.
      rw [hts] at h
      obtain rfl := eq_of_head_semicolon (Option.some.inj h)
      exact congrArg _ (closed_of_scanChars_eq_nil hts ds)
    · -- What is behind this token keeps the rest away from it.
      have hne : (head c rest).2 ≠ [] := by
        intro hnil
        rw [hnil, scanChars_nil] at hts
        cases hts
      rw [hts, List.getLast?_cons_cons] at h
      rw [hts] at ih
      rw [head_append hne]
      exact congrArg _ (ih h ds)

theorem scan_append {a : String} (h : (scan a).getLast? = some (.sym .semicolon)) (b : String) :
    scan (a ++ b) = scan a ++ scan b := by
  rw [scan, String.toList_append]
  exact closed_of_getLast?_scanChars h b.toList

/-! ## What comes out of a text -/

theorem lexed_ofWord (hc : isLetter c = true) (hcs : ∀ d ∈ cs, isWordChar d = true) :
    (ofWord (String.ofList (c :: cs))).Lexed := by
  rw [ofWord]
  cases hk : Keyword.ofText? (String.ofList (c :: cs)) with
  | some k => exact trivial
  | none =>
    refine ⟨⟨c, cs, String.toList_ofList, hc, hcs⟩, fun k hkt => ?_⟩
    rw [Keyword.ofText?_eq_some.2 hkt] at hk
    cases hk

theorem lexed_withEquals (d s : Symbol) (cs : List Char) : (withEquals d s cs).1.Lexed := by
  unfold withEquals
  split <;> exact trivial

theorem lexed_quoted (cs : List Char) : (quoted cs).1.Lexed := by
  unfold quoted
  split
  · exact trivial
  · change '"' ∉ (String.ofList _).toList
    rw [String.toList_ofList]
    intro hq
    have := List.all_eq_true.1 List.all_takeWhile _ hq
    cases this

theorem lexed_ofChar (c : Char) : (ofChar c).Lexed := by
  unfold ofChar
  split <;> exact trivial

theorem lexed_head (c : Char) (cs : List Char) : (head c cs).1.Lexed := by
  unfold head
  split
  · exact lexed_withEquals ..
  split
  · exact lexed_withEquals ..
  split
  · exact lexed_quoted cs
  split
  · rename_i hc
    exact lexed_ofWord hc (List.all_eq_true.1 List.all_takeWhile)
  split
  · rename_i hc
    change IsNumeral (String.ofList _)
    rw [IsNumeral, String.toList_ofList]
    exact ⟨List.cons_ne_nil _ _, List.forall_mem_cons.2 ⟨hc, List.all_eq_true.1 List.all_takeWhile⟩⟩
  · exact lexed_ofChar c

theorem lexed_of_mem_scanChars (cs : List Char) : ∀ t ∈ scanChars cs, t.Lexed := by
  fun_induction scanChars cs with
  | case1 cs h => exact nofun
  | case2 cs c rest h ih => exact List.forall_mem_cons.2 ⟨lexed_head c rest, ih⟩

/-- Every token of a text is one that a text can be split into. -/
theorem lexed_of_mem_scan (source : String) : ∀ t ∈ scan source, t.Lexed :=
  lexed_of_mem_scanChars source.toList

end Monkey.Token
