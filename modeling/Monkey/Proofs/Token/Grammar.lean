import Mathlib.Data.List.Forall2
import Mathlib.Data.List.TakeWhile
import Monkey.Proofs.Token.Spelling

/-! # The lexical grammar

What the tokens of a text are can be said without a scanner. `Token.SpelledBy t x` gives the texts
that a token may have, and `Token.Splits cs ts` says that `cs` is made of blanks and of texts of the
tokens `ts`, in this order and with nothing left over. A word, a number, `=` and `!` have to be as
long as they can be: `Token.EndsBefore` rules out that the text behind them goes on with them. A
quote that is never closed is a token that has nothing behind it.

A text is split in exactly one way, and scanning finds it: `Token.scan_eq_iff_splits`.
-/

namespace Monkey.Token

variable {c : Char} {cs rest w x : List Char} {t : Token} {ts : List Token}

/-! ## Tokens and their texts -/

/-- Words, numbers, quoted texts and symbols start with such a character. -/
def Opens (c : Char) : Prop :=
  isLetter c = true ∨ c.isDigit = true ∨ isQuote c = true ∨
    ∃ s : Symbol, s.text.toList.head? = some c

/-- The texts of a token. -/
inductive SpelledBy : Token → List Char → Prop where
  | sym (s : Symbol) : SpelledBy (.sym s) s.text.toList
  | word (k : Keyword) : SpelledBy (.word k) k.text.toList
  | ident {name : String} (h : IsName name) : SpelledBy (.ident name) name.toList
  | int {digits : String} (h : IsNumeral digits) : SpelledBy (.int digits) digits.toList
  | str {text : String} (h : '"' ∉ text.toList) :
      SpelledBy (.str text) ('"' :: (text.toList ++ ['"']))
  /-- A character that is no blank and no other token starts with. -/
  | illegal {c : Char} (hb : isBlank c = false) (h : ¬Opens c) : SpelledBy (.illegal c) [c]
  /-- A quote that is not closed. -/
  | unclosed {cs : List Char} (h : '"' ∉ cs) : SpelledBy (.illegal '"') ('"' :: cs)

/-- The token does not go on in the text behind it. One that goes on to the end of all text has no
text behind it. -/
def EndsBefore (rest : List Char) : Token → Prop
  | .ident _ | .word _ => ∀ c ∈ rest.head?, isWordChar c = false
  | .int _ => ∀ c ∈ rest.head?, c.isDigit = false
  | .sym .assign | .sym .bang => rest.head? ≠ some '='
  | .illegal c => c = '"' → rest = []
  | _ => True

/-- A text is made of blanks and of the texts of these tokens. -/
inductive Splits : List Char → List Token → Prop where
  | blanks {w : List Char} (hw : ∀ c ∈ w, isBlank c = true) : Splits w []
  | token {w x rest : List Char} {t : Token} {ts : List Token} (hw : ∀ c ∈ w, isBlank c = true)
      (hx : SpelledBy t x) (ht : t.EndsBefore rest) (h : Splits rest ts) :
      Splits (w ++ (x ++ rest)) (t :: ts)

/-! ## The first token -/

theorem symbol?_eq_some {s : Symbol} : symbol? c = some s ↔ s.text.toList = [c] := by
  constructor
  · intro h
    unfold symbol? at h
    split at h <;> cases h <;> rfl
  · intro h
    cases s <;> cases h <;> rfl

theorem symbol?_eq_none (h : ¬Opens c) : symbol? c = none := by
  cases hs : symbol? c with
  | none => rfl
  | some s =>
    have hhead : s.text.toList.head? = some c := by rw [symbol?_eq_some.1 hs]; rfl
    exact absurd (.inr (.inr (.inr ⟨s, hhead⟩))) h

/-- Every symbol starts with a character that is a symbol by itself. -/
theorem exists_symbol? {s : Symbol} (h : s.text.toList.head? = some c) :
    ∃ s', symbol? c = some s' := by
  cases s <;> cases h <;> exact ⟨_, rfl⟩

theorem withEquals_of_head? (d s : Symbol) (h : rest.head? ≠ some '=') :
    withEquals d s rest = (.sym s, rest) := by
  unfold withEquals
  split
  · exact absurd rfl h
  · rfl

theorem head_of_not_opens (h : ¬Opens c) (cs : List Char) : head c cs = (.illegal c, cs) := by
  have hsym := symbol?_eq_none h
  have h₁ : c ≠ '=' := by rintro rfl; cases hsym
  have h₂ : c ≠ '!' := by rintro rfl; cases hsym
  have h₃ : ¬isQuote c = true := fun hq => h (.inr (.inr (.inl hq)))
  have h₄ : ¬isLetter c = true := fun hl => h (.inl hl)
  have h₅ : ¬c.isDigit = true := fun hd => h (.inr (.inl hd))
  rw [head, if_neg h₁, if_neg h₂, if_neg h₃, if_neg h₄, if_neg h₅, ofChar, hsym]

theorem quoted_of_notMem (h : '"' ∉ cs) : quoted cs = (.illegal '"', []) := by
  have hcs : ∀ c ∈ cs, (!isQuote c) = true := by
    intro c hc
    have hne : c ≠ '"' := fun he => h (he ▸ hc)
    simp [isQuote, hne]
  rw [quoted, List.dropWhile_eq_nil_iff.2 hcs]

/-! ## Scanning follows the grammar -/

/-- A token that does not go on in the text behind it is scanned as such. -/
theorem scanChars_of_spelledBy (hx : SpelledBy t x) (ht : t.EndsBefore rest) :
    scanChars (x ++ rest) = t :: scanChars rest := by
  cases hx with
  | sym s =>
    by_cases h₁ : s = .assign
    · subst h₁
      change scanChars ('=' :: rest) = _
      rw [scanChars_cons (by decide), head, if_pos rfl, withEquals_of_head? _ _ ht]
    by_cases h₂ : s = .bang
    · subst h₂
      change scanChars ('!' :: rest) = _
      rw [scanChars_cons (by decide), head, if_neg (by decide), if_pos rfl,
        withEquals_of_head? _ _ ht]
    exact (separates_symbol ⟨h₁, h₂⟩).closed rest
  | word k => exact spells_keyword k rest ht
  | ident h => exact spells_ident h rest ht
  | int h => exact scanChars_numeral h ht
  | str h => exact closed_quoted h rest
  | illegal hb h => rw [List.singleton_append, scanChars_cons hb, head_of_not_opens h]
  | unclosed h =>
    obtain rfl := ht rfl
    rw [List.append_nil, scanChars_cons (by decide), head, if_neg (by decide), if_neg (by decide),
      if_pos (by decide), quoted_of_notMem h]

theorem scanChars_blanks (hw : ∀ c ∈ w, isBlank c = true) (cs : List Char) :
    scanChars (w ++ cs) = scanChars cs := by
  induction w with
  | nil => rfl
  | cons c w ih =>
    obtain ⟨hc, hw⟩ := List.forall_mem_cons.1 hw
    rw [List.cons_append, scanChars_blank hc, ih hw]

theorem Splits.scanChars_eq (h : Splits cs ts) : scanChars cs = ts := by
  induction h with
  | @blanks w hw =>
    have := scanChars_blanks hw []
    rwa [List.append_nil, scanChars_nil] at this
  | token hw hx ht _ ih => rw [scanChars_blanks hw, scanChars_of_spelledBy hx ht, ih]

/-! ## The grammar follows scanning -/

/-- `c :: cs` is the text of the token `r.1` with `r.2` behind it. -/
def StartsWith (c : Char) (cs : List Char) (r : Token × List Char) : Prop :=
  ∃ x, c :: cs = x ++ r.2 ∧ SpelledBy r.1 x ∧ r.1.EndsBefore r.2

/-- What a run leaves does not go on with it. -/
theorem head?_dropWhile (p : Char → Bool) (cs : List Char) :
    ∀ c ∈ (cs.dropWhile p).head?, p c = false := by
  intro c hc
  have := List.head?_dropWhile_not p cs
  rw [Option.mem_def.1 hc] at this
  exact this

theorem startsWith_withEquals {d s : Symbol} (hd : d.text.toList = [c, '='])
    (hs : s.text.toList = [c]) (he : ∀ rest, EndsBefore rest (.sym d))
    (hb : ∀ rest, rest.head? ≠ some '=' → EndsBefore rest (.sym s)) :
    StartsWith c cs (withEquals d s cs) := by
  unfold withEquals
  split
  · refine ⟨d.text.toList, ?_, .sym d, he _⟩
    rw [hd]
    rfl
  · rename_i hne
    refine ⟨s.text.toList, ?_, .sym s, hb _ ?_⟩
    · rw [hs]
      rfl
    · intro hhead
      obtain ⟨rest, hrest⟩ := List.head?_eq_some_iff.1 hhead
      exact hne rest hrest

theorem startsWith_quoted (cs : List Char) : StartsWith '"' cs (quoted cs) := by
  have hrun : '"' ∉ cs.takeWhile (!isQuote ·) := by
    intro hq
    have := List.all_eq_true.1 List.all_takeWhile _ hq
    cases this
  have happ := List.takeWhile_append_dropWhile (p := (!isQuote ·)) (l := cs)
  unfold quoted
  split
  · rename_i hnil
    rw [hnil, List.append_nil] at happ
    rw [happ] at hrun
    refine ⟨'"' :: cs, ?_, .unclosed hrun, fun _ => rfl⟩
    rw [List.append_nil]
  · rename_i d rest hcons
    have hd : d = '"' := by
      have := head?_dropWhile (!isQuote ·) cs d (by rw [hcons]; rfl)
      simpa [isQuote] using this
    subst hd
    have hspelled : SpelledBy (.str (String.ofList (cs.takeWhile (!isQuote ·))))
        ('"' :: (cs.takeWhile (!isQuote ·) ++ ['"'])) := by
      rw [← String.toList_ofList (l := cs.takeWhile (!isQuote ·))] at hrun
      have := SpelledBy.str hrun
      rwa [String.toList_ofList] at this
    refine ⟨_, ?_, hspelled, trivial⟩
    rw [hcons] at happ
    rw [List.cons_append, List.append_assoc]
    exact congrArg _ happ.symm

theorem spelledBy_ofWord {s : String} (h : (ofWord s).Lexed) : SpelledBy (ofWord s) s.toList := by
  rw [ofWord] at h ⊢
  cases hk : Keyword.ofText? s with
  | some k =>
    rw [← Keyword.ofText?_eq_some.1 hk]
    exact .word k
  | none =>
    rw [hk] at h
    exact .ident h

theorem endsBefore_ofWord (s : String) (h : ∀ c ∈ rest.head?, isWordChar c = false) :
    (ofWord s).EndsBefore rest := by
  rw [ofWord]
  cases Keyword.ofText? s <;> exact h

theorem startsWith_word (hc : isLetter c = true) (cs : List Char) :
    StartsWith c cs (head c cs) := by
  have hrun := List.all_eq_true.1 (List.all_takeWhile (p := isWordChar) (l := cs))
  have hspelled := spelledBy_ofWord (lexed_ofWord hc hrun)
  rw [String.toList_ofList] at hspelled
  rw [head_letter hc]
  refine ⟨c :: cs.takeWhile isWordChar, ?_, hspelled, ?_⟩
  · rw [List.cons_append, List.takeWhile_append_dropWhile]
  · exact endsBefore_ofWord _ (head?_dropWhile isWordChar cs)

theorem startsWith_numeral (hc : c.isDigit = true) (cs : List Char) :
    StartsWith c cs (head c cs) := by
  have hrun := List.all_eq_true.1 (List.all_takeWhile (p := Char.isDigit) (l := cs))
  have hnumeral : IsNumeral (String.ofList (c :: cs.takeWhile Char.isDigit)) := by
    rw [IsNumeral, String.toList_ofList]
    exact ⟨List.cons_ne_nil _ _, List.forall_mem_cons.2 ⟨hc, hrun⟩⟩
  have hspelled := SpelledBy.int hnumeral
  rw [String.toList_ofList] at hspelled
  rw [head_digit hc]
  refine ⟨c :: cs.takeWhile Char.isDigit, ?_, hspelled, head?_dropWhile Char.isDigit cs⟩
  rw [List.cons_append, List.takeWhile_append_dropWhile]

/-- A character that neither starts a longer token nor may do so. -/
theorem startsWith_ofChar (hb : isBlank c = false) (h₁ : c ≠ '=') (h₂ : c ≠ '!')
    (hq : ¬isQuote c = true) (hl : ¬isLetter c = true) (hd : ¬c.isDigit = true)
    (cs : List Char) : StartsWith c cs (ofChar c, cs) := by
  rw [ofChar]
  cases hs : symbol? c with
  | some s =>
    have htext := symbol?_eq_some.1 hs
    refine ⟨s.text.toList, ?_, .sym s, ?_⟩
    · rw [htext]
      rfl
    · change EndsBefore cs (.sym s)
      cases s with
      | assign => exact absurd (List.cons.inj htext).1.symm h₁
      | bang => exact absurd (List.cons.inj htext).1.symm h₂
      | _ => trivial
  | none =>
    have hopens : ¬Opens c := by
      rintro (h | h | h | ⟨s, h⟩)
      · exact hl h
      · exact hd h
      · exact hq h
      · obtain ⟨s', hs'⟩ := exists_symbol? h
        rw [hs] at hs'
        cases hs'
    refine ⟨[c], rfl, .illegal hb hopens, ?_⟩
    rintro rfl
    exact absurd rfl hq

theorem startsWith_head (hb : isBlank c = false) (cs : List Char) :
    StartsWith c cs (head c cs) := by
  by_cases hl : isLetter c = true
  · exact startsWith_word hl cs
  by_cases hd : c.isDigit = true
  · exact startsWith_numeral hd cs
  unfold head
  split
  · rename_i hc
    subst hc
    exact startsWith_withEquals rfl rfl (fun _ => trivial) fun _ h => h
  split
  · rename_i hc
    subst hc
    exact startsWith_withEquals rfl rfl (fun _ => trivial) fun _ h => h
  split
  · rename_i hq
    obtain rfl : c = '"' := of_decide_eq_true hq
    exact startsWith_quoted cs
  · rename_i h₁ h₂ hq
    exact startsWith_ofChar hb h₁ h₂ hq hl hd cs

/-- Scanning takes a text apart as the grammar puts it together. -/
theorem splits_scanChars (cs : List Char) : Splits cs (scanChars cs) := by
  fun_induction scanChars cs with
  | case1 cs hnil => exact .blanks (List.dropWhile_eq_nil_iff.1 hnil)
  | case2 cs c rest hcs ih =>
    have hb : isBlank c = false := head?_dropWhile isBlank cs c (by rw [hcs]; rfl)
    have hrun := List.all_eq_true.1 (List.all_takeWhile (p := isBlank) (l := cs))
    obtain ⟨x, hx, hspelled, hends⟩ := startsWith_head hb rest
    have hsplit := Splits.token hrun hspelled hends ih
    rwa [← hx, ← hcs, List.takeWhile_append_dropWhile] at hsplit

/-! ## Tokens with a blank between each two -/

theorem endsBefore_nil (t : Token) : t.EndsBefore [] := by
  unfold EndsBefore
  split <;> simp

/-- No token but a quote that is not closed goes on over a character that belongs to no word and is
no equals sign. -/
theorem endsBefore_cons (ht : t ≠ .illegal '"') (hw : isWordChar c = false) (he : c ≠ '=')
    (rest : List Char) : t.EndsBefore (c :: rest) := by
  have hd : c.isDigit = false := (Bool.or_eq_false_iff.1 hw).2
  unfold EndsBefore
  split
  · rintro _ ⟨⟩
    exact hw
  · rintro _ ⟨⟩
    exact hw
  · rintro _ ⟨⟩
    exact hd
  · exact fun h => he (Option.some.inj h)
  · exact fun h => he (Option.some.inj h)
  · rintro rfl
    exact absurd rfl ht
  · trivial

/-- Where one text ends a token and the next one would too, both together do. -/
theorem EndsBefore.append (ht : t ≠ .illegal '"') (h : t.EndsBefore cs) (hrest : t.EndsBefore rest) :
    t.EndsBefore (cs ++ rest) := by
  cases cs with
  | nil => exact hrest
  | cons c cs =>
    cases t with
    | illegal c => exact fun hc => absurd (congrArg Token.illegal hc) ht
    | sym s => cases s <;> exact h
    | _ => exact h

/-- Where blanks separate them, the texts of tokens are scanned as these tokens. Only the last of
them may be a quote that is not closed. -/
theorem scan_intercalate {xs : List String}
    (hxs : List.Forall₂ (fun t x => SpelledBy t x.toList) ts xs)
    (h : ∀ t ∈ ts.dropLast, t ≠ .illegal '"') : scan (" ".intercalate xs) = ts := by
  induction hxs with
  | nil => exact scanChars_nil
  | @cons t x ts xs hx hxs ih =>
    cases hxs with
    | nil =>
      have := scanChars_of_spelledBy hx (endsBefore_nil t)
      rw [List.append_nil, scanChars_nil] at this
      rwa [scan, String.intercalate_singleton]
    | @cons u y us ys hy hys =>
      obtain ⟨ht, hts⟩ := List.forall_mem_cons.1 h
      have hrest := ih hts
      rw [scan] at hrest
      rw [scan, String.intercalate_cons_cons, String.toList_append, String.toList_append,
        List.append_assoc]
      change scanChars (x.toList ++ ' ' :: (" ".intercalate (y :: ys)).toList) = _
      rw [scanChars_of_spelledBy hx (endsBefore_cons ht (by decide) (by decide) _),
        scanChars_blank (by decide), hrest]

/-- The tokens of a text are those that it is split into by the grammar, so there is one way to
split it and no character is lost. Tokens that can be spelled at all are scanned from their texts,
with a blank between each two. -/
theorem scan_eq_iff_splits :
    (∀ (source : String) (ts : List Token), scan source = ts ↔ Splits source.toList ts) ∧
    ∀ (ts : List Token) (xs : List String), List.Forall₂ (fun t x => SpelledBy t x.toList) ts xs →
      (∀ t ∈ ts.dropLast, t ≠ .illegal '"') → scan (" ".intercalate xs) = ts := by
  constructor
  · intro source ts
    constructor
    · rintro rfl
      exact splits_scanChars source.toList
    · intro h
      exact h.scanChars_eq
  · intro ts xs hxs h
    exact scan_intercalate hxs h

/-- Tokens without a blank between them are as long as they can be, also where a shorter one would
leave more for the next. A quote takes all that is behind it, if that does not close it. -/
theorem scan_eq_iff_splits_munch :
    Splits "let===!=5x @\"b c".toList [.word .letWord, .sym .equal, .sym .assign, .sym .notEqual,
      .int "5", .ident "x", .illegal '@', .illegal '"'] ∧
    scan (" ".intercalate ["!", "==", "\"a b\"", "\"c"]) =
      [.sym .bang, .sym .equal, .str "a b", .illegal '"'] := by
  obtain ⟨hsplit, hjoin⟩ := scan_eq_iff_splits
  refine ⟨(hsplit _ _).1 (by decide +kernel), hjoin _ _ ?_ (by decide)⟩
  have hquoted : SpelledBy (.str "a b") "\"a b\"".toList := .str (by decide)
  have hunclosed : SpelledBy (.illegal '"') "\"c".toList := .unclosed (by decide)
  exact .cons (.sym .bang) (.cons (.sym .equal) (.cons hquoted (.cons hunclosed .nil)))

end Monkey.Token
