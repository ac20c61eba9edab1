import Monkey.Text.Lines

/-! # How a list is cut into lines

Cutting a list behind each element of some kind leaves pieces that end in such an element and hold
no other, but for the last, which may go without (`Text.CutAfter`). There is only one way to make up
a list of such pieces (`Text.splitAfter_eq_iff`). So pieces can be left out: the others are found
again when the rest is cut (`Text.splitAfter_flatten_pick`).

Lines that are joined are found again as well, unless one of them is empty or has the end of a line
in it (`Text.lines_intercalate`). And the bytes of a line make up a line of bytes, since in UTF-8 no
other character than the line feed has its byte (`Text.eq_of_mem_utf8EncodeChar`).
-/

namespace Monkey.Text

variable {α : Type} {p : α → Bool} {l : List α} {ls : List (List α)}

/-- Each piece ends with the one element in it that satisfies `p`. The last piece may be without
such an element, but not empty. -/
inductive CutAfter (p : α → Bool) : List (List α) → Prop where
  | nil : CutAfter p []
  | unended {l : List α} (hne : l ≠ []) (hl : ∀ a ∈ l, p a = false) : CutAfter p [l]
  | ended {l : List α} {a : α} {ls : List (List α)} (hl : ∀ b ∈ l, p b = false) (ha : p a = true)
      (h : CutAfter p ls) : CutAfter p ((l ++ [a]) :: ls)

/-! ## The one way to cut a list -/

theorem splitAfter_of_forall (hne : l ≠ []) (hl : ∀ a ∈ l, p a = false) :
    splitAfter p l = [l] := by
  induction l with
  | nil => exact absurd rfl hne
  | cons a l ih =>
    obtain ⟨ha, hl⟩ := List.forall_mem_cons.1 hl
    rw [splitAfter, ha, if_neg Bool.false_ne_true]
    cases l with
    | nil => rfl
    | cons b l => rw [ih (List.cons_ne_nil b l) hl]

theorem splitAfter_append_cons {a : α} (hl : ∀ b ∈ l, p b = false) (ha : p a = true)
    (as : List α) : splitAfter p (l ++ a :: as) = (l ++ [a]) :: splitAfter p as := by
  induction l with
  | nil => rw [List.nil_append, splitAfter, if_pos ha, List.nil_append]
  | cons b l ih =>
    obtain ⟨hb, hl⟩ := List.forall_mem_cons.1 hl
    rw [List.cons_append, splitAfter, hb, if_neg Bool.false_ne_true, ih hl]
    rfl

theorem CutAfter.splitAfter_flatten (h : CutAfter p ls) : splitAfter p ls.flatten = ls := by
  induction h with
  | nil => rfl
  | unended hne hl => rw [List.flatten_singleton, splitAfter_of_forall hne hl]
  | ended hl ha _ ih =>
    rw [List.flatten_cons, List.append_assoc, List.singleton_append,
      splitAfter_append_cons hl ha, ih]

/-- An element that does not end a piece may be put before the first one. -/
theorem CutAfter.cons_head {a : α} (ha : p a = false) (h : CutAfter p (l :: ls)) :
    CutAfter p ((a :: l) :: ls) := by
  cases h with
  | unended hne hl => exact .unended (List.cons_ne_nil a l) (List.forall_mem_cons.2 ⟨ha, hl⟩)
  | ended hl hb h => exact .ended (List.forall_mem_cons.2 ⟨ha, hl⟩) hb h

theorem cutAfter_splitAfter (p : α → Bool) (l : List α) : CutAfter p (splitAfter p l) := by
  induction l with
  | nil => exact .nil
  | cons a l ih =>
    rw [splitAfter]
    split
    · rename_i ha
      exact .ended (List.forall_mem_nil _) ha ih
    · rename_i ha
      have ha : p a = false := Bool.eq_false_iff.2 ha
      split
      · exact .unended (List.cons_ne_nil a []) (List.forall_mem_singleton.2 ha)
      · rename_i hcut
        rw [hcut] at ih
        exact ih.cons_head ha

theorem splitAfter_eq_iff : splitAfter p l = ls ↔ ls.flatten = l ∧ CutAfter p ls := by
  constructor
  · rintro rfl
    exact ⟨flatten_splitAfter p l, cutAfter_splitAfter p l⟩
  · rintro ⟨rfl, h⟩
    exact h.splitAfter_flatten

/-! ## Leaving pieces out -/

/-- What a list holds at the places that are to be kept. -/
def pick (keep : Nat → Bool) : List α → List α
  | [] => []
  | a :: l =>
    if keep 0 then a :: pick (fun i => keep (i + 1)) l else pick (fun i => keep (i + 1)) l

theorem pick_cons_of_keep {keep : Nat → Bool} (h : keep 0 = true) (a : α) (l : List α) :
    pick keep (a :: l) = a :: pick (fun i => keep (i + 1)) l := by
  rw [pick, if_pos h]

theorem pick_cons_of_not_keep {keep : Nat → Bool} (h : keep 0 = false) (a : α) (l : List α) :
    pick keep (a :: l) = pick (fun i => keep (i + 1)) l := by
  rw [pick, h, if_neg Bool.false_ne_true]

theorem CutAfter.pick (h : CutAfter p ls) (keep : Nat → Bool) :
    CutAfter p (Text.pick keep ls) := by
  induction h generalizing keep with
  | nil => exact .nil
  | unended hne hl =>
    cases hkeep : keep 0 with
    | true =>
      rw [pick_cons_of_keep hkeep]
      exact .unended hne hl
    | false =>
      rw [pick_cons_of_not_keep hkeep]
      exact .nil
  | ended hl ha _ ih =>
    cases hkeep : keep 0 with
    | true =>
      rw [pick_cons_of_keep hkeep]
      exact .ended hl ha (ih _)
    | false =>
      rw [pick_cons_of_not_keep hkeep]
      exact ih _

theorem splitAfter_flatten_pick (keep : Nat → Bool) (p : α → Bool) (l : List α) :
    splitAfter p (pick keep (splitAfter p l)).flatten = pick keep (splitAfter p l) :=
  ((cutAfter_splitAfter p l).pick keep).splitAfter_flatten

/-! ## Joining lines -/

/-- There is no end of a line in the text. -/
def Unbroken (s : String) : Prop := '\n' ∉ s.toList ∧ '\r' ∉ s.toList

instance (s : String) : Decidable (Unbroken s) := inferInstanceAs (Decidable (_ ∧ _))

theorem Unbroken.append {s t : String} (hs : Unbroken s) (ht : Unbroken t) : Unbroken (s ++ t) := by
  rw [Unbroken, String.toList_append, List.mem_append, List.mem_append]
  exact ⟨not_or.2 ⟨hs.1, ht.1⟩, not_or.2 ⟨hs.2, ht.2⟩⟩

/-- The text is a line, without its ending, that is not empty. -/
def IsLine (s : String) : Prop := s ≠ "" ∧ Unbroken s

instance (s : String) : Decidable (IsLine s) := inferInstanceAs (Decidable (_ ∧ _))

theorem IsLine.append {s t : String} (hs : IsLine s) (ht : Unbroken t) : IsLine (s ++ t) :=
  ⟨fun h => hs.1 (String.append_eq_empty_iff.1 h).1, hs.2.append ht⟩

theorem dropEnding_of_notMem {l : List Char} (h : '\n' ∉ l) : dropEnding l = l := by
  unfold dropEnding
  split
  · rename_i hl
    exact absurd (List.mem_reverse.1 (hl ▸ List.mem_cons_self)) h
  · rename_i hl
    exact absurd (List.mem_reverse.1 (hl ▸ List.mem_cons_self)) h
  · rfl

theorem dropEnding_concat {l : List Char} (h : '\r' ∉ l) : dropEnding (l ++ ['\n']) = l := by
  rw [dropEnding, List.reverse_concat]
  split
  · rename_i cs hl
    have hr : '\r' ∈ l.reverse := by
      rw [(List.cons.inj hl).2]
      exact List.mem_cons_self
    exact absurd (List.mem_reverse.1 hr) h
  · rename_i hl
    rw [← (List.cons.inj hl).2, List.reverse_reverse]
  · rename_i hne
    exact absurd rfl (hne l.reverse)

theorem lines_intercalate {ls : List String} (h : ∀ l ∈ ls, IsLine l) :
    lines ("\n".intercalate ls) = ls := by
  induction ls with
  | nil => rfl
  | cons l ls ih =>
    obtain ⟨⟨hne, hlf, hcr⟩, hls⟩ := List.forall_mem_cons.1 h
    have hl : ∀ c ∈ l.toList, decide (c = '\n') = false := by
      intro c hc
      rw [decide_eq_false_iff_not]
      rintro rfl
      exact hlf hc
    cases ls with
    | nil =>
      have hnil : l.toList ≠ [] := mt String.toList_eq_nil_iff.1 hne
      rw [String.intercalate_singleton, lines, splitAfter_of_forall hnil hl, List.map_singleton,
        dropEnding_of_notMem hlf, String.ofList_toList]
    | cons m ms =>
      have hrest := ih hls
      rw [lines] at hrest
      rw [String.intercalate_cons_cons, lines, String.toList_append, String.toList_append,
        List.append_assoc]
      change (splitAfter _ (l.toList ++ '\n' :: ("\n".intercalate (m :: ms)).toList)).map _ = _
      rw [splitAfter_append_cons hl rfl, List.map_cons, hrest, dropEnding_concat hcr,
        String.ofList_toList]

/-! ## Lines of bytes -/

/-- The bytes of a text in UTF-8. -/
def encode (s : String) : List UInt8 := s.toList.flatMap String.utf8EncodeChar

theorem encode_append (s t : String) : encode (s ++ t) = encode s ++ encode t := by
  rw [encode, String.toList_append, List.flatMap_append, encode, encode]

theorem decode?_eq_some_iff {bytes : List UInt8} {s : String} :
    decode? bytes = some s ↔ bytes = encode s := by
  have hencode : (encode s).toByteArray = s.toByteArray := String.utf8Encode_toList
  rw [decode?, String.fromUTF8?, Option.dite_none_right_eq_some]
  constructor
  · rintro ⟨hvalid, ⟨⟩⟩
    exact List.toByteArray_inj.1 hencode.symm
  · rintro rfl
    rw [hencode]
    exact ⟨s.isValidUTF8, rfl⟩

theorem encode_ne_nil {s : String} (h : s ≠ "") : encode s ≠ [] := by
  intro hnil
  refine h (Option.some.inj ?_)
  rw [← decode?_eq_some_iff.2 rfl, hnil]
  exact decode?_eq_some_iff.2 rfl

/-- The bytes of a character have the highest bit set, unless it is one of the first 128. -/
theorem le_of_mem_utf8EncodeChar {c : Char} {b : UInt8} (hc : ¬c.val.toNat ≤ 127)
    (hb : b ∈ String.utf8EncodeChar c) : 128 ≤ b.toNat := by
  rw [String.utf8EncodeChar, if_neg hc] at hb
  split at hb
  · simp only [List.mem_cons, List.not_mem_nil, or_false] at hb
    rcases hb with rfl | rfl <;> rw [UInt8.toNat_ofNat'] <;> omega
  split at hb
  · simp only [List.mem_cons, List.not_mem_nil, or_false] at hb
    rcases hb with rfl | rfl | rfl <;> rw [UInt8.toNat_ofNat'] <;> omega
  · simp only [List.mem_cons, List.not_mem_nil, or_false] at hb
    rcases hb with rfl | rfl | rfl | rfl <;> rw [UInt8.toNat_ofNat'] <;> omega

theorem eq_of_mem_utf8EncodeChar {c : Char} (h : 10 ∈ String.utf8EncodeChar c) : c = '\n' := by
  by_cases hc : c.val.toNat ≤ 127
  · rw [String.utf8EncodeChar, if_pos hc, List.mem_singleton] at h
    have hn : (10 : UInt8).toNat = c.val.toNat := by
      rw [h, UInt8.toNat_ofNat', Nat.mod_eq_of_lt (by omega)]
    exact Char.ext (UInt32.toNat_inj.1 hn.symm)
  · exact absurd (le_of_mem_utf8EncodeChar hc h) (by decide)

/-- The bytes of a line, whether it has been ended or not. -/
theorem byteLines_of_decode? {bytes : List UInt8} {text ending : String} (hne : text ≠ "")
    (hlf : '\n' ∉ text.toList) (hending : ending ∈ ["", "\n"])
    (h : decode? bytes = some (text ++ ending)) : byteLines bytes = [bytes] := by
  have hbytes : ∀ b ∈ encode text, decide (b = 10) = false := by
    intro b hb
    rw [decide_eq_false_iff_not]
    rintro rfl
    obtain ⟨c, hc, hmem⟩ := List.mem_flatMap.1 hb
    exact hlf (eq_of_mem_utf8EncodeChar hmem ▸ hc)
  obtain rfl := decode?_eq_some_iff.1 h
  rw [encode_append]
  simp only [List.mem_cons, List.not_mem_nil, or_false] at hending
  rcases hending with rfl | rfl
  · change byteLines (encode text ++ []) = [encode text ++ []]
    rw [List.append_nil]
    exact splitAfter_of_forall (encode_ne_nil hne) hbytes
  · exact splitAfter_append_cons hbytes rfl []

end Monkey.Text
