import Monkey.Proofs.Store.Related

/-! # Tables are ordered

The keys of a table increase strictly from each entry to the next, however the table came about:
`Table.sorted_ofPairs`. So there is one table only for what its keys lead to, and two tables are
compared entry by entry if they are compared key by key: `Table.Sorted.related_iff`.

What a table comes to lead to when pairs are inserted one after the other is said by `Table.last?`,
which looks at the pairs and not at the table: the last pair of a key counts.
-/

namespace Monkey

/-! ## The order of keys -/

namespace Key

instance : Std.OrientedCmp cmp where
  eq_swap {k l} := by
    cases k <;> cases l <;> first | rfl | exact Std.OrientedOrd.eq_swap

instance : Std.TransCmp cmp where
  isLE_trans {k l m} hkl hlm := by
    -- Between keys of one sort there are only keys of that sort.
    cases k with
    | int a =>
      cases m with
      | int c =>
        cases l with
        | int b => exact Std.TransOrd.isLE_trans hkl hlm
        | _ => cases hlm
      | _ => rfl
    | bool a =>
      cases m with
      | int c =>
        cases l with
        | int b => cases hkl
        | _ => cases hlm
      | bool c =>
        cases l with
        | int b => cases hkl
        | bool b => exact Std.TransOrd.isLE_trans hkl hlm
        | str b => cases hlm
      | str c => rfl
    | str a =>
      cases l with
      | str b =>
        cases m with
        | str c => exact Std.TransOrd.isLE_trans hkl hlm
        | _ => cases hlm
      | _ => cases hkl

instance : Std.LawfulEqCmp cmp where
  eq_of_compare {k l} h := by
    cases k with
    | int a =>
      cases l with
      | int b => exact congrArg _ (Integer.ext (Std.LawfulEqOrd.eq_of_compare h))
      | _ => cases h
    | bool a =>
      cases l with
      | bool b => exact congrArg _ (Std.LawfulEqOrd.eq_of_compare h)
      | _ => cases h
    | str a =>
      cases l with
      | str b => exact congrArg _ (Std.LawfulEqOrd.eq_of_compare h)
      | _ => cases h

/-- First come the integers, by size, then `false` and `true`, and then the strings, by the code
points of their characters. -/
inductive Lt : Key → Key → Prop where
  | int {a b : Integer} (h : a.val < b.val) : Lt (.int a) (.int b)
  | intBool (a : Integer) (b : Bool) : Lt (.int a) (.bool b)
  | intStr (a : Integer) (b : String) : Lt (.int a) (.str b)
  | bool : Lt (.bool false) (.bool true)
  | boolStr (a : Bool) (b : String) : Lt (.bool a) (.str b)
  | str {a b : String} (h : a.toList.Lex (fun c d => c.toNat < d.toNat) b.toList) :
      Lt (.str a) (.str b)

theorem cmp_eq_lt_iff {k l : Key} : k.cmp l = .lt ↔ k.Lt l := by
  constructor
  · intro h
    cases k with
    | int a =>
      cases l with
      | int b => exact .int (Int.compare_eq_lt.1 h)
      | bool b => exact .intBool a b
      | str b => exact .intStr a b
    | bool a =>
      cases l with
      | int b => cases h
      | bool b =>
        cases a <;> cases b <;> cases h
        exact .bool
      | str b => exact .boolStr a b
    | str a =>
      cases l with
      | str b => exact .str (compareOfLessAndEq_eq_lt.1 h)
      | _ => cases h
  · intro h
    cases h with
    | int h => exact Int.compare_eq_lt.2 h
    | str h => exact compareOfLessAndEq_eq_lt.2 h
    | _ => rfl

theorem Lt.trans {k l m : Key} (hkl : k.Lt l) (hlm : l.Lt m) : k.Lt m :=
  cmp_eq_lt_iff.1 (Std.TransCmp.lt_trans (cmp_eq_lt_iff.2 hkl) (cmp_eq_lt_iff.2 hlm))

theorem Lt.ne {k l : Key} (h : k.Lt l) : k ≠ l := by
  rintro rfl
  have heq : k.cmp k = .eq := Std.LawfulEqCmp.compare_eq_iff_eq.2 rfl
  rw [cmp_eq_lt_iff.2 h] at heq
  cases heq

end Key

/-! ## Tables -/

namespace Table

variable {α β : Type} {t : Table α} {u : Table β} {k l : Key} {a : α}

/-- The key to be inserted is before the first key, is the first key, or is behind it. -/
theorem insert_cons (k : Key) (a : α) (e : Key × α) (t : Table α) :
    k.Lt e.1 ∧ insert k a (e :: t) = (k, a) :: e :: t ∨
    k = e.1 ∧ insert k a (e :: t) = (k, a) :: t ∨
    e.1.Lt k ∧ insert k a (e :: t) = e :: insert k a t := by
  obtain ⟨k', a'⟩ := e
  rw [insert]
  rcases h : k.cmp k' with _ | _ | _
  · exact .inl ⟨Key.cmp_eq_lt_iff.1 h, rfl⟩
  · exact .inr (.inl ⟨Std.LawfulEqCmp.eq_of_compare h, rfl⟩)
  · exact .inr (.inr ⟨Key.cmp_eq_lt_iff.1 (Std.OrientedCmp.gt_iff_lt.1 h), rfl⟩)

theorem find?_insert (k l : Key) (a : α) (t : Table α) :
    find? l (insert k a t) = if k = l then some a else find? l t := by
  induction t with
  | nil => rfl
  | cons e t ih =>
    rcases insert_cons k a e t with ⟨-, h⟩ | ⟨rfl, h⟩ | ⟨hlt, h⟩ <;> rw [h]
    · rfl
    · simp only [find?]
      split <;> rfl
    · rw [find?, find?, ih]
      by_cases hl : e.1 = l
      · rw [if_pos hl, if_pos hl, if_neg (hl ▸ hlt.ne.symm)]
      · rw [if_neg hl, if_neg hl]

theorem find?_cons_self (e : Key × α) (t : Table α) : find? e.1 (e :: t) = some e.2 := if_pos rfl

theorem mem_of_find? (h : find? k t = some a) : (k, a) ∈ t := by
  induction t with
  | nil => cases h
  | cons e t ih =>
    rw [find?] at h
    split at h
    · rename_i hk
      cases h
      exact hk ▸ List.mem_cons_self
    · exact List.mem_cons_of_mem e (ih h)

/-- The keys are in strictly increasing order. -/
def Sorted (t : Table α) : Prop := t.Pairwise fun d e => d.1.Lt e.1

theorem mem_insert {e : Key × α} (h : e ∈ insert k a t) : e = (k, a) ∨ e ∈ t := by
  induction t with
  | nil => exact .inl (List.mem_singleton.1 h)
  | cons d t ih =>
    rcases insert_cons k a d t with ⟨-, hd⟩ | ⟨-, hd⟩ | ⟨-, hd⟩ <;> rw [hd] at h
    · exact List.mem_cons.1 h
    · exact (List.mem_cons.1 h).imp_right (List.mem_cons_of_mem d)
    · rcases List.mem_cons.1 h with rfl | h
      · exact .inr List.mem_cons_self
      · exact (ih h).imp_right (List.mem_cons_of_mem d)

namespace Sorted

theorem insert (ht : Sorted t) (k : Key) (a : α) : Sorted (insert k a t) := by
  induction t with
  | nil => exact List.pairwise_singleton _ _
  | cons e t ih =>
    obtain ⟨he, ht'⟩ := List.pairwise_cons.1 ht
    rcases insert_cons k a e t with ⟨hlt, h⟩ | ⟨rfl, h⟩ | ⟨hlt, h⟩ <;> rw [h]
    · exact List.pairwise_cons.2
        ⟨List.forall_mem_cons.2 ⟨hlt, fun d hd => hlt.trans (he d hd)⟩, ht⟩
    · exact List.pairwise_cons.2 ⟨he, ht'⟩
    · refine List.pairwise_cons.2 ⟨fun d hd => ?_, ih ht'⟩
      rcases mem_insert hd with rfl | hd
      · exact hlt
      · exact he d hd

theorem find?_tail {e : Key × α} (h : Sorted (e :: t)) : find? e.1 t = none := by
  rcases hf : find? e.1 t with _ | a
  · rfl
  · exact absurd rfl ((List.pairwise_cons.1 h).1 _ (mem_of_find? hf)).ne

theorem mem_iff (h : Sorted t) : (k, a) ∈ t ↔ find? k t = some a := by
  refine ⟨fun hmem => ?_, mem_of_find?⟩
  induction t with
  | nil => cases hmem
  | cons e t ih =>
    obtain ⟨he, ht⟩ := List.pairwise_cons.1 h
    rcases List.mem_cons.1 hmem with rfl | hmem
    · exact find?_cons_self (k, a) t
    · rw [find?, if_neg (he _ hmem).ne, ih ht hmem]

/-- No key comes before the first. -/
theorem eq_or_lt_of_find? {e : Key × α} (h : Sorted (e :: t)) (hk : find? k (e :: t) = some a) :
    e.1 = k ∨ e.1.Lt k := by
  rcases List.mem_cons.1 (mem_of_find? hk) with rfl | hmem
  · exact .inl rfl
  · exact .inr ((List.pairwise_cons.1 h).1 _ hmem)

/-- Tables whose keys lead to related things have related entries. -/
theorem related {R : α → β → Prop} (ht : Sorted t) (hu : Sorted u)
    (h : ∀ k, Option.Rel R (find? k t) (find? k u)) : Related R t u := by
  induction t generalizing u with
  | nil =>
    cases u with
    | nil => exact .nil
    | cons e u =>
      have he := (rel_eq_none_iff (h e.1)).1 rfl
      rw [find?_cons_self] at he
      cases he
  | cons d t ih =>
    cases u with
    | nil =>
      have hd := (rel_eq_none_iff (h d.1)).2 rfl
      rw [find?_cons_self] at hd
      cases hd
    | cons e u =>
      obtain ⟨b, hb, hdb⟩ := exists_of_rel (h d.1) (find?_cons_self d t)
      -- Neither of the first keys can come before the other.
      have hkey : d.1 = e.1 := by
        rcases hu.eq_or_lt_of_find? hb with hed | hed
        · exact hed.symm
        · have hsome : find? e.1 (d :: t) ≠ none := by
            rw [Ne, rel_eq_none_iff (h e.1), find?_cons_self]
            exact nofun
          obtain ⟨a, ha⟩ := Option.ne_none_iff_exists'.1 hsome
          rcases ht.eq_or_lt_of_find? ha with hde | hde
          · exact hde
          · exact absurd rfl (hde.trans hed).ne
      rw [hkey, find?_cons_self] at hb
      cases hb
      refine .cons ⟨hkey, hdb⟩ (ih (List.pairwise_cons.1 ht).2 (List.pairwise_cons.1 hu).2 fun k => ?_)
      by_cases hk : d.1 = k
      · rw [← hk, ht.find?_tail, hkey, hu.find?_tail]
        exact .none
      · have hrest := h k
        rwa [find?, if_neg hk, find?, if_neg (hkey ▸ hk)] at hrest

theorem related_iff {R : α → β → Prop} (ht : Sorted t) (hu : Sorted u) :
    Related R t u ↔ ∀ k, Option.Rel R (find? k t) (find? k u) :=
  ⟨fun h _ => h.find?, ht.related hu⟩

end Sorted

/-! ## Inserting one after the other -/

/-- Inserts pairs one after the other. -/
def insertAll (kvs : List (Key × α)) (t : Table α) : Table α :=
  kvs.foldl (fun t kv => insert kv.1 kv.2 t) t

/-- The table that pairs make. -/
def ofPairs (kvs : List (Key × α)) : Table α := insertAll kvs []

/-- What is paired with `k` for the last time. -/
def last? (k : Key) (kvs : List (Key × α)) : Option α :=
  (kvs.filter (·.1 = k)).getLast?.map Prod.snd

variable {kvs kvs' : List (Key × α)}

theorem last?_cons (k : Key) (kv : Key × α) (kvs : List (Key × α)) :
    last? k (kv :: kvs) = (last? k kvs).or (if kv.1 = k then some kv.2 else none) := by
  by_cases hk : kv.1 = k
  · simp only [last?, List.filter_cons, hk, decide_true, if_true, List.getLast?_cons,
      Option.map_some]
    cases (kvs.filter (·.1 = k)).getLast? <;> rfl
  · simp [last?, hk]

theorem last?_eq_none : last? k kvs = none ↔ k ∉ kvs.map Prod.fst := by
  rw [last?, Option.map_eq_none_iff, List.getLast?_eq_none_iff, List.filter_eq_nil_iff]
  simp only [decide_eq_true_eq, List.mem_map, not_exists, not_and]

theorem last?_of_notMem {front back : List (Key × α)} (h : k ∉ back.map Prod.fst) :
    last? k (front ++ (k, a) :: back) = some a := by
  have hback : back.filter (·.1 = k) = [] := by
    have hnone := last?_eq_none.2 h
    rwa [last?, Option.map_eq_none_iff, List.getLast?_eq_none_iff] at hnone
  simp [last?, hback]

theorem mem_of_last? (h : last? k kvs = some a) : (k, a) ∈ kvs := by
  obtain ⟨⟨l, b⟩, hlast, rfl⟩ := Option.map_eq_some_iff.1 h
  have hmem := List.mem_filter.1 (List.mem_of_getLast? hlast)
  obtain rfl : l = k := by simpa using hmem.2
  exact hmem.1

theorem find?_insertAll (k : Key) (kvs : List (Key × α)) (t : Table α) :
    find? k (insertAll kvs t) = (last? k kvs).or (find? k t) := by
  induction kvs generalizing t with
  | nil => rfl
  | cons kv kvs ih =>
    rw [insertAll, List.foldl_cons, ← insertAll, ih, find?_insert, last?_cons, Option.or_assoc]
    split <;> rfl

theorem find?_ofPairs (k : Key) (kvs : List (Key × α)) : find? k (ofPairs kvs) = last? k kvs := by
  rw [ofPairs, find?_insertAll]
  exact Option.or_none

theorem Sorted.insertAll (ht : Sorted t) (kvs : List (Key × α)) : Sorted (insertAll kvs t) := by
  induction kvs generalizing t with
  | nil => exact ht
  | cons kv kvs ih => exact ih (ht.insert kv.1 kv.2)

theorem sorted_ofPairs (kvs : List (Key × α)) : Sorted (ofPairs kvs) :=
  Sorted.insertAll .nil kvs

theorem mem_ofPairs_iff : (k, a) ∈ ofPairs kvs ↔ last? k kvs = some a := by
  rw [(sorted_ofPairs kvs).mem_iff, find?_ofPairs]

/-- Only the last pair of each key counts. -/
theorem ofPairs_eq (h : ∀ k, last? k kvs = last? k kvs') : ofPairs kvs = ofPairs kvs' := by
  have hrel : Related Eq (ofPairs kvs) (ofPairs kvs') := by
    refine (sorted_ofPairs kvs).related (sorted_ofPairs kvs') fun k => ?_
    rw [find?_ofPairs, find?_ofPairs, h k]
    cases last? k kvs' with
    | none => exact .none
    | some a => exact .some rfl
  rw [← List.forall₂_eq_eq_eq]
  exact hrel.imp fun _ _ he => Prod.ext he.1 he.2

/-- Of pairs with different keys, there is at most one for each key. -/
theorem length_filter_le_one (h : (kvs.map Prod.fst).Nodup) (k : Key) :
    (kvs.filter (·.1 = k)).length ≤ 1 := by
  have hkeys : (kvs.filter (·.1 = k)).map Prod.fst =
      List.replicate (kvs.filter (·.1 = k)).length k := by
    refine List.eq_replicate_iff.2 ⟨List.length_map _, fun l hl => ?_⟩
    obtain ⟨kv, hkv, rfl⟩ := List.mem_map.1 hl
    simpa using (List.mem_filter.1 hkv).2
  have hnodup : ((kvs.filter (·.1 = k)).map Prod.fst).Nodup :=
    h.sublist (List.filter_sublist.map Prod.fst)
  rw [hkeys] at hnodup
  exact List.nodup_replicate.1 hnodup

theorem filter_eq_of_perm (h : kvs.Perm kvs') (hkeys : (kvs.map Prod.fst).Nodup) (k : Key) :
    kvs.filter (·.1 = k) = kvs'.filter (·.1 = k) := by
  have hperm : (kvs.filter (·.1 = k)).Perm (kvs'.filter (·.1 = k)) := h.filter _
  rcases Nat.le_one_iff_eq_zero_or_eq_one.1 (length_filter_le_one hkeys k) with hzero | hone
  · rw [List.eq_nil_of_length_eq_zero hzero] at hperm ⊢
    exact hperm.nil_eq
  · obtain ⟨kv, hkv⟩ := List.length_eq_one_iff.1 hone
    rw [hkv] at hperm ⊢
    exact hperm.singleton_eq

/-- It matters only in which order the pairs of each key come. -/
theorem ofPairs_eq_of_filter (h : ∀ k, kvs.filter (·.1 = k) = kvs'.filter (·.1 = k)) :
    ofPairs kvs = ofPairs kvs' :=
  ofPairs_eq fun k => by rw [last?, h k, ← last?]

end Table

/-! ## Equal hashes -/

namespace Value

theorem beqAll_self {vs : List Value} (h : ∀ v ∈ vs, beq v v = true) : beqAll vs vs = true := by
  induction vs with
  | nil => rfl
  | cons v vs ih =>
    obtain ⟨hv, hvs⟩ := List.forall_mem_cons.1 h
    rw [beqAll, hv, ih hvs]
    rfl

theorem beqEntries_iff {es ds : Table (Entry Value)} : beqEntries es ds = true ↔
    Table.Related (Entry.Related fun v w => (v == w) = true) es ds := by
  induction es generalizing ds with
  | nil =>
    cases ds with
    | nil => exact iff_of_true rfl .nil
    | cons d ds => exact iff_of_false Bool.false_ne_true nofun
  | cons e es ih =>
    cases ds with
    | nil => exact iff_of_false Bool.false_ne_true nofun
    | cons d ds =>
      rw [beqEntries, Bool.and_eq_true, Bool.and_eq_true, Bool.and_eq_true, decide_eq_true_iff, ih]
      constructor
      · rintro ⟨⟨⟨hk, hc⟩, hv⟩, hrest⟩
        exact .cons ⟨hk, hc, hv⟩ hrest
      · intro h
        cases h with
        | cons hed hrest => exact ⟨⟨⟨hed.1, hed.2.1⟩, hed.2.2⟩, hrest⟩

instance : ReflBEq Value where
  rfl {v} := by
    change beq v v = true
    induction v with
    | array vs ih => exact beqAll_self ih
    | hash es ih =>
      exact beqEntries_iff.2 (List.forall₂_same.2 fun e he => ⟨rfl, ih e he⟩)
    | null => rfl
    | _ => exact decide_eq_true rfl

/-- Hashes are equal if each key leads to equal entries, or to none, in both. -/
theorem beq_hash_iff {es ds : Table (Entry Value)} (hes : es.Sorted) (hds : ds.Sorted) :
    (hash es == hash ds) = true ↔
      ∀ k, Option.Rel (Entry.Related fun v w => (v == w) = true) (es.find? k) (ds.find? k) :=
  beqEntries_iff.trans (hes.related_iff hds)

end Value

namespace Table

variable {kvs kvs' : List (Key × Entry Value)}

/-- Each entry is paired with the key that its first value is. -/
def Keyed (kvs : List (Key × Entry Value)) : Prop := ∀ k e, (k, e) ∈ kvs → e.key.key? = some k

theorem Keyed.ofPairs (h : Keyed kvs) : Keyed (Table.ofPairs kvs) :=
  fun k e he => h k e (mem_of_last? (mem_ofPairs_iff.1 he))

/-- Two lists of pairs make equal hashes if they have the same keys, and if the last values of each
key are equal. -/
theorem beq_ofPairs_iff (h : Keyed kvs) (h' : Keyed kvs') :
    (Value.hash (ofPairs kvs) == .hash (ofPairs kvs')) = true ↔
      (∀ k, k ∈ kvs.map Prod.fst ↔ k ∈ kvs'.map Prod.fst) ∧
      ∀ k e d, last? k kvs = some e → last? k kvs' = some d → (e.value == d.value) = true := by
  rw [Value.beq_hash_iff (sorted_ofPairs kvs) (sorted_ofPairs kvs'), ← forall_and]
  refine forall_congr' fun k => ?_
  rw [find?_ofPairs, find?_ofPairs, rel_iff, last?_eq_none, last?_eq_none, not_iff_not]
  refine and_congr_right fun _ => forall₄_congr fun e d he hd => and_iff_right ?_
  -- Both of the values that the keys were taken from are the one value that is this key.
  have hek : e.key = k.value := Value.key?_eq_some.1 (h k e (mem_of_last? he))
  have hdk : d.key = k.value := Value.key?_eq_some.1 (h' k d (mem_of_last? hd))
  rw [hek, hdk]
  exact beq_self_eq_true k.value

end Table
end Monkey
