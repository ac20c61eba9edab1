import Mathlib.Data.List.Forall2
import Monkey.Value.Equality
import Monkey.Value.Inspect

/-! # Values that differ in their functions only

Two runs of a program may come to values that are the same but for the functions in them: these may
have other numbers, or lie in other frames. `Value.Related F E` compares values up to that. Functions
are compared by `F`, everything else is to be the same; and values with an error in them are related
only if `E` says that there may be errors at all.

If `F` relates functions to themselves only, then related values are the same, and `Value.Related`
says what is contained in a value: `Value.related_self_iff`.
-/

namespace Monkey

variable {F G : Closure → Closure → Prop} {D E : Prop}

section Lists

variable {α β γ : Type} {R S : α → β → Prop} {l : List α} {m : List β}

theorem forall₂_imp_of_mem (h : List.Forall₂ R l m) (hRS : ∀ a ∈ l, ∀ b, R a b → S a b) :
    List.Forall₂ S l m :=
  ((List.forall₂_and_left l m).2 ⟨hRS, h⟩).imp fun _ b hab => hab.1 b hab.2

theorem exists_of_forall₂ (h : List.Forall₂ R l m) {a : α} (ha : a ∈ l) : ∃ b ∈ m, R a b := by
  induction h with
  | nil => cases ha
  | cons hab _ ih =>
    rcases List.mem_cons.1 ha with rfl | ha
    · exact ⟨_, List.mem_cons_self, hab⟩
    · obtain ⟨b, hb, h⟩ := ih ha
      exact ⟨b, List.mem_cons_of_mem _ hb, h⟩

/-- A list is related to itself if its items are. -/
theorem forall₂_eq_and_iff {P : α → Prop} {l : List α} :
    List.Forall₂ (fun a b => a = b ∧ P a) l l ↔ ∀ a ∈ l, P a := by
  rw [List.forall₂_same]
  simp only [true_and]

theorem rel_getElem? (h : List.Forall₂ R l m) (n : Nat) : Option.Rel R l[n]? m[n]? := by
  induction h generalizing n with
  | nil => exact .none
  | cons hab _ ih =>
    cases n with
    | zero => exact .some hab
    | succ n => exact ih n

theorem rel_getLast? (h : List.Forall₂ R l m) : Option.Rel R l.getLast? m.getLast? := by
  rw [List.getLast?_eq_getElem?, List.getLast?_eq_getElem?, h.length_eq]
  exact rel_getElem? h _

theorem rel_getD {a? : Option α} {b? : Option β} (h : Option.Rel R a? b?) {a : α} {b : β}
    (hab : R a b) : R (a?.getD a) (b?.getD b) := by
  cases h with
  | some h => exact h
  | none => exact hab

theorem rel_map {δ : Type} {S : γ → δ → Prop} {a? : Option α} {b? : Option β}
    (h : Option.Rel R a? b?) {f : α → γ} {g : β → δ} (hfg : ∀ a b, R a b → S (f a) (g b)) :
    Option.Rel S (a?.map f) (b?.map g) := by
  cases h with
  | some h => exact .some (hfg _ _ h)
  | none => exact .none

theorem forall₂_and_iff : List.Forall₂ (fun a b => R a b ∧ S a b) l m ↔
    List.Forall₂ R l m ∧ List.Forall₂ S l m := by
  constructor
  · intro h
    exact ⟨h.imp fun _ _ hab => hab.1, h.imp fun _ _ hab => hab.2⟩
  · rintro ⟨hR, hS⟩
    induction hR with
    | nil => exact .nil
    | cons hab _ ih =>
      cases hS with
      | cons hab' hS => exact .cons ⟨hab, hab'⟩ (ih hS)

theorem map_eq_map_iff {f : α → γ} {g : β → γ} :
    l.map f = m.map g ↔ List.Forall₂ (fun a b => f a = g b) l m := by
  rw [← List.forall₂_eq_eq_eq, List.forall₂_map_left_iff, List.forall₂_map_right_iff]

end Lists

namespace Value

/-- Properties pass from what arrays and hashes hold to the whole. -/
@[induction_eliminator]
theorem induction {P : Value → Prop} (int : ∀ n, P (.int n)) (bool : ∀ b, P (.bool b))
    (str : ∀ s, P (.str s)) (null : P .null) (array : ∀ vs, (∀ v ∈ vs, P v) → P (.array vs))
    (hash : ∀ es : List (Key × Entry Value), (∀ e ∈ es, P e.2.key ∧ P e.2.value) → P (.hash es))
    (function : ∀ f, P (.function f)) (builtin : ∀ b, P (.builtin b))
    (error : ∀ m, P (.error m)) : ∀ v, P v
  | .int n => int n
  | .bool b => bool b
  | .str s => str s
  | .null => null
  | .array vs => array vs fun v hv =>
    have : sizeOf v < sizeOf vs := List.sizeOf_lt_of_mem hv
    induction int bool str null array hash function builtin error v
  | .hash es => hash es fun e he =>
    have : sizeOf e < sizeOf es := List.sizeOf_lt_of_mem he
    ⟨induction int bool str null array hash function builtin error e.2.key,
      induction int bool str null array hash function builtin error e.2.value⟩
  | .function f => function f
  | .builtin b => builtin b
  | .error m => error m
termination_by v => sizeOf v
decreasing_by
  · simp only [Value.array.sizeOf_spec]
    omega
  all_goals
    obtain ⟨k, c, v⟩ := e
    simp only [Value.hash.sizeOf_spec, Prod.mk.sizeOf_spec, Entry.mk.sizeOf_spec] at *
    omega

/-- `u` is `v`, or is contained in it at any depth. -/
inductive Within (u : Value) : Value → Prop where
  | self : Within u u
  | element {v : Value} {vs : List Value} (hv : v ∈ vs) (h : Within u v) : Within u (.array vs)
  | key {k : Key} {e : Entry Value} {es : List (Key × Entry Value)} (he : (k, e) ∈ es)
      (h : Within u e.key) : Within u (.hash es)
  | value {k : Key} {e : Entry Value} {es : List (Key × Entry Value)} (he : (k, e) ∈ es)
      (h : Within u e.value) : Within u (.hash es)

/-- The same value, up to functions. -/
inductive Related (F : Closure → Closure → Prop) (E : Prop) : Value → Value → Prop where
  | int (n : Integer) : Related F E (.int n) (.int n)
  | bool (b : Bool) : Related F E (.bool b) (.bool b)
  | str (s : String) : Related F E (.str s) (.str s)
  | null : Related F E .null .null
  | array {vs ws : List Value} (h : List.Forall₂ (Related F E) vs ws) :
      Related F E (.array vs) (.array ws)
  | hash {es ds : List (Key × Entry Value)} (hk : es.map Prod.fst = ds.map Prod.fst)
      (hc : List.Forall₂ (Related F E) (es.map (·.2.key)) (ds.map (·.2.key)))
      (hv : List.Forall₂ (Related F E) (es.map (·.2.value)) (ds.map (·.2.value))) :
      Related F E (.hash es) (.hash ds)
  | function {f g : Closure} (h : F f g) : Related F E (.function f) (.function g)
  | builtin (b : Builtin) : Related F E (.builtin b) (.builtin b)
  | error (h : E) (message : String) : Related F E (.error message) (.error message)

end Value

/-! ## Tables -/

/-- Both values of an entry are related to those of the other. -/
def Entry.Related {α β : Type} (R : α → β → Prop) (e : Entry α) (d : Entry β) : Prop :=
  R e.key d.key ∧ R e.value d.value

namespace Table

variable {α β : Type} {R : α → β → Prop} {t : Table α} {u : Table β} {k : Key}

/-- The same keys, each of which leads to related things. -/
def Related (R : α → β → Prop) (t : Table α) (u : Table β) : Prop :=
  List.Forall₂ (fun a b => a.1 = b.1 ∧ R a.2 b.2) t u

theorem Related.insert (h : Related R t u) {a : α} {b : β} (hab : R a b) :
    Related R (t.insert k a) (u.insert k b) := by
  induction h with
  | nil => exact .cons ⟨rfl, hab⟩ .nil
  | @cons e d t u he ht ih =>
    obtain ⟨k', a'⟩ := e
    obtain ⟨l', b'⟩ := d
    obtain ⟨hk, hab'⟩ := he
    obtain rfl : k' = l' := hk
    rw [Table.insert, Table.insert]
    split
    · exact List.Forall₂.cons ⟨rfl, hab⟩ (.cons ⟨rfl, hab'⟩ ht)
    · exact List.Forall₂.cons ⟨rfl, hab⟩ ht
    · exact List.Forall₂.cons ⟨rfl, hab'⟩ ih

theorem Related.find? (h : Related R t u) : Option.Rel R (t.find? k) (u.find? k) := by
  induction h with
  | nil => exact .none
  | @cons e d t u he _ ih =>
    obtain ⟨k', a'⟩ := e
    obtain ⟨l', b'⟩ := d
    obtain ⟨rfl, hab⟩ := he
    rw [Table.find?, Table.find?]
    split
    · exact .some hab
    · exact ih

theorem Related.value? {t : Table (Entry α)} {u : Table (Entry β)}
    (h : Related (Entry.Related R) t u) (k : Key) :
    Option.Rel R ((t.find? k).map Entry.value) ((u.find? k).map Entry.value) :=
  rel_map h.find? fun _ _ he => he.2

end Table

/-! ## What related values have in common -/

namespace Value

variable {v w v' w' : Value} {vs ws : List Value}

theorem related_hash {es ds : Table (Entry Value)} :
    Related F E (.hash es) (.hash ds) ↔ Table.Related (Entry.Related (Related F E)) es ds := by
  have hentries : Table.Related (Entry.Related (Related F E)) es ds ↔
      es.map Prod.fst = ds.map Prod.fst ∧
      List.Forall₂ (Related F E) (es.map (·.2.key)) (ds.map (·.2.key)) ∧
      List.Forall₂ (Related F E) (es.map (·.2.value)) (ds.map (·.2.value)) := by
    simp only [map_eq_map_iff, List.forall₂_map_left_iff, List.forall₂_map_right_iff,
      ← forall₂_and_iff]
    rfl
  rw [hentries]
  constructor
  · intro h
    cases h with
    | hash hk hc hv => exact ⟨hk, hc, hv⟩
  · rintro ⟨hk, hc, hv⟩
    exact .hash hk hc hv

/-- What is related to a hash is a hash. -/
theorem Related.exists_hash {es : Table (Entry Value)} (h : Related F E (.hash es) w) :
    ∃ ds, w = .hash ds ∧ Table.Related (Entry.Related (Related F E)) es ds := by
  cases h with
  | hash hk hc hv => exact ⟨_, rfl, related_hash.1 (.hash hk hc hv)⟩

namespace Related

theorem mono (h : Related F D v w) (hFG : ∀ f g, F f g → G f g) (hDE : D → E) :
    Related G E v w := by
  induction v generalizing w with
  | array vs ih =>
    cases h with
    | array hvs => exact .array (forall₂_imp_of_mem hvs fun v hv _ => ih v hv)
  | hash es ih =>
    obtain ⟨ds, rfl, hes⟩ := h.exists_hash
    refine related_hash.2 (forall₂_imp_of_mem hes fun e he _ h => ?_)
    obtain ⟨hk, hc, hv⟩ := h
    exact ⟨hk, (ih e he).1 hc, (ih e he).2 hv⟩
  | int | bool | str | null | builtin => cases h; constructor
  | function =>
    cases h with
    | function h => exact .function (hFG _ _ h)
  | error m =>
    cases h with
    | error h => exact .error (hDE h) m

theorem kind_eq (h : Related F E v w) : v.kind = w.kind := by
  cases h <;> rfl

theorem isTruthy_eq (h : Related F E v w) : v.isTruthy = w.isTruthy := by
  cases h <;> rfl

theorem eq_error_iff (h : Related F E v w) (m : String) : v = .error m ↔ w = .error m := by
  cases h <;> simp

theorem key?_eq (h : Related F E v w) : v.key? = w.key? := by
  cases h <;> rfl

end Related

/-! ### Equality -/

/-- Whether arrays are equal depends on whether their elements are. -/
theorem beqAll_eq {R : Value → Value → Prop} {vs vs' ws ws' : List Value}
    (hvs : List.Forall₂ R vs vs') (hws : List.Forall₂ R ws ws')
    (h : ∀ v ∈ vs, ∀ {w v' w'}, R v v' → R w w' → beq v w = beq v' w') :
    beqAll vs ws = beqAll vs' ws' := by
  induction hvs generalizing ws ws' with
  | nil => cases hws <;> rfl
  | cons hv _ ih =>
    obtain ⟨hhead, htail⟩ := List.forall_mem_cons.1 @h
    cases hws with
    | nil => rfl
    | cons hw hws => rw [beqAll, beqAll, hhead hv hw, ih hws htail]

theorem beqEntries_eq {R : Value → Value → Prop} {es es' ds ds' : Table (Entry Value)}
    (hes : Table.Related (Entry.Related R) es es') (hds : Table.Related (Entry.Related R) ds ds')
    (h : ∀ e ∈ es, (∀ {w v' w'}, R e.2.key v' → R w w' → beq e.2.key w = beq v' w') ∧
      ∀ {w v' w'}, R e.2.value v' → R w w' → beq e.2.value w = beq v' w') :
    beqEntries es ds = beqEntries es' ds' := by
  induction hes generalizing ds ds' with
  | nil => cases hds <;> rfl
  | @cons e e' _ _ he _ ih =>
    obtain ⟨k, c, v⟩ := e
    obtain ⟨k', c', v'⟩ := e'
    obtain ⟨rfl, hc, hv⟩ := he
    obtain ⟨⟨hkey, hvalue⟩, htail⟩ := List.forall_mem_cons.1 @h
    cases hds with
    | nil => rfl
    | @cons d d' _ _ hd hds =>
      obtain ⟨l, b, w⟩ := d
      obtain ⟨l', b', w'⟩ := d'
      obtain ⟨rfl, hb, hw⟩ := hd
      rw [beqEntries, beqEntries, hkey hc hb, hvalue hv hw, ih hds htail]

/-- Related values are equal to the same values, if this is so for functions. -/
theorem Related.beq_eq (hF : ∀ f f' g g', F f f' → F g g' → (f.id = g.id ↔ f'.id = g'.id))
    (hv : Related F E v v') (hw : Related F E w w') : (v == w) = (v' == w') := by
  change beq v w = beq v' w'
  induction v generalizing v' w w' with
  | array vs ih =>
    cases hv with
    | array hvs =>
      cases hw with
      | array hws => exact beqAll_eq hvs hws @ih
      | _ => rfl
  | hash es ih =>
    obtain ⟨es', rfl, hes⟩ := hv.exists_hash
    cases w with
    | hash ds =>
      obtain ⟨ds', rfl, hds⟩ := hw.exists_hash
      refine beqEntries_eq hes hds fun e he => ⟨?_, ?_⟩
      · exact (ih e he).1
      · exact (ih e he).2
    | _ =>
      cases hw
      rfl
  | function f =>
    cases hv with
    | function hf =>
      cases hw with
      | function hg => exact decide_eq_decide.2 (hF _ _ _ _ hf hg)
      | _ => rfl
  | int | bool | str | null | builtin | error =>
    cases hv
    cases hw <;> rfl

/-! ### Texts -/

/-- Related values are shown in the same way, if this is so for functions. -/
theorem Related.inspect_eq (hF : ∀ f g, F f g → f.inspect = g.inspect) (h : Related F E v w) :
    v.inspect = w.inspect := by
  induction v generalizing w with
  | array vs ih =>
    cases h with
    | array hvs =>
      rw [inspect, inspect, inspectAll_eq_map, inspectAll_eq_map]
      rw [map_eq_map_iff.2 (forall₂_imp_of_mem hvs fun v hv _ => ih v hv)]
  | hash es ih =>
    obtain ⟨ds, rfl, hes⟩ := h.exists_hash
    rw [inspect, inspect, inspectEntries_eq_map, inspectEntries_eq_map]
    rw [map_eq_map_iff.2 (forall₂_imp_of_mem hes fun e he _ h => ?_)]
    rw [(ih e he).1 h.2.1, (ih e he).2 h.2.2]
  | function f =>
    cases h with
    | function h => exact hF _ _ h
  | int | bool | str | null | builtin | error =>
    cases h
    rfl

/-! ### Contents -/

/-- What is contained in a value is related to something that is contained in a related one. -/
theorem Related.exists_of_within {u : Value} (h : Related F E v w) (hu : Within u v) :
    ∃ u', Within u' w ∧ Related F E u u' := by
  induction hu generalizing w with
  | self => exact ⟨w, .self, h⟩
  | element hv _ ih =>
    cases h with
    | array hvs =>
      obtain ⟨w, hw, hvw⟩ := exists_of_forall₂ hvs hv
      obtain ⟨u', hu', hu⟩ := ih hvw
      exact ⟨u', .element hw hu', hu⟩
  | key he _ ih =>
    obtain ⟨ds, rfl, hes⟩ := h.exists_hash
    obtain ⟨d, hd, -, hc, -⟩ := exists_of_forall₂ hes he
    obtain ⟨u', hu', hu⟩ := ih hc
    exact ⟨u', .key hd hu', hu⟩
  | value he _ ih =>
    obtain ⟨ds, rfl, hes⟩ := h.exists_hash
    obtain ⟨d, hd, -, -, hv⟩ := exists_of_forall₂ hes he
    obtain ⟨u', hu', hu⟩ := ih hv
    exact ⟨u', .value hd hu', hu⟩

theorem Related.eq_of_forall_eq (h : Related F E v w) (hF : ∀ f g, F f g → f = g) : v = w := by
  induction v generalizing w with
  | array vs ih =>
    cases h with
    | array hvs =>
      have heq := forall₂_imp_of_mem hvs fun v hv _ => ih v hv
      rw [List.forall₂_eq_eq_eq] at heq
      rw [heq]
  | hash es ih =>
    obtain ⟨ds, rfl, hes⟩ := h.exists_hash
    have heq : List.Forall₂ Eq es ds := forall₂_imp_of_mem hes fun e he _ h =>
      Prod.ext h.1 (Entry.ext ((ih e he).1 h.2.1) ((ih e he).2 h.2.2))
    rw [List.forall₂_eq_eq_eq] at heq
    rw [heq]
  | function f =>
    cases h with
    | function h => rw [hF _ _ h]
  | int | bool | str | null | builtin | error =>
    cases h
    rfl

/-- If functions are related to themselves only, then so are values; and what they contain is what
the relation says of it. -/
theorem related_self_iff {C : Closure → Prop} :
    Related (fun f g => f = g ∧ C f) E v w ↔
      v = w ∧ (∀ f, Within (.function f) v → C f) ∧ ∀ m, Within (.error m) v → E := by
  constructor
  · intro h
    obtain rfl := h.eq_of_forall_eq fun _ _ hfg => hfg.1
    refine ⟨rfl, fun f hf => ?_, fun m hm => ?_⟩
    · obtain ⟨_, -, hfg⟩ := h.exists_of_within hf
      cases hfg with
      | function hfg => exact hfg.2
    · obtain ⟨_, -, hm⟩ := h.exists_of_within hm
      cases hm with
      | error hE => exact hE
  · rintro ⟨rfl, hf, hm⟩
    induction v with
    | array vs ih =>
      refine .array (List.forall₂_same.2 fun v hv => ih v hv ?_ ?_)
      · exact fun f h => hf f (.element hv h)
      · exact fun m h => hm m (.element hv h)
    | hash es ih =>
      refine related_hash.2 (List.forall₂_same.2 fun e he => ?_)
      refine ⟨rfl, (ih e he).1 ?_ ?_, (ih e he).2 ?_ ?_⟩
      · exact fun f h => hf f (.key he h)
      · exact fun m h => hm m (.key he h)
      · exact fun f h => hf f (.value he h)
      · exact fun m h => hm m (.value he h)
    | function f => exact .function ⟨rfl, hf f .self⟩
    | error m => exact .error (hm m .self) m
    | int | bool | str | null | builtin => constructor

end Value

end Monkey
