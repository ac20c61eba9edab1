import Monkey.Proofs.Eval.Ends
import Monkey.Value.Inspect

/-! # Hash literals

A hash literal is a list of pairs, in which a key may come more than once and in any order. The hash
that it makes is told by the last pair of each key alone: what is found under a key, what the hash
is equal to, and what it looks like (`Eval.ends_hash_canonical`).
-/

namespace Monkey.Eval

variable {i : FrameId} {s t : Store} {ps : List (Expr × Expr)} {kvs : List (Key × Entry Value)}

theorem index_ofPairs {v : Value} {k : Key} (h : v.key? = some k) (kvs : List (Key × Entry Value)) :
    index (.hash (Table.ofPairs kvs)) v =
      .ok (((Table.last? k kvs).map Entry.value).getD .null) := by
  have hkey : key v = .ok k := by rw [key, h]
  rw [index, hkey, ← Table.find?_ofPairs]
  rfl

/-- The pairs of a hash literal end one after the other. Then the literal ends with a hash. Under a
key, it has the last value that was paired with the key, and `null` if there is none. Its entries
are those last pairs, each under the key that its first value is: they are shown one after the
other, by increasing keys. Another literal makes an equal hash just if it has the same keys with
equal last values. It makes the very same hash if it has the same pairs of each key in the same
order, and so if it has the same pairs in another order and no key comes twice. -/
theorem ends_hash_canonical (h : PairsEnd i ps s kvs t) (token : Token) :
    ∃ table : Table (Entry Value), Ends i (.expr (.hash token ps)) s (.ok (.hash table)) t ∧
      (∀ v k, v.key? = some k →
        (∀ front e back, kvs = front ++ (k, e) :: back → k ∉ back.map Prod.fst →
          index (.hash table) v = .ok e.value) ∧
        (k ∉ kvs.map Prod.fst → index (.hash table) v = .ok .null)) ∧
      (∀ k e, (k, e) ∈ table → e.key.key? = some k) ∧
      table.Sorted ∧
      (∀ k e, (k, e) ∈ table ↔ Table.last? k kvs = some e) ∧
      (Value.hash table).inspect = "\x7b" ++ ", ".intercalate
        (table.map fun e => e.2.key.inspect ++ ": " ++ e.2.value.inspect) ++ "\x7d" ∧
      ∀ j qs u kvs' w token', PairsEnd j qs u kvs' w →
        ∃ table' : Table (Entry Value),
          Ends j (.expr (.hash token' qs)) u (.ok (.hash table')) w ∧
          ((Value.hash table == .hash table') = true ↔
            (∀ k, k ∈ kvs.map Prod.fst ↔ k ∈ kvs'.map Prod.fst) ∧
            ∀ k e d, Table.last? k kvs = some e → Table.last? k kvs' = some d →
              (e.value == d.value) = true) ∧
          ((∀ k, kvs.filter (·.1 = k) = kvs'.filter (·.1 = k)) ∨
              kvs.Perm kvs' ∧ (kvs.map Prod.fst).Nodup →
            table = table' ∧ (Value.hash table == .hash table') = true) := by
  refine ⟨Table.ofPairs kvs, h.ends_hash token, fun v k hk => ?_, h.keyed.ofPairs,
    Table.sorted_ofPairs kvs, fun k e => Table.mem_ofPairs_iff, ?_,
    fun j qs u kvs' w token' h' => ?_⟩
  · rw [index_ofPairs hk]
    constructor
    · rintro front e back rfl hback
      rw [Table.last?_of_notMem hback]
      rfl
    · intro hmem
      rw [Table.last?_eq_none.2 hmem]
      rfl
  · rw [← Value.inspectEntries_eq_map]
    rfl
  · refine ⟨Table.ofPairs kvs', h'.ends_hash token', Table.beq_ofPairs_iff h.keyed h'.keyed,
      fun horder => ?_⟩
    have hfilter (k : Key) : kvs.filter (·.1 = k) = kvs'.filter (·.1 = k) := by
      rcases horder with hfilter | ⟨hperm, hkeys⟩
      · exact hfilter k
      · exact Table.filter_eq_of_perm hperm hkeys k
    rw [Table.ofPairs_eq_of_filter hfilter]
    exact ⟨rfl, beq_self_eq_true _⟩

/-- `"a": 1, 2: true, "a": 3` -/
def repeated : List (Expr × Expr) := [
  (.str (.str "a") "a", .int (.int "1") (.ofCount 1)),
  (.int (.int "2") (.ofCount 2), .bool (.word .trueWord) true),
  (.str (.str "a") "a", .int (.int "3") (.ofCount 3))]

/-- The last pair of `"a"` counts, and `true` is no key, though it is a value. The hash is equal to
the one of the second and third pair, and these two make the same hash the other way around. -/
theorem ends_hash_canonical_repeated :
    (∃ table table' : Table (Entry Value),
      Ends 0 (.expr (.hash (.sym .openBrace) repeated)) .empty (.ok (.hash table)) .empty ∧
      index (.hash table) (.str "a") = .ok (.int (.ofCount 3)) ∧
      index (.hash table) (.bool true) = .ok .null ∧
      (.str "a", ⟨.str "a", .int (.ofCount 3)⟩) ∈ table ∧
      Ends 0 (.expr (.hash (.sym .openBrace) repeated.tail)) .empty (.ok (.hash table')) .empty ∧
      (Value.hash table == .hash table') = true) ∧
    ∃ table : Table (Entry Value),
      Ends 0 (.expr (.hash (.sym .openBrace) repeated.tail)) .empty (.ok (.hash table)) .empty ∧
      Ends 0 (.expr (.hash (.sym .openBrace) repeated.tail.reverse)) .empty (.ok (.hash table))
        .empty := by
  have htail : PairsEnd 0 repeated.tail .empty
      [(.int (.ofCount 2), ⟨.int (.ofCount 2), .bool true⟩),
        (.str "a", ⟨.str "a", .int (.ofCount 3)⟩)] .empty :=
    .cons rfl ⟨1, rfl⟩ ⟨1, rfl⟩ (.cons rfl ⟨1, rfl⟩ ⟨1, rfl⟩ .nil)
  have hreverse : PairsEnd 0 repeated.tail.reverse .empty
      [(.str "a", ⟨.str "a", .int (.ofCount 3)⟩),
        (.int (.ofCount 2), ⟨.int (.ofCount 2), .bool true⟩)] .empty :=
    .cons rfl ⟨1, rfl⟩ ⟨1, rfl⟩ (.cons rfl ⟨1, rfl⟩ ⟨1, rfl⟩ .nil)
  have hrepeated : PairsEnd 0 repeated .empty ((.str "a", ⟨.str "a", .int (.ofCount 1)⟩) ::
      [(.int (.ofCount 2), ⟨.int (.ofCount 2), .bool true⟩),
        (.str "a", ⟨.str "a", .int (.ofCount 3)⟩)]) .empty :=
    .cons rfl ⟨1, rfl⟩ ⟨1, rfl⟩ htail
  constructor
  · obtain ⟨table, hends, hindex, -, -, hmem, -, hother⟩ :=
      ends_hash_canonical hrepeated (.sym .openBrace)
    obtain ⟨table', hends', hequal, -⟩ := hother _ _ _ _ _ (.sym .openBrace) htail
    refine ⟨table, table', hends, ?_, ?_, (hmem _ _).2 rfl, hends', hequal.2 ⟨?_, ?_⟩⟩
    · exact (hindex (.str "a") (.str "a") rfl).1 (_ :: _ :: []) _ [] rfl List.not_mem_nil
    · exact (hindex (.bool true) (.bool true) rfl).2 (by decide)
    · simp
    · intro k e d he hd
      rw [Table.last?_cons, hd, Option.some_or, Option.some.injEq] at he
      rw [he, beq_self_eq_true]
  · obtain ⟨table, hends, -, -, -, -, -, hother⟩ := ends_hash_canonical htail (.sym .openBrace)
    obtain ⟨table', hends', -, horder⟩ := hother _ _ _ _ _ (.sym .openBrace) hreverse
    obtain ⟨rfl, -⟩ := horder (.inr ⟨.swap .., by decide⟩)
    exact ⟨table, hends, hends'⟩

end Monkey.Eval
