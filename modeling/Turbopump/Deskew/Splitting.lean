import Turbopump.Deskew.Moves

/-! Splitting a section of the index: which keys the new tree takes over, and when these are the right ones. -/

namespace Turbopump

open Circle

variable {hasher : Bytes → Bytes}

namespace ConsistentHashRing

variable {r : ConsistentHashRing}

lemma nodeId_owns (h : r.ring.entries ≠ []) (key : Bytes) :
    Owns {n | n ∈ r.ring.keys} (r.nodeId key) key := by
  obtain ⟨e, he⟩ := SortedMap.exists_atOrAfter h key
  rw [ConsistentHashRing.nodeId, he]
  exact SortedMap.atOrAfter_owns he

lemma mem_insert_keys {node peer n : Bytes} :
    n ∈ (r.insert hasher node peer).ring.keys ↔ n = hasher node ∨ n ∈ r.ring.keys := by
  simp only [ConsistentHashRing.insert, SortedMap.mem_keys, SortedMap.get_insert]
  by_cases hn : hasher node = n
  · simp [hn]
  · simp [hn, Ne.symm hn]

end ConsistentHashRing

namespace DigestIndexer

variable {x : DigestIndexer} {l : LocateKeys} {nodes : Set Bytes}

structure Grouped (hasher : Bytes → Bytes) (nodes : Set Bytes) (x : DigestIndexer) : Prop where
  nonempty : ∀ id tree, x.forest.get id = some tree → tree.tree.entries ≠ []
  named : ∀ id tree, x.forest.get id = some tree → tree.id.id = id
  keyed : ∀ id e, x.Holds id e → e.1 = DigestTree.keyhash hasher e.2.2
  owned : ∀ id e, x.Holds id e → Owns nodes id (hasher e.2.2)

lemma Grouped.mem_nodes (h : Grouped hasher nodes x) {id : Bytes} {tree : DigestTree}
    (htree : x.forest.get id = some tree) : id ∈ nodes := by
  obtain ⟨e, he⟩ := List.exists_mem_of_ne_nil _ (h.nonempty id tree htree)
  exact (h.owned id e ⟨tree, htree, he⟩).node

lemma Grouped.mono (h : Grouped hasher nodes x) {nodes' : Set Bytes} (hsub : nodes' ⊆ nodes)
    (htrees : ∀ id tree, x.forest.get id = some tree → id ∈ nodes') : Grouped hasher nodes' x where
  nonempty := h.nonempty
  named := h.named
  keyed := h.keyed
  owned := by
    rintro id e ⟨tree, htree, he⟩
    exact (h.owned id e ⟨tree, htree, he⟩).mono hsub (htrees id tree htree)

section Split

variable {uid : Bytes}

/-- Neither the new node nor a key stands where splitting goes wrong: no key is beyond all nodes when the new node
comes before them all, and what begins with a node's first eight bytes is that node. -/
structure Splits (hasher : Bytes → Bytes) (nodes : Set Bytes) (x : DigestIndexer) (node : Bytes) : Prop where
  below : ∀ id e, x.Holds id e → ¬ ∀ m ∈ nodes, node ≤ m ∧ m < hasher e.2.2
  key : ∀ id e, x.Holds id e → ∀ m ∈ insert node nodes, (hasher e.2.2).take 8 = m.take 8 → hasher e.2.2 = m
  apart : ∀ m ∈ nodes, m.take 8 = node.take 8 → m = node

lemma SplitOff.first_iff {x' : DigestIndexer} {id next : Bytes} {sourceTree : DigestTree} {range : KeyHash → Prop}
    (h : SplitOff x x' id next sourceTree range) (hnamed : sourceTree.id.id = next) :
    ((x.forest.insert id {}).entries.head?.map Prod.fst = some next ∧ sourceTree.id.id < id) ↔ next < id := by
  rw [hnamed, and_iff_right_iff_imp]
  intro hlt
  have hkeys : ∀ j, j ∈ (x.forest.insert id {}).keys ↔ j ∈ insert id {j | j ∈ x.forest.keys} := by
    intro j
    simp only [Set.mem_insert_iff, Set.mem_ofPred_eq, SortedMap.mem_keys, SortedMap.get_insert]
    by_cases hj : id = j
    · simp [hj]
    · simp [hj, Ne.symm hj]
  rcases h.follows.first with ⟨hgt, -⟩ | ⟨-, hmin⟩
  · exact absurd hgt (lt_asymm hlt)
  · exact SortedMap.head_min ((hkeys next).2 h.follows.node) fun m hm => hmin m ((hkeys m).1 hm)

lemma range_iff {node next hash : Bytes} (howns : Owns nodes next hash) (hne : next ≠ node)
    (hbelow : ¬ ∀ m ∈ nodes, node ≤ m ∧ m < hash) (hlen : 8 ≤ hash.length) (hnode : 8 ≤ node.length)
    (hnext : 8 ≤ next.length) (hkey : ∀ m ∈ insert node nodes, hash.take 8 = m.take 8 → hash = m)
    (hapart : next.take 8 = node.take 8 → next = node) :
    ((⟨if next < node then nextInteger (Hash.integer next) else 0⟩ : KeyHash) ≤ ⟨Hash.integer hash⟩ ∧
      (⟨Hash.integer hash⟩ : KeyHash) ≤ ⟨Hash.integer node⟩) ↔ Owns (insert node nodes) node hash := by
  have hlast := integer_le_iff_le hlen hnode (hkey node (Set.mem_insert _ _))
  rw [howns.insert_iff hne hbelow, and_comm]
  refine and_congr hlast ?_
  by_cases hlt : next < node
  · have hfirst := integer_le_iff_le hlen hnext (hkey next (Set.mem_insert_of_mem _ howns.node))
    have hlt' : (⟨Hash.integer next⟩ : KeyHash) < ⟨Hash.integer node⟩ := by
      refine not_le.1 fun hle => not_le.2 hlt ?_
      exact (integer_le_iff_le hnode hnext fun heq => (hapart heq.symm).symm).1 hle
    rw [if_pos hlt, nextInteger_le hlt', ← not_le, hfirst, not_le]
    exact ⟨fun hgt _ => hgt, fun hgt => hgt hlt⟩
  · rw [if_neg hlt]
    exact ⟨fun _ hgt => absurd hgt hlt, fun _ => KeyHash.zero_le _⟩

lemma Grouped.subset (h : Grouped hasher nodes x) : {j | j ∈ x.forest.keys} ⊆ nodes := by
  intro j hj
  obtain ⟨tree, hj⟩ := SortedMap.mem_keys.1 hj
  exact h.mem_nodes hj

theorem Grouped.splitSection (hlen : ∀ name, 8 ≤ (hasher name).length) (h : Grouped hasher nodes x)
    (hnodes : ∀ m ∈ nodes, 8 ≤ m.length) (hsection : l.sectionOf hasher uid = hasher uid)
    (hsplits : x.forest.get (hasher uid) = none → Splits hasher nodes x (hasher uid)) :
    Grouped hasher (insert (hasher uid) nodes) (x.splitSection hasher l uid) ∧
    (∀ e, (∃ id, (x.splitSection hasher l uid).Holds id e) ↔ ∃ id, x.Holds id e) ∧
    ∀ j tree, j ≠ hasher uid → (x.splitSection hasher l uid).forest.get j = some tree →
      ∃ tree, x.forest.get j = some tree := by
  have hinterface : (l.interface hasher).sectionOf uid = hasher uid := hsection
  rw [DigestIndexer.splitSection]
  have hcases := ILocateKeys.splitSection_cases h.keyed (l.interface hasher) uid
  rw [hinterface] at hcases
  rcases hcases with ⟨hsame, heq⟩ | ⟨next, sourceTree, first, hsplit, hfirst⟩
  · rw [heq]
    refine ⟨?_, fun e => Iff.rfl, fun j tree _ htree => ⟨tree, htree⟩⟩
    rcases hsame with hempty | ⟨tree, htree⟩
    · refine ⟨h.nonempty, h.named, h.keyed, ?_⟩
      intro id e he
      exact absurd he (not_holds (SortedMap.entries_eq_nil.1 hempty id) e)
    · rwa [Set.insert_eq_of_mem (h.mem_nodes htree)]
  · obtain ⟨hbelow, hkey, hapart⟩ := hsplits hsplit.fresh
    have hnextmem : next ∈ nodes := h.mem_nodes hsplit.source
    have hrange : ∀ e, x.Holds next e →
        (((⟨first⟩ : KeyHash) ≤ e.1 ∧ e.1 ≤ ⟨Hash.integer (hasher uid)⟩) ↔
          Owns (insert (hasher uid) nodes) (hasher uid) (hasher e.2.2)) := by
      intro e he
      rw [hfirst, if_congr (hsplit.first_iff (h.named _ _ hsplit.source)) rfl rfl, h.named _ _ hsplit.source,
        h.keyed next e he]
      exact range_iff (h.owned next e he) hsplit.follows.ne (hbelow next e he) (hlen _) (hlen _) (hnodes next hnextmem)
        (hkey next e he) (hapart next hnextmem)
    refine ⟨⟨hsplit.pruned h.nonempty, hsplit.named h.named, hsplit.keyed h.keyed, ?_⟩, hsplit.same, ?_⟩
    · intro j e he
      rcases hsplit.cases he with ⟨rfl, hold, hin⟩ | ⟨hj, hold, hout⟩
      · exact (hrange e hold).1 hin
      · rcases (h.owned j e hold).insert (hasher uid) with howns | howns
        · exact howns
        · -- what the new node takes over was in the tree after it
          obtain ⟨tree, hjtree, -⟩ := id hold
          have hnext := (h.owned j e hold).next howns hj h.subset (SortedMap.mem_keys.2 ⟨tree, hjtree⟩) hsplit.follows
          subst hnext
          exact absurd ((hrange e hold).2 howns) (hout rfl)
    · intro j tree hj htree
      by_cases hj' : j = next
      · subst hj'
        exact ⟨sourceTree, hsplit.source⟩
      · exact ⟨tree, by rwa [hsplit.others j hj hj'] at htree⟩

end Split

section Update

variable {key : Bytes} {value : UInt64}

lemma update_holds (x : DigestIndexer) (l : LocateKeys) (key : Bytes) (value : UInt64) :
    ∃ hash, ∀ j e, (x.update hasher l key value).Holds j e ↔
      (j = l.sectionOf hasher key ∧ e = (DigestTree.keyhash hasher key, hash, key)) ∨
      (x.Holds j e ∧ (j = l.sectionOf hasher key → e.1 ≠ DigestTree.keyhash hasher key)) := by
  obtain ⟨tree, htree, hget⟩ := @update_get hasher l x key value
  obtain ⟨hash, hkey⟩ := @DigestTree.update_get hasher tree key value
  set id := l.sectionOf hasher key with hid
  refine ⟨hash, fun j e => ?_⟩
  obtain ⟨k, v⟩ := e
  by_cases hj : j = id
  · subst hj
    have hin : (x.update hasher l key value).Holds id (k, v) ↔
        (tree.update hasher key value).tree.get k = some v := by
      simp only [Holds, hget, Option.some.injEq, exists_eq_left', SortedMap.mem_entries]
    have hold : x.Holds id (k, v) ↔ tree.tree.get k = some v := by
      rw [htree, Holds]
      cases hx : x.forest.get id with
      | none => simp
      | some t => simp [SortedMap.mem_entries]
    rw [hin, hold]
    by_cases hk : DigestTree.keyhash hasher key = k
    · subst hk
      simp [hkey, eq_comm]
    · rw [DigestTree.update_get_of_ne _ hk]
      simp [Ne.symm hk]
  · rw [Holds, update_get_of_ne (Ne.symm hj)]
    simp [Holds, hj]

theorem Grouped.update (h : Grouped hasher nodes x)
    (hown : Owns (insert (l.sectionOf hasher key) nodes) (l.sectionOf hasher key) (hasher key))
    (hdue : l.sectionOf hasher key ∉ nodes → ∀ j e, x.Holds j e →
      ¬ Owns (insert (l.sectionOf hasher key) nodes) (l.sectionOf hasher key) (hasher e.2.2)) :
    Grouped hasher (insert (l.sectionOf hasher key) nodes) (x.update hasher l key value) := by
  obtain ⟨hash, hholds⟩ := update_holds x l key value
  set id := l.sectionOf hasher key with hid
  constructor
  case nonempty =>
    intro j tree htree
    by_cases hj : j = id
    · obtain ⟨tree', htree', hin⟩ := (hholds id _).2 (Or.inl ⟨rfl, rfl⟩)
      rw [hj, htree', Option.some.injEq] at htree
      exact htree ▸ List.ne_nil_of_mem hin
    · rw [update_get_of_ne (Ne.symm hj)] at htree
      exact h.nonempty j tree htree
  case named =>
    rw [DigestIndexer.update]
    exact Named.update h.named key value
  case keyed =>
    intro j e he
    rcases (hholds j e).1 he with ⟨-, rfl⟩ | ⟨he, -⟩
    · rfl
    · exact h.keyed j e he
  case owned =>
    intro j e he
    rcases (hholds j e).1 he with ⟨rfl, rfl⟩ | ⟨he, -⟩
    · exact hown
    · by_cases hmem : id ∈ nodes
      · rw [Set.insert_eq_of_mem hmem]
        exact h.owned j e he
      · exact ((h.owned j e he).insert id).resolve_right (hdue hmem j e he)

end Update

end DigestIndexer

end Turbopump
