import Turbopump.Deskew.Splitting

/-! When a change of the ring, with the index changed along with it, leaves every key in the tree of its section. -/

namespace Turbopump

open Circle

variable {hasher : Bytes → Bytes}

namespace DigestIndexer

variable {x : DigestIndexer} {ring : ConsistentHashRing} {node : Bytes}

lemma GroupedBy.toGrouped (hg : x.GroupedBy hasher ring) (hnamed : x.Named) (hring : ring.ring.entries ≠ []) :
    Grouped hasher {n | n ∈ ring.ring.keys} x where
  nonempty := hg.nonempty
  named := hnamed
  keyed := hg.keyed
  owned id e he := hg.grouped id e he ▸ ConsistentHashRing.nodeId_owns hring _

lemma Grouped.nodeId (h : Grouped hasher {n | n ∈ ring.ring.keys} x) (hring : ring.ring.entries ≠ []) {id : Bytes}
    {e : KeyHash × UInt64 × Bytes} (he : x.Holds id e) : ring.nodeId (hasher e.2.2) = id :=
  (ConsistentHashRing.nodeId_owns hring _).unique (h.owned id e he)

lemma regrouped_of_grouped {x' : DigestIndexer} (h : Grouped hasher {n | n ∈ ring.ring.keys} x')
    (hring : ring.ring.entries ≠ []) (hsame : ∀ e, (∃ id, x'.Holds id e) ↔ ∃ id, x.Holds id e) :
    x.Regrouped hasher ring x' := by
  intro id e
  constructor
  · exact fun he => ⟨(hsame e).1 ⟨id, he⟩, h.nodeId hring he⟩
  · rintro ⟨hold, rfl⟩
    obtain ⟨id', he⟩ := (hsame e).2 hold
    rwa [h.nodeId hring he]

section Insert

variable {peer : Bytes}

lemma insert_ne_nil : (ring.insert hasher node peer).ring.entries ≠ [] := by
  intro hnil
  have := SortedMap.entries_eq_nil.1 hnil (hasher node)
  simp [ConsistentHashRing.insert] at this

lemma keys_insert : {n | n ∈ (ring.insert hasher node peer).ring.keys} =
    insert (hasher node) {n | n ∈ ring.ring.keys} :=
  Set.ext fun _ => ConsistentHashRing.mem_insert_keys

lemma sectionOf_insert (self : Option Bytes) :
    (⟨ring.insert hasher node peer, self⟩ : LocateKeys).sectionOf hasher node = hasher node := by
  refine (ConsistentHashRing.nodeId_owns insert_ne_nil (hasher node)).unique (owns_self ?_)
  rw [keys_insert]
  exact Set.mem_insert _ _

theorem splitSection_regroups_iff (hlen : ∀ name, 8 ≤ (hasher name).length) (hring : ring.ring.entries ≠ [])
    (hnames : ∀ n ∈ ring.ring.keys, ∃ name, hasher name = n) (hnode : hasher node ∉ ring.ring.keys) (peer : Bytes)
    (self : Option Bytes) (hg : x.GroupedBy hasher ring) (hnamed : x.Named)
    ( hprefix : Set.InjOn (List.take 8) ({n | n ∈ (ring.insert hasher node peer).ring.keys} ∪
      {hash | ∃ id e, x.Holds id e ∧ hasher e.2.2 = hash})) :
    x.Regrouped hasher (ring.insert hasher node peer) (x.splitSection hasher ⟨ring.insert hasher node peer,
      self⟩ node) ↔
      ¬ ((∀ n ∈ ring.ring.keys, hasher node < n) ∧ ∃ id e, x.Holds id e ∧ ∀ n ∈ ring.ring.keys, n < hasher e.2.2) := by
  have hgrouped := hg.toGrouped hnamed hring
  have hsection := @sectionOf_insert hasher ring node peer self
  rw [keys_insert] at hprefix
  have hkey : ∀ id e, x.Holds id e → ∀ m ∈ insert (hasher node) {n | n ∈ ring.ring.keys},
      (hasher e.2.2).take 8 = m.take 8 → hasher e.2.2 = m := fun id e he m hm =>
    hprefix (Or.inr ⟨id, e, he, rfl⟩) (Or.inl hm)
  constructor
  · rintro hmoved ⟨hfirst, id, e, he, hbeyond⟩
    obtain ⟨n, hn⟩ := ConsistentHashRing.nodeId_mem hring []
    have hnmem : ring.nodeId [] ∈ ring.ring.keys := SortedMap.mem_keys.2 ⟨n, SortedMap.mem_entries.1 hn⟩
    have hlt : hasher node < hasher e.2.2 := (hfirst _ hnmem).trans (hbeyond _ hnmem)
    -- the key belongs to the new node, which is the first one, but it is not in the range that is split off
    have howns : Owns {n | n ∈ (ring.insert hasher node peer).ring.keys} (hasher node) (hasher e.2.2) := by
      rw [keys_insert]
      refine ⟨Set.mem_insert _ _, Or.inr ⟨?_, ?_⟩⟩
      · rintro m (rfl | hm)
        · exact hlt
        · exact hbeyond m hm
      · rintro m (rfl | hm)
        · exact le_rfl
        · exact (hfirst m hm).le
    have hheld := (hmoved (hasher node) e).2
      ⟨⟨id, he⟩, (ConsistentHashRing.nodeId_owns insert_ne_nil _).unique howns⟩
    have hold : ¬ x.Holds (hasher node) e := by
      rintro ⟨tree, htree, -⟩
      exact hnode (hgrouped.mem_nodes htree)
    rw [DigestIndexer.splitSection] at hheld
    have hcases := ILocateKeys.splitSection_cases hg.keyed (LocateKeys.interface hasher
      ⟨ring.insert hasher node peer, self⟩)
      node
    rw [show (LocateKeys.interface hasher ⟨ring.insert hasher node peer, self⟩).sectionOf node = hasher node from
      hsection] at hcases
    rcases hcases with ⟨-, heq⟩ | ⟨next, sourceTree, first, hsplit, -⟩
    · rw [heq] at hheld
      exact hold hheld
    · rcases hsplit.cases hheld with ⟨-, hold', -, hle⟩ | ⟨hne, -, -⟩
      · rw [hg.keyed next e hold'] at hle
        have := (integer_le_iff_le (hlen e.2.2) (hlen node) (hkey id e he _ (Set.mem_insert _ _))).1 hle
        exact absurd this (not_le.2 hlt)
      · exact hne rfl
  · intro hgood
    have hsplits : Splits hasher {n | n ∈ ring.ring.keys} x (hasher node) := by
      refine ⟨?_, hkey, ?_⟩
      · intro id e he hall
        refine hgood ⟨fun n hn => lt_of_le_of_ne (hall n hn).1 ?_, id, e, he, fun n hn => (hall n hn).2⟩
        exact fun heq => hnode (heq ▸ hn)
      · intro m hm heq
        exact hprefix (Or.inl (Set.mem_insert_of_mem _ hm)) (Or.inl (Set.mem_insert _ _)) heq
    have hnodes : ∀ m ∈ {n | n ∈ ring.ring.keys}, 8 ≤ m.length := by
      intro m hm
      obtain ⟨name, rfl⟩ := hnames m hm
      exact hlen name
    obtain ⟨hgrouped', hsame, -⟩ := hgrouped.splitSection hlen hnodes hsection fun _ => hsplits
    rw [← @keys_insert hasher ring node peer] at hgrouped'
    exact regrouped_of_grouped hgrouped' insert_ne_nil hsame

end Insert

section Erase

lemma mem_erase_keys {n : Bytes} :
    n ∈ (ring.erase hasher node).2.ring.keys ↔ n ≠ hasher node ∧ n ∈ ring.ring.keys := by
  simp only [ConsistentHashRing.erase, SortedMap.mem_keys, SortedMap.get_erase]
  by_cases hn : hasher node = n
  · simp [hn]
  · simp [hn, Ne.symm hn]

variable (htwo : 2 ≤ ring.ring.entries.length)
include htwo

lemma nodeId_erase_self (hash : Bytes) (hhash : ring.nodeId hash = hasher node) :
    (ring.erase hasher node).2.nodeId hash = ring.successor hasher node := by
  have hring : ring.ring.entries ≠ [] := List.ne_nil_of_length_pos (by omega)
  have herased := @SortedMap.erase_ne_nil _ _ _ ring.ring htwo (hasher node)
  refine Owns.unique ?_ (ConsistentHashRing.nodeId_owns herased (hasher node))
  refine Owns.of_erased ?_ (ConsistentHashRing.nodeId_owns herased hash) fun n hn => (mem_erase_keys.1 hn).2
  exact hhash ▸ ConsistentHashRing.nodeId_owns hring hash

lemma successor_next : Next {n | n ∈ ring.ring.keys} (hasher node) (ring.successor hasher node) := by
  have herased := @SortedMap.erase_ne_nil _ _ _ ring.ring htwo (hasher node)
  apply (ConsistentHashRing.nodeId_owns herased (hasher node)).next_erased
  · intro n hn
    by_cases heq : n = hasher node
    · exact Or.inl heq
    · exact Or.inr (mem_erase_keys.2 ⟨heq, hn⟩)
  · exact fun n hn => (mem_erase_keys.1 hn).2
  · exact fun hn => (mem_erase_keys.1 hn).1 rfl

lemma cannibalize_regroups (hnode : hasher node ∈ ring.ring.keys) (self : Option Bytes) (hg : x.GroupedBy hasher ring) :
    x.Regrouped hasher (ring.erase hasher node).2 (x.cannibalizeSection hasher ⟨ring, self⟩ node) ↔
      x.forest.get (hasher node) = none ∨ ∃ tree, x.forest.get (ring.successor hasher node) = some tree ∧
        ∀ e, x.Holds (hasher node) e → tree.tree.get e.1 = none := by
  have hring : ring.ring.entries ≠ [] := List.ne_nil_of_length_pos (by omega)
  have hsuccessor : ring.successor hasher node ≠ hasher node := ConsistentHashRing.nodeId_erase_ne htwo _
  have hsection : (LocateKeys.interface hasher ⟨ring, self⟩).sectionOf node = hasher node :=
    (ConsistentHashRing.nodeId_owns hring (hasher node)).unique (owns_self hnode)
  -- where a key of each section belongs on the reduced ring
  have hstays : ∀ id e, x.Holds id e → id ≠ hasher node → (ring.erase hasher node).2.nodeId (hasher e.2.2) = id := by
    intro id e he hne
    have hid := hg.grouped id e he
    rw [ConsistentHashRing.nodeId_erase hring (hid ▸ hne), hid]
  have hmoves : ∀ e, x.Holds (hasher node) e →
      (ring.erase hasher node).2.nodeId (hasher e.2.2) = ring.successor hasher node := fun e he =>
    nodeId_erase_self htwo _ (hg.grouped _ e he)
  rw [DigestIndexer.cannibalizeSection]
  have hcases := ILocateKeys.cannibalizeSection_cases hg.keyed (LocateKeys.interface hasher ⟨ring, self⟩) node
  rw [hsection] at hcases
  rcases hcases with ⟨hnone | honly, heq⟩ | ⟨next, dyingTree, refugeeTree, hmerged⟩
  · rw [heq]
    refine iff_of_true (fun id e => ?_) (Or.inl hnone)
    have hne : ∀ id, x.Holds id e → id ≠ hasher node := by
      rintro id he rfl
      exact not_holds hnone e he
    constructor
    · exact fun he => ⟨⟨id, he⟩, hstays id e he (hne id he)⟩
    · rintro ⟨⟨id', he⟩, rfl⟩
      rwa [hstays id' e he (hne id' he)]
  · rw [heq]
    cases hget : x.forest.get (hasher node) with
    | none =>
      refine iff_of_true (fun id e => ?_) (Or.inl rfl)
      have hempty : ∀ id, ¬ x.Holds id e := by
        rintro id ⟨tree, htree, -⟩
        rw [honly id (SortedMap.mem_keys.2 ⟨tree, htree⟩), hget] at htree
        simp at htree
      exact iff_of_false (hempty id) fun h => h.1.elim hempty
    | some tree =>
      refine iff_of_false (fun hmoved => ?_) ?_
      · obtain ⟨e, he⟩ := List.exists_mem_of_ne_nil _ (hg.nonempty _ _ hget)
        exact ConsistentHashRing.nodeId_erase_ne htwo _ ((hmoved _ e).1 ⟨tree, hget, he⟩).2
      · rintro (hnone | ⟨tree', htree', -⟩)
        · simp at hnone
        · exact hsuccessor (honly _ (SortedMap.mem_keys.2 ⟨tree', htree'⟩))
  · have hdying : ∀ e, x.Holds (hasher node) e ↔ e ∈ dyingTree.tree.entries := fun e => holds_of_get hmerged.dying
    constructor
    · intro hmoved
      have harrives : ∀ e, x.Holds (hasher node) e → ring.successor hasher node = next ∧
          refugeeTree.tree.get e.1 = none := by
        intro e he
        have hheld := (hmoved _ e).2 ⟨⟨_, he⟩, hmoves e he⟩
        have hnot : ¬ x.Holds (ring.successor hasher node) e := fun hold =>
          hsuccessor ((hg.grouped _ e hold).symm.trans (hg.grouped _ e he))
        obtain ⟨hnext, -⟩ := (hmerged.cases hheld).2.resolve_left hnot
        rw [hnext] at hheld hnot
        exact ⟨hnext, ((hmerged.holds_next e).1 hheld).resolve_right hnot |>.2⟩
      obtain ⟨e, he⟩ := List.exists_mem_of_ne_nil _ (hg.nonempty _ _ hmerged.dying)
      refine Or.inr ⟨refugeeTree, ?_, fun e he => (harrives e he).2⟩
      rw [(harrives e ((hdying e).2 he)).1]
      exact hmerged.refugee
    · rintro (hnone | ⟨tree, htree, hfree⟩)
      · rw [hmerged.dying] at hnone
        simp at hnone
      have hnodes : ∀ n ∈ x.forest.keys, n ∈ ring.ring.keys := by
        intro n hn
        obtain ⟨tree, htree⟩ := SortedMap.mem_keys.1 hn
        obtain ⟨e, he⟩ := List.exists_mem_of_ne_nil _ (hg.nonempty _ _ htree)
        rw [← hg.grouped n e ⟨tree, htree, he⟩]
        exact (ConsistentHashRing.nodeId_owns hring _).node
      -- the next section that has a tree is the successor's
      have hnext : next = ring.successor hasher node := hmerged.follows.unique
        ((successor_next htwo).mono hnodes (SortedMap.mem_keys.2 ⟨tree, htree⟩))
      subst hnext
      obtain rfl : refugeeTree = tree := Option.some.inj (hmerged.refugee.symm.trans htree)
      intro id e
      constructor
      · intro he
        rcases hmerged.cases he with ⟨hne, hold | ⟨rfl, hold⟩⟩
        · exact ⟨⟨id, hold⟩, hstays id e hold hne⟩
        · exact ⟨⟨_, hold⟩, hmoves e hold⟩
      · rintro ⟨⟨id', he⟩, rfl⟩
        by_cases hid : id' = hasher node
        · subst hid
          rw [hmoves e he]
          exact (hmerged.holds_next e).2 (Or.inl ⟨he, hfree e he⟩)
        · rw [hstays id' e he hid]
          by_cases hid' : id' = ring.successor hasher node
          · rw [hid'] at he ⊢
            exact (hmerged.holds_next e).2 (Or.inr he)
          · exact (hmerged.holds_other hid hid' e).2 he

end Erase

theorem cannibalizeSection_regroups_iff (hring : ring.ring.entries ≠ []) (hg : x.GroupedBy hasher ring)
    (self : Option Bytes) (node peer : Bytes) :
    (2 ≤ ring.ring.entries.length → hasher node ∈ ring.ring.keys →
      (x.Regrouped hasher (ring.erase hasher node).2 (x.cannibalizeSection hasher ⟨ring, self⟩ node) ↔
        x.forest.get (hasher node) = none ∨ ∃ tree, x.forest.get (ring.successor hasher node) = some tree ∧
          ∀ e, x.Holds (hasher node) e → tree.tree.get e.1 = none)) ∧
    (hasher node ∉ ring.ring.keys →
      (((x.splitSection hasher ⟨ring.insert hasher node peer, self⟩ node).cannibalizeSection hasher
          ⟨ring.insert hasher node peer, self⟩ node).forest = x.forest ↔
        ∀ id ∈ x.forest.keys, id ∈ (x.splitSection hasher ⟨ring.insert hasher node peer, self⟩ node).forest.keys)) := by
  refine ⟨fun htwo hnode => cannibalize_regroups htwo hnode self hg, fun hnode => ?_⟩
  have hfresh : x.forest.get (hasher node) = none := by
    cases hget : x.forest.get (hasher node) with
    | none => rfl
    | some tree =>
      obtain ⟨e, he⟩ := List.exists_mem_of_ne_nil _ (hg.nonempty _ _ hget)
      rw [← hg.grouped _ e ⟨tree, hget, he⟩] at hnode
      exact absurd (ConsistentHashRing.nodeId_owns hring _).node hnode
  rw [DigestIndexer.cannibalizeSection, DigestIndexer.splitSection]
  apply ILocateKeys.cannibalize_split_iff _ hg.keyed hg.nonempty
  exact (congrArg x.forest.get (sectionOf_insert self)).trans hfresh

section Example

def padded (name : Bytes) : Bytes := name ++ [0, 0, 0, 0, 0, 0, 0, 0]

def ringOf (nodes : List Bytes) : ConsistentHashRing :=
  nodes.foldl (fun ring node => ring.insert padded node node) ⟨.empty⟩

def indexed (nodes keys : List Bytes) : DigestIndexer :=
  keys.foldl (fun x key => x.update padded ⟨ringOf nodes, none⟩ key 5) {}

lemma indexed_groupedBy (nodes keys : List Bytes) : (indexed nodes keys).GroupedBy padded (ringOf nodes) := by
  refine foldl_invariant (I := fun x => GroupedBy padded x (ringOf nodes)) (fun x key hx => ?_) ?_ keys
  · exact GroupedBy.update (l := ⟨ringOf nodes, none⟩) hx key 5
  · exact GroupedBy.empty _ _

lemma indexed_named (nodes keys : List Bytes) : (indexed nodes keys).Named := by
  refine foldl_invariant (I := Named) (fun x key hx => ?_) ?_ keys
  · exact @Named.update padded (LocateKeys.interface padded ⟨ringOf nodes, none⟩) x hx key 5
  · intro id tree htree
    simp at htree

lemma indexed_key (nodes keys : List Bytes) {id : Bytes} {e : KeyHash × UInt64 × Bytes}
    (he : (indexed nodes keys).Holds id e) : e.2.2 ∈ keys := by
  induction keys using List.reverseRecOn generalizing id e with
  | nil => simp [indexed, Holds] at he
  | append_singleton keys key ih =>
    rw [indexed, List.foldl_append] at he
    obtain ⟨hash, hholds⟩ := @update_holds padded (indexed nodes keys) ⟨ringOf nodes, none⟩ key 5
    rcases (hholds id e).1 he with ⟨-, rfl⟩ | ⟨hold, -⟩
    · simp
    · simp [ih hold]

lemma ringOf_names (nodes : List Bytes) {n : Bytes} (hn : n ∈ (ringOf nodes).ring.keys) :
    ∃ name ∈ nodes, padded name = n := by
  induction nodes using List.reverseRecOn with
  | nil => simp [ringOf, SortedMap.mem_keys] at hn
  | append_singleton nodes node ih =>
    rw [ringOf, List.foldl_append] at hn
    rcases ConsistentHashRing.mem_insert_keys.1 hn with rfl | hn
    · exact ⟨node, by simp, rfl⟩
    · obtain ⟨name, hname, rfl⟩ := ih hn
      exact ⟨name, by simp [hname], rfl⟩

lemma padded_prefix (nodes nodes' keys : List Bytes) (hshort : ∀ name ∈ nodes ++ keys, name.length = 1) :
    Set.InjOn (List.take 8) ({n | n ∈ (ringOf nodes).ring.keys} ∪
      {hash | ∃ id e, (indexed nodes' keys).Holds id e ∧ padded e.2.2 = hash}) := by
  have hbyte : ∀ hash ∈ {n | n ∈ (ringOf nodes).ring.keys} ∪
      {hash | ∃ id e, (indexed nodes' keys).Holds id e ∧ padded e.2.2 = hash}, ∃ b : UInt8, hash = padded [b] := by
    intro hash h
    have hname : ∃ name ∈ nodes ++ keys, padded name = hash := by
      rcases h with hn | ⟨id, e, he, rfl⟩
      · obtain ⟨name, hname, rfl⟩ := ringOf_names nodes hn
        exact ⟨name, List.mem_append_left _ hname, rfl⟩
      · exact ⟨e.2.2, List.mem_append_right _ (indexed_key nodes' keys he), rfl⟩
    obtain ⟨name, hmem, rfl⟩ := hname
    obtain ⟨b, hb⟩ := List.length_eq_one_iff.1 (hshort name hmem)
    exact ⟨b, by rw [hb]⟩
  intro hash h hash' h' heq
  obtain ⟨b, rfl⟩ := hbyte hash h
  obtain ⟨b', rfl⟩ := hbyte hash' h'
  have hb : b = b' := (List.cons.inj heq).1
  rw [hb]

lemma splitSection_regroups_iff_example : (indexed [[100], [200]] [[30], [70]]).Regrouped padded
    (ringOf [[100], [200], [50]])
    ((indexed [[100], [200]] [[30], [70]]).splitSection padded ⟨ringOf [[100], [200], [50]], none⟩ [50]) := by
  have hlen : ∀ name, 8 ≤ (padded name).length := by simp [padded]
  refine (@splitSection_regroups_iff padded _ (ringOf [[100], [200]]) [50] hlen (by decide) ?_ (by decide) [50] none
    (indexed_groupedBy _ _) (indexed_named _ _) ?_).2 ?_
  · intro n hn
    obtain ⟨name, -, hname⟩ := ringOf_names _ hn
    exact ⟨name, hname⟩
  · exact padded_prefix [[100], [200], [50]] _ _ (by decide)
  · rintro ⟨-, id, e, he, hbeyond⟩
    have hkey := indexed_key _ _ he
    have hlt := hbeyond (padded [200]) (by decide)
    simp only [List.mem_cons, List.not_mem_nil, or_false] at hkey
    rcases hkey with hkey | hkey <;> rw [hkey] at hlt <;> revert hlt <;> decide

theorem not_regrouped_when_first :
    (indexed [[100], [200]] [[30], [230]]).GroupedBy padded (ringOf [[100], [200]]) ∧
    (indexed [[100], [200]] [[30], [230]]).Named ∧
    padded [50] ∉ (ringOf [[100], [200]]).ring.keys ∧
    Set.InjOn (List.take 8) ({n | n ∈ (ringOf [[100], [200], [50]]).ring.keys} ∪
      {hash | ∃ id e, (indexed [[100], [200]] [[30], [230]]).Holds id e ∧ padded e.2.2 = hash}) ∧
    ¬ (indexed [[100], [200]] [[30], [230]]).Regrouped padded ((ringOf [[100], [200]]).insert padded [50] [50])
      ((indexed [[100], [200]] [[30], [230]]).splitSection padded
        ⟨(ringOf [[100], [200]]).insert padded [50] [50], none⟩ [50]) := by
  refine ⟨indexed_groupedBy _ _, indexed_named _ _, by decide, padded_prefix _ _ _ (by decide), fun hmoved => ?_⟩
  have hheld : ((indexed [[100], [200]] [[30], [230]]).splitSection padded
      ⟨(ringOf [[100], [200]]).insert padded [50] [50], none⟩ [50]).Holds (padded [100]) (⟨230⟩, 227, [230]) :=
    ⟨_, rfl, by decide⟩
  exact absurd ((hmoved _ _).1 hheld).2 (by decide)

lemma cannibalizeSection_regroups_iff_example :
    (indexed [[100], [200]] [[50], [150], [180]]).Regrouped padded ((ringOf [[100], [200]]).erase padded [100]).2
      ((indexed [[100], [200]] [[50], [150], [180]]).cannibalizeSection padded ⟨ringOf [[100], [200]], none⟩ [100]) ∧
    (((indexed [[100], [200]] [[50], [150], [180]]).splitSection padded ⟨ringOf [[100], [200], [170]], none⟩
      [170]).cannibalizeSection padded ⟨ringOf [[100], [200], [170]], none⟩ [170]).forest =
      (indexed [[100], [200]] [[50], [150], [180]]).forest := by
  constructor
  · refine ((@cannibalizeSection_regroups_iff padded _ (ringOf [[100], [200]]) (by decide) (indexed_groupedBy _ _) none
      [100] []).1 (by decide) (by decide)).2 (Or.inr ⟨_, rfl, fun e he => ?_⟩)
    obtain ⟨tree, htree, he⟩ := he
    obtain rfl := Option.some.inj htree
    rw [List.mem_singleton.1 he]
    decide
  · exact ((@cannibalizeSection_regroups_iff padded _ (ringOf [[100], [200]]) (by decide) (indexed_groupedBy _ _) none
      [170] [170]).2 (by decide)).2 (by decide)

theorem not_regrouped_when_alone :
    (indexed [[100], [200]] [[50]]).GroupedBy padded (ringOf [[100], [200]]) ∧
    padded [100] ∈ (ringOf [[100], [200]]).ring.keys ∧
    ¬ (indexed [[100], [200]] [[50]]).Regrouped padded ((ringOf [[100], [200]]).erase padded [100]).2
      ((indexed [[100], [200]] [[50]]).cannibalizeSection padded ⟨ringOf [[100], [200]], none⟩ [100]) := by
  refine ⟨indexed_groupedBy _ _, by decide, fun hmoved => ?_⟩
  have hheld : ((indexed [[100], [200]] [[50]]).cannibalizeSection padded ⟨ringOf [[100], [200]], none⟩ [100]).Holds
      (padded [100]) (⟨50⟩, 55, [50]) := ⟨_, rfl, by decide⟩
  exact absurd ((hmoved _ _).1 hheld).2 (by decide)

end Example

end DigestIndexer

end Turbopump
