import Turbopump.Deskew.Regrouping

/-! Which sections of the index this node wants, and which not, while the ring changes. -/

namespace Turbopump

open Circle DigestIndexer

variable {hasher : Bytes → Bytes}

namespace DigestIndexer

variable {x x' : DigestIndexer} {id : Bytes} {tree : DigestTree}

structure Filed (x : DigestIndexer) : Prop where
  filed : ∀ id, id ∈ x.forest.keys ↔ id ∈ x.wanted ∨ id ∈ x.unwanted
  apart : ∀ id, id ∈ x.wanted → id ∉ x.unwanted

structure Refiled (mine : Bytes → Prop) (x x' : DigestIndexer) : Prop where
  filed : x'.Filed
  mirrors : x'.mirrors = x.mirrors
  kept : ∀ id ∈ x'.forest.keys, id ∈ x.forest.keys → (id ∈ x'.wanted ↔ id ∈ x.wanted)
  fresh : ∀ id ∈ x'.forest.keys, id ∉ x.forest.keys → (id ∈ x'.wanted ↔ mine id)

lemma Filed.refl (h : x.Filed) (mine : Bytes → Prop) : Refiled mine x x :=
  ⟨h, rfl, fun _ _ _ => Iff.rfl, fun _ hid hnot => absurd hid hnot⟩

lemma mem_keys_insert {m : SortedMap Bytes DigestTree} {j : Bytes} : j ∈ (m.insert id tree).keys ↔ j = id ∨
    j ∈ m.keys := by
  simp only [SortedMap.mem_keys, SortedMap.get_insert]
  by_cases hj : id = j
  · simp [hj]
  · simp [hj, Ne.symm hj]

lemma mem_keys_erase {m : SortedMap Bytes DigestTree} {j : Bytes} : j ∈ (m.erase id).keys ↔ j ≠ id ∧ j ∈ m.keys := by
  simp only [SortedMap.mem_keys, SortedMap.get_erase]
  by_cases hj : id = j
  · simp [hj]
  · simp [hj, Ne.symm hj]

lemma Refiled.erase {mine : Bytes → Prop} (h : Refiled mine x x') (id : Bytes) : Refiled mine x
    { x' with unwanted := x'.unwanted.erase id, wanted := x'.wanted.erase id, forest := x'.forest.erase id } := by
  have hmem : ∀ j ∈ (x'.forest.erase id).keys, j ≠ id ∧ j ∈ x'.forest.keys := fun j => mem_keys_erase.1
  constructor
  case filed =>
    constructor
    · intro j
      simp only [mem_keys_erase, h.filed.filed, Finset.mem_erase, ← and_or_left]
    · intro j hj hj'
      exact h.filed.apart j (Finset.mem_erase.1 hj).2 (Finset.mem_erase.1 hj').2
  case mirrors => exact h.mirrors
  case kept =>
    intro j hj hold
    rw [Finset.mem_erase, and_iff_right (hmem j hj).1]
    exact h.kept j (hmem j hj).2 hold
  case fresh =>
    intro j hj hnew
    rw [Finset.mem_erase, and_iff_right (hmem j hj).1]
    exact h.fresh j (hmem j hj).2 hnew

lemma Refiled.setForest {mine : Bytes → Prop} (h : Refiled mine x x') {forest : SortedMap Bytes DigestTree}
    (hkeys : ∀ j, j ∈ forest.keys ↔ j ∈ x'.forest.keys) : Refiled mine x { x' with forest := forest } where
  filed := ⟨fun j => (hkeys j).trans (h.filed.filed j), h.filed.apart⟩
  mirrors := h.mirrors
  kept j hj hold := h.kept j ((hkeys j).1 hj) hold
  fresh j hj hnew := h.fresh j ((hkeys j).1 hj) hnew

lemma Refiled.prune {mine : Bytes → Prop} (h : Refiled mine x x') (hid : tree.id.id = id) (hin : id ∈ x'.forest.keys) :
    Refiled mine x (x'.prune id tree) := by
  simp only [DigestIndexer.prune]
  split_ifs
  · subst hid
    exact h.erase _
  · exact h.setForest fun j => mem_keys_insert.trans ⟨fun hj => hj.elim (fun heq => heq ▸ hin) fun hj => hj, Or.inr⟩

end DigestIndexer

namespace DigestIndexer.Keyed

variable {loc : ILocateKeys} {x : DigestIndexer}

lemma update (h : x.Keyed hasher) (key : Bytes) (value : UInt64) : (loc.update hasher x key value).Keyed hasher := by
  intro j e he
  rw [holds_iff_find, ILocateKeys.find_update] at he
  split_ifs at he with hkey
  · rw [← hkey.2, ← Option.some.inj he]
  · exact h j e (holds_iff_find.2 he)

lemma remove (h : x.Keyed hasher) (key : Bytes) : (loc.remove hasher x key).Keyed hasher := by
  intro j e he
  rw [holds_iff_find, ILocateKeys.find_remove] at he
  split_ifs at he
  exact h j e (holds_iff_find.2 he)

end DigestIndexer.Keyed

namespace ILocateKeys

open DigestIndexer

variable (loc : ILocateKeys) {x : DigestIndexer}

def Mine (x : DigestIndexer) (id : Bytes) : Prop := loc.sectionIsMine id x.mirrors = true

variable {loc}

lemma refiled_initTree (h : x.Filed) {id : Bytes} (hfresh : id ∉ x.forest.keys) {forest : SortedMap Bytes DigestTree}
    (hkeys : ∀ j, j ∈ forest.keys ↔ j = id ∨ j ∈ x.forest.keys) {tree : DigestTree} (hempty : tree.empty = true) :
    Refiled (loc.Mine x) x { (loc.initTree x tree id).2 with forest := forest } := by
  have hnot : id ∉ x.wanted ∧ id ∉ x.unwanted := by
    rw [h.filed] at hfresh
    exact not_or.1 hfresh
  have hne : ∀ j ∈ x.forest.keys, j ≠ id := fun j hj heq => hfresh (heq ▸ hj)
  by_cases hmine : loc.sectionIsMine id x.mirrors = true
  · simp only [initTree, if_pos hempty, if_pos hmine]
    refine ⟨⟨fun j => ?_, fun j hj hj' => ?_⟩, rfl, fun j _ hj => ?_, fun j hj hnew => ?_⟩
    · rw [hkeys, h.filed, Finset.mem_insert, or_assoc]
    · rcases Finset.mem_insert.1 hj with rfl | hj
      · exact hnot.2 hj'
      · exact h.apart j hj hj'
    · exact Finset.mem_insert.trans (or_iff_right (hne j hj))
    · obtain rfl := ((hkeys j).1 hj).resolve_right hnew
      exact iff_of_true (Finset.mem_insert_self _ _) hmine
  · simp only [initTree, if_pos hempty, if_neg hmine]
    refine ⟨⟨fun j => ?_, fun j hj hj' => ?_⟩, rfl, fun j _ hj => Iff.rfl, fun j hj hnew => ?_⟩
    · rw [hkeys, h.filed, Finset.mem_insert, or_left_comm]
    · rcases Finset.mem_insert.1 hj' with rfl | hj'
      · exact hnot.1 hj
      · exact h.apart j hj hj'
    · obtain rfl := ((hkeys j).1 hj).resolve_right hnew
      exact iff_of_false hnot.1 hmine

lemma refiled_update (h : x.Filed) (hpruned : x.Pruned) (key : Bytes) (value : UInt64) :
    Refiled (loc.Mine x) x (loc.update hasher x key value) := by
  set id := loc.sectionOf key with hid
  cases htree : x.forest.get id with
  | some tree =>
    have hinit : loc.initTree x tree id = (tree, x) := by
      have hfull : ¬ tree.empty = true := fun hempty => hpruned id tree htree (List.isEmpty_iff.1 hempty)
      rw [initTree, if_neg hfull]
    simp only [update, ← hid, htree, Option.getD_some, hinit]
    refine (h.refl _).setForest fun j => mem_keys_insert.trans (or_iff_right_of_imp ?_)
    rintro rfl
    exact SortedMap.mem_keys.2 ⟨tree, htree⟩
  | none =>
    have hfresh : id ∉ x.forest.keys := fun hin => by
      obtain ⟨tree, hsome⟩ := SortedMap.mem_keys.1 hin
      simp [htree] at hsome
    simp only [update, ← hid, htree, Option.getD_none, initTree_forest]
    exact refiled_initTree h hfresh (fun j => mem_keys_insert) rfl

lemma refiled_remove (h : x.Filed) (hnamed : x.Named) (key : Bytes) :
    Refiled (loc.Mine x) x (loc.remove hasher x key) := by
  simp only [remove]
  cases htree : x.forest.get (loc.sectionOf key) with
  | none => exact h.refl _
  | some tree => exact (h.refl _).prune (hnamed _ tree htree) (SortedMap.mem_keys.2 ⟨tree, htree⟩)

lemma refiled_splitSection (h : x.Filed) (hnamed : x.Named) (location : Bytes) :
    Refiled (loc.Mine x) x (loc.splitSection hasher x location) := by
  by_cases hforest : x.forest.entries = []
  · rw [splitSection, if_pos hforest]
    exact h.refl _
  cases hfresh : x.forest.get (loc.sectionOf location) with
  | some tree =>
    simp only [splitSection, if_neg hforest, hfresh]
    exact h.refl _
  | none =>
    obtain ⟨next, sourceTree, hnext, hsource, hsplit⟩ := @splitSection_eq_splitTree hasher loc x location hforest hfresh
    rw [hsplit _ rfl _ rfl]
    set id := loc.sectionOf location
    have hid : id ∉ x.forest.keys := fun hin => by
      obtain ⟨tree, hsome⟩ := SortedMap.mem_keys.1 hin
      simp [hfresh] at hsome
    have hopened : Refiled (loc.Mine x) x (loc.initTree { x with forest := x.forest.insert id {} } {} id).2 := by
      have hsame : (loc.initTree { x with forest := x.forest.insert id {} } {} id).2 =
          { (loc.initTree x {} id).2 with forest := x.forest.insert id {} } := by
        simp only [initTree]
        split_ifs <;> rfl
      rw [hsame]
      exact refiled_initTree h hid (fun j => mem_keys_insert) rfl
    have hkeys : ∀ j, j = id ∨ j ∈ x.forest.keys →
        j ∈ (loc.initTree { x with forest := x.forest.insert id {} } {} id).2.forest.keys := fun j hj => by
      rw [initTree_forest]
      exact mem_keys_insert.2 hj
    rw [splitTree]
    refine (hopened.prune ?_ (hkeys next (Or.inr (SortedMap.mem_keys.2 ⟨sourceTree, hsource⟩)))).prune ?_ ?_
    · rw [DigestTree.foldl_remove_id]
      exact hnamed next sourceTree hsource
    · rw [DigestTree.foldl_add_id]
      exact initTree_id (Or.inl rfl)
    · rw [SortedMap.mem_keys, prune_get, if_neg hnext.ne, ← SortedMap.mem_keys]
      exact hkeys id (Or.inl rfl)

lemma refiled_cannibalizeSection (h : x.Filed) (hnamed : x.Named) (location : Bytes) :
    Refiled (loc.Mine x) x (loc.cannibalizeSection hasher x location) := by
  simp only [cannibalizeSection]
  cases hdying : x.forest.get (loc.sectionOf location) with
  | none => exact h.refl _
  | some dyingTree =>
    cases hafter : x.nextTree (loc.sectionOf location) with
    | none => exact h.refl _
    | some next =>
      obtain ⟨next, refugeeTree⟩ := next
      by_cases hsame : next = loc.sectionOf location
      · simp only [if_pos hsame]
        exact h.refl _
      · have hnext : next ∈ x.forest.keys := List.mem_map.2 ⟨_, SortedMap.after_mem hafter, rfl⟩
        simp only [if_neg hsame, hnamed _ dyingTree hdying]
        refine Refiled.erase ((h.refl _).setForest fun j => mem_keys_insert.trans (or_iff_right_of_imp ?_)) _
        rintro rfl
        exact hnext

end ILocateKeys

structure DigestIndexer.Formed (hasher : Bytes → Bytes) (x : DigestIndexer) : Prop where
  pruned : x.Pruned
  named : x.Named
  keyed : x.Keyed hasher
  filed : x.Filed

lemma DigestIndexer.formed_empty (mirrors : ℕ) : DigestIndexer.Formed hasher { mirrors := mirrors } := by
  refine ⟨?_, ?_, ?_, ?_, ?_⟩
  · intro id tree htree
    simp at htree
  · intro id tree htree
    simp at htree
  · intro id e he
    simp [DigestIndexer.Holds] at he
  · intro id
    simp [SortedMap.mem_keys]
  · intro id hid
    simp at hid

structure IndexedRing where
  ring : ConsistentHashRing
  self : Option Bytes
  indexer : DigestIndexer

namespace IndexedRing

inductive Action where
  | update (key : Bytes) (value : UInt64)
  | remove (key : Bytes)
  | insert (node peer : Bytes)
  | erase (node : Bytes)
  deriving DecidableEq

namespace Action

variable (hasher : Bytes → Bytes)

def changeRing (ring : ConsistentHashRing) : Action → ConsistentHashRing
  | insert node peer => ring.insert hasher node peer
  | erase node => (ring.erase hasher node).2
  | _ => ring

def consulted (ring : ConsistentHashRing) : Action → ConsistentHashRing
  | insert node peer => ring.insert hasher node peer
  | _ => ring

def index (loc : ILocateKeys) (x : DigestIndexer) : Action → DigestIndexer
  | update key value => loc.update hasher x key value
  | remove key => loc.remove hasher x key
  | insert node _ => loc.splitSection hasher x node
  | erase node => loc.cannibalizeSection hasher x node

variable {hasher} {x : DigestIndexer}

lemma index_formed (h : x.Formed hasher) (loc : ILocateKeys) (a : Action) : (a.index hasher loc x).Formed hasher := by
  obtain ⟨hpruned, hnamed, hkeyed, hfiled⟩ := h
  cases a with
  | update key value =>
    exact ⟨hpruned.update key value, hnamed.update key value, hkeyed.update key value,
      (ILocateKeys.refiled_update hfiled hpruned key value).filed⟩
  | remove key =>
    exact ⟨hpruned.remove key, hnamed.remove key, hkeyed.remove key,
      (ILocateKeys.refiled_remove hfiled hnamed key).filed⟩
  | insert node peer =>
    have hrefiled := (@ILocateKeys.refiled_splitSection hasher loc x hfiled hnamed node).filed
    rcases ILocateKeys.splitSection_cases hkeyed loc node with ⟨-, heq⟩ | ⟨next, sourceTree, first, hsplit, -⟩
    · rw [index, heq]
      exact ⟨hpruned, hnamed, hkeyed, hfiled⟩
    · exact ⟨hsplit.pruned hpruned, hsplit.named hnamed, hsplit.keyed hkeyed, hrefiled⟩
  | erase node =>
    have hrefiled := (@ILocateKeys.refiled_cannibalizeSection hasher loc x hfiled hnamed node).filed
    rcases ILocateKeys.cannibalizeSection_cases hkeyed loc node with ⟨-, heq⟩ | ⟨next, dyingTree, refugeeTree, hmerged⟩
    · rw [index, heq]
      exact ⟨hpruned, hnamed, hkeyed, hfiled⟩
    · exact ⟨hmerged.pruned hpruned, hmerged.named hnamed, hmerged.keyed hkeyed, hrefiled⟩

lemma index_refiled (h : x.Formed hasher) (loc : ILocateKeys) (a : Action) :
    DigestIndexer.Refiled (loc.Mine x) x (a.index hasher loc x) := by
  cases a with
  | update key value => exact ILocateKeys.refiled_update h.filed h.pruned key value
  | remove key => exact ILocateKeys.refiled_remove h.filed h.named key
  | insert node peer => exact ILocateKeys.refiled_splitSection h.filed h.named node
  | erase node => exact ILocateKeys.refiled_cannibalizeSection h.filed h.named node

end Action

variable (hasher : Bytes → Bytes)

def locator (s : IndexedRing) : LocateKeys := ⟨s.ring, s.self⟩

def step (s : IndexedRing) (a : Action) : IndexedRing :=
  { s with
    ring := a.changeRing hasher s.ring
    indexer := a.index hasher (LocateKeys.interface hasher ⟨a.consulted hasher s.ring, s.self⟩) s.indexer }

def Mine (s : IndexedRing) (id : Bytes) : Prop := s.locator.sectionIsMine id s.indexer.mirrors = true

/-- `randomTree` draws from what is wanted, `unwantedTree` from what is not. -/
def Classified (s : IndexedRing) : Prop := ∀ id,
  (id ∈ s.indexer.wanted ↔ id ∈ s.indexer.forest.keys ∧ s.Mine id) ∧
  (id ∈ s.indexer.unwanted ↔ id ∈ s.indexer.forest.keys ∧ ¬ s.Mine id)

def Emptied (x : DigestIndexer) (node id : Bytes) : Prop :=
  x.forest.get node = none ∧ Next (Insert.insert node {j | j ∈ x.forest.keys}) node id ∧
  ∀ e, x.Holds id e → ⟨if id < node then nextInteger (Hash.integer id) else 0⟩ ≤ e.1 ∧ e.1 ≤ ⟨Hash.integer node⟩

/-- Of the sections that keep a tree, a change of the ring gives this node none and takes none from it. -/
def Undisturbed (s : IndexedRing) : Action → Prop
  | .insert node peer => ∀ id ∈ s.indexer.forest.keys, ¬ Emptied s.indexer (hasher node) id →
    (LocateKeys.sectionIsMine ⟨s.ring.insert hasher node peer, s.self⟩ id s.indexer.mirrors =
      s.locator.sectionIsMine id s.indexer.mirrors)
  | .erase node => ∀ id ∈ s.indexer.forest.keys,
    (id = s.locator.sectionOf hasher node → ∀ j ∈ s.indexer.forest.keys, j = id) →
    (LocateKeys.sectionIsMine ⟨(s.ring.erase hasher node).2, s.self⟩ id s.indexer.mirrors =
      s.locator.sectionIsMine id s.indexer.mirrors)
  | _ => True

variable {hasher} {s : IndexedRing}

lemma mem_keys_insert_iff (h : s.indexer.Formed hasher) (node peer : Bytes) {id : Bytes}
    (hid : id ∈ s.indexer.forest.keys) :
    id ∈ (s.step hasher (.insert node peer)).indexer.forest.keys ↔ ¬ Emptied s.indexer (hasher node) id := by
  have hsection : (LocateKeys.interface hasher ⟨s.ring.insert hasher node peer, s.self⟩).sectionOf node = hasher node :=
    DigestIndexer.sectionOf_insert s.self
  have hcases := ILocateKeys.splitSection_cases h.keyed (LocateKeys.interface hasher
    ⟨s.ring.insert hasher node peer, s.self⟩) node
  rw [hsection] at hcases
  simp only [step, Action.index, Action.consulted]
  rcases hcases with ⟨hsame, heq⟩ | ⟨next, sourceTree, first, hsplit, hfirst⟩
  · rw [heq]
    refine iff_of_true hid ?_
    rintro ⟨hfresh, -, -⟩
    rcases hsame with hempty | ⟨tree, htree⟩
    · obtain ⟨tree, htree⟩ := SortedMap.mem_keys.1 hid
      simp [SortedMap.entries_eq_nil.1 hempty id] at htree
    · simp [hfresh] at htree
  · rw [if_congr (hsplit.first_iff (h.named _ _ hsplit.source)) rfl rfl, h.named _ _ hsplit.source] at hfirst
    have hne : id ≠ hasher node := by
      rintro rfl
      obtain ⟨tree, htree⟩ := SortedMap.mem_keys.1 hid
      simp [hsplit.fresh] at htree
    by_cases hnext : id = next
    · subst hnext
      rw [SortedMap.mem_keys]
      constructor
      · rintro ⟨tree, htree⟩ ⟨-, -, hall⟩
        obtain ⟨e, he⟩ := List.exists_mem_of_ne_nil _ (hsplit.left tree htree).1
        obtain ⟨hold, hout⟩ := (hsplit.holds_next e).1 ⟨tree, htree, he⟩
        rw [hfirst] at hout
        exact hout (hall e hold)
      · intro hleft
        by_contra hgone
        refine hleft ⟨hsplit.fresh, hsplit.follows, fun e he => ?_⟩
        by_contra hout
        rw [← hfirst] at hout
        obtain ⟨tree, htree, -⟩ := (hsplit.holds_next e).2 ⟨he, hout⟩
        exact hgone ⟨tree, htree⟩
    · refine iff_of_true ?_ ?_
      · rw [SortedMap.mem_keys, hsplit.others id hne hnext, ← SortedMap.mem_keys]
        exact hid
      · rintro ⟨-, hfollows, -⟩
        exact hnext (hfollows.unique hsplit.follows)

lemma mem_keys_erase_iff (h : s.indexer.Formed hasher) (node : Bytes) {id : Bytes}
    (hid : id ∈ s.indexer.forest.keys) : id ∈ (s.step hasher (.erase node)).indexer.forest.keys ↔
      (id = s.locator.sectionOf hasher node → ∀ j ∈ s.indexer.forest.keys, j = id) := by
  have hcases := ILocateKeys.cannibalizeSection_cases h.keyed (s.locator.interface hasher) node
  rw [show (s.locator.interface hasher).sectionOf node = s.locator.sectionOf hasher node from rfl] at hcases
  simp only [step, Action.index, Action.consulted]
  rcases hcases with ⟨hsame, heq⟩ | ⟨next, dyingTree, refugeeTree, hmerged⟩
  · refine iff_of_true ?_ ?_
    · exact heq.symm ▸ hid
    · rintro rfl
      refine hsame.resolve_left fun hnone => ?_
      obtain ⟨tree, htree⟩ := SortedMap.mem_keys.1 hid
      simp [hnone] at htree
  · by_cases hdying : id = s.locator.sectionOf hasher node
    · refine iff_of_false (fun hin => ?_) fun honly => ?_
      · obtain ⟨tree, htree⟩ := SortedMap.mem_keys.1 hin
        rw [hdying] at htree
        exact Option.some_ne_none tree (htree.symm.trans hmerged.gone)
      · have hnext := honly hdying next (SortedMap.mem_keys.2 ⟨refugeeTree, hmerged.refugee⟩)
        exact hmerged.follows.ne (hnext.trans hdying)
    · refine iff_of_true ?_ fun heq => absurd heq hdying
      rw [SortedMap.mem_keys]
      by_cases hnext : id = next
      · obtain ⟨tree, htree, -⟩ := hmerged.merged
        exact ⟨tree, hnext ▸ htree⟩
      · obtain ⟨tree, htree⟩ := SortedMap.mem_keys.1 hid
        exact ⟨tree, (hmerged.others id hdying hnext).trans htree⟩

lemma classified_iff_wanted (h : s.indexer.Filed) :
    s.Classified ↔ ∀ id ∈ s.indexer.forest.keys, (id ∈ s.indexer.wanted ↔ s.Mine id) := by
  constructor
  · intro hc id hid
    rw [(hc id).1, and_iff_right hid]
  · intro hw id
    have hfiled := h.filed id
    have hapart := h.apart id
    have hwanted := hw id
    constructor
    · constructor
      · intro hin
        have hid := hfiled.2 (Or.inl hin)
        exact ⟨hid, (hwanted hid).1 hin⟩
      · rintro ⟨hid, hmine⟩
        exact (hwanted hid).2 hmine
    · constructor
      · intro hin
        have hid := hfiled.2 (Or.inr hin)
        exact ⟨hid, fun hmine => hapart ((hwanted hid).2 hmine) hin⟩
      · rintro ⟨hid, hnot⟩
        exact (hfiled.1 hid).resolve_left fun hin => hnot ((hwanted hid).1 hin)

lemma erase_keys (h : s.indexer.Formed hasher) (node : Bytes) {id : Bytes}
    (hid : id ∈ (s.step hasher (.erase node)).indexer.forest.keys) : id ∈ s.indexer.forest.keys := by
  simp only [step, Action.index, Action.consulted] at hid
  rcases ILocateKeys.cannibalizeSection_cases h.keyed (LocateKeys.interface hasher ⟨s.ring, s.self⟩) node with
    ⟨-, heq⟩ | ⟨next, dyingTree, refugeeTree, hmerged⟩
  · exact heq ▸ hid
  · obtain ⟨tree, htree⟩ := SortedMap.mem_keys.1 hid
    by_cases hnext : id = next
    · exact SortedMap.mem_keys.2 ⟨refugeeTree, hnext ▸ hmerged.refugee⟩
    by_cases hdying : id = (LocateKeys.interface hasher ⟨s.ring, s.self⟩).sectionOf node
    · exact SortedMap.mem_keys.2 ⟨dyingTree, hdying ▸ hmerged.dying⟩
    · exact SortedMap.mem_keys.2 ⟨tree, (hmerged.others id hdying hnext).symm.trans htree⟩

lemma step_classified (h : s.indexer.Formed hasher) (hc : s.Classified) (a : Action) : (s.step hasher a).Classified ↔
    ∀ id ∈ s.indexer.forest.keys, id ∈ (s.step hasher a).indexer.forest.keys →
      ((s.step hasher a).Mine id ↔ s.Mine id) := by
  have hrefiled := Action.index_refiled h (LocateKeys.interface hasher ⟨a.consulted hasher s.ring, s.self⟩) a
  have hwanted := (classified_iff_wanted h.filed).1 hc
  -- a section that is new is filed by the ring that holds from now on
  have hfresh : ∀ id ∈ (s.step hasher a).indexer.forest.keys, id ∉ s.indexer.forest.keys →
      (id ∈ (s.step hasher a).indexer.wanted ↔ (s.step hasher a).Mine id) := by
    intro id hid hnew
    refine (hrefiled.fresh id hid hnew).trans ?_
    rw [Mine, show (s.step hasher a).indexer.mirrors = s.indexer.mirrors from hrefiled.mirrors]
    cases a with
    | update key value => rfl
    | remove key => rfl
    | insert node peer => rfl
    | erase node => exact absurd (erase_keys h node hid) hnew
  rw [classified_iff_wanted (Action.index_formed h _ a).filed]
  constructor
  · intro hc' id hold hid
    rw [← hc' id hid, ← hwanted id hold]
    exact hrefiled.kept id hid hold
  · intro hsame id hid
    by_cases hold : id ∈ s.indexer.forest.keys
    · rw [hsame id hold hid, ← hwanted id hold]
      exact hrefiled.kept id hid hold
    · exact hfresh id hid hold

lemma step_classified_iff (h : s.indexer.Formed hasher) (hc : s.Classified) (a : Action) :
    (s.step hasher a).Classified ↔ s.Undisturbed hasher a := by
  have hmirrors : (s.step hasher a).indexer.mirrors = s.indexer.mirrors :=
    (Action.index_refiled h (LocateKeys.interface hasher ⟨a.consulted hasher s.ring, s.self⟩) a).mirrors
  rw [step_classified h hc]
  cases a with
  | update key value =>
    refine iff_of_true (fun id _ _ => ?_) trivial
    rw [Mine, hmirrors]
    rfl
  | remove key =>
    refine iff_of_true (fun id _ _ => ?_) trivial
    rw [Mine, hmirrors]
    rfl
  | insert node peer =>
    refine forall₂_congr fun id hid => ?_
    rw [mem_keys_insert_iff h node peer hid, Mine, Mine, hmirrors, ← Bool.eq_iff_iff]
    rfl
  | erase node =>
    refine forall₂_congr fun id hid => ?_
    rw [mem_keys_erase_iff h node hid, Mine, Mine, hmirrors, ← Bool.eq_iff_iff]
    rfl

theorem classified_along_iff (ring : ConsistentHashRing) (self : Option Bytes) (mirrors : ℕ) (actions : List Action) :
    Along (step hasher) (Undisturbed hasher) ⟨ring, self, { mirrors := mirrors }⟩ actions ↔
      ∀ before, before <+: actions →
        (before.foldl (step hasher) ⟨ring, self, { mirrors := mirrors }⟩).Classified := by
  refine along_iff_invariant (W := fun s => DigestIndexer.Formed hasher s.indexer) ?_ ?_ ?_ ?_
  · exact fun s a h => Action.index_formed h _ a
  · exact fun s a h hc => step_classified_iff h hc a
  · exact DigestIndexer.formed_empty mirrors
  · intro id
    simp [SortedMap.mem_keys]

theorem misclassified_after_insert : ¬ ([Action.update [50] 5, .insert [150] [150]].foldl (step padded)
    ⟨DigestIndexer.ringOf [[100], [200]], some [200], { mirrors := 2 }⟩).Classified := by
  intro h
  have hmine := ((h (padded [100])).1.1 (by decide)).2
  rw [Mine] at hmine
  exact absurd hmine (by decide)

end IndexedRing

end Turbopump
