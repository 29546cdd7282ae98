import Turbopump.Hashing.KeyOrder

/-! The index of stored keys: merkle trees of key digests, one for each section of the ring. -/

namespace Turbopump

structure TreeId where
  id : Bytes := []
  mirrors : ℕ := 3
  deriving DecidableEq

/-- `turbo::merkle_tree` as the map that it keeps: under a key's 64-bit hash, the stored hash and the name. -/
structure DigestTree where
  id : TreeId := {}
  tree : SortedMap KeyHash (UInt64 × Bytes) := .empty

namespace DigestTree

variable (hasher : Bytes → Bytes)

def keyhash (key : Bytes) : KeyHash := ⟨Hash.integer (hasher key)⟩

def update (t : DigestTree) (key : Bytes) (value : UInt64) : DigestTree :=
  match t.tree.get (keyhash hasher key) with
  | some (hash, _) =>
    { t with tree := (t.tree.erase (keyhash hasher key)).insert (keyhash hasher key) (value ^^^ hash, key) }
  | none =>
    { t with tree := t.tree.insert (keyhash hasher key) (value ^^^ (keyhash hasher key).value, key) }

def add (t : DigestTree) (key : Bytes) (hash : UInt64) : DigestTree :=
  -- `merkle_tree::insert` leaves a value that is there as it is.
  match t.tree.get (keyhash hasher key) with
  | some _ => t
  | none => { t with tree := t.tree.insert (keyhash hasher key) (hash, key) }

def remove (t : DigestTree) (key : Bytes) : DigestTree := { t with tree := t.tree.erase (keyhash hasher key) }

def empty (t : DigestTree) : Bool := t.tree.entries.isEmpty

def inRange (t : DigestTree) (first last : UInt64) : List (KeyHash × UInt64 × Bytes) :=
  t.tree.entries.filter fun e => ⟨first⟩ ≤ e.1 ∧ e.1 ≤ ⟨last⟩

variable {hasher}

lemma update_get (t : DigestTree) (key : Bytes) (value : UInt64) :
    ∃ hash, (t.update hasher key value).tree.get (keyhash hasher key) = some (hash, key) := by
  simp only [update]
  split <;> exact ⟨_, SortedMap.get_insert_self _ _ _⟩

lemma update_id (t : DigestTree) (key : Bytes) (value : UInt64) : (t.update hasher key value).id = t.id := by
  simp only [update]
  split <;> rfl

lemma update_get_of_ne (t : DigestTree) {key : Bytes} {value : UInt64} {k : KeyHash} (h : keyhash hasher key ≠ k) :
    (t.update hasher key value).tree.get k = t.tree.get k := by
  simp only [update]
  split
  · rw [SortedMap.get_insert_of_ne _ _ h, SortedMap.get_erase_of_ne _ h]
  · rw [SortedMap.get_insert_of_ne _ _ h]

end DigestTree

structure ILocateKeys where
  sectionOf : Bytes → Bytes
  sectionIsMine : Bytes → ℕ → Bool

def LocateKeys.interface (hasher : Bytes → Bytes) (l : LocateKeys) : ILocateKeys :=
  ⟨l.sectionOf hasher, l.sectionIsMine⟩

@[simp] lemma LocateKeys.interface_sectionOf (hasher : Bytes → Bytes) (l : LocateKeys) (key : Bytes) :
    (l.interface hasher).sectionOf key = l.sectionOf hasher key := rfl

structure DigestIndexer where
  mirrors : ℕ := 3
  forest : SortedMap Bytes DigestTree := .empty
  wanted : Finset Bytes := ∅
  unwanted : Finset Bytes := ∅

namespace DigestIndexer

def prune (x : DigestIndexer) (id : Bytes) (tree : DigestTree) : DigestIndexer :=
  if tree.empty then
    { x with
      unwanted := x.unwanted.erase tree.id.id
      wanted := x.wanted.erase tree.id.id
      forest := x.forest.erase id }
  else { x with forest := x.forest.insert id tree }

def find (x : DigestIndexer) (id : Bytes) : DigestTree := (x.forest.get id).getD {}

def nextTree (x : DigestIndexer) (id : Bytes) : Option (Bytes × DigestTree) := x.forest.after id

def splitTree (hasher : Bytes → Bytes) (x : DigestIndexer) (id next : Bytes) (newTree sourceTree : DigestTree)
    (first last : UInt64) : DigestIndexer :=
  let newTree := (sourceTree.inRange first last).foldl
    (fun tree (_, hash, file) => tree.add hasher file hash) newTree
  let sourceTree := (newTree.inRange 0 0xffffffffffffffff).foldl
    (fun tree (_, _, file) => tree.remove hasher file) sourceTree
  (x.prune next sourceTree).prune id newTree

end DigestIndexer

namespace ILocateKeys

variable (hasher : Bytes → Bytes) (loc : ILocateKeys)

def initTree (x : DigestIndexer) (tree : DigestTree) (id : Bytes) : DigestTree × DigestIndexer :=
  if tree.empty then
    let tree := { tree with id := ⟨id, x.mirrors⟩ }
    if loc.sectionIsMine id x.mirrors then (tree, { x with wanted := Insert.insert id x.wanted })
    else (tree, { x with unwanted := Insert.insert id x.unwanted })
  else (tree, x)

def update (x : DigestIndexer) (key : Bytes) (value : UInt64) : DigestIndexer :=
  let id := loc.sectionOf key
  let (tree, x) := loc.initTree x ((x.forest.get id).getD {}) id
  { x with forest := x.forest.insert id (tree.update hasher key value) }

def remove (x : DigestIndexer) (key : Bytes) : DigestIndexer :=
  let id := loc.sectionOf key
  match x.forest.get id with
  | none => x
  | some tree => x.prune id (tree.remove hasher key)

def splitSection (x : DigestIndexer) (location : Bytes) : DigestIndexer :=
  if x.forest.entries = [] then x
  else
    let id := loc.sectionOf location
    match x.forest.get id with
    | some _ => x
    | none =>
      let x := { x with forest := x.forest.insert id {} }
      match x.nextTree id with
      | none => x
      | some (next, sourceTree) =>
        let (newTree, x) := loc.initTree x {} id
        -- the source tree stays the first one, and the new one is the last
        let first := if x.forest.entries.head?.map Prod.fst = some next ∧ sourceTree.id.id < id then
          nextInteger (Hash.integer sourceTree.id.id) else 0
        x.splitTree hasher id next newTree sourceTree first (Hash.integer (hasher location))

def cannibalizeSection (x : DigestIndexer) (location : Bytes) : DigestIndexer :=
  let id := loc.sectionOf location
  match x.forest.get id with
  | none => x
  | some dyingTree => match x.nextTree id with
    | none => x
    | some (next, refugeeTree) =>
      if next = id then x
      else
        let refugeeTree := (dyingTree.inRange 0 0xffffffffffffffff).foldl
          (fun tree (_, hash, file) => tree.add hasher file hash) refugeeTree
        { x with
          unwanted := x.unwanted.erase dyingTree.id.id
          wanted := x.wanted.erase dyingTree.id.id
          forest := (x.forest.insert next refugeeTree).erase id }

section InitTree

variable {loc} (x : DigestIndexer) (tree : DigestTree) (id : Bytes)

@[simp] lemma initTree_forest : (loc.initTree x tree id).2.forest = x.forest := by
  simp only [initTree]
  split_ifs <;> rfl

@[simp] lemma initTree_tree : (loc.initTree x tree id).1.tree = tree.tree := by
  simp only [initTree]
  split_ifs <;> rfl

end InitTree

end ILocateKeys

namespace DigestIndexer

variable (hasher : Bytes → Bytes) (l : LocateKeys)

-- The index of a node locates keys on the node's ring.

def update (x : DigestIndexer) (key : Bytes) (value : UInt64) : DigestIndexer :=
  (l.interface hasher).update hasher x key value

def remove (x : DigestIndexer) (key : Bytes) : DigestIndexer := (l.interface hasher).remove hasher x key

def splitSection (x : DigestIndexer) (location : Bytes) : DigestIndexer :=
  (l.interface hasher).splitSection hasher x location

def cannibalizeSection (x : DigestIndexer) (location : Bytes) : DigestIndexer :=
  (l.interface hasher).cannibalizeSection hasher x location

def Holds (x : DigestIndexer) (id : Bytes) (e : KeyHash × UInt64 × Bytes) : Prop :=
  ∃ tree, x.forest.get id = some tree ∧ e ∈ tree.tree.entries

structure GroupedBy (x : DigestIndexer) (ring : ConsistentHashRing) : Prop where
  nonempty : ∀ id tree, x.forest.get id = some tree → tree.tree.entries ≠ []
  grouped : ∀ id e, x.Holds id e → ring.nodeId (hasher e.2.2) = id
  keyed : ∀ id e, x.Holds id e → e.1 = DigestTree.keyhash hasher e.2.2

/-- `x'` indexes what `x` does, each key in the tree of its section on `ring` and in no other. -/
def Regrouped (ring : ConsistentHashRing) (x x' : DigestIndexer) : Prop :=
  ∀ id e, x'.Holds id e ↔ (∃ id', x.Holds id' e) ∧ ring.nodeId (hasher e.2.2) = id

section Update

variable {hasher l} {x : DigestIndexer}

lemma update_get_of_ne {key : Bytes} {value : UInt64} {id : Bytes} (h : l.sectionOf hasher key ≠ id) :
    (x.update hasher l key value).forest.get id = x.forest.get id := by
  simp only [update, ILocateKeys.update, LocateKeys.interface_sectionOf, SortedMap.get_insert_of_ne _ _ h,
    ILocateKeys.initTree_forest]

lemma update_get (key : Bytes) (value : UInt64) :
    ∃ tree : DigestTree, tree.tree = ((x.forest.get (l.sectionOf hasher key)).getD {}).tree ∧
    (x.update hasher l key value).forest.get (l.sectionOf hasher key) = some (tree.update hasher key value) :=
  ⟨_, ILocateKeys.initTree_tree _ _ _, SortedMap.get_insert_self _ _ _⟩

lemma GroupedBy.empty (ring : ConsistentHashRing) (mirrors : ℕ) :
    GroupedBy hasher { mirrors := mirrors } ring := by
  constructor <;> simp [Holds]

theorem GroupedBy.update (h : x.GroupedBy hasher l.ring) (key : Bytes) (value : UInt64) :
    (x.update hasher l key value).GroupedBy hasher l.ring := by
  obtain ⟨tree, htree, hget⟩ := @update_get hasher l x key value
  obtain ⟨hash, hkey⟩ := @DigestTree.update_get hasher tree key value
  -- what the updated index holds is the key itself, or was there before
  have hholds : ∀ id e, (x.update hasher l key value).Holds id e →
      (id = l.sectionOf hasher key ∧ e = (DigestTree.keyhash hasher key, hash, key)) ∨ x.Holds id e := by
    rintro id ⟨k, v⟩ ⟨t, ht, he⟩
    by_cases hid : l.sectionOf hasher key = id
    · subst hid
      rw [hget, Option.some.injEq] at ht
      subst ht
      have hk := SortedMap.mem_entries.1 he
      by_cases hkey' : DigestTree.keyhash hasher key = k
      · subst hkey'
        rw [hkey, Option.some.injEq] at hk
        exact Or.inl ⟨rfl, by rw [hk]⟩
      · rw [DigestTree.update_get_of_ne _ hkey', htree] at hk
        cases hold : x.forest.get (l.sectionOf hasher key) with
        | none => simp [hold] at hk
        | some old =>
          rw [hold, Option.getD_some] at hk
          exact Or.inr ⟨old, hold, SortedMap.mem_entries.2 hk⟩
    · rw [update_get_of_ne hid] at ht
      exact Or.inr ⟨t, ht, he⟩
  constructor
  · intro id t ht
    by_cases hid : l.sectionOf hasher key = id
    · subst hid
      rw [hget, Option.some.injEq] at ht
      subst ht
      exact List.ne_nil_of_mem (SortedMap.mem_entries.2 hkey)
    · exact h.nonempty id t (by rwa [update_get_of_ne hid] at ht)
  · intro id e he
    rcases hholds id e he with ⟨rfl, rfl⟩ | he
    · rfl
    · exact h.grouped id e he
  · intro id e he
    rcases hholds id e he with ⟨rfl, rfl⟩ | he
    · rfl
    · exact h.keyed id e he

end Update

section Cannibalize

variable {hasher l} {x : DigestIndexer} {location : Bytes}

lemma mem_foldl_add (es : List (KeyHash × UInt64 × Bytes)) {tree : DigestTree} {e : KeyHash × UInt64 × Bytes}
    (he : e ∈ tree.tree.entries) :
    e ∈ (es.foldl (fun tree (_, hash, file) => tree.add hasher file hash) tree).tree.entries := by
  induction es generalizing tree with
  | nil => exact he
  | cons a es ih =>
    refine ih ?_
    simp only [DigestTree.add]
    split
    case h_1 => exact he
    case h_2 hnone =>
      have hget := SortedMap.mem_entries.1 (show (e.1, e.2) ∈ tree.tree.entries from he)
      refine SortedMap.mem_entries.2 ?_
      rw [SortedMap.get_insert_of_ne _ _ fun heq => ?_, hget]
      rw [heq, hget] at hnone
      simp at hnone

lemma cannibalizeSection_eq_self (h : x.forest.get (l.sectionOf hasher location) = none ∨
      ∀ id ∈ x.forest.keys, id = l.sectionOf hasher location) :
    x.cannibalizeSection hasher l location = x := by
  simp only [← LocateKeys.interface_sectionOf] at h
  rw [cannibalizeSection]
  generalize l.interface hasher = loc at h ⊢
  simp only [ILocateKeys.cannibalizeSection]
  rcases hget : x.forest.get (loc.sectionOf location) with _ | dyingTree
  · rfl
  · have honly := h.resolve_left (by simp [hget])
    rcases hnext : x.nextTree (loc.sectionOf location) with _ | ⟨next, refugeeTree⟩
    · rfl
    · exact if_pos (honly next (List.mem_map.2 ⟨_, SortedMap.after_mem hnext, rfl⟩))

lemma Holds.cannibalizeSection {id : Bytes} {e : KeyHash × UInt64 × Bytes} (h : x.Holds id e)
    (hid : id ≠ l.sectionOf hasher location) : (x.cannibalizeSection hasher l location).Holds id e := by
  rw [← LocateKeys.interface_sectionOf] at hid
  rw [DigestIndexer.cannibalizeSection]
  generalize l.interface hasher = loc at hid ⊢
  simp only [ILocateKeys.cannibalizeSection]
  rcases hget : x.forest.get (loc.sectionOf location) with _ | dyingTree
  · exact h
  · rcases hnext : x.nextTree (loc.sectionOf location) with _ | ⟨next, refugeeTree⟩
    · exact h
    · by_cases heq : next = loc.sectionOf location
      · simpa only [if_pos heq] using h
      · obtain ⟨tree, htree, he⟩ := h
        simp only [if_neg heq, Holds, SortedMap.get_erase_of_ne _ (Ne.symm hid)]
        by_cases hid' : next = id
        · have hrefugee := SortedMap.mem_entries.1 (SortedMap.after_mem hnext)
          rw [hid', htree, Option.some.injEq] at hrefugee
          rw [hid', SortedMap.get_insert_self]
          exact ⟨_, rfl, mem_foldl_add _ (hrefugee ▸ he)⟩
        · rw [SortedMap.get_insert_of_ne _ _ hid']
          exact ⟨tree, htree, he⟩

lemma cannibalizeSection_get {id : Bytes} (hid : id ∈ x.forest.keys) (hne : id ≠ l.sectionOf hasher location) :
    (x.cannibalizeSection hasher l location).forest.get (l.sectionOf hasher location) = none := by
  rw [← LocateKeys.interface_sectionOf] at hne ⊢
  rw [cannibalizeSection]
  generalize l.interface hasher = loc at hne ⊢
  simp only [ILocateKeys.cannibalizeSection]
  rcases hget : x.forest.get (loc.sectionOf location) with _ | dyingTree
  · exact hget
  · obtain ⟨tree, htree⟩ := SortedMap.mem_keys.1 hid
    rcases hnext : x.nextTree (loc.sectionOf location) with _ | ⟨next, refugeeTree⟩
    · have hmem := SortedMap.mem_circleAfter (k := loc.sectionOf location).2 (SortedMap.mem_entries.2 htree)
      rw [List.head?_eq_none_iff.1 hnext] at hmem
      exact absurd hmem List.not_mem_nil
    · have hneq : next ≠ loc.sectionOf location := SortedMap.after_ne htree hne hnext
      simp only [if_neg hneq, SortedMap.get_erase_self]

end Cannibalize

end DigestIndexer

inductive Indexer where
  | universal (tree : DigestTree)
  | sections (indexer : DigestIndexer)

namespace Indexer

variable (hasher : Bytes → Bytes) (l : LocateKeys)

def update (x : Indexer) (key : Bytes) (value : UInt64) : Indexer := match x with
  | universal tree => universal (tree.update hasher key value)
  | sections indexer => sections (indexer.update hasher l key value)

def remove (x : Indexer) (key : Bytes) : Indexer := match x with
  | universal tree => universal (tree.remove hasher key)
  | sections indexer => sections (indexer.remove hasher l key)

def find (x : Indexer) (id : Bytes) : DigestTree := match x with
  | universal tree => tree
  | sections indexer => indexer.find id

def splitSection (x : Indexer) (location : Bytes) : Indexer := match x with
  | universal tree => universal tree
  | sections indexer => sections (indexer.splitSection hasher l location)

def cannibalizeSection (x : Indexer) (location : Bytes) : Indexer := match x with
  | universal tree => universal tree
  | sections indexer => sections (indexer.cannibalizeSection hasher l location)

end Indexer

structure KeyTabulator where
  -- `_forest` is keyed by `unsigned char`.
  forest : SortedMap UInt8 Indexer := .empty

namespace KeyTabulator

variable (hasher : Bytes → Bytes) (l : LocateKeys)

def update (k : KeyTabulator) (key : Bytes) (value : UInt64) (mirrors : ℕ) : KeyTabulator :=
  let forest := match k.forest.get (UInt8.ofNat mirrors) with
    | some forest => forest
    | none => if mirrors = 0 then .universal { id := ⟨[], 0⟩ } else .sections { mirrors := mirrors }
  ⟨k.forest.insert (UInt8.ofNat mirrors) (forest.update hasher l key value)⟩

def remove (k : KeyTabulator) (key : Bytes) (mirrors : ℕ) : KeyTabulator :=
  match k.forest.get (UInt8.ofNat mirrors) with
  | none => k
  | some forest => ⟨k.forest.insert (UInt8.ofNat mirrors) (forest.remove hasher l key)⟩

def find (k : KeyTabulator) (id : Bytes) (mirrors : ℕ) : DigestTree := match k.forest.get (UInt8.ofNat mirrors) with
  | none => {}
  | some forest => forest.find id

def splitSection (k : KeyTabulator) (location : Bytes) : KeyTabulator :=
  ⟨k.forest.mapValues fun forest => forest.splitSection hasher l location⟩

def cannibalizeSection (k : KeyTabulator) (location : Bytes) : KeyTabulator :=
  ⟨k.forest.mapValues fun forest => forest.cannibalizeSection hasher l location⟩

end KeyTabulator

end Turbopump
