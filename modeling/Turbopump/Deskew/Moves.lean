import Turbopump.Deskew.FlatIndex
import Turbopump.Lib.Circle

/-! What splitting and cannibalizing a section move from one tree to another. -/

namespace SortedMap

variable {κ ν : Type} [LinearOrder κ] {m : SortedMap κ ν} {k : κ} {v : ν} {e : κ × ν}

lemma mem_insert (h : m.get k = none) : e ∈ (m.insert k v).entries ↔ e = (k, v) ∨ e ∈ m.entries := by
  obtain ⟨k', v'⟩ := e
  rw [mem_entries, mem_entries, get_insert]
  by_cases hk : k = k'
  · subst hk
    simp [h, eq_comm]
  · simp [hk, Ne.symm hk]

lemma mem_erase : e ∈ (m.erase k).entries ↔ e.1 ≠ k ∧ e ∈ m.entries := by
  simp [erase, and_comm]

lemma exists_after (h : m.entries ≠ []) (k : κ) : ∃ e, m.after k = some e := by
  obtain ⟨e, he⟩ := List.exists_mem_of_ne_nil _ h
  cases hk : m.after k with
  | some e => exact ⟨e, rfl⟩
  | none =>
    have hmem := mem_circleAfter (k := k).2 he
    rw [List.head?_eq_none_iff.1 hk] at hmem
    exact absurd hmem List.not_mem_nil

lemma head_min (hk : k ∈ m.keys) (hmin : ∀ k' ∈ m.keys, k ≤ k') : m.entries.head?.map Prod.fst = some k := by
  obtain ⟨e, he, rfl⟩ := List.mem_map.1 hk
  cases hm : m.entries with
  | nil => simp [hm] at he
  | cons e' es =>
    have he' : e' ∈ m.entries := hm ▸ List.mem_cons_self
    have hle : e'.1 ≤ e.1 := head_le (p := fun _ => true) (by rw [List.filter_true, hm]) he rfl
    rw [List.head?_cons, Option.map_some, Option.some.injEq]
    exact le_antisymm hle (hmin _ (List.mem_map.2 ⟨e', he', rfl⟩))

end SortedMap

namespace Turbopump

variable {hasher : Bytes → Bytes}

namespace DigestTree

variable {tree : DigestTree} {es : List (KeyHash × UInt64 × Bytes)} {e : KeyHash × UInt64 × Bytes}

lemma mem_foldl_add (hkeyed : ∀ e ∈ es, e.1 = keyhash hasher e.2.2) (hnodup : (es.map Prod.fst).Nodup) :
    e ∈ (es.foldl (fun tree (_, hash, file) => tree.add hasher file hash) tree).tree.entries ↔
      (e ∈ es ∧ tree.tree.get e.1 = none) ∨ e ∈ tree.tree.entries := by
  induction es generalizing tree with
  | nil => simp
  | cons a es ih =>
    obtain ⟨k, hash, file⟩ := a
    obtain ⟨hk, hnodup⟩ := List.nodup_cons.1 hnodup
    have hkey : k = keyhash hasher file := hkeyed _ List.mem_cons_self
    have hne : ∀ e ∈ es, k ≠ e.1 := fun e he heq => hk (List.mem_map.2 ⟨e, he, heq.symm⟩)
    simp only [List.foldl_cons]
    rw [ih (fun e he => hkeyed e (List.mem_cons_of_mem _ he)) hnodup]
    cases hget : tree.tree.get k with
    | some v =>
      have hadd : tree.add hasher file hash = tree := by simp only [add, ← hkey, hget]
      rw [hadd, List.mem_cons]
      refine or_congr_left (and_congr_left fun hnone => (or_iff_right ?_).symm)
      rintro rfl
      simp [hget] at hnone
    | none =>
      have hadd : tree.add hasher file hash = { tree with tree := tree.tree.insert k (hash, file) } := by
        simp only [add, ← hkey, hget]
      rw [hadd, SortedMap.mem_insert hget, List.mem_cons]
      constructor
      · rintro (⟨he, hnone⟩ | rfl | he)
        · rw [SortedMap.get_insert_of_ne _ _ (hne e he)] at hnone
          exact Or.inl ⟨Or.inr he, hnone⟩
        · exact Or.inl ⟨Or.inl rfl, hget⟩
        · exact Or.inr he
      · rintro (⟨rfl | he, hnone⟩ | he)
        · exact Or.inr (Or.inl rfl)
        · exact Or.inl ⟨he, by rwa [SortedMap.get_insert_of_ne _ _ (hne e he)]⟩
        · exact Or.inr (Or.inr he)

lemma mem_foldl_remove :
    e ∈ (es.foldl (fun tree (_, _, file) => tree.remove hasher file) tree).tree.entries ↔
      e ∈ tree.tree.entries ∧ ∀ a ∈ es, e.1 ≠ keyhash hasher a.2.2 := by
  induction es generalizing tree with
  | nil => simp
  | cons a es ih =>
    simp only [List.foldl_cons]
    rw [ih, remove, SortedMap.mem_erase, List.forall_mem_cons]
    constructor
    · rintro ⟨⟨hne, he⟩, hes⟩
      exact ⟨he, hne, hes⟩
    · rintro ⟨he, hne, hes⟩
      exact ⟨⟨hne, he⟩, hes⟩

lemma foldl_add_id : (es.foldl (fun tree (_, hash, file) => tree.add hasher file hash) tree).id = tree.id := by
  induction es generalizing tree with
  | nil => rfl
  | cons a es ih =>
    simp only [List.foldl_cons]
    rw [ih, add]
    split <;> rfl

lemma foldl_remove_id : (es.foldl (fun tree (_, _, file) => tree.remove hasher file) tree).id = tree.id := by
  induction es generalizing tree with
  | nil => rfl
  | cons a es ih =>
    simp only [List.foldl_cons]
    rw [ih, remove]

lemma eq_of {tree' : DigestTree} (hid : tree.id = tree'.id) (h : ∀ e, e ∈ tree.tree.entries ↔ e ∈ tree'.tree.entries) :
    tree = tree' := by
  obtain ⟨id, entries⟩ := tree
  obtain ⟨id', entries'⟩ := tree'
  obtain rfl : id = id' := hid
  obtain rfl : entries = entries' := SortedMap.ext_entries h
  rfl

lemma mem_inRange {first last : UInt64} :
    e ∈ tree.inRange first last ↔ e ∈ tree.tree.entries ∧ ⟨first⟩ ≤ e.1 ∧ e.1 ≤ ⟨last⟩ := by
  simp [inRange]

end DigestTree

namespace DigestIndexer

variable {x : DigestIndexer}

section SplitTree

variable {id next : Bytes} {newTree sourceTree : DigestTree} {first last : UInt64}

lemma splitTree_holds (hnew : newTree.tree.entries = [])
    (hkeyed : ∀ e ∈ sourceTree.tree.entries, e.1 = DigestTree.keyhash hasher e.2.2) (j : Bytes)
    (e : KeyHash × UInt64 × Bytes) :
    (x.splitTree hasher id next newTree sourceTree first last).Holds j e ↔
      if j = id then e ∈ sourceTree.inRange first last
      else if j = next then e ∈ sourceTree.tree.entries ∧ e ∉ sourceTree.inRange first last
      else x.Holds j e := by
  set moved := sourceTree.inRange first last with hmoved
  set newTree' := moved.foldl (fun tree (_, hash, file) => tree.add hasher file hash) newTree with hnewTree
  set sourceTree' := (newTree'.inRange 0 0xffffffffffffffff).foldl
    (fun tree (_, _, file) => tree.remove hasher file) sourceTree with hsourceTree
  have hsub : ∀ e ∈ moved, e ∈ sourceTree.tree.entries := fun e he => (DigestTree.mem_inRange.1 he).1
  have hmem : ∀ e, e ∈ newTree'.tree.entries ↔ e ∈ moved := by
    intro e
    rw [hnewTree, DigestTree.mem_foldl_add (fun e he => hkeyed e (hsub e he)), hnew, or_iff_left List.not_mem_nil]
    · exact and_iff_left (SortedMap.entries_eq_nil.1 hnew e.1)
    · exact (sourceTree.tree.keys_nodup).sublist (List.filter_sublist.map _)
  have hall : ∀ e, e ∈ newTree'.inRange 0 0xffffffffffffffff ↔ e ∈ moved := by
    intro e
    rw [DigestTree.mem_inRange, hmem]
    exact and_iff_left ⟨KeyHash.zero_le _, KeyHash.le_last _⟩
  have hrest : ∀ e, e ∈ sourceTree'.tree.entries ↔ e ∈ sourceTree.tree.entries ∧ e ∉ moved := by
    intro e
    rw [hsourceTree, DigestTree.mem_foldl_remove]
    refine and_congr_right fun he => ⟨fun hnone hin => ?_, fun hnot a ha heq => ?_⟩
    · exact hnone e ((hall e).2 hin) (hkeyed e he)
    · have ha := (hall a).1 ha
      rw [← hkeyed a (hsub a ha)] at heq
      -- two entries of one tree under one key are one entry
      have hsame : e = a := by
        have h₁ := SortedMap.mem_entries.1 (show (e.1, e.2) ∈ sourceTree.tree.entries from he)
        have h₂ := SortedMap.mem_entries.1 (show (a.1, a.2) ∈ sourceTree.tree.entries from hsub a ha)
        rw [heq, h₂, Option.some.injEq] at h₁
        exact Prod.ext heq h₁.symm
      exact hnot (hsame ▸ ha)
  have hget : (x.splitTree hasher id next newTree sourceTree first last).forest.get j =
      if id = j then if newTree'.tree.entries = [] then none else some newTree'
      else if next = j then if sourceTree'.tree.entries = [] then none else some sourceTree'
      else x.forest.get j := by
    rw [splitTree, prune_get, prune_get]
  rw [Holds, hget]
  by_cases hid : id = j
  · rw [if_pos hid, if_pos hid.symm, ← hmem]
    by_cases hnil : newTree'.tree.entries = []
    · simp [hnil]
    · simp [hnil]
  · rw [if_neg hid, if_neg (Ne.symm hid)]
    by_cases hnext : next = j
    · rw [if_pos hnext, if_pos hnext.symm, ← hrest]
      by_cases hnil : sourceTree'.tree.entries = []
      · simp [hnil]
      · simp [hnil]
    · rw [if_neg hnext, if_neg (Ne.symm hnext)]
      rfl

lemma splitTree_others {j : Bytes} (hid : j ≠ id) (hnext : j ≠ next) :
    (x.splitTree hasher id next newTree sourceTree first last).forest.get j = x.forest.get j := by
  rw [splitTree, prune_get, if_neg (Ne.symm hid), prune_get, if_neg (Ne.symm hnext)]

lemma splitTree_newTree {tree : DigestTree}
    (htree : (x.splitTree hasher id next newTree sourceTree first last).forest.get id = some tree) :
    tree.tree.entries ≠ [] ∧ tree.id = newTree.id := by
  rw [splitTree, prune_get, if_pos rfl] at htree
  split_ifs at htree with hempty
  rw [← Option.some.inj htree]
  exact ⟨hempty, DigestTree.foldl_add_id⟩

lemma splitTree_sourceTree (hne : next ≠ id) {tree : DigestTree}
    (htree : (x.splitTree hasher id next newTree sourceTree first last).forest.get next = some tree) :
    tree.tree.entries ≠ [] ∧ tree.id = sourceTree.id := by
  rw [splitTree, prune_get, if_neg (Ne.symm hne), prune_get, if_pos rfl] at htree
  split_ifs at htree with hempty
  rw [← Option.some.inj htree]
  exact ⟨hempty, DigestTree.foldl_remove_id⟩

end SplitTree

/-- `x'` has a new section `id`, with those keys of the tree at `next` that are in `range`, and that tree the rest. -/
structure SplitOff (x x' : DigestIndexer) (id next : Bytes) (sourceTree : DigestTree) (range : KeyHash → Prop) :
    Prop where
  fresh : x.forest.get id = none
  follows : Circle.Next (insert id {j | j ∈ x.forest.keys}) id next
  source : x.forest.get next = some sourceTree
  holds : ∀ j e, x'.Holds j e ↔
    if j = id then e ∈ sourceTree.tree.entries ∧ range e.1
    else if j = next then e ∈ sourceTree.tree.entries ∧ ¬ range e.1
    else x.Holds j e
  others : ∀ j, j ≠ id → j ≠ next → x'.forest.get j = x.forest.get j
  taken : ∀ tree, x'.forest.get id = some tree → tree.tree.entries ≠ [] ∧ tree.id.id = id
  left : ∀ tree, x'.forest.get next = some tree → tree.tree.entries ≠ [] ∧ tree.id = sourceTree.id

structure Merged (x x' : DigestIndexer) (id next : Bytes) (dyingTree refugeeTree : DigestTree) : Prop where
  dying : x.forest.get id = some dyingTree
  follows : Circle.Next {j | j ∈ x.forest.keys} id next
  refugee : x.forest.get next = some refugeeTree
  gone : x'.forest.get id = none
  others : ∀ j, j ≠ id → j ≠ next → x'.forest.get j = x.forest.get j
  merged : ∃ tree, x'.forest.get next = some tree ∧ tree.id = refugeeTree.id ∧
    ∀ e, e ∈ tree.tree.entries ↔
      (e ∈ dyingTree.tree.entries ∧ refugeeTree.tree.get e.1 = none) ∨ e ∈ refugeeTree.tree.entries

def Keyed (hasher : Bytes → Bytes) (x : DigestIndexer) : Prop :=
  ∀ id e, x.Holds id e → e.1 = DigestTree.keyhash hasher e.2.2

def Apart (x : DigestIndexer) : Prop := ∀ id id' e e', x.Holds id e → x.Holds id' e' → e.1 = e'.1 → id = id'

end DigestIndexer

namespace ILocateKeys

open DigestIndexer

variable {loc : ILocateKeys} {x : DigestIndexer}

lemma splitSection_eq_splitTree (loc : ILocateKeys) (x : DigestIndexer) {location : Bytes}
    (hforest : x.forest.entries ≠ []) (hfresh : x.forest.get (loc.sectionOf location) = none) :
    ∃ next sourceTree, Circle.Next (insert (loc.sectionOf location) {j | j ∈ x.forest.keys})
      (loc.sectionOf location) next ∧
      x.forest.get next = some sourceTree ∧ ∀ first,
      (first = if (x.forest.insert (loc.sectionOf location) {}).entries.head?.map Prod.fst = some next ∧
        sourceTree.id.id < loc.sectionOf location then nextInteger (Hash.integer sourceTree.id.id) else 0) →
      ∀ p, p = loc.initTree { x with forest := x.forest.insert (loc.sectionOf location) {} } {}
        (loc.sectionOf location) →
      loc.splitSection hasher x location =
        p.2.splitTree hasher (loc.sectionOf location) next p.1 sourceTree first (Hash.integer (hasher location)) := by
  set id := loc.sectionOf location with hid
  set forest : SortedMap Bytes DigestTree := x.forest.insert id {} with hforest'
  have hget : ∀ j, j ≠ id → forest.get j = x.forest.get j := fun j hj =>
    SortedMap.get_insert_of_ne _ _ (Ne.symm hj)
  have hkeys : {j | j ∈ forest.keys} = insert id {j | j ∈ x.forest.keys} := by
    ext j
    simp only [Set.mem_ofPred_eq, Set.mem_insert_iff, SortedMap.mem_keys]
    by_cases hj : j = id
    · simp [hj, hforest']
    · simp [hj, hget j hj]
  obtain ⟨k, hk⟩ := List.exists_mem_of_ne_nil _ hforest
  have hktree := SortedMap.mem_entries.1 (show (k.1, k.2) ∈ x.forest.entries from hk)
  have hkne : k.1 ≠ id := fun heq => by simp [← heq, hktree] at hfresh
  have hkmem : k.1 ∈ forest.keys := SortedMap.mem_keys.2 ⟨k.2, by rw [hget _ hkne, hktree]⟩
  obtain ⟨⟨next, sourceTree⟩, hafter⟩ := SortedMap.exists_after (m := forest)
    (fun hnil => by simp [SortedMap.keys, hnil] at hkmem) id
  have hnext : Circle.Next (insert id {j | j ∈ x.forest.keys}) id next := by
    rw [← hkeys]
    exact SortedMap.after_next hafter hkmem hkne
  refine ⟨next, sourceTree, hnext, ?_, ?_⟩
  · rw [← hget next hnext.ne]
    exact SortedMap.mem_entries.1 (SortedMap.after_mem hafter)
  · rintro first rfl p rfl
    simp only [splitSection, if_neg hforest, ← hid, hfresh, nextTree, ← hforest', hafter, initTree_forest]

theorem splitSection_cases (hkeyed : x.Keyed hasher) (loc : ILocateKeys) (location : Bytes) :
    ((x.forest.entries = [] ∨ ∃ tree, x.forest.get (loc.sectionOf location) = some tree) ∧
      loc.splitSection hasher x location = x) ∨
    ∃ next sourceTree first, SplitOff x (loc.splitSection hasher x location) (loc.sectionOf location) next sourceTree
        (fun k => ⟨first⟩ ≤ k ∧ k ≤ ⟨Hash.integer (hasher location)⟩) ∧
      first = if (x.forest.insert (loc.sectionOf location) {}).entries.head?.map Prod.fst = some next ∧
        sourceTree.id.id < loc.sectionOf location then nextInteger (Hash.integer sourceTree.id.id) else 0 := by
  by_cases hforest : x.forest.entries = []
  · exact Or.inl ⟨Or.inl hforest, if_pos hforest⟩
  cases hfresh : x.forest.get (loc.sectionOf location) with
  | some tree =>
    refine Or.inl ⟨Or.inr ⟨tree, rfl⟩, ?_⟩
    simp only [splitSection, if_neg hforest, hfresh]
  | none =>
    right
    obtain ⟨next, sourceTree, hnext, hsource, hsplit⟩ := @splitSection_eq_splitTree hasher loc x location hforest hfresh
    set id := loc.sectionOf location
    obtain ⟨first, hfirst⟩ : ∃ first, first = if (x.forest.insert id {}).entries.head?.map Prod.fst = some next ∧
      sourceTree.id.id < id then nextInteger (Hash.integer sourceTree.id.id) else 0 := ⟨_, rfl⟩
    replace hsplit := hsplit first hfirst _ rfl
    set p := loc.initTree { x with forest := x.forest.insert id {} } {} id with hp
    have hempty : p.1.tree.entries = [] := by
      rw [hp, initTree_tree]
      rfl
    have hnewId : p.1.id.id = id := initTree_id (Or.inl rfl)
    have hforest' : ∀ j, j ≠ id → p.2.forest.get j = x.forest.get j := by
      intro j hj
      rw [hp, initTree_forest, SortedMap.get_insert_of_ne _ _ (Ne.symm hj)]
    have hentries : ∀ e ∈ sourceTree.tree.entries, e.1 = DigestTree.keyhash hasher e.2.2 := fun e he =>
      hkeyed next e ⟨sourceTree, hsource, he⟩
    refine ⟨next, sourceTree, first, ⟨hfresh, hnext, hsource, ?_, ?_, ?_, ?_⟩, hfirst⟩
    · intro j e
      rw [hsplit, splitTree_holds hempty hentries, DigestTree.mem_inRange]
      split_ifs with hj hj'
      · exact Iff.rfl
      · exact and_congr_right fun he => by rw [not_and, not_and]; exact ⟨fun h => h he, fun h _ => h⟩
      · rw [Holds, Holds, hforest' j hj]
    · intro j hj hj'
      rw [hsplit, splitTree_others hj hj', hforest' j hj]
    · intro tree hnew
      rw [hsplit] at hnew
      obtain ⟨hnonempty, hid⟩ := splitTree_newTree hnew
      exact ⟨hnonempty, hid ▸ hnewId⟩
    · intro tree hrest
      rw [hsplit] at hrest
      exact splitTree_sourceTree hnext.ne hrest

theorem cannibalizeSection_cases (hkeyed : x.Keyed hasher) (loc : ILocateKeys) (location : Bytes) :
    ((x.forest.get (loc.sectionOf location) = none ∨ ∀ id ∈ x.forest.keys, id = loc.sectionOf location) ∧
      loc.cannibalizeSection hasher x location = x) ∨
    ∃ next dyingTree refugeeTree, Merged x (loc.cannibalizeSection hasher x location) (loc.sectionOf location) next
      dyingTree refugeeTree := by
  set id := loc.sectionOf location with hid
  cases hdying : x.forest.get id with
  | none =>
    refine Or.inl ⟨Or.inl rfl, ?_⟩
    simp only [cannibalizeSection, ← hid, hdying]
  | some dyingTree =>
    obtain ⟨⟨next, refugeeTree⟩, hafter⟩ := SortedMap.exists_after (m := x.forest)
      (List.ne_nil_of_mem (SortedMap.mem_entries.2 hdying)) id
    by_cases honly : ∀ j ∈ x.forest.keys, j = id
    · refine Or.inl ⟨Or.inr honly, ?_⟩
      have hsame : next = id := honly next (List.mem_map.2 ⟨_, SortedMap.after_mem hafter, rfl⟩)
      simp only [cannibalizeSection, ← hid, hdying, nextTree, hafter, if_pos hsame]
    · right
      obtain ⟨k, hk, hkne⟩ : ∃ k ∈ x.forest.keys, k ≠ id := by
        by_contra hnone
        exact honly fun j hj => by_contra fun hne => hnone ⟨j, hj, hne⟩
      have hnext : Circle.Next {j | j ∈ x.forest.keys} id next := SortedMap.after_next hafter hk hkne
      have hrefugee : x.forest.get next = some refugeeTree := SortedMap.mem_entries.1 (SortedMap.after_mem hafter)
      set merged := (dyingTree.inRange 0 0xffffffffffffffff).foldl
        (fun tree (_, hash, file) => tree.add hasher file hash) refugeeTree with hmerged
      have hforest : (loc.cannibalizeSection hasher x location).forest = (x.forest.insert next merged).erase id := by
        simp only [cannibalizeSection, ← hid, hdying, nextTree, hafter, if_neg hnext.ne, hmerged]
      have hall : ∀ e, e ∈ dyingTree.inRange 0 0xffffffffffffffff ↔ e ∈ dyingTree.tree.entries := fun e =>
        DigestTree.mem_inRange.trans (and_iff_left ⟨KeyHash.zero_le _, KeyHash.le_last _⟩)
      have hentries : ∀ e, e ∈ merged.tree.entries ↔
          (e ∈ dyingTree.tree.entries ∧ refugeeTree.tree.get e.1 = none) ∨ e ∈ refugeeTree.tree.entries := by
        intro e
        rw [hmerged, DigestTree.mem_foldl_add, hall]
        · exact fun e he => hkeyed id e ⟨dyingTree, hdying, (hall e).1 he⟩
        · exact (dyingTree.tree.keys_nodup).sublist (List.filter_sublist.map _)
      refine ⟨next, dyingTree, refugeeTree, hdying, hnext, hrefugee, ?_, ?_, merged, ?_, ?_, hentries⟩
      · rw [hforest, SortedMap.get_erase_self]
      · intro j hj hj'
        rw [hforest, SortedMap.get_erase_of_ne _ (Ne.symm hj), SortedMap.get_insert_of_ne _ _ (Ne.symm hj')]
      · rw [hforest, SortedMap.get_erase_of_ne _ hnext.ne.symm, SortedMap.get_insert_self]
      · rw [hmerged, DigestTree.foldl_add_id]

end ILocateKeys

namespace DigestIndexer

variable {x x' : DigestIndexer} {id next : Bytes}

lemma holds_of_get {tree : DigestTree} (h : x.forest.get id = some tree) {e : KeyHash × UInt64 × Bytes} :
    x.Holds id e ↔ e ∈ tree.tree.entries := by
  simp only [Holds, h, Option.some.injEq, exists_eq_left']

lemma not_holds (h : x.forest.get id = none) (e : KeyHash × UInt64 × Bytes) : ¬ x.Holds id e := by
  simp [Holds, h]

structure Moved (x x' : DigestIndexer) : Prop where
  same : ∀ e, (∃ id, x'.Holds id e) ↔ ∃ id, x.Holds id e
  apart : x'.Apart

section SplitOff

variable {sourceTree : DigestTree} {range : KeyHash → Prop} (h : SplitOff x x' id next sourceTree range)
include h

lemma SplitOff.holds_id (e : KeyHash × UInt64 × Bytes) : x'.Holds id e ↔ x.Holds next e ∧ range e.1 := by
  rw [h.holds, if_pos rfl, holds_of_get h.source]

lemma SplitOff.holds_next (e : KeyHash × UInt64 × Bytes) : x'.Holds next e ↔ x.Holds next e ∧ ¬ range e.1 := by
  rw [h.holds, if_neg h.follows.ne, if_pos rfl, holds_of_get h.source]

lemma SplitOff.holds_other {j : Bytes} (hj : j ≠ id) (hj' : j ≠ next) (e : KeyHash × UInt64 × Bytes) :
    x'.Holds j e ↔ x.Holds j e := by
  rw [h.holds, if_neg hj, if_neg hj']

lemma SplitOff.cases {j : Bytes} {e : KeyHash × UInt64 × Bytes} (he : x'.Holds j e) :
    (j = id ∧ x.Holds next e ∧ range e.1) ∨ (j ≠ id ∧ x.Holds j e ∧ (j = next → ¬ range e.1)) := by
  by_cases hj : j = id
  · subst hj
    exact Or.inl ⟨rfl, (h.holds_id e).1 he⟩
  by_cases hj' : j = next
  · subst hj'
    obtain ⟨hold, hrange⟩ := (h.holds_next e).1 he
    exact Or.inr ⟨hj, hold, fun _ => hrange⟩
  · exact Or.inr ⟨hj, (h.holds_other hj hj' e).1 he, fun heq => absurd heq hj'⟩

lemma SplitOff.same (e : KeyHash × UInt64 × Bytes) : (∃ j, x'.Holds j e) ↔ ∃ j, x.Holds j e := by
  constructor
  · rintro ⟨j, he⟩
    rcases h.cases he with ⟨-, hold, -⟩ | ⟨-, hold, -⟩
    · exact ⟨next, hold⟩
    · exact ⟨j, hold⟩
  · rintro ⟨j, he⟩
    have hj : j ≠ id := by
      rintro rfl
      exact not_holds h.fresh e he
    by_cases hj' : j = next
    · subst hj'
      by_cases hrange : range e.1
      · exact ⟨id, (h.holds_id e).2 ⟨he, hrange⟩⟩
      · exact ⟨j, (h.holds_next e).2 ⟨he, hrange⟩⟩
    · exact ⟨j, (h.holds_other hj hj' e).2 he⟩

lemma SplitOff.apart (hapart : x.Apart) : x'.Apart := by
  intro j j' e e' he he' hkey
  rcases h.cases he with ⟨rfl, hold, hrange⟩ | ⟨hj, hold, hrange⟩
  · rcases h.cases he' with ⟨rfl, -, -⟩ | ⟨hj', hold', hrange'⟩
    · rfl
    · -- the two were in one tree, which they would not both have stayed in
      have hnext := hapart next j' e e' hold hold' hkey
      exact absurd (hkey ▸ hrange) (hrange' hnext.symm)
  · rcases h.cases he' with ⟨rfl, hold', hrange'⟩ | ⟨hj', hold', -⟩
    · have hnext := hapart j next e e' hold hold' hkey
      exact absurd (hkey ▸ hrange') (hrange hnext)
    · exact hapart j j' e e' hold hold' hkey

lemma SplitOff.forest_eq (hx : x.Pruned) (hnone : x'.forest.get id = none) : x'.forest = x.forest := by
  have hout : ∀ e, x.Holds next e → x'.Holds next e := fun e he =>
    (h.holds_next e).2 ⟨he, fun hrange => not_holds hnone e ((h.holds_id e).2 ⟨he, hrange⟩)⟩
  refine SortedMap.ext_get fun j => ?_
  by_cases hj : j = id
  · rw [hj, hnone, h.fresh]
  by_cases hj' : j = next
  · obtain ⟨e, he⟩ := List.exists_mem_of_ne_nil _ (hx _ _ h.source)
    obtain ⟨tree, htree, -⟩ := hout e ⟨sourceTree, h.source, he⟩
    rw [hj', htree, h.source, Option.some.injEq]
    refine DigestTree.eq_of (h.left tree htree).2 fun e => ?_
    rw [← holds_of_get htree, ← holds_of_get h.source]
    exact ⟨fun he => ((h.holds_next e).1 he).1, hout e⟩
  · exact h.others j hj hj'

lemma SplitOff.pruned (hx : x.Pruned) : x'.Pruned := by
  intro j tree htree
  by_cases hj : j = id
  · subst hj
    exact (h.taken tree htree).1
  by_cases hj' : j = next
  · subst hj'
    exact (h.left tree htree).1
  · rw [h.others j hj hj'] at htree
    exact hx j tree htree

lemma SplitOff.named (hx : x.Named) : x'.Named := by
  intro j tree htree
  by_cases hj : j = id
  · subst hj
    exact (h.taken tree htree).2
  by_cases hj' : j = next
  · subst hj'
    rw [(h.left tree htree).2]
    exact hx _ _ h.source
  · rw [h.others j hj hj'] at htree
    exact hx j tree htree

lemma SplitOff.keyed (hx : x.Keyed hasher) : x'.Keyed hasher := by
  intro j e he
  rcases h.cases he with ⟨-, hold, -⟩ | ⟨-, hold, -⟩
  · exact hx next e hold
  · exact hx j e hold

end SplitOff

section Merged

variable {dyingTree refugeeTree : DigestTree} (h : Merged x x' id next dyingTree refugeeTree)
include h

lemma Merged.holds_next (e : KeyHash × UInt64 × Bytes) :
    x'.Holds next e ↔ (x.Holds id e ∧ refugeeTree.tree.get e.1 = none) ∨ x.Holds next e := by
  obtain ⟨tree, htree, -, hentries⟩ := h.merged
  rw [holds_of_get htree, hentries, holds_of_get h.dying, holds_of_get h.refugee]

lemma Merged.holds_other {j : Bytes} (hj : j ≠ id) (hj' : j ≠ next) (e : KeyHash × UInt64 × Bytes) :
    x'.Holds j e ↔ x.Holds j e := by
  rw [Holds, Holds, h.others j hj hj']

lemma Merged.cases {j : Bytes} {e : KeyHash × UInt64 × Bytes} (he : x'.Holds j e) :
    j ≠ id ∧ (x.Holds j e ∨ (j = next ∧ x.Holds id e)) := by
  have hj : j ≠ id := by
    rintro rfl
    exact not_holds h.gone e he
  by_cases hj' : j = next
  · subst hj'
    exact ⟨hj, ((h.holds_next e).1 he).symm.imp_right fun hold => ⟨rfl, hold.1⟩⟩
  · exact ⟨hj, Or.inl ((h.holds_other hj hj' e).1 he)⟩

lemma Merged.free (hapart : x.Apart) {e : KeyHash × UInt64 × Bytes} (he : x.Holds id e) :
    refugeeTree.tree.get e.1 = none := by
  cases hget : refugeeTree.tree.get e.1 with
  | none => rfl
  | some v =>
    have hrefugee : x.Holds next (e.1, v) := ⟨refugeeTree, h.refugee, SortedMap.mem_entries.2 hget⟩
    exact absurd (hapart next id (e.1, v) e hrefugee he rfl) h.follows.ne

lemma Merged.same (hapart : x.Apart) (e : KeyHash × UInt64 × Bytes) : (∃ j, x'.Holds j e) ↔ ∃ j, x.Holds j e := by
  constructor
  · rintro ⟨j, he⟩
    rcases h.cases he with ⟨-, hold | ⟨-, hold⟩⟩
    · exact ⟨j, hold⟩
    · exact ⟨id, hold⟩
  · rintro ⟨j, he⟩
    by_cases hj : j = id
    · subst hj
      exact ⟨next, (h.holds_next e).2 (Or.inl ⟨he, h.free hapart he⟩)⟩
    by_cases hj' : j = next
    · subst hj'
      exact ⟨j, (h.holds_next e).2 (Or.inr he)⟩
    · exact ⟨j, (h.holds_other hj hj' e).2 he⟩

lemma Merged.apart (hapart : x.Apart) : x'.Apart := by
  intro j j' e e' he he' hkey
  obtain ⟨hj, hold⟩ := h.cases he
  obtain ⟨hj', hold'⟩ := h.cases he'
  rcases hold with hold | ⟨rfl, hold⟩ <;> rcases hold' with hold' | ⟨rfl, hold'⟩
  · exact hapart j j' e e' hold hold' hkey
  · exact absurd (hapart j id e e' hold hold' hkey) hj
  · exact absurd (hapart id j' e e' hold hold' hkey).symm hj'
  · rfl

lemma Merged.pruned (hx : x.Pruned) : x'.Pruned := by
  intro j tree htree
  by_cases hj : j = id
  · subst hj
    simp [h.gone] at htree
  by_cases hj' : j = next
  · subst hj'
    obtain ⟨e, he⟩ := List.exists_mem_of_ne_nil _ (hx _ _ h.refugee)
    have hin := (h.holds_next e).2 (Or.inr ⟨refugeeTree, h.refugee, he⟩)
    rw [holds_of_get htree] at hin
    exact List.ne_nil_of_mem hin
  · rw [h.others j hj hj'] at htree
    exact hx j tree htree

lemma Merged.named (hx : x.Named) : x'.Named := by
  intro j tree htree
  by_cases hj : j = id
  · subst hj
    simp [h.gone] at htree
  by_cases hj' : j = next
  · subst hj'
    obtain ⟨tree', htree', hid, -⟩ := h.merged
    rw [htree', Option.some.injEq] at htree
    rw [← htree, hid]
    exact hx _ _ h.refugee
  · rw [h.others j hj hj'] at htree
    exact hx j tree htree

lemma Merged.keyed (hx : x.Keyed hasher) : x'.Keyed hasher := by
  intro j e he
  rcases (h.cases he).2 with hold | ⟨-, hold⟩
  · exact hx j e hold
  · exact hx id e hold

end Merged

end DigestIndexer

namespace ILocateKeys

open DigestIndexer

variable {x : DigestIndexer}

theorem sections_moved (loc : ILocateKeys) (hkeyed : x.Keyed hasher) (hapart : x.Apart) (location : Bytes) :
    Moved x (loc.splitSection hasher x location) ∧ Moved x (loc.cannibalizeSection hasher x location) := by
  have hsame : Moved x x := ⟨fun _ => Iff.rfl, hapart⟩
  constructor
  · rcases splitSection_cases hkeyed loc location with ⟨-, heq⟩ | ⟨next, sourceTree, first, hsplit, -⟩
    · rwa [heq]
    · exact ⟨hsplit.same, hsplit.apart hapart⟩
  · rcases cannibalizeSection_cases hkeyed loc location with ⟨-, heq⟩ | ⟨next, dying, refugee, hmerged⟩
    · rwa [heq]
    · exact ⟨hmerged.same hapart, hmerged.apart hapart⟩

theorem cannibalize_split_iff (loc : ILocateKeys) (hkeyed : x.Keyed hasher) (hpruned : x.Pruned) {location : Bytes}
    (hfresh : x.forest.get (loc.sectionOf location) = none) :
    (loc.cannibalizeSection hasher (loc.splitSection hasher x location) location).forest = x.forest ↔
      ∀ id ∈ x.forest.keys, id ∈ (loc.splitSection hasher x location).forest.keys := by
  rcases splitSection_cases hkeyed loc location with ⟨-, heq⟩ | ⟨next, sourceTree, first, hsplit, -⟩
  · have hsame : loc.cannibalizeSection hasher x location = x := by simp only [cannibalizeSection, hfresh]
    rw [heq, hsame]
    simp
  set x₁ := loc.splitSection hasher x location
  set id := loc.sectionOf location
  have hsource : next ∈ x.forest.keys := SortedMap.mem_keys.2 ⟨sourceTree, hsplit.source⟩
  cases hnew : x₁.forest.get id with
  | none =>
    have hsame : loc.cannibalizeSection hasher x₁ location = x₁ := by
      simp only [cannibalizeSection, show x₁.forest.get (loc.sectionOf location) = none from hnew]
    have hforest : x₁.forest = x.forest := hsplit.forest_eq hpruned hnew
    rw [hsame, hforest]
    exact iff_of_true rfl fun _ hid => hid
  | some newTree =>
    rcases cannibalizeSection_cases (hsplit.keyed hkeyed) loc location with
      ⟨hcase, heq⟩ | ⟨next', dyingTree, refugeeTree, hmerged⟩
    · have honly : ∀ j ∈ x₁.forest.keys, j = id := by
        refine hcase.resolve_left fun hnone => ?_
        rw [hnew] at hnone
        simp at hnone
      rw [heq]
      refine iff_of_false (fun hforest => ?_) fun hkept => hsplit.follows.ne (honly next (hkept next hsource))
      rw [hforest, hfresh] at hnew
      simp at hnew
    · constructor
      · intro hforest j hj
        rw [← hforest] at hj
        have hne : j ≠ id := by
          intro heq
          obtain ⟨tree, htree⟩ := SortedMap.mem_keys.1 hj
          rw [heq] at htree
          exact Option.some_ne_none tree (htree.symm.trans hmerged.gone)
        by_cases hj' : j = next'
        · exact SortedMap.mem_keys.2 ⟨refugeeTree, hj' ▸ hmerged.refugee⟩
        · rwa [SortedMap.mem_keys, hmerged.others j hne hj', ← SortedMap.mem_keys] at hj
      · intro hkept
        -- the section that lost the keys is still the next one
        have hnext : next' = next := by
          refine hmerged.follows.unique (hsplit.follows.mono (fun j hj => ?_) (hkept next hsource))
          obtain ⟨tree, htree⟩ := SortedMap.mem_keys.1 hj
          by_cases hid : j = id
          · exact Or.inl hid
          · refine Or.inr (SortedMap.mem_keys.2 ?_)
            by_cases hj' : j = next
            · exact ⟨sourceTree, hj' ▸ hsplit.source⟩
            · exact ⟨tree, by rwa [hsplit.others j hid hj'] at htree⟩
        subst hnext
        refine SortedMap.ext_get fun j => ?_
        by_cases hid : j = id
        · rw [hid, hmerged.gone, hfresh]
        by_cases hj' : j = next'
        · obtain ⟨tree, htree, htreeId, hentries⟩ := hmerged.merged
          rw [hj', htree, hsplit.source, Option.some.injEq]
          refine DigestTree.eq_of (by rw [htreeId, (hsplit.left _ hmerged.refugee).2]) fun e => ?_
          have hdying := hsplit.holds_id e
          have hrefugee := hsplit.holds_next e
          rw [holds_of_get hmerged.dying, holds_of_get hsplit.source] at hdying
          rw [holds_of_get hmerged.refugee, holds_of_get hsplit.source] at hrefugee
          rw [hentries, hdying, hrefugee]
          constructor
          · rintro (⟨⟨he, -⟩, -⟩ | ⟨he, -⟩) <;> exact he
          · intro he
            by_cases hrange : (⟨first⟩ : KeyHash) ≤ e.1 ∧ e.1 ≤ ⟨Hash.integer (hasher location)⟩
            · refine Or.inl ⟨⟨he, hrange⟩, ?_⟩
              cases hget : refugeeTree.tree.get e.1 with
              | none => rfl
              | some v =>
                have hin : x₁.Holds next' (e.1, v) := (holds_of_get hmerged.refugee).2 (SortedMap.mem_entries.2 hget)
                exact absurd hrange ((hsplit.holds_next _).1 hin).2
            · exact Or.inr ⟨he, hrange⟩
        · rw [hmerged.others j hid hj', hsplit.others j hid hj']

section Runs

variable {loc : ILocateKeys} {mirrors : ℕ} {edits : List KeyEdit}
  (hinj : Set.InjOn (DigestTree.keyhash hasher) {name | ∃ e ∈ edits, e.key = name})
include hinj

lemma keyed_run : (loc.run hasher mirrors edits).Keyed hasher := by
  rintro id ⟨k, hash, name⟩ he
  rw [holds_iff_find, find_run hinj] at he
  exact he.2.2.1

lemma apart_run : (loc.run hasher mirrors edits).Apart := by
  rintro id id' ⟨k, hash, name⟩ ⟨k', hash', name'⟩ he he' hkey
  rw [holds_iff_find, find_run hinj] at he he'
  obtain ⟨hid, hne, hk, -⟩ := he
  obtain ⟨hid', hne', hk', -⟩ := he'
  have hname : name = name' := hinj (KeyEdit.mem_of_pending hne) (KeyEdit.mem_of_pending hne')
    (hk.symm.trans (hkey.trans hk'))
  rw [← hid, ← hid', hname]

end Runs

lemma sections_moved_example :
    Moved (byFirst.run id 3 someEdits) (byFirst.splitSection id (byFirst.run id 3 someEdits) [109]) ∧
    Moved (byFirst.run id 3 someEdits) (byFirst.cannibalizeSection id (byFirst.run id 3 someEdits) [107]) :=
  ⟨(sections_moved byFirst (keyed_run someEdits_inj) (apart_run someEdits_inj) [109]).1,
    (sections_moved byFirst (keyed_run someEdits_inj) (apart_run someEdits_inj) [107]).2⟩

end ILocateKeys

end Turbopump
