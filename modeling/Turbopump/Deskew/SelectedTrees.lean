import Turbopump.Deskew.Classification

/-! The trees that an index keeps, and those that it selects to compare or to give away. -/

namespace Turbopump

variable {hasher : Bytes → Bytes}

namespace DigestIndexer

inductive Call where
  | update (key : Bytes) (value : UInt64)
  | remove (key : Bytes)
  | splitSection (location : Bytes)
  | cannibalizeSection (location : Bytes)
  deriving DecidableEq

def call (hasher : Bytes → Bytes) (x : DigestIndexer) (c : ILocateKeys × Call) : DigestIndexer :=
  match c.2 with
  | .update key value => c.1.update hasher x key value
  | .remove key => c.1.remove hasher x key
  | .splitSection location => c.1.splitSection hasher x location
  | .cannibalizeSection location => c.1.cannibalizeSection hasher x location

section Select

-- `turbo::random::select`, with none for the end of the set
variable (select : Finset Bytes → Option Bytes)

def selectTree (x : DigestIndexer) (ids : Finset Bytes) : DigestTree :=
  if x.forest.entries = [] then {}
  else match select ids with
    | none => {}
    | some id => x.find id

def randomTree (x : DigestIndexer) : DigestTree := x.selectTree select x.wanted

def unwantedTree (x : DigestIndexer) : DigestTree := x.selectTree select x.unwanted

/-- No tree is empty, each has the id of its section, and each section is filed under one of the two sets from which
trees are selected, so that there is a tree for whatever is selected. -/
structure Maintained (mirrors : ℕ) (x : DigestIndexer) : Prop where
  nonempty : ∀ id tree, x.forest.get id = some tree → tree.empty = false
  ids : ∀ id tree, x.forest.get id = some tree → tree.id = ⟨id, mirrors⟩
  disjoint : Disjoint x.wanted x.unwanted
  union : ∀ id, id ∈ x.wanted ∪ x.unwanted ↔ id ∈ x.forest.keys
  random : ∀ id, select x.wanted = some id → x.forest.get id = some (x.randomTree select)
  unwanted : ∀ id, select x.unwanted = some id → x.forest.get id = some (x.unwantedTree select)

end Select

end DigestIndexer

namespace ILocateKeys

variable {loc : ILocateKeys} {x : DigestIndexer} {tree : DigestTree} {id : Bytes}

lemma initTree_mirrors (h : tree.empty = true ∨ tree.id.mirrors = x.mirrors) :
    (loc.initTree x tree id).1.id.mirrors = x.mirrors := by
  simp only [initTree]
  split_ifs with hempty
  · rfl
  · rfl
  · exact h.resolve_left hempty

end ILocateKeys

namespace DigestIndexer

def Stamped (mirrors : ℕ) (x : DigestIndexer) : Prop := ∀ id tree, x.forest.get id = some tree →
  tree.id.mirrors = mirrors

namespace Stamped

variable {loc : ILocateKeys} {x : DigestIndexer}

lemma update (h : x.Stamped x.mirrors) (key : Bytes) (value : UInt64) :
    (loc.update hasher x key value).Stamped x.mirrors := by
  intro j t ht
  by_cases hj : loc.sectionOf key = j
  · subst hj
    simp only [ILocateKeys.update, SortedMap.get_insert_self, Option.some.injEq] at ht
    rw [← ht, DigestTree.update_id]
    apply ILocateKeys.initTree_mirrors
    cases hget : x.forest.get (loc.sectionOf key) with
    | none => exact Or.inl rfl
    | some tree => exact Or.inr (h _ tree hget)
  · simp only [ILocateKeys.update, SortedMap.get_insert_of_ne _ _ hj, ILocateKeys.initTree_forest] at ht
    exact h j t ht

lemma remove {mirrors : ℕ} (h : x.Stamped mirrors) (key : Bytes) : (loc.remove hasher x key).Stamped mirrors := by
  simp only [ILocateKeys.remove]
  cases hget : x.forest.get (loc.sectionOf key) with
  | none => exact h
  | some tree =>
    intro j t ht
    rw [prune_get] at ht
    split_ifs at ht
    · rw [← Option.some.inj ht]
      exact h _ tree hget
    · exact h j t ht

lemma splitSection (h : x.Stamped x.mirrors) (location : Bytes) :
    (loc.splitSection hasher x location).Stamped x.mirrors := by
  by_cases hforest : x.forest.entries = []
  · rwa [ILocateKeys.splitSection, if_pos hforest]
  cases hfresh : x.forest.get (loc.sectionOf location) with
  | some tree => simpa only [ILocateKeys.splitSection, if_neg hforest, hfresh] using h
  | none =>
    obtain ⟨next, sourceTree, hnext, hsource, hsplit⟩ :=
      @ILocateKeys.splitSection_eq_splitTree hasher loc x location hforest hfresh
    rw [hsplit _ rfl _ rfl]
    intro j t ht
    by_cases hj : j = loc.sectionOf location
    · subst hj
      rw [(splitTree_newTree ht).2]
      exact ILocateKeys.initTree_mirrors (Or.inl rfl)
    by_cases hj' : j = next
    · subst hj'
      rw [(splitTree_sourceTree hj ht).2]
      exact h _ _ hsource
    · rw [splitTree_others hj hj', ILocateKeys.initTree_forest, SortedMap.get_insert_of_ne _ _ (Ne.symm hj)] at ht
      exact h j t ht

lemma merged {x' : DigestIndexer} {id next : Bytes} {dyingTree refugeeTree : DigestTree} {mirrors : ℕ}
    (h : x.Stamped mirrors) (hmerged : Merged x x' id next dyingTree refugeeTree) : x'.Stamped mirrors := by
  intro j t ht
  by_cases hj : j = id
  · subst hj
    simp [hmerged.gone] at ht
  by_cases hj' : j = next
  · subst hj'
    obtain ⟨tree, htree, hid, -⟩ := hmerged.merged
    rw [htree, Option.some.injEq] at ht
    rw [← ht, hid]
    exact h _ _ hmerged.refugee
  · rw [hmerged.others j hj hj'] at ht
    exact h j t ht

end Stamped

structure Kept (hasher : Bytes → Bytes) (mirrors : ℕ) (x : DigestIndexer) : Prop where
  formed : x.Formed hasher
  same : x.mirrors = mirrors
  stamped : x.Stamped mirrors

lemma Kept.call {x : DigestIndexer} {mirrors : ℕ} (h : x.Kept hasher mirrors) (c : ILocateKeys × Call) :
    (x.call hasher c).Kept hasher mirrors := by
  obtain ⟨hformed, rfl, hstamped⟩ := h
  obtain ⟨loc, c⟩ := c
  cases c with
  | update key value =>
    exact ⟨IndexedRing.Action.index_formed hformed loc (.update key value),
      (ILocateKeys.refiled_update hformed.filed hformed.pruned key value).mirrors, hstamped.update key value⟩
  | remove key =>
    exact ⟨IndexedRing.Action.index_formed hformed loc (.remove key),
      (ILocateKeys.refiled_remove hformed.filed hformed.named key).mirrors, hstamped.remove key⟩
  | splitSection location =>
    exact ⟨IndexedRing.Action.index_formed hformed loc (.insert location []),
      (ILocateKeys.refiled_splitSection hformed.filed hformed.named location).mirrors, hstamped.splitSection location⟩
  | cannibalizeSection location =>
    refine ⟨IndexedRing.Action.index_formed hformed loc (.erase location),
      (ILocateKeys.refiled_cannibalizeSection hformed.filed hformed.named location).mirrors, ?_⟩
    simp only [DigestIndexer.call]
    rcases ILocateKeys.cannibalizeSection_cases hformed.keyed loc location with
      ⟨-, heq⟩ | ⟨next, dyingTree, refugeeTree, hmerged⟩
    · rwa [heq]
    · exact hstamped.merged hmerged

section Select

variable {select : Finset Bytes → Option Bytes}

lemma selectTree_eq {x : DigestIndexer} {ids : Finset Bytes} {id : Bytes} (hid : id ∈ x.forest.keys)
    (h : select ids = some id) : x.forest.get id = some (x.selectTree select ids) := by
  obtain ⟨tree, htree⟩ := SortedMap.mem_keys.1 hid
  have hforest : x.forest.entries ≠ [] := List.ne_nil_of_mem (SortedMap.mem_entries.2 htree)
  rw [selectTree, if_neg hforest, h]
  exact htree.trans (congrArg some (find_of_get htree).symm)

lemma Kept.maintained (hselect : ∀ ids id, select ids = some id → id ∈ ids) {x : DigestIndexer} {mirrors : ℕ}
    (h : x.Kept hasher mirrors) : x.Maintained select mirrors where
  nonempty id tree htree := by
    rw [DigestTree.empty, List.isEmpty_eq_false_iff]
    exact h.formed.pruned id tree htree
  ids id tree htree := by rw [← h.formed.named id tree htree, ← h.stamped id tree htree]
  disjoint := Finset.disjoint_left.2 h.formed.filed.apart
  union id := by rw [Finset.mem_union, h.formed.filed.filed]
  random id hid := selectTree_eq ((h.formed.filed.filed id).2 (.inl (hselect _ _ hid))) hid
  unwanted id hid := selectTree_eq ((h.formed.filed.filed id).2 (.inr (hselect _ _ hid))) hid

theorem calls_maintained (hselect : ∀ ids id, select ids = some id → id ∈ ids) (mirrors : ℕ)
    (calls : List (ILocateKeys × Call)) :
    (calls.foldl (call hasher) { mirrors := mirrors }).Maintained select mirrors := by
  have hempty : Kept hasher mirrors { mirrors := mirrors } :=
    ⟨formed_empty mirrors, rfl, fun id tree htree => by simp at htree⟩
  have hkept := foldl_invariant (I := Kept hasher mirrors) (fun x c h => Kept.call h c) hempty calls
  exact hkept.maintained hselect

theorem calls_maintained_smallest : ([(⟨fun _ => [1], fun _ _ => true⟩, Call.update [7] 5),
    (⟨fun _ => [2], fun _ _ => false⟩, Call.splitSection [3])].foldl (call id)
      { mirrors := 2 }).Maintained (fun ids => ids.sort.head?) 2 :=
  calls_maintained (fun _ _ h => (Finset.mem_sort _).1 (List.mem_of_mem_head? h)) 2 _

end Select

end DigestIndexer

end Turbopump
