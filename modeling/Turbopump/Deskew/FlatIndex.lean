import Turbopump.Deskew.DigestIndexer
import Turbopump.Lib.Runs
import Turbopump.Lib.Xor

/-! The index over any way of locating keys, and the one flat map of keys that its trees make up. -/

namespace Turbopump

namespace DigestIndexer

def list (x : DigestIndexer) : List Bytes := x.forest.keys

variable {x : DigestIndexer}

lemma prune_get (x : DigestIndexer) (id : Bytes) (tree : DigestTree) (j : Bytes) :
    (x.prune id tree).forest.get j =
      if id = j then if tree.tree.entries = [] then none else some tree else x.forest.get j := by
  by_cases hempty : tree.tree.entries = []
  · simp [prune, DigestTree.empty, hempty, SortedMap.get_erase]
  · simp [prune, DigestTree.empty, hempty, SortedMap.get_insert]

lemma find_prune (x : DigestIndexer) (id : Bytes) (tree : DigestTree) (j : Bytes) (k : KeyHash) :
    ((x.prune id tree).find j).tree.get k = if id = j then tree.tree.get k else (x.find j).tree.get k := by
  rw [find, prune_get]
  by_cases hj : id = j
  · rw [if_pos hj, if_pos hj]
    split_ifs with hempty
    · exact (SortedMap.entries_eq_nil.1 hempty k).symm
    · rfl
  · rw [if_neg hj, if_neg hj, find]

lemma find_of_get {id : Bytes} {tree : DigestTree} (h : x.forest.get id = some tree) : x.find id = tree := by
  rw [find, h, Option.getD_some]

lemma holds_iff_find {id : Bytes} {e : KeyHash × UInt64 × Bytes} : x.Holds id e ↔ (x.find id).tree.get e.1 =
    some e.2 := by
  rw [Holds, find]
  cases h : x.forest.get id with
  | none => simp
  | some tree => simp only [Option.some.injEq, exists_eq_left', Option.getD_some, ← SortedMap.mem_entries]

end DigestIndexer

namespace DigestTree

variable {hasher : Bytes → Bytes}

lemma get_update (t : DigestTree) (key : Bytes) (value : UInt64) (k : KeyHash) :
    (t.update hasher key value).tree.get k = if keyhash hasher key = k then
      some (value ^^^ ((t.tree.get k).map Prod.fst).getD k.value, key) else t.tree.get k := by
  by_cases hk : keyhash hasher key = k
  · subst hk
    rw [if_pos rfl, update]
    split
    case h_1 hash _ h => rw [SortedMap.get_insert_self, h, Option.map_some, Option.getD_some]
    case h_2 h => rw [SortedMap.get_insert_self, h, Option.map_none, Option.getD_none]
  · rw [if_neg hk, update_get_of_ne t hk]

end DigestTree

namespace ILocateKeys

variable {hasher : Bytes → Bytes} {loc : ILocateKeys} {x : DigestIndexer}

lemma initTree_id {tree : DigestTree} {id : Bytes} (h : tree.empty = true ∨ tree.id.id = id) :
    (loc.initTree x tree id).1.id.id = id := by
  simp only [initTree]
  split_ifs with hempty
  · rfl
  · rfl
  · exact h.resolve_left hempty

lemma find_update (x : DigestIndexer) (key : Bytes) (value : UInt64) (id : Bytes) (k : KeyHash) :
    ((loc.update hasher x key value).find id).tree.get k =
      if loc.sectionOf key = id ∧ DigestTree.keyhash hasher key = k then
        some (value ^^^ (((x.find id).tree.get k).map Prod.fst).getD k.value, key)
      else (x.find id).tree.get k := by
  by_cases hid : loc.sectionOf key = id
  · subst hid
    have hfind : (loc.update hasher x key value).find (loc.sectionOf key) =
        (loc.initTree x (x.find (loc.sectionOf key)) (loc.sectionOf key)).1.update hasher key value :=
      DigestIndexer.find_of_get (SortedMap.get_insert_self _ _ _)
    rw [hfind, DigestTree.get_update, initTree_tree]
    simp only [true_and]
  · rw [if_neg fun h => hid h.1, DigestIndexer.find, DigestIndexer.find]
    simp only [update, SortedMap.get_insert_of_ne _ _ hid, initTree_forest]

lemma find_remove (x : DigestIndexer) (key id : Bytes) (k : KeyHash) :
    ((loc.remove hasher x key).find id).tree.get k =
      if loc.sectionOf key = id ∧ DigestTree.keyhash hasher key = k then none else (x.find id).tree.get k := by
  cases htree : x.forest.get (loc.sectionOf key) with
  | none =>
    simp only [remove, htree]
    split_ifs with h
    · rw [← h.1, DigestIndexer.find, htree]
      rfl
    · rfl
  | some tree =>
    simp only [remove, htree]
    rw [DigestIndexer.find_prune]
    by_cases hid : loc.sectionOf key = id
    · subst hid
      rw [if_pos rfl, DigestTree.remove, SortedMap.get_erase, DigestIndexer.find_of_get htree]
      by_cases hk : DigestTree.keyhash hasher key = k
      · rw [if_pos hk, if_pos ⟨rfl, hk⟩]
      · rw [if_neg hk, if_neg fun h => hk h.2]
    · rw [if_neg hid, if_neg fun h => hid h.1]

end ILocateKeys

def DigestIndexer.Pruned (x : DigestIndexer) : Prop := ∀ id tree, x.forest.get id = some tree → tree.tree.entries ≠ []

namespace DigestIndexer.Pruned

variable {hasher : Bytes → Bytes} {loc : ILocateKeys} {x : DigestIndexer}

lemma prune (h : x.Pruned) (id : Bytes) (tree : DigestTree) : (x.prune id tree).Pruned := by
  intro j t ht
  rw [prune_get] at ht
  split_ifs at ht with hj hempty
  · rwa [← Option.some.inj ht]
  · exact h j t ht

lemma update (h : x.Pruned) (key : Bytes) (value : UInt64) : (loc.update hasher x key value).Pruned := by
  intro j t ht
  by_cases hj : loc.sectionOf key = j
  · have hget := @ILocateKeys.find_update hasher loc x key value j (DigestTree.keyhash hasher key)
    rw [if_pos ⟨hj, rfl⟩, find_of_get ht, ← SortedMap.mem_entries] at hget
    exact List.ne_nil_of_mem hget
  · simp only [ILocateKeys.update, SortedMap.get_insert_of_ne _ _ hj, ILocateKeys.initTree_forest] at ht
    exact h j t ht

lemma remove (h : x.Pruned) (key : Bytes) : (loc.remove hasher x key).Pruned := by
  simp only [ILocateKeys.remove]
  cases x.forest.get (loc.sectionOf key) with
  | none => exact h
  | some tree => exact h.prune _ _

end DigestIndexer.Pruned

def DigestIndexer.Named (x : DigestIndexer) : Prop := ∀ id tree, x.forest.get id = some tree → tree.id.id = id

namespace DigestIndexer.Named

variable {hasher : Bytes → Bytes} {loc : ILocateKeys} {x : DigestIndexer}

lemma prune (h : x.Named) {id : Bytes} {tree : DigestTree} (hid : tree.id.id = id) : (x.prune id tree).Named := by
  intro j t ht
  rw [prune_get] at ht
  split_ifs at ht with hj hempty
  · rw [← Option.some.inj ht, hid, hj]
  · exact h j t ht

lemma update (h : x.Named) (key : Bytes) (value : UInt64) : (loc.update hasher x key value).Named := by
  intro j t ht
  by_cases hj : loc.sectionOf key = j
  · subst hj
    simp only [ILocateKeys.update, SortedMap.get_insert_self, Option.some.injEq] at ht
    rw [← ht, DigestTree.update_id]
    apply ILocateKeys.initTree_id
    cases hget : x.forest.get (loc.sectionOf key) with
    | none => exact Or.inl rfl
    | some tree => exact Or.inr (h _ tree hget)
  · simp only [ILocateKeys.update, SortedMap.get_insert_of_ne _ _ hj, ILocateKeys.initTree_forest] at ht
    exact h j t ht

lemma remove (h : x.Named) (key : Bytes) : (loc.remove hasher x key).Named := by
  simp only [ILocateKeys.remove]
  cases hget : x.forest.get (loc.sectionOf key) with
  | none => exact h
  | some tree => exact h.prune (h _ tree hget)

end DigestIndexer.Named

inductive KeyEdit where
  | update (key : Bytes) (value : UInt64)
  | remove (key : Bytes)
  deriving DecidableEq

namespace KeyEdit

def key : KeyEdit → Bytes
  | update key _ => key
  | remove key => key

def pending (name : Bytes) (edits : List KeyEdit) : List UInt64 := edits.foldl (fun values e => match e with
  | update key value => if key = name then values ++ [value] else values
  | remove key => if key = name then [] else values) []

lemma pending_update (name : Bytes) (edits : List KeyEdit) (key : Bytes) (value : UInt64) :
    pending name (edits ++ [update key value]) =
      if key = name then pending name edits ++ [value] else pending name edits := by
  simp [pending]

lemma pending_remove (name : Bytes) (edits : List KeyEdit) (key : Bytes) :
    pending name (edits ++ [remove key]) = if key = name then [] else pending name edits := by
  simp [pending]

lemma mem_of_pending {name : Bytes} {edits : List KeyEdit} (h : pending name edits ≠ []) :
    ∃ e ∈ edits, e.key = name := by
  induction edits using List.reverseRecOn with
  | nil => exact absurd rfl h
  | append_singleton edits e ih =>
    by_cases hname : e.key = name
    · exact ⟨e, by simp, hname⟩
    · have hrest : pending name edits ≠ [] := by
        cases e with
        | update key value =>
          have hkey : key ≠ name := hname
          rwa [pending_update, if_neg hkey] at h
        | remove key =>
          have hkey : key ≠ name := hname
          rwa [pending_remove, if_neg hkey] at h
      obtain ⟨e', he', hname'⟩ := ih hrest
      exact ⟨e', by simp [he'], hname'⟩

end KeyEdit

namespace ILocateKeys

variable (hasher : Bytes → Bytes) (loc : ILocateKeys)

def edit (x : DigestIndexer) : KeyEdit → DigestIndexer
  | .update key value => loc.update hasher x key value
  | .remove key => loc.remove hasher x key

def run (mirrors : ℕ) (edits : List KeyEdit) : DigestIndexer := edits.foldl (loc.edit hasher) { mirrors := mirrors }

variable {hasher loc} {mirrors : ℕ}

lemma run_append (edits : List KeyEdit) (e : KeyEdit) :
    loc.run hasher mirrors (edits ++ [e]) = loc.edit hasher (loc.run hasher mirrors edits) e := by
  rw [run, run, List.foldl_append, List.foldl_cons, List.foldl_nil]

lemma pruned_run (edits : List KeyEdit) : (loc.run hasher mirrors edits).Pruned := by
  apply foldl_invariant
  · intro x e hx
    cases e with
    | update key value => exact hx.update key value
    | remove key => exact hx.remove key
  · intro id tree htree
    simp at htree

lemma find_run {edits : List KeyEdit}
    (hinj : Set.InjOn (DigestTree.keyhash hasher) {name | ∃ e ∈ edits, e.key = name}) (id : Bytes) (k : KeyHash)
    (v : UInt64 × Bytes) : ((loc.run hasher mirrors edits).find id).tree.get k = some v ↔
      loc.sectionOf v.2 = id ∧ KeyEdit.pending v.2 edits ≠ [] ∧ k = DigestTree.keyhash hasher v.2 ∧
      v.1 = k.value ^^^ xorAll (KeyEdit.pending v.2 edits) := by
  induction edits using List.reverseRecOn generalizing id k v with
  | nil =>
    constructor
    · intro h
      simp [run, DigestIndexer.find] at h
    · rintro ⟨-, h, -⟩
      exact absurd rfl h
  | append_singleton edits e ih =>
    obtain ⟨hash, name⟩ := v
    have hold : ∀ name', KeyEdit.pending name' edits ≠ [] → DigestTree.keyhash hasher name' =
      DigestTree.keyhash hasher e.key →
        name' = e.key := by
      intro name' hpending heq
      obtain ⟨e', he', hname⟩ := KeyEdit.mem_of_pending hpending
      exact hinj ⟨e', by simp [he'], hname⟩ ⟨e, by simp, rfl⟩ heq
    have hinj' : Set.InjOn (DigestTree.keyhash hasher) {name | ∃ e ∈ edits, e.key = name} := by
      apply hinj.mono
      rintro name' ⟨e', he', hname⟩
      exact ⟨e', by simp [he'], hname⟩
    have ih' := fun id k v => ih hinj' id k v
    rw [run_append]
    cases e with
    | update key value =>
      rw [edit, find_update, KeyEdit.pending_update]
      dsimp only
      by_cases hhit : loc.sectionOf key = id ∧ DigestTree.keyhash hasher key = k
      · obtain ⟨rfl, rfl⟩ := hhit
        rw [if_pos ⟨rfl, rfl⟩, Option.some.injEq, Prod.mk.injEq]
        by_cases hname : key = name
        · subst hname
          -- what was stored is the hash, with what was pending
          have hstored : ((((loc.run hasher mirrors edits).find (loc.sectionOf key)).tree.get
              (DigestTree.keyhash hasher key)).map Prod.fst).getD (DigestTree.keyhash hasher key).value =
              (DigestTree.keyhash hasher key).value ^^^ xorAll (KeyEdit.pending key edits) := by
            by_cases hpending : KeyEdit.pending key edits = []
            · cases hget : ((loc.run hasher mirrors edits).find (loc.sectionOf key)).tree.get
                (DigestTree.keyhash hasher key) with
              | none => simp [hpending]
              | some v =>
                obtain ⟨-, hne, hk, -⟩ := (ih' _ _ _).1 hget
                have hkey : v.2 = key := hold v.2 hne hk.symm
                rw [hkey] at hne
                exact absurd hpending hne
            · rw [(ih' _ _ ((DigestTree.keyhash hasher key).value ^^^ xorAll (KeyEdit.pending key edits), key)).2
                ⟨rfl, hpending, rfl, rfl⟩, Option.map_some, Option.getD_some]
          rw [hstored, if_pos rfl, xorAll_append, xorAll_cons, xorAll_nil, UInt64.xor_zero, UInt64.xor_comm value,
            UInt64.xor_assoc]
          constructor
          · rintro ⟨rfl, -⟩
            exact ⟨rfl, List.append_ne_nil_of_right_ne_nil _ (List.cons_ne_nil _ _), rfl, rfl⟩
          · rintro ⟨-, -, -, rfl⟩
            exact ⟨rfl, rfl⟩
        · rw [if_neg hname]
          constructor
          · rintro ⟨-, h⟩
            exact absurd h hname
          · rintro ⟨-, hne, hk, -⟩
            exact absurd (hold name hne hk.symm).symm hname
      · rw [if_neg hhit, ih']
        by_cases hname : key = name
        · subst hname
          have hmiss : ∀ p q : Prop, ¬ (loc.sectionOf key = id ∧ p ∧ k = DigestTree.keyhash hasher key ∧ q) :=
            fun p q h => hhit ⟨h.1, h.2.2.1.symm⟩
          exact iff_of_false (hmiss _ _) (hmiss _ _)
        · rw [if_neg hname]
    | remove key =>
      rw [edit, find_remove, KeyEdit.pending_remove]
      dsimp only
      by_cases hhit : loc.sectionOf key = id ∧ DigestTree.keyhash hasher key = k
      · obtain ⟨rfl, rfl⟩ := hhit
        rw [if_pos ⟨rfl, rfl⟩]
        refine iff_of_false (by simp) ?_
        rintro ⟨-, hne, hk, -⟩
        by_cases hname : key = name
        · rw [if_pos hname] at hne
          exact hne rfl
        · rw [if_neg hname] at hne
          exact hname (hold name hne hk.symm).symm
      · rw [if_neg hhit, ih']
        by_cases hname : key = name
        · subst hname
          refine iff_of_false (fun h => hhit ⟨h.1, h.2.2.1.symm⟩) ?_
          rw [if_pos rfl]
          exact fun h => h.2.1 rfl
        · rw [if_neg hname]

theorem run_flat (edits : List KeyEdit)
    (hinj : Set.InjOn (DigestTree.keyhash hasher) {name | ∃ e ∈ edits, e.key = name}) (id : Bytes) :
    (∀ k hash name, (k, hash, name) ∈ ((loc.run hasher mirrors edits).find id).tree.entries ↔
      loc.sectionOf name = id ∧ KeyEdit.pending name edits ≠ [] ∧ k = DigestTree.keyhash hasher name ∧
      hash = k.value ^^^ xorAll (KeyEdit.pending name edits)) ∧
    (id ∈ (loc.run hasher mirrors edits).list ↔ ∃ name, loc.sectionOf name = id ∧ KeyEdit.pending name edits ≠ []) := by
  have hentry : ∀ k hash name, (k, hash, name) ∈ ((loc.run hasher mirrors edits).find id).tree.entries ↔
      loc.sectionOf name = id ∧ KeyEdit.pending name edits ≠ [] ∧ k = DigestTree.keyhash hasher name ∧
      hash = k.value ^^^ xorAll (KeyEdit.pending name edits) := by
    intro k hash name
    rw [SortedMap.mem_entries, find_run hinj]
  refine ⟨hentry, ?_⟩
  rw [DigestIndexer.list, SortedMap.mem_keys]
  constructor
  · rintro ⟨tree, htree⟩
    obtain ⟨⟨k, hash, name⟩, he⟩ := List.exists_mem_of_ne_nil _ (pruned_run edits id tree htree)
    rw [← DigestIndexer.find_of_get htree, hentry] at he
    exact ⟨name, he.1, he.2.1⟩
  · rintro ⟨name, hid, hpending⟩
    have he := (hentry (DigestTree.keyhash hasher name) _ name).2 ⟨hid, hpending, rfl, rfl⟩
    cases htree : (loc.run hasher mirrors edits).forest.get id with
    | some tree => exact ⟨tree, rfl⟩
    | none =>
      rw [DigestIndexer.find, htree] at he
      exact absurd he List.not_mem_nil

section Example

def byFirst : ILocateKeys := ⟨fun name => name.take 1, fun _ _ => true⟩

def someEdits : List KeyEdit :=
  [.update [107] 5, .update [108] 3, .remove [107], .update [107, 1] 6, .update [107] 4, .update [107] 8]

lemma someEdits_inj : Set.InjOn (DigestTree.keyhash id) {name | ∃ e ∈ someEdits, e.key = name} := by
  rintro name ⟨e, he, rfl⟩ name' ⟨e', he', rfl⟩ heq
  simp only [someEdits, List.mem_cons, List.not_mem_nil, or_false] at he he'
  rcases he with rfl | rfl | rfl | rfl | rfl | rfl <;> rcases he' with rfl | rfl | rfl | rfl | rfl | rfl <;>
    revert heq <;> decide

lemma run_flat_example :
    (⟨107⟩, 103, [107]) ∈ ((byFirst.run id 3 someEdits).find [107]).tree.entries ∧
    [107] ∈ (byFirst.run id 3 someEdits).list := by
  have h := @run_flat id byFirst 3 someEdits someEdits_inj [107]
  exact ⟨(h.1 _ _ _).2 (by decide), h.2.2 ⟨[107], by decide⟩⟩

end Example

end ILocateKeys

end Turbopump
