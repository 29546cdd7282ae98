import Turbopump.Deskew.FlatIndex
import Turbopump.Deskew.MirrorIsolation

/-! What the index holds after calls that always give a key the same number of mirrors: trees that come from what is
pending of each key, and from nothing else. -/

namespace Turbopump

def IndexCall.name : IndexCall → Bytes
  | update name _ _ => name
  | remove name _ => name

def IndexCall.edit : IndexCall → KeyEdit
  | update name value _ => .update name value
  | remove name _ => .remove name

namespace KeyTabulator

def everything : ILocateKeys := ⟨fun _ => [], fun _ _ => true⟩

def treeOf (forest : Option Indexer) (id : Bytes) : DigestTree := match forest with
  | none => {}
  | some forest => forest.find id

variable {hasher : Bytes → Bytes} {l : LocateKeys} {m : ℕ} {edits : List KeyEdit}

inductive Slotted (hasher : Bytes → Bytes) (l : LocateKeys) (m : ℕ) (edits : List KeyEdit) : Option Indexer → Prop
  | absent (hrun : (l.interface hasher).run hasher m edits = { mirrors := m })
      (hnone : ∀ k, ((everything.run hasher 0 edits).find []).tree.get k = none) : Slotted hasher l m edits none
  | universal (tree : DigestTree) (hzero : m = 0) (hid : tree.id = ⟨[], 0⟩)
      (hget : ∀ k, tree.tree.get k = ((everything.run hasher 0 edits).find []).tree.get k) :
      Slotted hasher l m edits (some (.universal tree))
  | sections (hpos : m ≠ 0) : Slotted hasher l m edits (some (.sections ((l.interface hasher).run hasher m edits)))

lemma Slotted.start : Slotted hasher l m [] none :=
  .absent rfl fun _ => rfl

lemma get_everything (edits : List KeyEdit) (e : KeyEdit) (k : KeyHash) :
    ((everything.run hasher 0 (edits ++ [e])).find []).tree.get k = match e with
      | .update key value => if DigestTree.keyhash hasher key = k then some (value ^^^
          ((((everything.run hasher 0 edits).find []).tree.get k).map Prod.fst).getD k.value, key)
        else ((everything.run hasher 0 edits).find []).tree.get k
      | .remove key => if DigestTree.keyhash hasher key = k then none
        else ((everything.run hasher 0 edits).find []).tree.get k := by
  have hsection (key : Bytes) : everything.sectionOf key = [] := rfl
  rw [ILocateKeys.run_append]
  cases e with
  | update key value => simp only [ILocateKeys.edit, ILocateKeys.find_update, hsection, true_and]
  | remove key => simp only [ILocateKeys.edit, ILocateKeys.find_remove, hsection, true_and]

lemma Slotted.call {forest : Option Indexer} (h : Slotted hasher l m edits forest) {c : IndexCall}
    (hc : c.mirrors = m) : Slotted hasher l m (edits ++ [c.edit]) (callAt hasher forest (l, c)) := by
  cases c with
  | update key value mirrors =>
    obtain rfl : mirrors = m := hc
    cases h with
    | absent hrun hnone =>
      by_cases hzero : mirrors = 0
      · simp only [callAt, if_pos hzero, Indexer.update]
        refine .universal _ hzero (DigestTree.update_id _ _ _) fun k => ?_
        rw [get_everything, DigestTree.get_update]
        simp only [IndexCall.edit, hnone, SortedMap.get_empty]
      · have hupdate : callAt hasher none (l, .update key value mirrors) =
            some (.sections ((l.interface hasher).run hasher mirrors (edits ++ [.update key value]))) := by
          simp only [callAt, if_neg hzero, Indexer.update, DigestIndexer.update, ILocateKeys.run_append,
            ILocateKeys.edit, hrun]
        rw [hupdate]
        exact .sections hzero
    | universal tree hzero hid hget =>
      refine .universal _ hzero ((DigestTree.update_id _ _ _).trans hid) fun k => ?_
      rw [get_everything, DigestTree.get_update]
      simp only [IndexCall.edit, hget]
    | sections hpos =>
      have hupdate : callAt hasher (some (.sections ((l.interface hasher).run hasher mirrors edits)))
          (l, .update key value mirrors) =
            some (.sections ((l.interface hasher).run hasher mirrors (edits ++ [.update key value]))) := by
        simp only [callAt, Indexer.update, DigestIndexer.update, ILocateKeys.run_append, ILocateKeys.edit]
      rw [hupdate]
      exact .sections hpos
  | remove key mirrors =>
    obtain rfl : mirrors = m := hc
    cases h with
    | absent hrun hnone =>
      refine .absent ?_ fun k => ?_
      · rw [ILocateKeys.run_append, hrun]
        rfl
      · rw [get_everything]
        simp only [IndexCall.edit, hnone, ite_self]
    | universal tree hzero hid hget =>
      refine .universal _ hzero hid fun k => ?_
      rw [get_everything, DigestTree.remove, SortedMap.get_erase]
      simp only [IndexCall.edit, hget]
    | sections hpos =>
      have hremove : callAt hasher (some (.sections ((l.interface hasher).run hasher mirrors edits)))
          (l, .remove key mirrors) =
            some (.sections ((l.interface hasher).run hasher mirrors (edits ++ [.remove key]))) := by
        simp only [callAt, Option.map_some, Indexer.remove, DigestIndexer.remove, ILocateKeys.run_append,
          ILocateKeys.edit]
      rw [hremove]
      exact .sections hpos

lemma slotted_calls (l : LocateKeys) (cs : List IndexCall) (hcs : ∀ c ∈ cs, c.mirrors = m) :
    Slotted hasher l m (cs.map IndexCall.edit) (cs.foldl (fun forest c => callAt hasher forest (l, c)) none) := by
  induction cs using List.reverseRecOn with
  | nil => exact .start
  | append_singleton cs c ih =>
    rw [List.map_append, List.foldl_append]
    apply (ih fun c' hc' => hcs c' (List.mem_append_left _ hc')).call
    exact hcs c (by simp)

lemma named_run (loc : ILocateKeys) (edits : List KeyEdit) : (loc.run hasher m edits).Named := by
  apply foldl_invariant
  · intro x e hx
    cases e with
    | update key value => exact hx.update key value
    | remove key => exact hx.remove key
  · intro id tree htree
    simp at htree

lemma carries_run (edits : List KeyEdit) : ((l.interface hasher).run hasher m edits).Carries m := by
  apply foldl_invariant (I := fun x : DigestIndexer => x.Carries m)
  · intro x e hx
    cases e with
    | update key value => exact hx.update key value
    | remove key => exact hx.remove key
  · refine ⟨rfl, fun id tree htree => ?_⟩
    simp at htree

lemma Slotted.get {forest : Option Indexer} (h : Slotted hasher l m edits forest)
    (hinj : Set.InjOn (DigestTree.keyhash hasher) {name | ∃ e ∈ edits, e.key = name}) (id : Bytes) (k : KeyHash)
    (v : UInt64 × Bytes) : (treeOf forest id).tree.get k = some v ↔
      (m = 0 ∨ l.sectionOf hasher v.2 = id) ∧ KeyEdit.pending v.2 edits ≠ [] ∧ k = DigestTree.keyhash hasher v.2 ∧
      v.1 = k.value ^^^ xorAll (KeyEdit.pending v.2 edits) := by
  cases h with
  | absent hrun hnone =>
    refine iff_of_false (by simp [treeOf]) ?_
    rintro ⟨-, hpending, rfl, hv⟩
    have hsome : ((everything.run hasher 0 edits).find []).tree.get (DigestTree.keyhash hasher v.2) = some v :=
      (ILocateKeys.find_run hinj [] _ v).2 ⟨rfl, hpending, rfl, hv⟩
    rw [hnone] at hsome
    cases hsome
  | universal tree hzero hid hget =>
    simp only [treeOf, Indexer.find, hget, hzero, true_or, true_and]
    rw [ILocateKeys.find_run hinj]
    exact and_iff_right rfl
  | sections hpos =>
    simp only [treeOf, Indexer.find, hpos, false_or]
    exact ILocateKeys.find_run hinj id k v

lemma Slotted.id {forest : Option Indexer} (h : Slotted hasher l m edits forest) {id : Bytes}
    (hempty : (treeOf forest id).empty = false) : (treeOf forest id).id = ⟨if m = 0 then [] else id, m⟩ := by
  cases h with
  | absent => simp [treeOf, DigestTree.empty, SortedMap.empty] at hempty
  | universal tree hzero hid =>
    rw [if_pos hzero, hzero]
    exact hid
  | sections hpos =>
    rw [if_neg hpos]
    simp only [treeOf, Indexer.find, DigestIndexer.find] at hempty ⊢
    cases htree : ((l.interface hasher).run hasher m edits).forest.get id with
    | none => simp [htree, DigestTree.empty, SortedMap.empty] at hempty
    | some tree =>
      rw [htree, Option.getD_some] at hempty
      rw [Option.getD_some, ← named_run (l.interface hasher) edits id tree htree,
        ← (carries_run edits).trees id tree htree hempty]

theorem Slotted.congr {forest forest' : Option Indexer} {edits' : List KeyEdit} (h : Slotted hasher l m edits forest)
    (h' : Slotted hasher l m edits' forest')
    (hinj : Set.InjOn (DigestTree.keyhash hasher) {name | ∃ e ∈ edits, e.key = name})
    (hinj' : Set.InjOn (DigestTree.keyhash hasher) {name | ∃ e ∈ edits', e.key = name})
    (hpending : ∀ name, (KeyEdit.pending name edits ≠ [] ↔ KeyEdit.pending name edits' ≠ []) ∧
      xorAll (KeyEdit.pending name edits) = xorAll (KeyEdit.pending name edits')) (id : Bytes) :
    (treeOf forest id).tree = (treeOf forest' id).tree ∧
      ((treeOf forest id).empty = false → (treeOf forest id).id = (treeOf forest' id).id) := by
  have htree : (treeOf forest id).tree = (treeOf forest' id).tree := by
    apply SortedMap.ext_get
    intro k
    apply Option.ext
    intro v
    rw [h.get hinj, h'.get hinj', (hpending v.2).1, (hpending v.2).2]
  refine ⟨htree, fun hempty => ?_⟩
  have hempty' : (treeOf forest' id).empty = false := by rwa [DigestTree.empty, ← htree]
  rw [h.id hempty, h'.id hempty']

end KeyTabulator

end Turbopump
