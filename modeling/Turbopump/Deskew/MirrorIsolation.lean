import Turbopump.Callbacks.ComputedOptions
import Turbopump.Deskew.DigestIndexer
import Turbopump.Lib.Runs

/-! What the calls for one number of mirrors leave to be found under another. -/

namespace Turbopump

def IndexCall.mirrors : IndexCall → ℕ
  | update _ _ mirrors => mirrors
  | remove _ mirrors => mirrors

namespace KeyTabulator

variable (hasher : Bytes → Bytes)

-- the locator reads a ring that may have changed since the last call
def call (k : KeyTabulator) (c : LocateKeys × IndexCall) : KeyTabulator := match c.2 with
  | .update key value mirrors => k.update hasher c.1 key value mirrors
  | .remove key mirrors => k.remove hasher c.1 key mirrors

def calls (cs : List (LocateKeys × IndexCall)) : KeyTabulator := cs.foldl (call hasher) {}

def only (m : ℕ) (cs : List (LocateKeys × IndexCall)) : List (LocateKeys × IndexCall) :=
  cs.filter fun c => c.2.mirrors = m

/-- What is found under `m` is what only the calls for `m` would have left, and carries `m`. -/
def Isolated (cs : List (LocateKeys × IndexCall)) (m : ℕ) : Prop := ∀ id,
  (calls hasher cs).find id m = (calls hasher (only m cs)).find id m ∧
    (((calls hasher cs).find id m).empty = false → ((calls hasher cs).find id m).id.mirrors = m)

def callAt (forest : Option Indexer) (c : LocateKeys × IndexCall) : Option Indexer := match c.2 with
  | .update key value mirrors =>
    let forest := match forest with
      | some forest => forest
      | none => if mirrors = 0 then .universal { id := ⟨[], 0⟩ } else .sections { mirrors := mirrors }
    some (forest.update hasher c.1 key value)
  | .remove key _ => forest.map fun forest => forest.remove hasher c.1 key

section Slices

variable {hasher}

lemma call_get (k : KeyTabulator) (c : LocateKeys × IndexCall) (b : UInt8) : (k.call hasher c).forest.get b =
    if UInt8.ofNat c.2.mirrors = b then callAt hasher (k.forest.get b) c else k.forest.get b := by
  obtain ⟨l, c⟩ := c
  by_cases hb : UInt8.ofNat c.mirrors = b
  · rw [if_pos hb, ← hb]
    cases c with
    | update key value mirrors => exact SortedMap.get_insert_self _ _ _
    | remove key mirrors =>
      simp only [call, remove, IndexCall.mirrors, callAt]
      cases hget : k.forest.get (UInt8.ofNat mirrors) with
      | none => exact hget
      | some forest => exact SortedMap.get_insert_self _ _ _
  · rw [if_neg hb]
    cases c with
    | update key value mirrors => exact SortedMap.get_insert_of_ne _ _ hb
    | remove key mirrors =>
      simp only [call, remove]
      split
      · rfl
      · exact SortedMap.get_insert_of_ne _ _ hb

lemma calls_get (cs : List (LocateKeys × IndexCall)) (b : UInt8) : (calls hasher cs).forest.get b =
    (cs.filter fun c => UInt8.ofNat c.2.mirrors = b).foldl (callAt hasher) none :=
  foldl_slice (fun _ => True) (fun k : KeyTabulator => k.forest.get b) (callAt hasher)
    (fun c => UInt8.ofNat c.2.mirrors = b)
    (fun _ _ _ => trivial) (fun k c _ => by simp only [call_get, decide_eq_true_eq]) trivial cs

lemma calls_get_only {cs : List (LocateKeys × IndexCall)} {m : ℕ}
    (h : ∀ c ∈ cs, UInt8.ofNat c.2.mirrors = UInt8.ofNat m → c.2.mirrors = m) :
    (calls hasher cs).forest.get (UInt8.ofNat m) = (calls hasher (only m cs)).forest.get (UInt8.ofNat m) := by
  rw [calls_get, calls_get, only, List.filter_filter]
  congr 1
  refine List.filter_congr fun c hc => ?_
  by_cases hm : c.2.mirrors = m
  · simp [hm]
  · have hbyte : UInt8.ofNat c.2.mirrors ≠ UInt8.ofNat m := fun heq => hm (h c hc heq)
    simp only [hm, hbyte, decide_false, Bool.and_false]

end Slices

end KeyTabulator

namespace DigestIndexer

variable {hasher : Bytes → Bytes} {l : LocateKeys} {x : DigestIndexer} {m : ℕ}

structure Carries (x : DigestIndexer) (m : ℕ) : Prop where
  mirrors : x.mirrors = m
  trees : ∀ id tree, x.forest.get id = some tree → tree.empty = false → tree.id.mirrors = m

lemma Carries.update (h : x.Carries m) (key : Bytes) (value : UInt64) : (x.update hasher l key value).Carries m := by
  have hinit (id : Bytes) : ((l.interface hasher).initTree x ((x.forest.get id).getD {}) id).1.id.mirrors = m := by
    simp only [ILocateKeys.initTree]
    split_ifs with hempty
    · exact h.mirrors
    · exact h.mirrors
    · cases hget : x.forest.get id with
      | none =>
        rw [hget, Option.getD_none] at hempty
        exact absurd rfl hempty
      | some tree =>
        rw [hget, Option.getD_some] at hempty
        exact h.trees id tree hget (by simpa using hempty)
  constructor
  · simp only [DigestIndexer.update, ILocateKeys.update, ILocateKeys.initTree]
    split_ifs <;> exact h.mirrors
  · intro id tree hget hempty
    by_cases hsection : l.sectionOf hasher key = id
    · subst hsection
      simp only [DigestIndexer.update, ILocateKeys.update, LocateKeys.interface_sectionOf, SortedMap.get_insert_self,
        Option.some.injEq] at hget
      rw [← hget, DigestTree.update_id]
      exact hinit _
    · rw [update_get_of_ne hsection] at hget
      exact h.trees id tree hget hempty

lemma Carries.remove (h : x.Carries m) (key : Bytes) : (x.remove hasher l key).Carries m := by
  simp only [DigestIndexer.remove, ILocateKeys.remove]
  split
  · exact h
  · rename_i old hold
    simp only [prune]
    split_ifs with hempty
    · refine ⟨h.mirrors, fun id tree hget htree => ?_⟩
      rw [SortedMap.get_erase] at hget
      split_ifs at hget
      exact h.trees id tree hget htree
    · refine ⟨h.mirrors, fun id tree hget htree => ?_⟩
      rw [SortedMap.get_insert] at hget
      split_ifs at hget with hsection
      · obtain rfl := Option.some.inj hget
        -- a tree that is left with a key had one before
        refine h.trees _ old hold ?_
        by_contra hnil
        have hnone : old.tree.entries = [] := by simpa [DigestTree.empty] using hnil
        simp [DigestTree.empty, DigestTree.remove, SortedMap.erase, hnone] at hempty
      · exact h.trees id tree hget htree

end DigestIndexer

namespace KeyTabulator

variable {hasher : Bytes → Bytes}

def Carries (m : ℕ) : Option Indexer → Prop
  | none => True
  | some (.universal tree) => tree.id.mirrors = m
  | some (.sections x) => x.Carries m

lemma Carries.callAt {m : ℕ} {forest : Option Indexer} (h : Carries m forest) {c : LocateKeys × IndexCall}
    (hc : c.2.mirrors = m) : Carries m (callAt hasher forest c) := by
  obtain ⟨l, c⟩ := c
  cases c with
  | update key value mirrors =>
    obtain rfl : mirrors = m := hc
    cases forest with
    | none =>
      by_cases hzero : mirrors = 0
      · simp only [KeyTabulator.callAt, hzero, if_true, Indexer.update, Carries, DigestTree.update_id]
      · simp only [KeyTabulator.callAt, if_neg hzero, Indexer.update, Carries]
        refine DigestIndexer.Carries.update ⟨rfl, fun id tree hget => ?_⟩ key value
        simp at hget
    | some forest =>
      cases forest with
      | universal tree => exact (congrArg TreeId.mirrors (tree.update_id key value)).trans h
      | sections x => exact DigestIndexer.Carries.update h key value
  | remove key mirrors =>
    cases forest with
    | none => trivial
    | some forest =>
      cases forest with
      | universal tree => exact h
      | sections x => exact DigestIndexer.Carries.remove h key

lemma Carries.find {m : ℕ} {k : KeyTabulator} (h : Carries m (k.forest.get (UInt8.ofNat m))) {id : Bytes}
    (hempty : (k.find id m).empty = false) : (k.find id m).id.mirrors = m := by
  simp only [KeyTabulator.find] at hempty ⊢
  cases hforest : k.forest.get (UInt8.ofNat m) with
  | none =>
    rw [hforest] at hempty
    simp [DigestTree.empty, SortedMap.empty] at hempty
  | some forest =>
    rw [hforest] at h hempty
    cases forest with
    | universal tree => exact h
    | sections x =>
      simp only [Indexer.find, DigestIndexer.find] at hempty ⊢
      cases htree : x.forest.get id with
      | none =>
        rw [htree] at hempty
        simp [DigestTree.empty, SortedMap.empty] at hempty
      | some tree =>
        rw [htree] at hempty
        exact h.trees id tree htree hempty

lemma carries_calls {cs : List (LocateKeys × IndexCall)} {m : ℕ}
    (h : ∀ c ∈ cs, UInt8.ofNat c.2.mirrors = UInt8.ofNat m → c.2.mirrors = m) :
    Carries m ((calls hasher cs).forest.get (UInt8.ofNat m)) := by
  rw [calls_get]
  have hrun (cs : List (LocateKeys × IndexCall)) (hcs : ∀ c ∈ cs, c.2.mirrors = m) : ∀ forest, Carries m forest →
      Carries m (cs.foldl (callAt hasher) forest) := by
    induction cs with
    | nil => exact fun _ hforest => hforest
    | cons c cs ih =>
      obtain ⟨hc, hcs⟩ := List.forall_mem_cons.1 hcs
      exact fun forest hforest => ih hcs _ (hforest.callAt hc)
  refine hrun _ (fun c hc => ?_) none trivial
  obtain ⟨hmem, heq⟩ := List.mem_filter.1 hc
  exact h c hmem (by simpa using heq)

lemma isolated {cs : List (LocateKeys × IndexCall)} {m : ℕ}
    (h : ∀ c ∈ cs, UInt8.ofNat c.2.mirrors = UInt8.ofNat m → c.2.mirrors = m) : Isolated hasher cs m := by
  intro id
  refine ⟨?_, (carries_calls h).find⟩
  simp only [KeyTabulator.find, calls_get_only h]

lemma not_isolated {m m' : ℕ} (hbyte : UInt8.ofNat m' = UInt8.ofNat m) (hne : m' ≠ m) (l : LocateKeys) (key : Bytes)
    (value : UInt64) : ¬ Isolated hasher [(l, .update key value m')] m := by
  intro h
  have honly : only m [(l, .update key value m')] = [] :=
    List.filter_eq_nil_iff.2 fun c hc => by simpa [List.mem_singleton.1 hc, IndexCall.mirrors] using hne
  have hupdate (tree : DigestTree) : (tree.update hasher key value).empty = false := by
    obtain ⟨hash, hget⟩ := @DigestTree.update_get hasher tree key value
    have hmem := SortedMap.mem_entries.2 hget
    cases hentries : (tree.update hasher key value).tree.entries with
    | nil => simp [hentries] at hmem
    | cons e es => simp [DigestTree.empty, hentries]
  have hnull : ((calls hasher (only m [(l, .update key value m')])).find (l.sectionOf hasher key) m).empty = true := by
    rw [honly]
    rfl
  rw [← (h (l.sectionOf hasher key)).1] at hnull
  have hforest : (calls hasher [(l, .update key value m')]).forest.get (UInt8.ofNat m) =
      callAt hasher none (l, .update key value m') := by
    rw [calls_get, List.filter_cons_of_pos]
    · rfl
    · exact decide_eq_true hbyte
  simp only [KeyTabulator.find, hforest, callAt] at hnull
  split_ifs at hnull
  · simp [Indexer.update, Indexer.find, hupdate] at hnull
  · obtain ⟨tree, -, hget⟩ := @DigestIndexer.update_get hasher l { mirrors := m' } key value
    simp [Indexer.update, Indexer.find, DigestIndexer.find, hget, hupdate] at hnull

theorem isolated_iff (used : Set ℕ) (m : ℕ) :
    (∀ cs : List (LocateKeys × IndexCall), (∀ c ∈ cs, c.2.mirrors ∈ used) → Isolated hasher cs m) ↔
      ∀ m' ∈ used, m' % 256 = m % 256 → m' = m := by
  have hbyte (m' : ℕ) : UInt8.ofNat m' = UInt8.ofNat m ↔ m' % 256 = m % 256 := by
    rw [← UInt8.toNat_inj, UInt8.toNat_ofNat', UInt8.toNat_ofNat']
  constructor
  · intro h m' hm' hmod
    by_contra hne
    refine not_isolated ((hbyte m').2 hmod) hne ⟨⟨.empty⟩, none⟩ [] 0 (h _ fun c hc => ?_)
    rw [List.mem_singleton.1 hc]
    exact hm'
  · intro h cs hcs
    exact isolated fun c hc heq => h _ (hcs c hc) ((hbyte _).1 heq)

theorem not_isolated_wrapped : ¬ Isolated id [(⟨⟨.empty⟩, none⟩, .update (ascii "key") 1 259)] 3 :=
  not_isolated (by decide) (by decide) _ _ _

end KeyTabulator

end Turbopump
