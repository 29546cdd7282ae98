import Turbopump.Deskew.Splitting
import Turbopump.Lib.Runs

/-! The index behind a scheduler: operations are enqueued, and look sections up in the ring as it is when they are
executed. -/

namespace Turbopump

open Circle

inductive IndexOperation where
  | update (key : Bytes) (value : UInt64) (mirrors : ℕ)
  | remove (key : Bytes) (mirrors : ℕ)
  | splitSection (location : Bytes)
  | cannibalizeSection (location : Bytes)
  deriving DecidableEq

def IndexOperation.run (hasher : Bytes → Bytes) (l : LocateKeys) (k : KeyTabulator) : IndexOperation → KeyTabulator
  | update key value mirrors => k.update hasher l key value mirrors
  | remove key mirrors => k.remove hasher l key mirrors
  | splitSection location => k.splitSection hasher l location
  | cannibalizeSection location => k.cannibalizeSection hasher l location

lemma KeyTabulator.update_sections {hasher : Bytes → Bytes} {l : LocateKeys} {k : KeyTabulator} {key : Bytes}
    {value : UInt64} {mirrors : ℕ} {m : UInt8} {x' : DigestIndexer}
    (h : (k.update hasher l key value mirrors).forest.get m = some (.sections x')) :
    (UInt8.ofNat mirrors ≠ m ∧ k.forest.get m = some (.sections x')) ∨
    ∃ x : DigestIndexer, UInt8.ofNat mirrors = m ∧
      (k.forest.get m = some (.sections x) ∨ k.forest.get m = none ∧ x = { mirrors := mirrors }) ∧
      x.update hasher l key value = x' := by
  simp only [KeyTabulator.update, SortedMap.get_insert] at h
  by_cases hm : UInt8.ofNat mirrors = m
  · rw [if_pos hm, Option.some.injEq, hm] at h
    right
    cases hforest : k.forest.get m with
    | some forest =>
      cases forest with
      | universal tree => simp [hforest, Indexer.update] at h
      | sections x => exact ⟨x, hm, Or.inl rfl, by simpa [hforest, Indexer.update] using h⟩
    | none =>
      simp only [hforest] at h
      split_ifs at h with hzero
      · simp [Indexer.update] at h
      · exact ⟨_, hm, Or.inr ⟨rfl, rfl⟩, by simpa [Indexer.update] using h⟩
  · rw [if_neg hm] at h
    exact Or.inl ⟨hm, h⟩

/-- `scheduled` is what has been enqueued on the scheduler and is not executed yet. -/
structure SynchronizedKeyTabulator where
  index : KeyTabulator
  scheduled : List IndexOperation := []

namespace SynchronizedKeyTabulator

def update (t : SynchronizedKeyTabulator) (key : Bytes) (value : UInt64) (mirrors : ℕ) : SynchronizedKeyTabulator :=
  { t with scheduled := t.scheduled ++ [.update key value mirrors] }

def splitSection (t : SynchronizedKeyTabulator) (location : Bytes) : SynchronizedKeyTabulator :=
  { t with scheduled := t.scheduled ++ [.splitSection location] }

end SynchronizedKeyTabulator

/-- The ring, which peers are added to at once, and the index, which follows. `adding` are the peers whose
`ModifyPeer::update` is between the two. -/
structure Growth where
  ring : ConsistentHashRing
  self : Option Bytes
  keyTabulator : SynchronizedKeyTabulator
  adding : List Bytes := []

namespace Growth

inductive Action where
  | insert (uid : Bytes)
  | split (uid : Bytes)
  | update (key : Bytes) (value : UInt64) (mirrors : ℕ)
  | execute

variable (hasher : Bytes → Bytes)

def locator (s : Growth) : LocateKeys := ⟨s.ring, s.self⟩

def step (s : Growth) : Action → Growth
  | .insert uid => { s with ring := s.ring.insert hasher uid uid, adding := s.adding ++ [uid] }
  | .split uid =>
    if uid ∈ s.adding then
      { s with adding := s.adding.erase uid, keyTabulator := s.keyTabulator.splitSection uid }
    else s
  | .update key value mirrors => { s with keyTabulator := s.keyTabulator.update key value mirrors }
  | .execute => match s.keyTabulator.scheduled with
    | [] => s
    | operation :: scheduled =>
      { s with keyTabulator := ⟨operation.run hasher s.locator s.keyTabulator.index, scheduled⟩ }

def run (s : Growth) (actions : List Action) : Growth := actions.foldl (step hasher) s

def pending (s : Growth) : List Bytes :=
  s.adding ++ s.keyTabulator.scheduled.filterMap fun operation => match operation with
    | .splitSection uid => some uid
    | _ => none

def settled (s : Growth) (x : DigestIndexer) : Set Bytes :=
  {n | n ∈ s.ring.ring.keys ∧ ((∃ uid ∈ s.pending, hasher uid = n) → ∃ tree, x.forest.get n = some tree)}

/-- A split finds its node's tree there or finds its keys in its range; an update does not open the tree of a node
whose split is pending while another tree holds keys that are due there. -/
def Orderly (s : Growth) : Action → Prop
  | .execute => match s.keyTabulator.scheduled with
    | .splitSection uid :: _ => ∀ (m : UInt8) (x : DigestIndexer),
        s.keyTabulator.index.forest.get m = some (.sections x) → x.forest.get (hasher uid) = none →
        DigestIndexer.Splits hasher (s.settled hasher x) x (hasher uid)
    | .update key _ mirrors :: _ => ∀ x : DigestIndexer,
        s.keyTabulator.index.forest.get (UInt8.ofNat mirrors) = some (.sections x) →
        s.locator.sectionOf hasher key ∉ s.settled hasher x → ∀ (j : Bytes) (e : _), x.Holds j e →
        ¬ Owns (insert (s.locator.sectionOf hasher key) (s.settled hasher x)) (s.locator.sectionOf hasher key)
          (hasher e.2.2)
    | _ => True
  | _ => True

variable {hasher} {s : Growth}

structure Consistent (hasher : Bytes → Bytes) (s : Growth) : Prop where
  nodes : ∀ n ∈ s.ring.ring.keys, ∃ name, hasher name = n
  nonempty : s.ring.ring.entries ≠ []
  pending : ∀ uid ∈ s.pending, hasher uid ∈ s.ring.ring.keys
  scheduled : ∀ operation ∈ s.keyTabulator.scheduled,
    (∃ key value mirrors, operation = .update key value mirrors) ∨ ∃ uid, operation = .splitSection uid
  grouped : ∀ (m : UInt8) (x : DigestIndexer), s.keyTabulator.index.forest.get m = some (.sections x) →
    DigestIndexer.Grouped hasher (s.settled hasher x) x

lemma settled_subset (x : DigestIndexer) : s.settled hasher x ⊆ {n | n ∈ s.ring.ring.keys} := fun _ hn => hn.1

lemma grouped_settled {nodes : Set Bytes} {x : DigestIndexer} (h : DigestIndexer.Grouped hasher nodes x)
    (hsub : s.settled hasher x ⊆ nodes) (hring : nodes ⊆ {n | n ∈ s.ring.ring.keys}) :
    DigestIndexer.Grouped hasher (s.settled hasher x) x :=
  h.mono hsub fun _ tree htree => ⟨hring (h.mem_nodes htree), fun _ => ⟨tree, htree⟩⟩

section Steps

lemma Consistent.insert (h : Consistent hasher s) (uid : Bytes) : Consistent hasher (s.step hasher (.insert uid)) := by
  have hpending : ∀ u, u ∈ (s.step hasher (.insert uid)).pending ↔ u = uid ∨ u ∈ s.pending := by
    intro u
    simp only [step, Growth.pending, List.mem_append, List.mem_singleton]
    tauto
  constructor
  case nodes =>
    intro n hn
    rcases ConsistentHashRing.mem_insert_keys.1 hn with rfl | hn
    · exact ⟨uid, rfl⟩
    · exact h.nodes n hn
  case nonempty =>
    intro hnil
    have := SortedMap.entries_eq_nil.1 hnil (hasher uid)
    simp [step, ConsistentHashRing.insert] at this
  case pending =>
    intro u hu
    rcases (hpending u).1 hu with rfl | hu
    · exact ConsistentHashRing.mem_insert_keys.2 (Or.inl rfl)
    · exact ConsistentHashRing.mem_insert_keys.2 (Or.inr (h.pending u hu))
  case scheduled => exact h.scheduled
  case grouped =>
    intro m x hx
    have hgrouped := h.grouped m x hx
    refine hgrouped.mono ?_ ?_
    · rintro n ⟨hn, hsplit⟩
      by_cases hnode : n = hasher uid
      · obtain ⟨tree, htree⟩ := hsplit ⟨uid, (hpending uid).2 (Or.inl rfl), hnode.symm⟩
        exact hgrouped.mem_nodes htree
      · refine ⟨(ConsistentHashRing.mem_insert_keys.1 hn).resolve_left hnode, ?_⟩
        rintro ⟨u, hu, hun⟩
        exact hsplit ⟨u, (hpending u).2 (Or.inr hu), hun⟩
    · intro n tree htree
      exact ⟨ConsistentHashRing.mem_insert_keys.2 (Or.inr (hgrouped.mem_nodes htree).1), fun _ => ⟨tree, htree⟩⟩

lemma Consistent.enqueue (h : Consistent hasher s) (s' : Growth) (hring : s'.ring = s.ring)
    (hindex : s'.keyTabulator.index = s.keyTabulator.index)
    (hpending : ∀ u, u ∈ s'.pending ↔ u ∈ s.pending)
    (hscheduled : ∀ operation ∈ s'.keyTabulator.scheduled, operation ∈ s.keyTabulator.scheduled ∨
      (∃ key value mirrors, operation = .update key value mirrors) ∨ ∃ uid, operation = .splitSection uid) :
    Consistent hasher s' := by
  have hsettled : ∀ x, s'.settled hasher x = s.settled hasher x := by
    intro x
    simp only [settled, hring, hpending]
  refine ⟨hring ▸ h.nodes, hring ▸ h.nonempty, fun u hu => ?_, fun operation hop => ?_, fun m x hx => ?_⟩
  · rw [hring]
    exact h.pending u ((hpending u).1 hu)
  · rcases hscheduled operation hop with hop | hop
    · exact h.scheduled operation hop
    · exact hop
  · rw [hsettled]
    exact h.grouped m x (hindex ▸ hx)

lemma sectionOf_node (h : Consistent hasher s) {uid : Bytes} (huid : hasher uid ∈ s.ring.ring.keys) :
    s.locator.sectionOf hasher uid = hasher uid :=
  (ConsistentHashRing.nodeId_owns h.nonempty (hasher uid)).unique (owns_self huid)

lemma Consistent.executeSplit (hlen : ∀ name, 8 ≤ (hasher name).length) (h : Consistent hasher s) {uid : Bytes}
    {scheduled : List IndexOperation} (hscheduled : s.keyTabulator.scheduled = .splitSection uid :: scheduled)
    (horderly : s.Orderly hasher .execute) : Consistent hasher (s.step hasher .execute) := by
  have hstep : s.step hasher .execute =
      { s with keyTabulator := ⟨s.keyTabulator.index.splitSection hasher s.locator uid, scheduled⟩ } := by
    simp only [step, hscheduled, IndexOperation.run]
  have hpending : ∀ u, u ∈ s.pending ↔ u = uid ∨ u ∈ (s.step hasher .execute).pending := by
    intro u
    rw [hstep]
    simp only [Growth.pending, hscheduled, List.filterMap_cons, List.mem_append, List.mem_cons]
    tauto
  have huid : hasher uid ∈ s.ring.ring.keys := h.pending uid ((hpending uid).2 (Or.inl rfl))
  simp only [Orderly, hscheduled] at horderly
  constructor
  case nodes => exact hstep ▸ h.nodes
  case nonempty => exact hstep ▸ h.nonempty
  case pending =>
    intro u hu
    rw [hstep]
    exact h.pending u ((hpending u).2 (Or.inr hu))
  case scheduled =>
    intro operation hop
    rw [hstep] at hop
    exact h.scheduled operation (hscheduled ▸ List.mem_cons_of_mem _ hop)
  case grouped =>
    intro m x' hx'
    obtain ⟨x, hx, rfl⟩ : ∃ x, s.keyTabulator.index.forest.get m = some (.sections x) ∧
        x.splitSection hasher s.locator uid = x' := by
      rw [hstep] at hx'
      simp only [KeyTabulator.splitSection, SortedMap.get_mapValues, Option.map_eq_some_iff] at hx'
      obtain ⟨forest, hforest, hsplit⟩ := hx'
      cases forest with
      | universal tree => simp [Indexer.splitSection] at hsplit
      | sections x => exact ⟨x, hforest, by simpa [Indexer.splitSection] using hsplit⟩
    obtain ⟨hgrouped, -, htrees⟩ := (h.grouped m x hx).splitSection hlen
      (fun n hn => by
        obtain ⟨name, rfl⟩ := h.nodes n hn.1
        exact hlen name)
      (sectionOf_node h huid) (horderly m x hx)
    have hring : Insert.insert (hasher uid) (s.settled hasher x) ⊆
      {n | n ∈ (s.step hasher .execute).ring.ring.keys} := by
      rw [hstep]
      exact Set.insert_subset huid (settled_subset x)
    refine grouped_settled hgrouped ?_ hring
    rintro n ⟨hn, hsplit⟩
    by_cases hnode : n = hasher uid
    · exact Or.inl hnode
    · rw [hstep] at hn
      refine Or.inr ⟨hn, ?_⟩
      rintro ⟨u, hu, hun⟩
      have hu' : u ∈ (s.step hasher .execute).pending := by
        rcases (hpending u).1 hu with rfl | hu
        · exact absurd hun.symm hnode
        · exact hu
      obtain ⟨tree, htree⟩ := hsplit ⟨u, hu', hun⟩
      exact htrees n tree hnode htree

lemma Consistent.executeUpdate (h : Consistent hasher s) {key : Bytes} {value : UInt64} {mirrors : ℕ}
    {scheduled : List IndexOperation} (hscheduled : s.keyTabulator.scheduled = .update key value mirrors :: scheduled)
    (horderly : s.Orderly hasher .execute) : Consistent hasher (s.step hasher .execute) := by
  have hstep : s.step hasher .execute =
      { s with keyTabulator := ⟨s.keyTabulator.index.update hasher s.locator key value mirrors, scheduled⟩ } := by
    simp only [step, hscheduled, IndexOperation.run]
  have hpending : ∀ u, u ∈ (s.step hasher .execute).pending ↔ u ∈ s.pending := by
    intro u
    rw [hstep]
    simp only [Growth.pending, hscheduled, List.filterMap_cons]
  have hring : (s.step hasher .execute).ring = s.ring := by rw [hstep]
  have hsettled : ∀ x, (s.step hasher .execute).settled hasher x = s.settled hasher x := by
    intro x
    simp only [settled, hring, hpending]
  have howns := ConsistentHashRing.nodeId_owns h.nonempty (hasher key)
  simp only [Orderly, hscheduled] at horderly
  constructor
  case nodes => exact hstep ▸ h.nodes
  case nonempty => exact hstep ▸ h.nonempty
  case pending =>
    intro u hu
    rw [hstep]
    exact h.pending u ((hpending u).1 hu)
  case scheduled =>
    intro operation hop
    rw [hstep] at hop
    exact h.scheduled operation (hscheduled ▸ List.mem_cons_of_mem _ hop)
  case grouped =>
    -- the update of an index that is grouped by the nodes it knows
    have hupdate : ∀ x : DigestIndexer, DigestIndexer.Grouped hasher (s.settled hasher x) x →
        (s.locator.sectionOf hasher key ∉ s.settled hasher x → ∀ (j : Bytes) (e : _), x.Holds j e →
          ¬ Owns (Insert.insert (s.locator.sectionOf hasher key) (s.settled hasher x))
            (s.locator.sectionOf hasher key) (hasher e.2.2)) →
        DigestIndexer.Grouped hasher (s.settled hasher (x.update hasher s.locator key value))
          (x.update hasher s.locator key value) := by
      intro x hx hdue
      have hsub : Insert.insert (s.locator.sectionOf hasher key) (s.settled hasher x) ⊆ {n | n ∈ s.ring.ring.keys} :=
        Set.insert_subset howns.node (settled_subset x)
      refine grouped_settled (hx.update (howns.mono hsub (Set.mem_insert _ _)) hdue) ?_ hsub
      rintro n ⟨hn, hsplit⟩
      by_cases hnode : n = s.locator.sectionOf hasher key
      · exact Or.inl hnode
      · refine Or.inr ⟨hn, fun hu => ?_⟩
        obtain ⟨tree, htree⟩ := hsplit hu
        rw [DigestIndexer.update_get_of_ne (Ne.symm hnode)] at htree
        exact ⟨tree, htree⟩
    intro m x' hx'
    rw [hsettled]
    rw [hstep] at hx'
    rcases KeyTabulator.update_sections hx' with ⟨hne, hx⟩ | ⟨x, rfl, hx | ⟨hnone, rfl⟩, rfl⟩
    · exact h.grouped m x' hx
    · exact hupdate x (h.grouped _ x hx) (horderly x hx)
    · refine hupdate _ ⟨?_, ?_, ?_, ?_⟩ ?_ <;> simp [DigestIndexer.Holds]

theorem Consistent.step (hlen : ∀ name, 8 ≤ (hasher name).length) (h : Consistent hasher s) {a : Action}
    (horderly : s.Orderly hasher a) : Consistent hasher (s.step hasher a) := by
  cases a with
  | insert uid => exact h.insert uid
  | split uid =>
    by_cases huid : uid ∈ s.adding
    · simp only [Growth.step, if_pos huid]
      apply h.enqueue
      · rfl
      · rfl
      · intro u
        simp only [Growth.pending, SynchronizedKeyTabulator.splitSection, List.filterMap_append, List.mem_append]
        by_cases hu : u = uid
        · subst hu
          simp [huid]
        · simp [List.mem_erase_of_ne hu, hu]
      · intro operation hop
        rcases List.mem_append.1 hop with hop | hop
        · exact Or.inl hop
        · exact Or.inr (Or.inr ⟨uid, List.mem_singleton.1 hop⟩)
    · simpa only [Growth.step, if_neg huid] using h
  | update key value mirrors =>
    apply h.enqueue
    · rfl
    · rfl
    · intro u
      simp [Growth.step, Growth.pending, SynchronizedKeyTabulator.update]
    · intro operation hop
      rcases List.mem_append.1 hop with hop | hop
      · exact Or.inl hop
      · exact Or.inr (Or.inl ⟨key, value, mirrors, List.mem_singleton.1 hop⟩)
  | execute =>
    cases hscheduled : s.keyTabulator.scheduled with
    | nil => simpa only [Growth.step, hscheduled] using h
    | cons operation scheduled =>
      rcases h.scheduled operation (hscheduled ▸ List.mem_cons_self) with ⟨key, value, mirrors, rfl⟩ | ⟨uid, rfl⟩
      · exact h.executeUpdate hscheduled horderly
      · exact h.executeSplit hlen hscheduled horderly

end Steps

section Runs

def Indexed (k : KeyTabulator) (m : UInt8) (h : KeyHash) : Prop := match k.forest.get m with
  | none => False
  | some (.universal tree) => ∃ v, tree.tree.get h = some v
  | some (.sections x) => ∃ id e, x.Holds id e ∧ e.1 = h

def Due (hasher : Bytes → Bytes) (s : Growth) (m : UInt8) (h : KeyHash) : Prop :=
  Indexed s.keyTabulator.index m h ∨ ∃ key value mirrors, .update key value mirrors ∈ s.keyTabulator.scheduled ∧
    UInt8.ofNat mirrors = m ∧ DigestTree.keyhash hasher key = h

lemma indexed_update {k : KeyTabulator} {l : LocateKeys} {key : Bytes} {value : UInt64} {mirrors : ℕ} {m : UInt8}
    {h : KeyHash} (hindexed : Indexed k m h ∨ (UInt8.ofNat mirrors = m ∧ DigestTree.keyhash hasher key = h)) :
    Indexed (k.update hasher l key value mirrors) m h := by
  have htree : ∀ tree : DigestTree, (∃ v, tree.tree.get h = some v) ∨ DigestTree.keyhash hasher key = h →
      ∃ v, (tree.update hasher key value).tree.get h = some v := by
    intro tree hin
    by_cases hkey : DigestTree.keyhash hasher key = h
    · obtain ⟨hash, hget⟩ := @DigestTree.update_get hasher tree key value
      exact ⟨_, hkey ▸ hget⟩
    · rw [DigestTree.update_get_of_ne _ hkey]
      exact hin.resolve_right hkey
  have hsections : ∀ x : DigestIndexer, (∃ id e, x.Holds id e ∧ e.1 = h) ∨ DigestTree.keyhash hasher key = h →
      ∃ id e, (x.update hasher l key value).Holds id e ∧ e.1 = h := by
    intro x hin
    obtain ⟨hash, hholds⟩ := @DigestIndexer.update_holds hasher x l key value
    by_cases hkey : DigestTree.keyhash hasher key = h
    · exact ⟨_, _, (hholds _ _).2 (Or.inl ⟨rfl, rfl⟩), hkey⟩
    · obtain ⟨id, e, he, rfl⟩ := hin.resolve_right hkey
      exact ⟨id, e, (hholds id e).2 (Or.inr ⟨he, fun _ => Ne.symm hkey⟩), rfl⟩
  simp only [Indexed, KeyTabulator.update, SortedMap.get_insert] at hindexed ⊢
  by_cases hm : UInt8.ofNat mirrors = m
  · subst hm
    simp only [if_true, true_and] at hindexed ⊢
    cases hforest : k.forest.get (UInt8.ofNat mirrors) with
    | some forest =>
      simp only [hforest] at hindexed
      cases forest with
      | universal tree => exact htree tree hindexed
      | sections x => exact hsections x hindexed
    | none =>
      simp only [hforest, false_or] at hindexed
      by_cases hzero : mirrors = 0
      · simp only [hzero, if_true]
        exact htree _ (Or.inr hindexed)
      · simp only [hzero, if_false]
        exact hsections _ (Or.inr hindexed)
  · simp only [hm, if_false, false_and, or_false] at hindexed ⊢
    exact hindexed

lemma Due.step (hlen : ∀ name, 8 ≤ (hasher name).length) (hs : Consistent hasher s) {a : Action}
    (horderly : s.Orderly hasher a) {m : UInt8} {h : KeyHash} (hdue : Due hasher s m h) :
    Due hasher (s.step hasher a) m h := by
  cases a with
  | insert uid => exact hdue
  | split uid =>
    by_cases huid : uid ∈ s.adding
    · simp only [Growth.step, if_pos huid]
      refine hdue.imp_right ?_
      rintro ⟨key, value, mirrors, hop, hm⟩
      exact ⟨key, value, mirrors, List.mem_append_left _ hop, hm⟩
    · simpa only [Growth.step, if_neg huid] using hdue
  | update key value mirrors =>
    refine hdue.imp_right ?_
    rintro ⟨key, value, mirrors, hop, hm⟩
    exact ⟨key, value, mirrors, List.mem_append_left _ hop, hm⟩
  | execute =>
    cases hscheduled : s.keyTabulator.scheduled with
    | nil => simpa only [Growth.step, hscheduled] using hdue
    | cons operation scheduled =>
      simp only [Growth.step, hscheduled]
      rcases hs.scheduled operation (hscheduled ▸ List.mem_cons_self) with ⟨key, value, mirrors, rfl⟩ | ⟨uid, rfl⟩
      · rcases hdue with hindexed | ⟨key', value', mirrors', hop, hm⟩
        · exact Or.inl (indexed_update (Or.inl hindexed))
        · rw [hscheduled] at hop
          rcases List.mem_cons.1 hop with heq | hop
          · obtain ⟨rfl, rfl, rfl⟩ := IndexOperation.update.inj heq
            exact Or.inl (indexed_update (Or.inr hm))
          · exact Or.inr ⟨key', value', mirrors', hop, hm⟩
      · rcases hdue with hindexed | ⟨key', value', mirrors', hop, hm⟩
        · left
          simp only [Orderly, hscheduled] at horderly
          have huid : hasher uid ∈ s.ring.ring.keys := hs.pending uid (by simp [pending, hscheduled])
          simp only [Indexed, IndexOperation.run, KeyTabulator.splitSection, SortedMap.get_mapValues] at hindexed ⊢
          cases hforest : s.keyTabulator.index.forest.get m with
          | none => simp [hforest] at hindexed
          | some forest =>
            simp only [hforest, Option.map_some] at hindexed ⊢
            cases forest with
            | universal tree => exact hindexed
            | sections x =>
              obtain ⟨id, e, he, rfl⟩ := hindexed
              obtain ⟨-, hholds, -⟩ := (hs.grouped m x hforest).splitSection hlen
                (fun n hn => by
                  obtain ⟨name, rfl⟩ := hs.nodes n hn.1
                  exact hlen name)
                (sectionOf_node hs huid) (horderly m x hforest)
              obtain ⟨id', he'⟩ := (hholds e).2 ⟨id, he⟩
              exact ⟨id', e, he', rfl⟩
        · rw [hscheduled] at hop
          rcases List.mem_cons.1 hop with heq | hop
          · exact absurd heq (by simp)
          · exact Or.inr ⟨key', value', mirrors', hop, hm⟩

lemma Consistent.run (hlen : ∀ name, 8 ≤ (hasher name).length) (h : Consistent hasher s) {actions : List Action}
    (horderly : Along (Growth.step hasher) (Orderly hasher) s actions) : Consistent hasher (s.run hasher actions) :=
  horderly.invariant (fun _ _ hs ha => hs.step hlen ha) h

lemma Due.run (hlen : ∀ name, 8 ≤ (hasher name).length) (hs : Consistent hasher s) {actions : List Action}
    (horderly : Along (Growth.step hasher) (Orderly hasher) s actions) {m : UInt8} {h : KeyHash}
    (hdue : Due hasher s m h) : Due hasher (s.run hasher actions) m h :=
  (horderly.invariant (I := fun s => Consistent hasher s ∧ Due hasher s m h)
    (fun _ _ hs ha => ⟨hs.1.step hlen ha, hs.2.step hlen hs.1 ha⟩) ⟨hs, hdue⟩).2

structure Settled (hasher : Bytes → Bytes) (s : Growth) : Prop where
  nodes : ∀ n ∈ s.ring.ring.keys, ∃ name, hasher name = n
  nonempty : s.ring.ring.entries ≠ []
  adding : s.adding = []
  scheduled : s.keyTabulator.scheduled = []
  grouped : ∀ (m : UInt8) (x : DigestIndexer), s.keyTabulator.index.forest.get m = some (.sections x) →
    x.GroupedBy hasher s.ring ∧ ∀ id tree, x.forest.get id = some tree → tree.id.id = id

lemma Settled.consistent (h : Settled hasher s) : Consistent hasher s := by
  have hpending : s.pending = [] := by simp [pending, h.adding, h.scheduled]
  refine ⟨h.nodes, h.nonempty, by simp [hpending], by simp [h.scheduled], fun m x hx => ?_⟩
  obtain ⟨hgrouped, hnamed⟩ := h.grouped m x hx
  have howned : ∀ id e, x.Holds id e → Owns {n | n ∈ s.ring.ring.keys} id (hasher e.2.2) := fun id e he =>
    hgrouped.grouped id e he ▸ ConsistentHashRing.nodeId_owns h.nonempty _
  refine DigestIndexer.Grouped.mono ⟨hgrouped.nonempty, hnamed, hgrouped.keyed, howned⟩ (settled_subset x) ?_
  intro id tree htree
  obtain ⟨e, he⟩ := List.exists_mem_of_ne_nil _ (hgrouped.nonempty id tree htree)
  exact ⟨(howned id e ⟨tree, htree, he⟩).node, fun _ => ⟨tree, htree⟩⟩

def longName (name : Bytes) : Bytes := name ++ List.replicate 8 0

def small (key : Bytes) : Growth where
  ring := (⟨.empty⟩ : ConsistentHashRing).insert longName [100] [100]
  self := some [100]
  keyTabulator := ⟨(⟨.empty⟩ : KeyTabulator).update longName
    ⟨(⟨.empty⟩ : ConsistentHashRing).insert longName [100] [100], some [100]⟩ key 5 3, []⟩

lemma small_index {key : Bytes} {m : UInt8} {x : DigestIndexer}
    (hx : (small key).keyTabulator.index.forest.get m = some (.sections x)) :
    m = 3 ∧ x = ({} : DigestIndexer).update longName (small key).locator key 5 := by
  rcases KeyTabulator.update_sections hx with ⟨-, hold⟩ | ⟨x, rfl, hold | ⟨-, rfl⟩, rfl⟩
  · simp at hold
  · simp at hold
  · exact ⟨rfl, rfl⟩

lemma small_settled (key : Bytes) : Settled longName (small key) := by
  have hnonempty : (small key).ring.ring.entries ≠ [] := by
    simp [small, ConsistentHashRing.insert, SortedMap.insert, SortedMap.put, SortedMap.empty]
  refine ⟨?_, hnonempty, rfl, rfl, ?_⟩
  · intro n hn
    rcases ConsistentHashRing.mem_insert_keys.1 hn with rfl | hn
    · exact ⟨_, rfl⟩
    · simp [SortedMap.keys, SortedMap.empty] at hn
  · intro m x hx
    obtain ⟨-, rfl⟩ := small_index hx
    have hempty : DigestIndexer.Grouped longName {n | n ∈ (small key).ring.ring.keys} {} := by
      constructor <;> simp [DigestIndexer.Holds]
    have hown : Owns {n | n ∈ (small key).ring.ring.keys} ((small key).locator.sectionOf longName key)
        (longName key) := ConsistentHashRing.nodeId_owns hnonempty (longName key)
    have hgrouped := @DigestIndexer.Grouped.update _ _ (small key).locator _ key 5 hempty
      (by rwa [Set.insert_eq_of_mem hown.node]) (by simp [DigestIndexer.Holds])
    exact ⟨(DigestIndexer.GroupedBy.empty _ _).update key 5, hgrouped.named⟩

lemma small_holds {key : Bytes} {m : UInt8} {x : DigestIndexer}
    (hx : (small key).keyTabulator.index.forest.get m = some (.sections x)) {id : Bytes} {e : KeyHash × UInt64 × Bytes}
    (he : x.Holds id e) : e.2.2 = key := by
  obtain ⟨-, rfl⟩ := small_index hx
  obtain ⟨hash, hholds⟩ := @DigestIndexer.update_holds longName {} (small key).locator key 5
  rcases (hholds id e).1 he with ⟨-, rfl⟩ | ⟨⟨tree, htree, -⟩, -⟩
  · rfl
  · simp at htree

def addPeer : List Action := [.insert [50], .split [50], .execute]

theorem drained_grouped (hlen : ∀ name, 8 ≤ (hasher name).length) {s₀ : Growth} (hstart : Settled hasher s₀)
    {actions : List Action} (horderly : Along (step hasher) (Orderly hasher) s₀ actions)
    (hs : s₀.run hasher actions = s) (hadding : s.adding = []) (hscheduled : s.keyTabulator.scheduled = []) :
    (∀ (m : UInt8) (x : DigestIndexer), s.keyTabulator.index.forest.get m = some (.sections x) →
      ∀ id e, x.Holds id e → s.ring.nodeId (hasher e.2.2) = id) ∧
    ∀ (m : UInt8) (h : KeyHash), (Indexed s₀.keyTabulator.index m h ∨ ∃ key value mirrors,
      .update key value mirrors ∈ actions ∧ UInt8.ofNat mirrors = m ∧ DigestTree.keyhash hasher key = h) →
      Indexed s.keyTabulator.index m h := by
  have hpending : s.pending = [] := by simp [pending, hadding, hscheduled]
  have hfinal : Consistent hasher s := hs ▸ hstart.consistent.run hlen horderly
  constructor
  · intro m x hx id e he
    have hall : s.settled hasher x = {n | n ∈ s.ring.ring.keys} := by
      ext n
      simp [settled, hpending]
    have howned := (hfinal.grouped m x hx).owned id e he
    rw [hall] at howned
    exact (ConsistentHashRing.nodeId_owns hfinal.nonempty _).unique howned
  · intro m h hin
    have hdone : Due hasher s m h → Indexed s.keyTabulator.index m h := by
      rintro (hindexed | ⟨key, value, mirrors, hop, -⟩)
      · exact hindexed
      · simp [hscheduled] at hop
    apply hdone
    rcases hin with hindexed | ⟨key, value, mirrors, hop, hm, hkey⟩
    · exact hs ▸ Due.run hlen hstart.consistent horderly (Or.inl hindexed)
    · obtain ⟨before, after, rfl⟩ := List.append_of_mem hop
      obtain ⟨hbefore, -, hafter⟩ := (along_append _).1 horderly
      have hmid := hstart.consistent.run hlen hbefore
      have hupdated : Due hasher ((s₀.run hasher before).step hasher (.update key value mirrors)) m h :=
        Or.inr ⟨key, value, mirrors, List.mem_append_right _ List.mem_cons_self, hm, hkey⟩
      have hrun := Due.run hlen (hmid.step hlen (a := .update key value mirrors) trivial) hafter hupdated
      rw [← hs, Growth.run, List.foldl_append, List.foldl_cons]
      exact hrun

theorem drained_grouped_example :
    (∀ (m : UInt8) (x : DigestIndexer),
      ((small [30]).run longName addPeer).keyTabulator.index.forest.get m = some (.sections x) → ∀ id e,
      x.Holds id e → ((small [30]).run longName addPeer).ring.nodeId (longName e.2.2) = id) ∧
    ∀ (m : UInt8) (h : KeyHash), (Indexed (small [30]).keyTabulator.index m h ∨ ∃ key value mirrors,
      .update key value mirrors ∈ addPeer ∧ UInt8.ofNat mirrors = m ∧ DigestTree.keyhash longName key = h) →
      Indexed ((small [30]).run longName addPeer).keyTabulator.index m h := by
  have hlen : ∀ name, 8 ≤ (longName name).length := by simp [longName]
  refine drained_grouped hlen (small_settled [30]) ⟨trivial, trivial, ?_, trivial⟩ rfl rfl rfl
  intro m x hx _
  replace hx : (small [30]).keyTabulator.index.forest.get m = some (.sections x) := hx
  set s := ((small [30]).step longName (.insert [50])).step longName (.split [50]) with hs
  have hring : ∀ n, n ∈ s.ring.ring.keys → n = longName [50] ∨ n = longName [100] := by
    intro n hn
    rcases ConsistentHashRing.mem_insert_keys.1 hn with rfl | hn
    · exact Or.inl rfl
    · rcases ConsistentHashRing.mem_insert_keys.1 hn with rfl | hn
      · exact Or.inr rfl
      · simp [SortedMap.keys, SortedMap.empty] at hn
  constructor
  case below =>
    intro id e he hbelow
    have hmem : longName [100] ∈ s.settled longName x := by
      refine ⟨by decide, ?_⟩
      rintro ⟨uid, huid, heq⟩
      rw [show s.pending = [[50]] from rfl, List.mem_singleton] at huid
      subst huid
      exact absurd heq (by decide)
    have := (hbelow _ hmem).2
    rw [small_holds hx he] at this
    exact absurd this (by decide)
  case key =>
    intro id e he n hn heq
    rw [small_holds hx he] at heq
    have : n = longName [50] ∨ n = longName [100] := by
      rcases hn with rfl | hn
      · exact Or.inl rfl
      · exact hring n hn.1
    rcases this with rfl | rfl
    · exact absurd heq (by decide)
    · exact absurd heq (by decide)
  case apart =>
    intro n hn heq
    rcases hring n hn.1 with rfl | rfl
    · rfl
    · exact absurd heq (by decide)

theorem not_grouped_when_first : Settled longName (small [200]) ∧
    ((small [200]).run longName addPeer).adding = [] ∧
    ((small [200]).run longName addPeer).keyTabulator.scheduled = [] ∧
    ∃ x, ((small [200]).run longName addPeer).keyTabulator.index.forest.get 3 = some (.sections x) ∧
      ∃ id e, x.Holds id e ∧ ((small [200]).run longName addPeer).ring.nodeId (longName e.2.2) ≠ id := by
  refine ⟨small_settled _, rfl, rfl, _, rfl, longName [100], (⟨200⟩, 205, [200]), ⟨_, rfl, ?_⟩, ?_⟩
  · decide
  · decide

end Runs

end Growth

end Turbopump
