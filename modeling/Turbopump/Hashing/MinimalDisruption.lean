import Turbopump.Hashing.ConsistentHashRing
import Turbopump.Lib.Circle

/-! A key is located where its section is, and a node that joins the ring only adds itself. -/

namespace Turbopump

namespace ConsistentHashRing

def peers (r : ConsistentHashRing) : List Bytes := r.ring.entries.map Prod.snd

section Insert

variable {hasher : Bytes → Bytes} {r : ConsistentHashRing} {node : Bytes}

lemma locations_nodeId (r : ConsistentHashRing) (key : Bytes) (limit : ℕ) :
    r.locations (r.nodeId key) limit = r.locations key limit := by
  cases he : r.ring.atOrAfter key with
  | some e => rw [locations, locations, nodeId, he, SortedMap.circleFrom_atOrAfter he]
  | none =>
    have hempty : r.ring.entries = [] := by
      by_contra hne
      obtain ⟨e, he'⟩ := SortedMap.exists_atOrAfter hne key
      simp [he] at he'
    simp [locations, SortedMap.circleFrom, hempty]

lemma locations_length (r : ConsistentHashRing) (key : Bytes) (limit : ℕ) :
    (r.locations key limit).length = min limit r.ring.entries.length := by
  rw [locations, List.length_map, List.length_take, (r.ring.circleFrom_perm key).length_eq]

lemma locations_nodup (r : ConsistentHashRing) : (∀ key limit, (r.locations key limit).Nodup) ↔ r.peers.Nodup := by
  have hperm (key : Bytes) : ((r.ring.circleFrom key).map Prod.snd).Perm r.peers :=
    (r.ring.circleFrom_perm key).map _
  constructor
  · intro h
    have hall := h [] (r.ring.circleFrom []).length
    rw [locations, List.take_length] at hall
    exact (hperm []).nodup_iff.1 hall
  · intro h key limit
    refine ((hperm key).nodup_iff.2 h).sublist ?_
    exact (List.take_sublist _ _).map _

lemma nodeId_insert (h : r.ring.get (hasher node) = none) (peer key : Bytes) :
    (r.insert hasher node peer).nodeId key = r.nodeId key ∨
      (r.insert hasher node peer).nodeId key = hasher node := by
  obtain ⟨before, after, hold, hnew⟩ := SortedMap.circleFrom_insert peer h key
  cases before with
  | nil =>
    right
    simp only [nodeId, SortedMap.atOrAfter, insert, hnew, List.nil_append, List.head?_cons]
  | cons e before =>
    left
    simp only [nodeId, SortedMap.atOrAfter, insert, hnew, hold, List.cons_append, List.head?_cons]

lemma take_insert {α : Type} (before after : List α) (a : α) (limit : ℕ) : ∃ front back,
    (before ++ after).take limit = front ++ back ∧ (before ++ a :: after).take limit =
      (front ++ a :: back).take limit := by
  by_cases hlimit : limit ≤ before.length
  · refine ⟨before.take limit, [], ?_, ?_⟩
    · rw [List.take_append_of_le_length hlimit, List.append_nil]
    · rw [List.take_append_of_le_length hlimit, List.take_append_of_le_length (by simpa using hlimit), List.take_take,
        min_self]
  · have hlt : before.length < limit := not_le.1 hlimit
    obtain ⟨n, rfl⟩ : ∃ n, limit = before.length + (n + 1) := ⟨limit - before.length - 1, by omega⟩
    refine ⟨before, after.take (n + 1), ?_, ?_⟩
    · rw [List.take_length_add_append]
    · rw [List.take_length_add_append, List.take_length_add_append, List.take_succ_cons, List.take_succ_cons,
        List.take_take, min_eq_left (Nat.le_succ n)]

lemma locations_insert (h : r.ring.get (hasher node) = none) (peer key : Bytes) (limit : ℕ) : ∃ front back,
    r.locations key limit = front ++ back ∧
      (r.insert hasher node peer).locations key limit = (front ++ peer :: back).take limit := by
  obtain ⟨before, after, hold, hnew⟩ := SortedMap.circleFrom_insert peer h key
  obtain ⟨front, back, htake, hinsert⟩ := take_insert (before.map Prod.snd) (after.map Prod.snd) peer limit
  refine ⟨front, back, ?_, ?_⟩
  · rw [locations, hold, List.map_take, List.map_append, htake]
  · rw [locations, insert, hnew, List.map_take, List.map_append, List.map_cons, hinsert]

lemma insert_length (h : r.ring.get (hasher node) = none) (peer : Bytes) :
    (r.insert hasher node peer).ring.entries.length = r.ring.entries.length + 1 := by
  obtain ⟨before, after, hold, hnew⟩ := SortedMap.exists_put peer h
  simp only [insert, SortedMap.insert, hnew]
  rw [hold]
  simp
  omega

lemma erase_insert (h : r.ring.get (hasher node) = none) (peer : Bytes) :
    (r.insert hasher node peer).erase hasher node = (true, r) := by
  simp only [erase, insert, SortedMap.get_insert_self, SortedMap.erase_insert peer h, Option.isSome_some]

theorem insert_disrupts (h : r.ring.get (hasher node) = none) (peer : Bytes) :
    (∀ key, (r.insert hasher node peer).nodeId key = r.nodeId key ∨
      (r.insert hasher node peer).nodeId key = hasher node) ∧
    (∀ key limit, ∃ front back, r.locations key limit = front ++ back ∧
      (r.insert hasher node peer).locations key limit = (front ++ peer :: back).take limit) ∧
    (∀ key limit, ((r.insert hasher node peer).locations key limit).length = min limit (r.ring.entries.length + 1)) ∧
    ((∀ key limit, ((r.insert hasher node peer).locations key limit).Nodup) ↔
      (r.insert hasher node peer).peers.Nodup) ∧
    (r.insert hasher node peer).erase hasher node = (true, r) := by
  refine ⟨nodeId_insert h peer, locations_insert h peer, fun key limit => ?_, locations_nodup _, erase_insert h peer⟩
  rw [locations_length, insert_length h]

theorem insert_disrupts_two : ((⟨⟨[([1], [1])], List.pairwise_singleton _ _⟩⟩ : ConsistentHashRing).insert
    id [2] [2]).erase id [2] = (true, ⟨⟨[([1], [1])], List.pairwise_singleton _ _⟩⟩) :=
  (insert_disrupts (by decide) [2]).2.2.2.2

theorem insert_duplicates : (⟨⟨[([1], [7])], List.pairwise_singleton _ _⟩⟩ : ConsistentHashRing).ring.get
    (id [2]) = none ∧
    ((⟨⟨[([1], [7])], List.pairwise_singleton _ _⟩⟩ : ConsistentHashRing).insert id [2] [7]).locations [0] 2 =
      [[7], [7]] := by
  decide

end Insert

end ConsistentHashRing

namespace LocateKeys

theorem locations_sectionOf (hasher : Bytes → Bytes) (l : LocateKeys) (name : Bytes) (limit : ℕ) :
    l.locations hasher name limit = l.ring.locations (l.sectionOf hasher name) limit ∧
      l.keyIsMine hasher name limit = l.sectionIsMine (l.sectionOf hasher name) limit := by
  have hlocs : l.locations hasher name limit = l.ring.locations (l.sectionOf hasher name) limit :=
    (ConsistentHashRing.locations_nodeId l.ring (hasher name) limit).symm
  refine ⟨hlocs, ?_⟩
  rw [keyIsMine, sectionIsMine, hlocs]

end LocateKeys

end Turbopump
