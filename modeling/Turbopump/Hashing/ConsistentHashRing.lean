import Turbopump.Basic
import Turbopump.Lib.SortedMap

/-! Hashes, the ring of nodes at their hashes, and the sections that the ring assigns keys to. The hash
function of a process is a parameter: `hasher name` is `Hash(name).str()`. -/

namespace Turbopump

def Hash.integer (hash : Bytes) : UInt64 :=
  -- `Hash::integer`: the first eight bytes, read in memory order.
  UInt64.ofNat ((hash.take 8).foldr (fun b n => b.toNat + 256 * n) 0)

/-- A 64-bit key of a merkle tree, which compares keys as the bytes they are in memory. -/
structure KeyHash where
  value : UInt64
  deriving DecidableEq

namespace KeyHash

def memory (k : KeyHash) : Bytes := (List.range 8).map fun i => UInt8.ofNat (k.value.toNat / 256 ^ i)

lemma memory_injective : Function.Injective memory := by
  rintro ⟨x⟩ ⟨y⟩ h
  have hx := x.toNat_lt
  have hy := y.toNat_lt
  simp only [memory, List.range_succ, List.range_zero, List.nil_append, List.map_cons,
    List.map_nil, List.cons_append, List.cons.injEq, ← UInt8.toNat_inj, UInt8.toNat_ofNat', Nat.reducePow,
    pow_zero, Nat.div_one, and_true] at h
  rw [KeyHash.mk.injEq, ← UInt64.toNat_inj]
  omega

instance : LinearOrder KeyHash := LinearOrder.lift' memory memory_injective

lemma le_iff {k k' : KeyHash} : k ≤ k' ↔ k.memory ≤ k'.memory := Iff.rfl

end KeyHash

structure ConsistentHashRing where
  ring : SortedMap Bytes Bytes

namespace ConsistentHashRing

variable (hasher : Bytes → Bytes)

def insert (r : ConsistentHashRing) (node peer : Bytes) : ConsistentHashRing := ⟨r.ring.insert (hasher node) peer⟩

def erase (r : ConsistentHashRing) (node : Bytes) : Bool × ConsistentHashRing :=
  ((r.ring.get (hasher node)).isSome, ⟨r.ring.erase (hasher node)⟩)

def locations (r : ConsistentHashRing) (key : Bytes) (limit : ℕ) : List Bytes :=
  ((r.ring.circleFrom key).take limit).map Prod.snd

def nodeId (r : ConsistentHashRing) (key : Bytes) : Bytes := match r.ring.atOrAfter key with
  | none => []
  | some node => node.1

def successor (r : ConsistentHashRing) (node : Bytes) : Bytes := (r.erase hasher node).2.nodeId (hasher node)

section Nodes

variable {hasher} {r : ConsistentHashRing} {node : Bytes}

lemma nodeId_mem (h : r.ring.entries ≠ []) (key : Bytes) : ∃ peer, (r.nodeId key, peer) ∈ r.ring.entries := by
  obtain ⟨e, he⟩ := SortedMap.exists_atOrAfter h key
  exact ⟨e.2, by simpa [nodeId, he] using SortedMap.atOrAfter_mem he⟩

lemma nodeId_erase (h : r.ring.entries ≠ []) {key : Bytes} (hkey : r.nodeId key ≠ hasher node) :
    (r.erase hasher node).2.nodeId key = r.nodeId key := by
  obtain ⟨e, he⟩ := SortedMap.exists_atOrAfter h key
  have hid : r.nodeId key = e.1 := by simp [nodeId, he]
  rw [hid] at hkey ⊢
  simp only [nodeId, erase, SortedMap.atOrAfter_erase he hkey]

lemma nodeId_erase_ne (h : 2 ≤ r.ring.entries.length) (key : Bytes) :
    (r.erase hasher node).2.nodeId key ≠ hasher node := by
  intro heq
  obtain ⟨peer, hmem⟩ := nodeId_mem (r := (r.erase hasher node).2) (SortedMap.erase_ne_nil h _) key
  have := SortedMap.mem_entries.1 hmem
  rw [heq, erase, SortedMap.get_erase_self] at this
  simp at this

end Nodes

end ConsistentHashRing

structure LocateKeys where
  ring : ConsistentHashRing
  self : Option Bytes

namespace LocateKeys

variable (hasher : Bytes → Bytes) (l : LocateKeys)

def locations (name : Bytes) (limit : ℕ) : List Bytes := l.ring.locations (hasher name) limit

def sectionOf (name : Bytes) : Bytes := l.ring.nodeId (hasher name)

def containsSelf (locs : List Bytes) : Bool := match l.self with
  | none => false
  | some uid => uid ∈ locs

def keyIsMine (name : Bytes) (limit : ℕ) : Bool :=
  let locs := l.locations hasher name limit
  if locs = [] then true else l.containsSelf locs

def sectionIsMine (id : Bytes) (limit : ℕ) : Bool :=
  let locs := l.ring.locations id limit
  if locs = [] then true else l.containsSelf locs

end LocateKeys

end Turbopump
