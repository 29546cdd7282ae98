import Turbopump.Basic
import Turbopump.Lib.SortedMap

/-! The peers this process knows. -/

namespace Turbopump

structure Peer where
  uid : Bytes
  ips : List Bytes := []
  deriving DecidableEq

structure SocketAddress (α : Type) where
  fromString : Bytes → Option α
  host : α → α

structure RoutingTable (τ : Type) where
  find : τ → Bytes → Option ℕ
  insert : τ → Bytes → ℕ → τ
  erase : τ → Bytes → Bool × τ
  setOrigin : τ → Bytes → τ

/-- What is relied on of `routing_table`: it is a container of elements with distinct uids. -/
structure RoutingTable.Container {τ : Type} (R : RoutingTable τ) : Prop where
  insert : ∀ t uid p, R.find t uid = none →
    ∀ u, R.find (R.insert t uid p) u = if u = uid then some p else R.find t u
  erase : ∀ t uid p, R.find t uid = some p →
    (R.erase t uid).1 = true ∧ ∀ u, R.find (R.erase t uid).2 u = if u = uid then none else R.find t u
  setOrigin : ∀ t uid, (∀ u, R.find t u = none) → ∀ u, R.find (R.setOrigin t uid) u = none

def sortedTable : RoutingTable (SortedMap Bytes ℕ) where
  find := SortedMap.get
  insert := SortedMap.insert
  erase t uid := ((t.get uid).isSome, t.erase uid)
  setOrigin t _ := t

lemma sortedTable_container : sortedTable.Container where
  insert t uid p _ u := by
    by_cases hu : u = uid
    · simp [sortedTable, hu]
    · rw [if_neg hu]
      exact SortedMap.get_insert_of_ne t p (Ne.symm hu)
  erase t uid p hp := by
    refine ⟨by simpa [sortedTable] using congrArg Option.isSome hp, fun u => ?_⟩
    by_cases hu : u = uid
    · simp [sortedTable, hu]
    · rw [if_neg hu]
      exact SortedMap.get_erase_of_ne t (Ne.symm hu)
  setOrigin t _ h := h

structure KnownPeers (α τ : Type) where
  self : Option Peer
  members : τ
  ips : α → Option ℕ
  heap : List Peer

namespace KnownPeers

variable {α τ : Type} [DecidableEq α] (A : SocketAddress α) (R : RoutingTable τ)

def find (k : KnownPeers α τ) (uid : Bytes) : Option (ℕ × Peer) :=
  (R.find k.members uid).bind fun p => (k.heap[p]?).map fun peer => (p, peer)

def record (p : ℕ) (ips : α → Option ℕ) (ip : Bytes) : α → Option ℕ := match A.fromString ip with
  | none => ips
  | some addr => Function.update (Function.update ips addr (some p)) (A.host addr) (some p)

def update (k : KnownPeers α τ) (uid : Bytes) (ips : List Bytes) : Bool × KnownPeers α τ := match k.self with
  | none => (true, { k with self := some ⟨uid, ips⟩, members := R.setOrigin k.members uid })
  | some self =>
    if uid = self.uid then (false, { k with self := some { self with ips := ips } })
    else match k.find R uid with
      | none =>
        (true, { k with
          members := R.insert k.members uid k.heap.length
          heap := k.heap ++ [⟨uid, ips⟩]
          ips := ips.foldl (record A k.heap.length) k.ips })
      | some (p, peer) =>
        (false, { k with heap := k.heap.set p { peer with ips := ips }, ips := ips.foldl (record A p) k.ips })

def forget (peer : Peer) (uid : Bytes) (ips : α → Option ℕ) (ip : Bytes) : α → Option ℕ := match A.fromString ip with
  | none => ips
  | some addr =>
    let ips := Function.update ips addr none
    match ips (A.host addr) with
    | none => ips
    | some _ => if peer.uid = uid then Function.update ips (A.host addr) none else ips

def remove (k : KnownPeers α τ) (uid : Bytes) : Bool × KnownPeers α τ := match k.find R uid with
  | none => (false, k)
  | some (_, peer) =>
    let (erased, members) := R.erase k.members uid
    (erased, { k with members := members, ips := peer.ips.foldl (forget A peer uid) k.ips })

def lookup (k : KnownPeers α τ) (uid : Bytes) : Option ℕ := (k.find R uid).map Prod.fst

def lookupAddr (k : KnownPeers α τ) (addr : α) : Option ℕ := match k.ips addr with
  | none => k.ips (A.host addr)
  | some p => some p

structure WellFormed (k : KnownPeers α τ) : Prop where
  named : ∀ uid p, R.find k.members uid = some p → ∃ peer, k.heap[p]? = some peer ∧ peer.uid = uid
  origin : k.self = none → ∀ uid, R.find k.members uid = none
  self : ∀ self, k.self = some self → R.find k.members self.uid = none

section Steps

variable {A R} {k : KnownPeers α τ} {uid : Bytes} {ips : List Bytes}

omit [DecidableEq α] in
lemma find_eq_none (h : k.WellFormed R) : k.find R uid = none ↔ R.find k.members uid = none := by
  constructor
  · intro hnone
    cases hp : R.find k.members uid with
    | none => rfl
    | some p =>
      obtain ⟨peer, hpeer, -⟩ := h.named uid p hp
      simp [find, hp, hpeer] at hnone
  · intro hnone
    simp [find, hnone]

omit [DecidableEq α] in
lemma find_eq_some {p : ℕ} {peer : Peer} :
    k.find R uid = some (p, peer) ↔ R.find k.members uid = some p ∧ k.heap[p]? = some peer := by
  simp only [find, Option.bind_eq_some_iff, Option.map_eq_some_iff, Prod.mk.injEq]
  constructor
  · rintro ⟨p, hp, peer, hpeer, rfl, rfl⟩
    exact ⟨hp, hpeer⟩
  · rintro ⟨hp, hpeer⟩
    exact ⟨p, hp, peer, hpeer, rfl, rfl⟩

omit [DecidableEq α] in
lemma lookup_eq (h : k.WellFormed R) : k.lookup R uid = R.find k.members uid := by
  cases hp : R.find k.members uid with
  | none => simp [lookup, find, hp]
  | some p =>
    obtain ⟨peer, hpeer, -⟩ := h.named uid p hp
    simp [lookup, find, hp, hpeer]

lemma update_cases (h : k.WellFormed R) (uid : Bytes) (ips : List Bytes) :
    (k.self = none ∧ k.update A R uid ips =
      (true, { k with self := some ⟨uid, ips⟩, members := R.setOrigin k.members uid })) ∨
    (∃ self, k.self = some self ∧ uid = self.uid ∧ k.update A R uid ips =
      (false, { k with self := some { self with ips := ips } })) ∨
    (∃ self, k.self = some self ∧ uid ≠ self.uid ∧ R.find k.members uid = none ∧ k.update A R uid ips =
      (true, { k with
        members := R.insert k.members uid k.heap.length
        heap := k.heap ++ [⟨uid, ips⟩]
        ips := ips.foldl (record A k.heap.length) k.ips })) ∨
    ∃ self p peer, k.self = some self ∧ uid ≠ self.uid ∧ R.find k.members uid = some p ∧ k.heap[p]? = some peer ∧
      k.update A R uid ips =
        (false, { k with heap := k.heap.set p { peer with ips := ips }, ips := ips.foldl (record A p) k.ips }) := by
  cases hself : k.self with
  | none => exact Or.inl ⟨rfl, by simp only [update, hself]⟩
  | some self =>
    right
    by_cases huid : uid = self.uid
    · exact Or.inl ⟨self, rfl, huid, by simp only [update, hself, if_pos huid]⟩
    · right
      cases hp : R.find k.members uid with
      | none =>
        have hfind := (find_eq_none h).2 hp
        exact Or.inl ⟨self, rfl, huid, rfl, by simp only [update, hself, if_neg huid, hfind]⟩
      | some p =>
        obtain ⟨peer, hpeer, -⟩ := h.named uid p hp
        have hfind := find_eq_some.2 ⟨hp, hpeer⟩
        exact Or.inr ⟨self, p, peer, rfl, huid, rfl, hpeer, by simp only [update, hself, if_neg huid, hfind]⟩

lemma remove_cases (h : k.WellFormed R) (uid : Bytes) :
    (R.find k.members uid = none ∧ k.remove A R uid = (false, k)) ∨
    ∃ p peer, R.find k.members uid = some p ∧ k.heap[p]? = some peer ∧ peer.uid = uid ∧
      k.remove A R uid = ((R.erase k.members uid).1,
        { k with members := (R.erase k.members uid).2, ips := peer.ips.foldl (forget A peer uid) k.ips }) := by
  cases hp : R.find k.members uid with
  | none => exact Or.inl ⟨rfl, by simp only [remove, (find_eq_none h).2 hp]⟩
  | some p =>
    obtain ⟨peer, hpeer, huid⟩ := h.named uid p hp
    exact Or.inr ⟨p, peer, rfl, hpeer, huid, by simp only [remove, find_eq_some.2 ⟨hp, hpeer⟩]⟩

omit [DecidableEq α] in
lemma getElem?_set_of_uid {p q : ℕ} {peer other : Peer} (hp : k.heap[p]? = some peer) (hq : k.heap[q]? = some other)
    (ips : List Bytes) :
    ∃ other', (k.heap.set p { peer with ips := ips })[q]? = some other' ∧ other'.uid = other.uid := by
  by_cases hpq : p = q
  · subst hpq
    obtain rfl : peer = other := Option.some.inj (hp.symm.trans hq)
    have hlt : p < k.heap.length := (List.getElem?_eq_some_iff.1 hp).1
    exact ⟨{ peer with ips := ips }, by rw [List.getElem?_set_self hlt], rfl⟩
  · exact ⟨other, by rw [List.getElem?_set_ne hpq, hq], rfl⟩

lemma WellFormed.update (hR : R.Container) (h : k.WellFormed R) (uid : Bytes) (ips : List Bytes) :
    (k.update A R uid ips).2.WellFormed R := by
  rcases update_cases h uid ips with ⟨hself, hk⟩ | ⟨self, hself, huid, hk⟩ | ⟨self, hself, huid, hp, hk⟩ |
    ⟨self, p, peer, hself, huid, hp, hpeer, hk⟩
  · rw [hk]
    have hnone := hR.setOrigin k.members uid (h.origin hself)
    constructor
    · intro u p hp
      simp [hnone u] at hp
    · simp
    · intro self _
      exact hnone _
  · rw [hk]
    constructor
    · exact h.named
    · simp
    · rintro _ ⟨⟩
      exact h.self self hself
  · rw [hk]
    have hinsert := hR.insert k.members uid k.heap.length hp
    constructor
    · intro u q hq
      simp only [hinsert] at hq
      split_ifs at hq with hu
      · obtain rfl := Option.some.inj hq
        exact ⟨⟨uid, ips⟩, by simp, hu.symm⟩
      · obtain ⟨peer, hpeer, hname⟩ := h.named u q hq
        exact ⟨peer, List.getElem?_append_left (List.getElem?_eq_some_iff.1 hpeer).1 ▸ hpeer, hname⟩
    · simp [hself]
    · intro self' hself'
      obtain rfl : self = self' := Option.some.inj (hself.symm.trans hself')
      simp only [hinsert, if_neg (Ne.symm huid)]
      exact h.self self hself
  · rw [hk]
    constructor
    · intro u q hq
      obtain ⟨other, hother, hname⟩ := h.named u q hq
      obtain ⟨other', hother', hname'⟩ := getElem?_set_of_uid hpeer hother ips
      exact ⟨other', hother', hname'.trans hname⟩
    · simp [hself]
    · exact h.self

lemma WellFormed.remove (hR : R.Container) (h : k.WellFormed R) (uid : Bytes) :
    (k.remove A R uid).2.WellFormed R := by
  rcases remove_cases h uid with ⟨-, hk⟩ | ⟨p, peer, hp, -, -, hk⟩
  · rwa [hk]
  · rw [hk]
    have herase := (hR.erase k.members uid p hp).2
    constructor
    · intro u q hq
      simp only [herase] at hq
      split_ifs at hq
      exact h.named u q hq
    · intro hself u
      simp only [herase, h.origin hself u, ite_self]
    · intro self hself
      simp only [herase, h.self self hself, ite_self]

end Steps

end KnownPeers

end Turbopump
