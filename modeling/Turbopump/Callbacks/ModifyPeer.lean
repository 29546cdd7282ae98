import Turbopump.Common.VectorClock
import Turbopump.Deskew.DigestIndexer
import Turbopump.Membership.KnownPeers

/-! The callback that changes the membership: what removing a peer does to ring and index. -/

namespace Turbopump

structure ModifyPeer (α τ : Type) where
  ring : ConsistentHashRing
  membership : KnownPeers α τ
  keyTabulator : KeyTabulator

namespace ModifyPeer

variable {α τ : Type} [DecidableEq α] (A : SocketAddress α) (R : RoutingTable τ) (hasher : Bytes → Bytes)

def locator (m : ModifyPeer α τ) : LocateKeys := ⟨m.ring, m.membership.self.map Peer.uid⟩

/-- `saved` is what `_membership.save()` returns. -/
def remove (m : ModifyPeer α τ) (uid : Bytes) (saved : Bool) : Bool × ModifyPeer α τ :=
  let (removed, membership) := m.membership.remove A R uid
  let m := { m with membership := membership }
  if ¬ removed then (false, m)
  else if ¬ saved then (false, m)
  else
    let m := { m with ring := (m.ring.erase hasher uid).2 }
    (true, { m with keyTabulator := m.keyTabulator.cannibalizeSection hasher m.locator uid })

def update (m : ModifyPeer α τ) (uid contents : Bytes) (saved : Bool) : Bool × ModifyPeer α τ :=
  let (isNew, membership) := m.membership.update A R uid [contents]
  let m := { m with membership := membership }
  if ¬ saved then (false, m)
  else if ¬ isNew then (true, m)
  else
    let m := { m with ring := m.ring.insert hasher uid uid }
    (true, { m with keyTabulator := m.keyTabulator.splitSection hasher m.locator uid })

def membershipFilePrefix : Bytes := ascii ".membership/"

/-- `none` is an exception out of `fromString`. -/
def run (T : TurboLib) (m : ModifyPeer α τ) (name version contents : Bytes) (saved : Bool) :
    Option Bool × ModifyPeer α τ :=
  if ¬ membershipFilePrefix <+: name then (some false, m)
  else
    let uid := name.drop membershipFilePrefix.length
    let answer := match VectorClock.fromString T version with
      | .threw => none
      | .parsed v => some (VectorClock.isDeleted v)
      | .failed => some (VectorClock.isDeleted [])
    match answer with
    | none => (none, m)
    | some true => ((m.remove A R hasher uid saved).1, (m.remove A R hasher uid saved).2)
    | some false => ((m.update A R hasher uid contents saved).1, (m.update A R hasher uid contents saved).2)

section Remove

variable {A R hasher} {m m' : ModifyPeer α τ} {uid : Bytes} {saved : Bool}

lemma remove_true (h : m.remove A R hasher uid saved = (true, m')) :
    m'.ring = (m.ring.erase hasher uid).2 ∧
    m'.keyTabulator = m.keyTabulator.cannibalizeSection hasher m'.locator uid := by
  rcases hr : m.membership.remove A R uid with ⟨removed, membership⟩
  simp only [remove, hr] at h
  split at h
  · simp at h
  · split at h
    · simp at h
    · obtain rfl := (Prod.mk.inj h).2
      exact ⟨rfl, rfl⟩

lemma remove_indexer (h : m.remove A R hasher uid saved = (true, m')) {mirrors : UInt8} {x : DigestIndexer}
    (hx : m.keyTabulator.forest.get mirrors = some (.sections x)) :
    m'.keyTabulator.forest.get mirrors = some (.sections (x.cannibalizeSection hasher m'.locator uid)) := by
  rw [(remove_true h).2, KeyTabulator.cannibalizeSection, SortedMap.get_mapValues, hx]
  rfl

theorem remove_regroups_iff (h : m.remove A R hasher uid saved = (true, m')) (htwo : 2 ≤ m.ring.ring.entries.length)
    {mirrors : UInt8} {x : DigestIndexer} (hx : m.keyTabulator.forest.get mirrors = some (.sections x))
    (hg : x.GroupedBy hasher m.ring) :
    (∃ x', m'.keyTabulator.forest.get mirrors = some (.sections x') ∧ x.Regrouped hasher m'.ring x') ↔
      x.forest.get (hasher uid) = none ∧ (x.forest.get (m.ring.successor hasher uid) = none ∨
        ∀ id ∈ x.forest.keys, id = m.ring.successor hasher uid) := by
  have hring := (remove_true h).1
  have hsection : m'.locator.sectionOf hasher uid = m.ring.successor hasher uid := by
    simp only [LocateKeys.sectionOf, locator, hring, ConsistentHashRing.successor]
  have hne : m.ring.ring.entries ≠ [] := List.ne_nil_of_length_pos (by omega)
  have hsuccessor : m.ring.successor hasher uid ≠ hasher uid := ConsistentHashRing.nodeId_erase_ne htwo _
  simp only [remove_indexer h hx, Option.some.injEq, Indexer.sections.injEq, exists_eq_left', hring]
  rw [← hsection] at hsuccessor ⊢
  constructor
  · intro hmoved
    have hnode : x.forest.get (hasher uid) = none := by
      by_contra hsome
      obtain ⟨tree, htree⟩ := Option.ne_none_iff_exists'.1 hsome
      obtain ⟨e, he⟩ := List.exists_mem_of_ne_nil _ (hg.nonempty _ _ htree)
      have hstays := (hmoved _ _).1 (DigestIndexer.Holds.cannibalizeSection ⟨tree, htree, he⟩ (Ne.symm hsuccessor))
      exact ConsistentHashRing.nodeId_erase_ne htwo _ hstays.2
    refine ⟨hnode, ?_⟩
    by_contra hboth
    obtain ⟨hsome, hother⟩ := not_or.1 hboth
    obtain ⟨id, hid⟩ := not_forall.1 hother
    obtain ⟨hid, hidne⟩ := Classical.not_imp.1 hid
    obtain ⟨tree, htree⟩ := Option.ne_none_iff_exists'.1 hsome
    obtain ⟨e, he⟩ := List.exists_mem_of_ne_nil _ (hg.nonempty _ _ htree)
    have hgrouped := hg.grouped _ e ⟨tree, htree, he⟩
    -- the successor's own key is still due in the tree that is gone
    obtain ⟨tree', htree', -⟩ := (hmoved (m'.locator.sectionOf hasher uid) e).2 ⟨⟨_, tree, htree, he⟩, by
      rw [ConsistentHashRing.nodeId_erase hne (hgrouped ▸ hsuccessor), hgrouped]⟩
    rw [DigestIndexer.cannibalizeSection_get hid hidne] at htree'
    simp at htree'
  · rintro ⟨hnode, hsuc⟩ id e
    rw [DigestIndexer.cannibalizeSection_eq_self hsuc]
    have hkeeps : ∀ id', x.Holds id' e → (m.ring.erase hasher uid).2.nodeId (hasher e.2.2) = id' := by
      intro id' hin
      have hgrouped := hg.grouped _ _ hin
      obtain ⟨tree, htree, -⟩ := hin
      rw [ConsistentHashRing.nodeId_erase hne, hgrouped]
      rintro heq
      rw [← hgrouped, heq, hnode] at htree
      simp at htree
    constructor
    · exact fun hin => ⟨⟨id, hin⟩, hkeeps id hin⟩
    · rintro ⟨⟨id', hin⟩, rfl⟩
      rwa [hkeeps id' hin]

def sampleHasher (name : Bytes) : Bytes :=
  if name = ascii "hello" then [0x04, 0x5a, 0x73, 0x46, 0x70, 0xd8, 0x60, 0x05, 0x66, 0x4f, 0x58, 0x91, 0xcb,
    0xb1, 0xac, 0x63, 0xf1, 0xb6, 0x3d, 0x96, 0xc0, 0xaa, 0xb8, 0xe6]
  else if name = ascii "world" then [0xad, 0x7f, 0x04, 0xd8, 0xb4, 0x8f, 0xe6, 0xe4, 0xdb, 0xb7, 0x26, 0x40, 0xb5,
    0xb1, 0x12, 0xf4, 0xcc, 0x0c, 0x64, 0x8d, 0x24, 0xc0, 0x04, 0x2c]
  else []

def sampleRing : ConsistentHashRing :=
  ((⟨.empty⟩ : ConsistentHashRing).insert sampleHasher (ascii "hello") (ascii "hello")).insert sampleHasher
    (ascii "world") (ascii "world")

def sampleIndexer (key : Bytes) : DigestIndexer :=
  ({} : DigestIndexer).update sampleHasher ⟨sampleRing, some (ascii "world")⟩ key 5

def sample (key : Bytes) : ModifyPeer Unit (SortedMap Bytes ℕ) where
  ring := sampleRing
  membership := ⟨some ⟨ascii "world", []⟩, SortedMap.empty.insert (ascii "hello") 0, fun _ => none,
    [⟨ascii "hello", []⟩]⟩
  keyTabulator := ⟨SortedMap.empty.insert 3 (.sections (sampleIndexer key))⟩

def sampleRemove (key : Bytes) : Bool × ModifyPeer Unit (SortedMap Bytes ℕ) :=
  (sample key).remove ⟨fun _ => none, id⟩ sortedTable sampleHasher (ascii "hello") true

theorem remove_regroups_iff_example :
    ∃ x', (sampleRemove (ascii "world")).2.keyTabulator.forest.get 3 = some (.sections x') ∧
      (sampleIndexer (ascii "world")).Regrouped sampleHasher (sampleRemove (ascii "world")).2.ring x' := by
  have hremove : (sample (ascii "world")).remove ⟨fun _ => none, id⟩ sortedTable sampleHasher (ascii "hello") true =
    (true, (sampleRemove (ascii "world")).2) := rfl
  have hgrouped : (sampleIndexer (ascii "world")).GroupedBy sampleHasher (sample (ascii "world")).ring :=
    (DigestIndexer.GroupedBy.empty _ _).update _ _
  exact (remove_regroups_iff hremove (by decide) rfl hgrouped).2 ⟨rfl, Or.inr (by decide)⟩

theorem not_regrouped_of_indexed_key :
    (sampleRemove (ascii "hello")).1 = true ∧
    (sampleIndexer (ascii "hello")).GroupedBy sampleHasher (sample (ascii "hello")).ring ∧
    ¬ ∃ x', (sampleRemove (ascii "hello")).2.keyTabulator.forest.get 3 = some (.sections x') ∧
      (sampleIndexer (ascii "hello")).Regrouped sampleHasher (sampleRemove (ascii "hello")).2.ring x' := by
  refine ⟨rfl, (DigestIndexer.GroupedBy.empty _ _).update _ _, ?_⟩
  rintro ⟨x', hx', hmoved⟩
  have hsame : (sampleRemove (ascii "hello")).2.keyTabulator.forest.get 3 =
    some (.sections (sampleIndexer (ascii "hello"))) := rfl
  obtain rfl : sampleIndexer (ascii "hello") = x' := by
    rw [hsame, Option.some.injEq, Indexer.sections.injEq] at hx'
    exact hx'
  have hholds : (sampleIndexer (ascii "hello")).Holds (sampleHasher (ascii "hello"))
    (DigestTree.keyhash sampleHasher (ascii "hello"), 387547544683764225, ascii "hello") := ⟨_, rfl, by decide⟩
  exact absurd ((hmoved _ _).1 hholds).2 (by decide)

end Remove

end ModifyPeer

end Turbopump
