import Turbopump.Lib.Runs
import Turbopump.Membership.KnownPeers

/-! The table of addresses that packets are accepted by, over sequences of updates and removals. -/

namespace Turbopump

inductive PacketReaction where
  | rejected
  | dismissed (peer : ℕ)
  | ignored
  | ran (peer : ℕ) (buffer : Bytes)

namespace KnownPeers

variable {α τ : Type} [DecidableEq α] (A : SocketAddress α) (R : RoutingTable τ)

def onPacket (k : KnownPeers α τ) (endpoint : α) (buff : Option Bytes) : PacketReaction :=
  -- `buff` is `none` where the source gets a null pointer.
  match k.lookupAddr A endpoint with
  | none => .rejected
  | some peer => match buff with
    | none => .dismissed peer
    | some buffer => if buffer = [] then .ignored else .ran peer buffer

inductive Call where
  | update (uid : Bytes) (ips : List Bytes)
  | remove (uid : Bytes)

def call (k : KnownPeers α τ) : Call → KnownPeers α τ
  | .update uid ips => (k.update A R uid ips).2
  | .remove uid => (k.remove A R uid).2

def IsMember (k : KnownPeers α τ) (p : ℕ) : Prop := ∃ peer, k.heap[p]? = some peer ∧ k.lookup R peer.uid = some p

structure Trusted (k : KnownPeers α τ) : Prop where
  lookupAddr : ∀ addr p, k.lookupAddr A addr = some p → k.IsMember R p
  onPacket : ∀ endpoint buff p, (k.onPacket A endpoint buff = .dismissed p ∨
    ∃ buffer, k.onPacket A endpoint buff = .ran p buffer) → k.IsMember R p

/-- A member that is removed is in the table under its present addresses only. -/
def Forgets (k : KnownPeers α τ) : Call → Prop
  | .update _ _ => True
  | .remove uid => ∀ p peer, k.find R uid = some (p, peer) → ∀ a, k.ips a = some p →
    ∃ ip ∈ peer.ips, ∃ addr, A.fromString ip = some addr ∧ (a = addr ∨ a = A.host addr)

structure Fresh (k : KnownPeers α τ) : Prop where
  members : ∀ uid, R.find k.members uid = none
  ips : ∀ a, k.ips a = none

section Runs

variable {A R} {k : KnownPeers α τ} {uid : Bytes}

omit [DecidableEq α] in
lemma trusted_iff : k.Trusted A R ↔ ∀ a p, k.ips a = some p → k.IsMember R p := by
  constructor
  · intro h a p ha
    apply h.lookupAddr a p
    simp [KnownPeers.lookupAddr, ha]
  · intro h
    have hlookup : ∀ addr p, k.lookupAddr A addr = some p → k.IsMember R p := by
      intro addr p hp
      simp only [KnownPeers.lookupAddr] at hp
      cases ha : k.ips addr with
      | none =>
        rw [ha] at hp
        exact h _ p hp
      | some q =>
        rw [ha] at hp
        exact h addr p (ha.trans hp)
    refine ⟨hlookup, fun endpoint buff p hp => ?_⟩
    simp only [KnownPeers.onPacket] at hp
    cases hpeer : k.lookupAddr A endpoint with
    | none => simp [hpeer] at hp
    | some q =>
      simp only [hpeer] at hp
      apply hlookup endpoint p
      cases buff with
      | none => simpa [hpeer] using hp
      | some buffer =>
        by_cases hbuffer : buffer = []
        · simp [hbuffer] at hp
        · simpa [hbuffer, hpeer] using hp

lemma record_eq_some {p q : ℕ} {ips : α → Option ℕ} {ip : Bytes} {a : α} (h : record A p ips ip a = some q) :
    q = p ∨ ips a = some q := by
  simp only [record] at h
  cases haddr : A.fromString ip with
  | none =>
    rw [haddr] at h
    exact Or.inr h
  | some addr =>
    simp only [haddr, Function.update_apply] at h
    split_ifs at h
    · exact Or.inl (Option.some.inj h).symm
    · exact Or.inl (Option.some.inj h).symm
    · exact Or.inr h

lemma foldl_record {p q : ℕ} {ips : α → Option ℕ} {a : α} (addresses : List Bytes)
    (h : addresses.foldl (record A p) ips a = some q) : q = p ∨ ips a = some q := by
  induction addresses generalizing ips with
  | nil => exact Or.inr h
  | cons ip addresses ih =>
    rcases ih h with hq | hq
    · exact Or.inl hq
    · exact record_eq_some hq

lemma forget_eq_some {q : ℕ} {peer : Peer} {ips : α → Option ℕ} {ip : Bytes} {a : α} :
    forget A peer peer.uid ips ip a = some q ↔
      ips a = some q ∧ ∀ addr, A.fromString ip = some addr → a ≠ addr ∧ a ≠ A.host addr := by
  simp only [forget]
  cases haddr : A.fromString ip with
  | none => simp
  | some addr =>
    simp only [Option.some.injEq, forall_eq', if_true]
    by_cases ha : a = addr
    · subst ha
      cases hhost : Function.update ips a none (A.host a) with
      | none => simp
      | some p => simp [Function.update_apply]
    · cases hhost : Function.update ips addr none (A.host addr) with
      | none =>
        by_cases hah : a = A.host addr
        · subst hah
          simp [hhost]
        · simp [ha, hah]
      | some p => simp [Function.update_apply, ha, and_comm]

lemma foldl_forget {q : ℕ} {peer : Peer} {ips : α → Option ℕ} {a : α} (addresses : List Bytes) :
    addresses.foldl (forget A peer peer.uid) ips a = some q ↔
      ips a = some q ∧ ∀ ip ∈ addresses, ∀ addr, A.fromString ip = some addr → a ≠ addr ∧ a ≠ A.host addr := by
  induction addresses generalizing ips with
  | nil => simp
  | cons ip addresses ih => simp only [List.foldl_cons, ih, forget_eq_some, List.forall_mem_cons, and_assoc]

omit [DecidableEq α] in
lemma isMember_iff (h : k.WellFormed R) {p : ℕ} : k.IsMember R p ↔ ∃ uid, R.find k.members uid = some p := by
  simp only [IsMember, lookup_eq h]
  constructor
  · rintro ⟨peer, -, hp⟩
    exact ⟨peer.uid, hp⟩
  · rintro ⟨uid, hp⟩
    obtain ⟨peer, hpeer, rfl⟩ := h.named uid p hp
    exact ⟨peer, hpeer, hp⟩

lemma Trusted.update (hR : R.Container) (hw : k.WellFormed R) (h : k.Trusted A R) (uid : Bytes) (ips : List Bytes) :
    (k.update A R uid ips).2.Trusted A R := by
  have hw' := hw.update (A := A) hR uid ips
  rw [trusted_iff] at h ⊢
  intro a q hq
  rw [isMember_iff hw']
  rcases update_cases (A := A) hw uid ips with ⟨hself, hk⟩ | ⟨self, hself, huid, hk⟩ |
    ⟨self, hself, huid, hp, hk⟩ | ⟨self, p, peer, hself, huid, hp, hpeer, hk⟩
  · rw [hk] at hq
    obtain ⟨u, hu⟩ := (isMember_iff hw).1 (h a q hq)
    simp [hw.origin hself u] at hu
  · rw [hk] at hq ⊢
    exact (isMember_iff hw).1 (h a q hq)
  · rw [hk] at hq ⊢
    simp only [hR.insert _ _ _ hp]
    rcases foldl_record ips hq with rfl | hold
    · exact ⟨uid, by simp⟩
    · obtain ⟨u, hu⟩ := (isMember_iff hw).1 (h a q hold)
      refine ⟨u, ?_⟩
      rwa [if_neg]
      rintro rfl
      simp [hp] at hu
  · rw [hk] at hq ⊢
    rcases foldl_record ips hq with rfl | hold
    · exact ⟨uid, hp⟩
    · exact (isMember_iff hw).1 (h a q hold)

lemma remove_trusted_iff (hR : R.Container) (hw : k.WellFormed R) (h : k.Trusted A R) (uid : Bytes) :
    (k.remove A R uid).2.Trusted A R ↔ k.Forgets A R (.remove uid) := by
  have hw' := hw.remove (A := A) hR uid
  rcases remove_cases (A := A) hw uid with ⟨hp, hk⟩ | ⟨p, peer, hp, hpeer, rfl, hk⟩
  · rw [hk]
    refine ⟨fun _ q other hq => ?_, fun _ => h⟩
    simp [(find_eq_none hw).2 hp] at hq
  · have hfind := find_eq_some.2 ⟨hp, hpeer⟩
    have herase := (hR.erase _ _ _ hp).2
    simp only [trusted_iff, isMember_iff hw', Forgets, hfind, Option.some.injEq, Prod.mk.injEq]
    rw [hk]
    simp only [foldl_forget, herase]
    constructor
    · rintro htrusted _ _ ⟨rfl, rfl⟩ a ha
      by_contra hstale
      push Not at hstale
      obtain ⟨u, hu⟩ := htrusted a p ⟨ha, hstale⟩
      split_ifs at hu with hname
      obtain ⟨other, hother, rfl⟩ := hw.named u p hu
      obtain rfl := Option.some.inj (hpeer.symm.trans hother)
      exact hname rfl
    · rintro hforgets a q ⟨ha, hkept⟩
      obtain ⟨u, hu⟩ := (isMember_iff hw).1 (trusted_iff.1 h a q ha)
      refine ⟨u, ?_⟩
      rw [if_neg]
      · exact hu
      · rintro rfl
        obtain rfl := Option.some.inj (hp.symm.trans hu)
        obtain ⟨ip, hip, addr, haddr, hcovered⟩ := hforgets p peer ⟨rfl, rfl⟩ a ha
        rcases hcovered with rfl | rfl
        · exact (hkept ip hip a haddr).1 rfl
        · exact (hkept ip hip addr haddr).2 rfl

lemma call_trusted_iff (hR : R.Container) (hw : k.WellFormed R) (h : k.Trusted A R) (c : Call) :
    (k.call A R c).Trusted A R ↔ k.Forgets A R c := by
  cases c with
  | update uid ips => exact ⟨fun _ => trivial, fun _ => h.update hR hw uid ips⟩
  | remove uid => exact remove_trusted_iff hR hw h uid

lemma WellFormed.call (hR : R.Container) (h : k.WellFormed R) (c : Call) : (k.call A R c).WellFormed R := by
  cases c with
  | update uid ips => exact h.update hR uid ips
  | remove uid => exact h.remove hR uid

omit [DecidableEq α] in
lemma Fresh.wellFormed (h : k.Fresh R) : k.WellFormed R where
  named uid p hp := by simp [h.members uid] at hp
  origin _ := h.members
  self self _ := h.members self.uid

theorem calls_trusted_iff (hR : R.Container) (h : k.Fresh R) (calls : List Call) :
    (∀ before, before <+: calls → (before.foldl (call A R) k).Trusted A R) ↔
      Along (call A R) (Forgets A R) k calls := by
  have htrusted : k.Trusted A R := trusted_iff.2 fun a p ha => by simp [h.ips a] at ha
  rw [along_iff_invariant (W := WellFormed R) (I := Trusted A R) (fun _ c hk => hk.call hR c)
    (fun _ c hk hi => call_trusted_iff hR hk hi c) h.wellFormed htrusted]

def textAddress : SocketAddress (Bytes × Bytes) where
  fromString ip := if 58 ∈ ip then some (ip.takeWhile (· ≠ 58), (ip.dropWhile (· ≠ 58)).drop 1) else none
  host addr := (addr.1, [])

def nobody : KnownPeers (Bytes × Bytes) (SortedMap Bytes ℕ) := ⟨none, .empty, fun _ => none, []⟩

lemma nobody_fresh : nobody.Fresh sortedTable := ⟨fun _ => by simp [nobody, sortedTable], fun _ => rfl⟩

def joined (ip : String) : List Call :=
  [.update (ascii "me") [], .update (ascii "fooid") [ascii ip], .remove (ascii "fooid")]

theorem calls_trusted_iff_example : nobody.Fresh sortedTable ∧ ∀ before, before <+: joined "1.1.1.1:1592" →
    (before.foldl (call textAddress sortedTable) nobody).Trusted textAddress sortedTable := by
  refine ⟨nobody_fresh, ?_⟩
  rw [calls_trusted_iff sortedTable_container nobody_fresh]
  refine ⟨trivial, trivial, ?_, trivial⟩
  intro p peer hpeer a ha
  have hpeer' : some (0, ⟨ascii "fooid", [ascii "1.1.1.1:1592"]⟩) = some (p, peer) := hpeer
  obtain ⟨rfl, rfl⟩ := Prod.mk.inj (Option.some.inj hpeer')
  refine ⟨_, List.mem_singleton_self _, (ascii "1.1.1.1", ascii "1592"), by decide, ?_⟩
  have hips : Function.update (Function.update (fun _ => none) (ascii "1.1.1.1", ascii "1592") (some 0))
      (ascii "1.1.1.1", []) (some 0) a = some 0 := ha
  simp only [Function.update_apply] at hips
  split_ifs at hips with hhost haddr
  · exact Or.inr hhost
  · exact Or.inl haddr

theorem not_trusted_when_moved : nobody.Fresh sortedTable ∧
    ¬ ([.update (ascii "me") [], .update (ascii "fooid") [ascii "1.1.1.1:1592"],
      .update (ascii "fooid") [ascii "2.2.2.2:1592"], .remove (ascii "fooid")].foldl
        (call textAddress sortedTable) nobody).Trusted textAddress sortedTable := by
  refine ⟨nobody_fresh, fun htrusted => ?_⟩
  obtain ⟨peer, hpeer, hlookup⟩ := htrusted.onPacket (ascii "1.1.1.1", ascii "1592") (some [0]) 0
    (Or.inr ⟨[0], by rfl⟩)
  have hpeer' : some (⟨ascii "fooid", [ascii "2.2.2.2:1592"]⟩ : Peer) = some peer := hpeer
  obtain rfl := Option.some.inj hpeer'
  exact absurd hlookup (by decide)

end Runs

section Sharing

def Covers (peer : Peer) (a : α) : Prop :=
  ∃ ip ∈ peer.ips, ∃ addr, A.fromString ip = some addr ∧ (a = addr ∨ a = A.host addr)

def KeepsOthers (k : KnownPeers α τ) (uid : Bytes) : Prop :=
  ∀ a p other, k.lookupAddr A a = some p → k.heap[p]? = some other → other.uid ≠ uid →
    (k.remove A R uid).2.lookupAddr A a = some p

/-- None of the keys that are erased with `uid` has been taken over by another peer. -/
def Unshared (k : KnownPeers α τ) (uid : Bytes) : Prop :=
  ∀ q peer, k.find R uid = some (q, peer) → ∀ a p, Covers A peer a → k.ips a = some p →
    ∀ other, k.heap[p]? = some other → other.uid = uid

variable {A R} {k : KnownPeers α τ}

omit [DecidableEq α] in
lemma covers_host (hA : ∀ a, A.host (A.host a) = A.host a) {peer : Peer} {a : α} (h : Covers A peer a) :
    Covers A peer (A.host a) := by
  obtain ⟨ip, hip, addr, haddr, rfl | rfl⟩ := h
  · exact ⟨ip, hip, a, haddr, Or.inr rfl⟩
  · exact ⟨ip, hip, addr, haddr, Or.inr (hA addr)⟩

lemma ips_remove {uid : Bytes} {q : ℕ} {peer : Peer} (hw : k.WellFormed R) (hfind : k.find R uid = some (q, peer))
    (a : α) (p : ℕ) : (k.remove A R uid).2.ips a = some p ↔ k.ips a = some p ∧ ¬ Covers A peer a := by
  obtain ⟨hq, hpeer⟩ := find_eq_some.1 hfind
  obtain ⟨other, hother, huid⟩ := hw.named uid q hq
  obtain rfl : peer = other := Option.some.inj (hpeer.symm.trans hother)
  subst huid
  have hremove : (k.remove A R peer.uid).2.ips = peer.ips.foldl (forget A peer peer.uid) k.ips := by
    rw [remove, hfind]
  rw [hremove, foldl_forget]
  simp only [Covers, not_exists, not_and, not_or]

omit [DecidableEq α] in
lemma lookupAddr_eq_some {a : α} {p : ℕ} : k.lookupAddr A a = some p ↔
    k.ips a = some p ∨ (k.ips a = none ∧ k.ips (A.host a) = some p) := by
  cases ha : k.ips a <;> simp [lookupAddr, ha]

lemma keepsOthers_iff (hA : ∀ a, A.host (A.host a) = A.host a) (hw : k.WellFormed R) (uid : Bytes) :
    k.KeepsOthers A R uid ↔ k.Unshared A R uid := by
  constructor
  · intro hkeeps q peer hfind a p hcovers ha other hp
    by_contra hother
    have hafter := hkeeps a p other (lookupAddr_eq_some.2 (Or.inl ha)) hp hother
    rw [lookupAddr_eq_some, ips_remove hw hfind, ips_remove hw hfind] at hafter
    rcases hafter with ⟨-, hfree⟩ | ⟨-, -, hfree⟩
    · exact hfree hcovers
    · exact hfree (covers_host hA hcovers)
  · intro hunshared a p other ha hp hother
    cases hfind : k.find R uid with
    | none => simpa only [remove, hfind] using ha
    | some found =>
      obtain ⟨q, peer⟩ := found
      have hfree {b : α} (hb : k.ips b = some p) : ¬ Covers A peer b := by
        intro hcovers
        exact hother (hunshared q peer hfind b p hcovers hb other hp)
      rw [lookupAddr_eq_some] at ha ⊢
      rcases ha with ha | ⟨hnone, ha⟩
      · exact Or.inl ((ips_remove hw hfind a p).2 ⟨ha, hfree ha⟩)
      · refine Or.inr ⟨?_, (ips_remove hw hfind _ p).2 ⟨ha, hfree ha⟩⟩
        apply Option.eq_none_iff_forall_ne_some.2
        intro p' hp'
        rw [ips_remove hw hfind, hnone] at hp'
        simp at hp'

lemma wellFormed_foldl (hR : R.Container) (calls : List Call) (h : k.WellFormed R) :
    (calls.foldl (call A R) k).WellFormed R := by
  induction calls generalizing k with
  | nil => exact h
  | cons c calls ih => exact ih (h.call hR c)

theorem remove_keeps_others_iff (hR : R.Container) (hA : ∀ a, A.host (A.host a) = A.host a) (h : k.Fresh R)
    (calls : List Call) (uid : Bytes) :
    (calls.foldl (call A R) k).KeepsOthers A R uid ↔ (calls.foldl (call A R) k).Unshared A R uid :=
  keepsOthers_iff hA (wellFormed_foldl hR calls h.wellFormed) uid

def neighbours (ip : String) : List Call :=
  [.update (ascii "me") [], .update (ascii "fooid") [ascii "1.1.1.1:1"], .update (ascii "barid") [ascii ip]]

theorem remove_keeps_others_iff_example :
    ((neighbours "2.2.2.2:2").foldl (call textAddress sortedTable) nobody).KeepsOthers textAddress sortedTable
      (ascii "fooid") := by
  rw [remove_keeps_others_iff sortedTable_container (fun _ => rfl) nobody_fresh]
  intro q peer hfind a p hcovers ha other hother
  have hfind' : some (0, ⟨ascii "fooid", [ascii "1.1.1.1:1"]⟩) = some (q, peer) := hfind
  obtain ⟨rfl, rfl⟩ := Prod.mk.inj (Option.some.inj hfind')
  obtain ⟨ip, hip, addr, haddr, hcases⟩ := hcovers
  obtain rfl := List.mem_singleton.1 hip
  have haddr' : some (ascii "1.1.1.1", ascii "1") = some addr := haddr
  obtain rfl := Option.some.inj haddr'
  have hp : some 0 = some p := by
    rcases hcases with rfl | rfl
    · exact ha
    · exact ha
  obtain rfl := Option.some.inj hp
  have hother' : some (⟨ascii "fooid", [ascii "1.1.1.1:1"]⟩ : Peer) = some other := hother
  rw [← Option.some.inj hother']

theorem not_kept_when_alias_shared : nobody.Fresh sortedTable ∧
    ¬ ((neighbours "1.1.1.1:2").foldl (call textAddress sortedTable) nobody).KeepsOthers textAddress sortedTable
      (ascii "fooid") := by
  refine ⟨nobody_fresh, fun hkeeps => ?_⟩
  have hafter := hkeeps (ascii "1.1.1.1", []) 1 ⟨ascii "barid", [ascii "1.1.1.1:2"]⟩ (by rfl) (by rfl)
    (by decide +kernel)
  have hnone : ((neighbours "1.1.1.1:2").foldl (call textAddress sortedTable) nobody |>.remove textAddress sortedTable
      (ascii "fooid")).2.lookupAddr textAddress (ascii "1.1.1.1", []) = none := by decide +kernel
  rw [hnone] at hafter
  simp at hafter

end Sharing

end KnownPeers

end Turbopump
