import Turbopump.Callbacks.ModifyPeer
import Turbopump.Common.ReferenceClocks
import Turbopump.Lib.Runs

/-! Membership and ring over runs of the callback in which saving the peers can fail. -/

namespace Turbopump

namespace ModifyPeer

/-- One call of `run`. `saved` is what `save` returns in it. -/
structure Call where
  name : Bytes
  version : Bytes
  contents : Bytes
  saved : Bool

variable {α τ : Type} [DecidableEq α] (A : SocketAddress α) (R : RoutingTable τ) (hasher : Bytes → Bytes) (T : TurboLib)

def Call.Removes (c : Call) (uid : Bytes) : Prop :=
  c.name = membershipFilePrefix ++ uid ∧ ∃ v, VectorClock.fromString T c.version = .parsed v ∧ VectorClock.isDeleted v

def Call.Updates (c : Call) (uid : Bytes) : Prop :=
  c.name = membershipFilePrefix ++ uid ∧ (VectorClock.fromString T c.version = .failed ∨
    ∃ v, VectorClock.fromString T c.version = .parsed v ∧ ¬ VectorClock.isDeleted v)

def call (m : ModifyPeer α τ) (c : Call) : ModifyPeer α τ := (m.run A R hasher T c.name c.version c.contents c.saved).2

lemma call_cases (m : ModifyPeer α τ) (c : Call) :
    (∃ uid, c.Removes T uid ∧ m.call A R hasher T c = (m.remove A R hasher uid c.saved).2) ∨
    (∃ uid, c.Updates T uid ∧ m.call A R hasher T c = (m.update A R hasher uid c.contents c.saved).2) ∨
    (m.call A R hasher T c = m ∧ (∀ uid, ¬ c.Removes T uid) ∧ ∀ uid, ¬ c.Updates T uid) := by
  by_cases hpre : membershipFilePrefix <+: c.name
  · obtain ⟨uid, huid⟩ := hpre
    have hrun : m.call A R hasher T c = (m.run A R hasher T (membershipFilePrefix ++ uid) c.version c.contents
      c.saved).2 := by rw [call, huid]
    simp only [run, List.prefix_append, not_true_eq_false, if_false, List.drop_left] at hrun
    cases hv : VectorClock.fromString T c.version with
    | threw =>
      simp only [hv] at hrun
      refine Or.inr (Or.inr ⟨hrun, ?_, ?_⟩)
      · rintro u ⟨-, v, hparse, -⟩
        simp [hv] at hparse
      · rintro u ⟨-, hfailed | ⟨v, hparse, -⟩⟩
        · simp [hv] at hfailed
        · simp [hv] at hparse
    | failed =>
      simp only [hv, VectorClock.isDeleted] at hrun
      exact Or.inr (Or.inl ⟨uid, ⟨huid.symm, Or.inl hv⟩, hrun⟩)
    | parsed v =>
      simp only [hv] at hrun
      cases hdeleted : VectorClock.isDeleted v with
      | true =>
        simp only [hdeleted] at hrun
        exact Or.inl ⟨uid, ⟨huid.symm, v, hv, hdeleted⟩, hrun⟩
      | false =>
        simp only [hdeleted] at hrun
        exact Or.inr (Or.inl ⟨uid, ⟨huid.symm, Or.inr ⟨v, hv, by simp [hdeleted]⟩⟩, hrun⟩)
  · right
    right
    refine ⟨by rw [call, run, if_pos hpre], ?_, ?_⟩
    · rintro uid ⟨hname, -⟩
      exact hpre ⟨uid, hname.symm⟩
    · rintro uid ⟨hname, -⟩
      exact hpre ⟨uid, hname.symm⟩

def Member (m : ModifyPeer α τ) (uid : Bytes) : Prop := m.membership.lookup R uid ≠ none

def OnRing (m : ModifyPeer α τ) (uid : Bytes) : Prop := m.ring.ring.get (hasher uid) = some uid

instance memberDecidable (m : ModifyPeer α τ) (uid : Bytes) : Decidable (m.Member R uid) :=
  inferInstanceAs (Decidable (m.membership.lookup R uid ≠ none))

instance onRingDecidable (m : ModifyPeer α τ) (uid : Bytes) : Decidable (m.OnRing hasher uid) :=
  inferInstanceAs (Decidable (m.ring.ring.get (hasher uid) = some uid))

def Agrees (m : ModifyPeer α τ) : Prop :=
  ∀ uid, m.membership.self.map Peer.uid ≠ some uid → (m.OnRing hasher uid ↔ m.Member R uid)

/-- A member is only removed, and a new peer only added, where the peers are saved; and no peer is added at the hash
of another. -/
structure Keeps (m : ModifyPeer α τ) (c : Call) : Prop where
  removal : ∀ uid, c.Removes T uid → m.Member R uid → c.saved
  addition : ∀ uid, c.Updates T uid → m.membership.self.map Peer.uid ≠ some uid → ¬ m.Member R uid →
    c.saved ∧ ∀ u, m.Member R u → hasher u ≠ hasher uid

structure Start (m : ModifyPeer α τ) : Prop where
  wellFormed : m.membership.WellFormed R
  ring : ∃ self, m.membership.self = some self ∧
    ∀ hash uid, m.ring.ring.get hash = some uid ↔ hash = hasher uid ∧ (uid = self.uid ∨ m.Member R uid)

structure Named (m : ModifyPeer α τ) : Prop where
  wellFormed : m.membership.WellFormed R
  self : m.membership.self ≠ none

section Runs

variable {A R hasher T} {m : ModifyPeer α τ} {c : Call} {uid : Bytes}

omit [DecidableEq α] in
lemma not_member_self (h : m.Named R) (huid : m.membership.self.map Peer.uid = some uid) : ¬ m.Member R uid := by
  obtain ⟨self, hself, rfl⟩ := Option.map_eq_some_iff.1 huid
  rw [Member, KnownPeers.lookup_eq h.wellFormed, not_not]
  exact h.wellFormed.self self hself

lemma remove_membership (m : ModifyPeer α τ) (uid : Bytes) (saved : Bool) :
    (m.remove A R hasher uid saved).2.membership = (m.membership.remove A R uid).2 := by
  rcases hr : m.membership.remove A R uid with ⟨_ | _, membership⟩
  · simp [remove, hr]
  · cases saved with
    | true => simp [remove, hr]
    | false => simp [remove, hr]

lemma update_membership (m : ModifyPeer α τ) (uid contents : Bytes) (saved : Bool) :
    (m.update A R hasher uid contents saved).2.membership = (m.membership.update A R uid [contents]).2 := by
  rcases hu : m.membership.update A R uid [contents] with ⟨_ | _, membership⟩
  · cases saved with
    | true => simp [update, hu]
    | false => simp [update, hu]
  · cases saved with
    | true => simp [update, hu]
    | false => simp [update, hu]

lemma remove_cases (hR : R.Container) (h : m.Named R) (hasher : Bytes → Bytes) (uid : Bytes) (saved : Bool) :
    (m.remove A R hasher uid saved).2.Named R ∧
    (m.remove A R hasher uid saved).2.membership.self = m.membership.self ∧
    (∀ u, (m.remove A R hasher uid saved).2.Member R u ↔ m.Member R u ∧ u ≠ uid) ∧
    (¬ m.Member R uid ∧ (m.remove A R hasher uid saved).2.ring = m.ring ∨
      m.Member R uid ∧ (m.remove A R hasher uid saved).2.ring =
        if saved then (m.ring.erase hasher uid).2 else m.ring) := by
  have hw := h.wellFormed
  have hw' := hw.remove (A := A) hR uid
  simp only [Member, remove_membership, KnownPeers.lookup_eq hw, KnownPeers.lookup_eq hw']
  rcases KnownPeers.remove_cases (A := A) hw uid with ⟨hp, hk⟩ | ⟨p, peer, hp, -, -, hk⟩
  · refine ⟨⟨by rwa [remove_membership], by rw [remove_membership, hk]; exact h.self⟩, by rw [hk], fun u => ?_, ?_⟩
    · rw [hk]
      by_cases hu : u = uid
      · simp [hu, hp]
      · simp [hu]
    · exact Or.inl ⟨by simp [hp], by simp [remove, hk]⟩
  · obtain ⟨herased, herase⟩ := hR.erase _ _ _ hp
    refine ⟨⟨by rwa [remove_membership], by rw [remove_membership, hk]; exact h.self⟩, by rw [hk], fun u => ?_, ?_⟩
    · rw [hk]
      simp only [herase]
      by_cases hu : u = uid
      · simp [hu]
      · simp [hu]
    · refine Or.inr ⟨by simp [hp], ?_⟩
      cases saved with
      | true => simp [remove, hk, herased]
      | false => simp [remove, hk, herased]

lemma update_cases (hR : R.Container) (h : m.Named R) (hasher : Bytes → Bytes) (uid contents : Bytes) (saved : Bool) :
    (m.update A R hasher uid contents saved).2.Named R ∧
    (m.update A R hasher uid contents saved).2.membership.self.map Peer.uid = m.membership.self.map Peer.uid ∧
    (((m.membership.self.map Peer.uid = some uid ∨ m.Member R uid) ∧
        (∀ u, (m.update A R hasher uid contents saved).2.Member R u ↔ m.Member R u) ∧
        (m.update A R hasher uid contents saved).2.ring = m.ring) ∨
      (m.membership.self.map Peer.uid ≠ some uid ∧ ¬ m.Member R uid ∧
        (∀ u, (m.update A R hasher uid contents saved).2.Member R u ↔ m.Member R u ∨ u = uid) ∧
        (m.update A R hasher uid contents saved).2.ring =
          if saved then m.ring.insert hasher uid uid else m.ring)) := by
  have hw := h.wellFormed
  have hw' := hw.update (A := A) hR uid [contents]
  simp only [Member, update_membership, KnownPeers.lookup_eq hw, KnownPeers.lookup_eq hw']
  rcases KnownPeers.update_cases (A := A) hw uid [contents] with ⟨hself, hk⟩ |
    ⟨self, hself, huid, hk⟩ | ⟨self, hself, huid, hp, hk⟩ | ⟨self, p, peer, hself, huid, hp, hpeer, hk⟩
  · exact absurd hself h.self
  · refine ⟨⟨by rwa [update_membership], by simp [update_membership, hk]⟩, by simp [hk, hself], Or.inl ?_⟩
    refine ⟨Or.inl (by simp [hself, huid]), by simp [hk], ?_⟩
    cases saved with
    | true => simp [update, hk]
    | false => simp [update, hk]
  · refine ⟨⟨by rwa [update_membership], by simp [update_membership, hk, hself]⟩, by simp [hk], Or.inr ?_⟩
    refine ⟨by simpa [hself] using Ne.symm huid, by simp [hp], fun u => ?_, ?_⟩
    · rw [hk]
      simp only [hR.insert _ _ _ hp]
      by_cases hu : u = uid
      · simp [hu]
      · simp [hu]
    · cases saved with
      | true => simp [update, hk]
      | false => simp [update, hk]
  · refine ⟨⟨by rwa [update_membership], by simp [update_membership, hk, hself]⟩, by simp [hk], Or.inl ?_⟩
    refine ⟨Or.inr (by simp [hp]), by simp [hk], ?_⟩
    cases saved with
    | true => simp [update, hk]
    | false => simp [update, hk]

lemma Call.Removes.unique {u : Bytes} (h : c.Removes T uid) (h' : c.Removes T u) : u = uid :=
  List.append_cancel_left (h'.1.symm.trans h.1)

lemma Call.Updates.unique {u : Bytes} (h : c.Updates T uid) (h' : c.Updates T u) : u = uid :=
  List.append_cancel_left (h'.1.symm.trans h.1)

lemma Call.Removes.not_updates {u : Bytes} (h : c.Removes T uid) : ¬ c.Updates T u := by
  obtain ⟨-, v, hparse, hdeleted⟩ := h
  rintro ⟨-, hfailed | ⟨v', hparse', hlive⟩⟩
  · simp [hparse] at hfailed
  · obtain rfl := Parsed.parsed.inj (hparse.symm.trans hparse')
    exact hlive hdeleted

omit [DecidableEq α] in
lemma agrees_congr {m' : ModifyPeer α τ} (hself : m'.membership.self.map Peer.uid = m.membership.self.map Peer.uid)
    (hmember : ∀ u, m'.Member R u ↔ m.Member R u) (hring : m'.ring = m.ring) :
    m'.Agrees R hasher ↔ m.Agrees R hasher := by
  simp only [Agrees, OnRing, hself, hmember, hring]

lemma remove_agrees_iff (hR : R.Container) (h : m.Named R) (hagrees : m.Agrees R hasher) (saved : Bool) :
    (m.remove A R hasher uid saved).2.Agrees R hasher ↔ (m.Member R uid → saved) := by
  obtain ⟨-, hself, hmember, ⟨hnot, hring⟩ | ⟨huid, hring⟩⟩ :=
    remove_cases (A := A) hR h hasher uid saved
  · have hsame : ∀ u, (m.remove A R hasher uid saved).2.Member R u ↔ m.Member R u := by
      intro u
      rw [hmember, and_iff_left_iff_imp]
      rintro hu rfl
      exact hnot hu
    simp [agrees_congr (congrArg _ hself) hsame hring, hagrees, hnot]
  · have hne : m.membership.self.map Peer.uid ≠ some uid := fun hself => not_member_self h hself huid
    have hon := (hagrees uid hne).2 huid
    cases saved with
    | false =>
      simp only [huid, Bool.false_eq_true, imp_false, not_true_eq_false, iff_false]
      intro hagrees'
      have := (hagrees' uid (by rwa [hself])).1 (by rw [OnRing, hring]; exact hon)
      exact ((hmember uid).1 this).2 rfl
    | true =>
      simp only [implies_true, iff_true]
      intro u hu
      rw [hself] at hu
      rw [hmember, OnRing, hring, if_pos rfl, ConsistentHashRing.erase, SortedMap.get_erase, ← hagrees u hu]
      by_cases hhash : hasher uid = hasher u
      · simp only [if_pos hhash, reduceCtorEq, false_iff, not_and, not_not]
        intro honu
        exact (Option.some.inj (hon.symm.trans (by rw [hhash]; exact honu))).symm
      · rw [if_neg hhash]
        constructor
        · rintro honu
          exact ⟨honu, fun heq => hhash (heq ▸ rfl)⟩
        · exact And.left

lemma update_agrees_iff (hR : R.Container) (h : m.Named R) (hagrees : m.Agrees R hasher) (contents : Bytes)
    (saved : Bool) :
    (m.update A R hasher uid contents saved).2.Agrees R hasher ↔
      (m.membership.self.map Peer.uid ≠ some uid → ¬ m.Member R uid →
        saved ∧ ∀ u, m.Member R u → hasher u ≠ hasher uid) := by
  obtain ⟨-, hself, ⟨hknown, hmember, hring⟩ | ⟨hne, hnew, hmember, hring⟩⟩ :=
    update_cases (A := A) hR h hasher uid contents saved
  · simp only [agrees_congr hself hmember hring, hagrees, true_iff]
    intro hne hnew
    rcases hknown with hknown | hknown
    · exact absurd hknown hne
    · exact absurd hknown hnew
  · simp only [hne, hnew, ne_eq, not_false_eq_true, true_implies]
    cases saved with
    | false =>
      simp only [Bool.false_eq_true, false_and, iff_false]
      intro hagrees'
      have hon := (hagrees' uid (by rwa [hself])).2 ((hmember uid).2 (Or.inr rfl))
      rw [OnRing, hring] at hon
      exact hnew ((hagrees uid hne).1 hon)
    | true =>
      have hget : ∀ u, (m.update A R hasher uid contents true).2.OnRing hasher u ↔
          if hasher uid = hasher u then u = uid else m.OnRing hasher u := by
        intro u
        rw [OnRing, hring, if_pos rfl, ConsistentHashRing.insert, SortedMap.get_insert]
        by_cases hhash : hasher uid = hasher u
        · simp only [if_pos hhash, Option.some.injEq, eq_comm]
        · simp only [if_neg hhash, OnRing]
      simp only [true_and]
      constructor
      · intro hagrees' u hu hhash
        have hune : m.membership.self.map Peer.uid ≠ some u := fun hself => not_member_self h hself hu
        have hon := (hagrees' u (by rwa [hself])).2 ((hmember u).2 (Or.inl hu))
        rw [hget, if_pos hhash.symm] at hon
        exact hnew (hon ▸ hu)
      · intro happart u hu
        rw [hself] at hu
        rw [hget, hmember, ← hagrees u hu]
        by_cases hhash : hasher uid = hasher u
        · rw [if_pos hhash]
          constructor
          · exact Or.inr
          · rintro (hon | rfl)
            · exact absurd hhash.symm (happart u ((hagrees u hu).1 hon))
            · rfl
        · rw [if_neg hhash]
          constructor
          · exact Or.inl
          · rintro (hon | rfl)
            · exact hon
            · exact absurd rfl hhash

lemma call_agrees_iff (hR : R.Container) (h : m.Named R) (hagrees : m.Agrees R hasher) :
    (m.call A R hasher T c).Agrees R hasher ↔ m.Keeps R hasher T c := by
  rcases call_cases A R hasher T m c with ⟨uid, hc, hcall⟩ | ⟨uid, hc, hcall⟩ | ⟨hcall, hremoves, hupdates⟩
  · rw [hcall, remove_agrees_iff hR h hagrees]
    constructor
    · intro hsaved
      refine ⟨fun u hu huid => hsaved (hc.unique hu ▸ huid), fun u hu => absurd hu hc.not_updates⟩
    · exact fun hkeeps => hkeeps.removal uid hc
  · rw [hcall, update_agrees_iff hR h hagrees]
    constructor
    · intro hsaved
      refine ⟨fun u hu => absurd hc hu.not_updates, fun u hu => ?_⟩
      rw [hc.unique hu]
      exact hsaved
    · exact fun hkeeps => hkeeps.addition uid hc
  · rw [hcall]
    refine ⟨fun _ => ⟨fun u hu => absurd hu (hremoves u), fun u hu => absurd hu (hupdates u)⟩, fun _ => hagrees⟩

lemma Named.call (hR : R.Container) (h : m.Named R) (c : Call) : (m.call A R hasher T c).Named R := by
  rcases call_cases A R hasher T m c with ⟨uid, -, hcall⟩ | ⟨uid, -, hcall⟩ | ⟨hcall, -⟩
  · exact hcall ▸ (remove_cases hR h _ _ _).1
  · exact hcall ▸ (update_cases hR h _ _ _ _).1
  · rwa [hcall]

omit [DecidableEq α] in
lemma Start.agrees (h : m.Start R hasher) : m.Agrees R hasher := by
  obtain ⟨self, hself, hring⟩ := h.ring
  intro uid huid
  have hne : uid ≠ self.uid := by
    rintro rfl
    simp [hself] at huid
  simp [OnRing, hring, hne]

theorem calls_agree_iff (hR : R.Container) (h : m.Start R hasher) (calls : List Call) :
    (∀ before, before <+: calls → (before.foldl (call A R hasher T) m).Agrees R hasher) ↔
      Along (call A R hasher T) (Keeps R hasher T) m calls := by
  obtain ⟨self, hself, -⟩ := h.ring
  have hnamed : m.Named R := ⟨h.wellFormed, by simp [hself]⟩
  rw [along_iff_invariant (W := Named R) (I := Agrees R hasher) (fun _ c hm => hm.call hR c)
    (fun _ _ hm hagrees => call_agrees_iff hR hm hagrees) hnamed h.agrees]

def alone : ModifyPeer Unit (SortedMap Bytes ℕ) where
  ring := (⟨.empty⟩ : ConsistentHashRing).insert id (ascii "me") (ascii "me")
  membership := ⟨some ⟨ascii "me", []⟩, .empty, fun _ => none, []⟩
  keyTabulator := ⟨.empty⟩

def noAddress : SocketAddress Unit := ⟨fun _ => none, id⟩

lemma alone_start : alone.Start sortedTable id where
  wellFormed := by
    constructor
    · intro uid p hp
      simp [alone, sortedTable] at hp
    · simp [alone]
    · simp [alone, sortedTable]
  ring := by
    refine ⟨_, rfl, fun hash uid => ?_⟩
    have hmember : ¬ alone.Member sortedTable uid := by
      simp [Member, KnownPeers.lookup, KnownPeers.find, alone, sortedTable]
    simp only [hmember, or_false]
    simp only [alone, ConsistentHashRing.insert, SortedMap.get_insert, id]
    by_cases hhash : ascii "me" = hash
    · subst hhash
      simp only [if_true, Option.some.injEq]
      constructor
      · rintro rfl
        exact ⟨rfl, rfl⟩
      · exact fun h => h.1
    · simp only [if_neg hhash, SortedMap.get_empty, reduceCtorEq, false_iff, not_and]
      rintro rfl rfl
      exact hhash rfl

def add (uid : String) (saved : Bool) : Call := ⟨membershipFilePrefix ++ ascii uid, [], ascii "10.0.0.1:80", saved⟩

theorem calls_agree_iff_example : alone.Start sortedTable id ∧ ∀ before, before <+: [add "hello" true] →
    (before.foldl (call noAddress sortedTable id TurboLib.reference) alone).Agrees sortedTable id := by
  refine ⟨alone_start, ?_⟩
  rw [calls_agree_iff sortedTable_container alone_start]
  refine ⟨⟨?_, ?_⟩, trivial⟩
  · rintro uid -
    simp [Member, KnownPeers.lookup, KnownPeers.find, alone, sortedTable]
  · rintro uid - - -
    refine ⟨rfl, fun u hu => absurd hu ?_⟩
    simp [Member, KnownPeers.lookup, KnownPeers.find, alone, sortedTable]

theorem not_agree_when_not_saved : alone.Start sortedTable id ∧
    ∀ before ∈ [[add "hello" false], [add "hello" false, add "hello" true]],
      ¬ (before.foldl (call noAddress sortedTable id TurboLib.reference) alone).Agrees sortedTable id := by
  refine ⟨alone_start, fun before hbefore hagrees => ?_⟩
  have hself : alone.membership.self.map Peer.uid ≠ some (ascii "hello") := by decide
  rcases List.mem_cons.1 hbefore with rfl | hbefore
  · exact absurd ((hagrees (ascii "hello") hself).2 (by decide)) (by decide)
  · obtain rfl := List.mem_singleton.1 hbefore
    exact absurd ((hagrees (ascii "hello") hself).2 (by decide)) (by decide)

end Runs

end ModifyPeer

end Turbopump
