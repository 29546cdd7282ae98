import Turbopump.Callbacks.MembershipRuns
import Turbopump.Callbacks.MirrorToPeer
import Turbopump.Hashing.MinimalDisruption

/-! Where a cluster keeps a key, once its nodes have processed the membership writes, each in an order of its own. -/

namespace Turbopump

namespace KnownPeers

/-- What the callbacks see of the peers. The object of `self` is none of the heap's. -/
def interface {α τ : Type} (R : RoutingTable τ) (k : KnownPeers α τ) : IKnowPeers where
  self := k.self.map fun peer => ⟨0, peer⟩
  lookup uid := (k.find R uid).map fun (p, peer) => ⟨p + 1, peer⟩

end KnownPeers

namespace ModifyPeer

variable {α τ : Type} [DecidableEq α] (A : SocketAddress α) (R : RoutingTable τ) (hasher : Bytes → Bytes) (T : TurboLib)

def Call.verdict (c : Call) : Option (Bytes × Bool) :=
  if ¬ membershipFilePrefix <+: c.name then none
  else
    let uid := c.name.drop membershipFilePrefix.length
    match VectorClock.fromString T c.version with
    | .threw => none
    | .parsed v => some (uid, ! VectorClock.isDeleted v)
    | .failed => some (uid, true)

def latest (uid : Bytes) (calls : List Call) : Option Bool := (calls.reverse.filterMap (Call.verdict T)).lookup uid

section Calls

variable {A R hasher T} {m : ModifyPeer α τ} {c : Call} {uid : Bytes}

lemma Call.verdict_removes : c.verdict T = some (uid, false) ↔ c.Removes T uid := by
  by_cases hpre : membershipFilePrefix <+: c.name
  · obtain ⟨u, hu⟩ := hpre
    simp only [Call.verdict, Call.Removes, ← hu, List.prefix_append, not_true_eq_false, if_false, List.drop_left,
      List.append_cancel_left_eq]
    cases VectorClock.fromString T c.version with
    | threw => simp
    | failed => simp
    | parsed v => simp
  · simp only [Call.verdict, hpre, not_false_eq_true, if_true, reduceCtorEq, false_iff]
    rintro ⟨hname, -⟩
    exact hpre ⟨uid, hname.symm⟩

lemma Call.verdict_updates : c.verdict T = some (uid, true) ↔ c.Updates T uid := by
  by_cases hpre : membershipFilePrefix <+: c.name
  · obtain ⟨u, hu⟩ := hpre
    simp only [Call.verdict, Call.Updates, ← hu, List.prefix_append, not_true_eq_false, if_false, List.drop_left,
      List.append_cancel_left_eq]
    cases VectorClock.fromString T c.version with
    | threw => simp
    | failed => simp
    | parsed v => simp
  · simp only [Call.verdict, hpre, not_false_eq_true, if_true, reduceCtorEq, false_iff]
    rintro ⟨hname, -⟩
    exact hpre ⟨uid, hname.symm⟩

lemma latest_snoc (uid : Bytes) (calls : List Call) (c : Call) : latest T uid (calls ++ [c]) =
    match c.verdict T with
    | none => latest T uid calls
    | some (u, b) => if u = uid then some b else latest T uid calls := by
  rw [latest, List.reverse_append, List.reverse_singleton, List.singleton_append]
  cases hv : c.verdict T with
  | none => rw [List.filterMap_cons_none hv, latest]
  | some w =>
    rw [List.filterMap_cons_some hv, List.lookup_cons]
    by_cases hu : uid = w.1
    · simp [hu]
    · have hbeq : (uid == w.1) = false := by simpa using hu
      simp only [hbeq, if_neg (Ne.symm hu), latest]

lemma self_call (hR : R.Container) (h : m.Named R) (c : Call) :
    (m.call A R hasher T c).membership.self.map Peer.uid = m.membership.self.map Peer.uid := by
  rcases call_cases A R hasher T m c with ⟨u, -, hcall⟩ | ⟨u, -, hcall⟩ | ⟨hcall, -⟩
  · rw [hcall, (remove_cases (A := A) hR h hasher u c.saved).2.1]
  · rw [hcall, (update_cases (A := A) hR h hasher u c.contents c.saved).2.1]
  · rw [hcall]

lemma member_call (hR : R.Container) (h : m.Named R) (c : Call) (hself : m.membership.self.map Peer.uid ≠ some uid) :
    (m.call A R hasher T c).Member R uid ↔ match c.verdict T with
      | none => m.Member R uid
      | some (u, b) => if u = uid then b = true else m.Member R uid := by
  rcases call_cases A R hasher T m c with ⟨u, hc, hcall⟩ | ⟨u, hc, hcall⟩ | ⟨hcall, hremoves, hupdates⟩
  · obtain ⟨-, -, hmember, -⟩ := remove_cases (A := A) hR h hasher u c.saved
    rw [hcall, hmember, Call.verdict_removes.2 hc]
    by_cases hu : u = uid
    · simp [hu]
    · simp [hu, Ne.symm hu]
  · rw [hcall, Call.verdict_updates.2 hc]
    obtain ⟨-, -, ⟨hknown, hmember, -⟩ | ⟨-, -, hmember, -⟩⟩ :=
      update_cases (A := A) hR h hasher u c.contents c.saved
    · rw [hmember]
      by_cases hu : u = uid
      · subst hu
        simpa using hknown.resolve_left hself
      · simp [hu]
    · rw [hmember]
      by_cases hu : u = uid
      · simp [hu]
      · simp [hu, Ne.symm hu]
  · have hnone : c.verdict T = none := by
      rcases hv : c.verdict T with _ | ⟨u, _ | _⟩
      · rfl
      · exact absurd (Call.verdict_removes.1 hv) (hremoves u)
      · exact absurd (Call.verdict_updates.1 hv) (hupdates u)
    rw [hcall, hnone]

lemma self_calls (hR : R.Container) (h : m.Named R) (calls : List Call) :
    (calls.foldl (call A R hasher T) m).Named R ∧
      (calls.foldl (call A R hasher T) m).membership.self.map Peer.uid = m.membership.self.map Peer.uid := by
  induction calls generalizing m with
  | nil => exact ⟨h, rfl⟩
  | cons c calls ih =>
    obtain ⟨hnamed, hself⟩ := ih (h.call hR c)
    exact ⟨hnamed, hself.trans (self_call hR h c)⟩

theorem member_calls (hR : R.Container) (h : m.Named R) (hself : m.membership.self.map Peer.uid ≠ some uid)
    (calls : List Call) : (calls.foldl (call A R hasher T) m).Member R uid ↔
      match latest T uid calls with
      | none => m.Member R uid
      | some b => b = true := by
  induction calls using List.reverseRecOn with
  | nil => simp [latest]
  | append_singleton calls c ih =>
    obtain ⟨hnamed, hself'⟩ := @self_calls _ _ _ A R hasher T _ hR h calls
    rw [List.foldl_append, List.foldl_cons, List.foldl_nil, member_call hR hnamed c (hself' ▸ hself), latest_snoc]
    cases hv : c.verdict T with
    | none => exact ih
    | some w =>
      by_cases hu : w.1 = uid
      · simp [hu]
      · simpa [hu] using ih

lemma start_call (hR : R.Container) (h : m.Start R hasher) (hkeeps : m.Keeps R hasher T c)
    (hapart : ∀ u b, c.verdict T = some (u, b) → m.membership.self.map Peer.uid ≠ some u →
      ∀ self, m.membership.self = some self → hasher u ≠ hasher self.uid) :
    (m.call A R hasher T c).Start R hasher := by
  obtain ⟨self, hself, hring⟩ := h.ring
  have hnamed : m.Named R := ⟨h.wellFormed, by simp [hself]⟩
  refine ⟨(hnamed.call hR c).wellFormed, ?_⟩
  have hselfs := @self_call _ _ _ A R hasher T _ hR hnamed c
  rw [hself] at hselfs
  obtain ⟨self', hself', huid⟩ := Option.map_eq_some_iff.1 hselfs
  refine ⟨self', hself', fun hash u => ?_⟩
  rw [huid]
  have hsame (hmember : ∀ u, (m.call A R hasher T c).Member R u ↔ m.Member R u)
      (hkept : (m.call A R hasher T c).ring = m.ring) : (m.call A R hasher T c).ring.ring.get hash = some u ↔
        hash = hasher u ∧ (u = self.uid ∨ (m.call A R hasher T c).Member R u) := by
    rw [hkept, hmember, hring]
  -- two of the peers are never at one hash
  have hunique {u v : Bytes} (hu : u = self.uid ∨ m.Member R u) (hv : v = self.uid ∨ m.Member R v)
      (heq : hasher u = hasher v) : u = v :=
    Option.some.inj (((hring _ u).2 ⟨rfl, hu⟩).symm.trans ((hring _ v).2 ⟨heq, hv⟩))
  rcases call_cases A R hasher T m c with ⟨v, hc, hcall⟩ | ⟨v, hc, hcall⟩ | ⟨hcall, -⟩
  · obtain ⟨-, -, hmember, ⟨hnot, hkept⟩ | ⟨hv, herased⟩⟩ := remove_cases (A := A) hR hnamed hasher v c.saved
    · apply hsame
      · intro u
        rw [hcall, hmember, and_iff_left_iff_imp]
        rintro hu rfl
        exact hnot hu
      · rw [hcall, hkept]
    · have hne : v ≠ self.uid := by
        rintro rfl
        exact not_member_self hnamed (by rw [hself]; rfl) hv
      rw [if_pos (hkeeps.removal v hc hv)] at herased
      rw [hcall, herased, hmember, ConsistentHashRing.erase, SortedMap.get_erase]
      by_cases hhash : hasher v = hash
      · simp only [if_pos hhash, reduceCtorEq, false_iff, not_and]
        rintro hu (rfl | ⟨hmem, hother⟩)
        · exact hne (hunique (Or.inr hv) (Or.inl rfl) (hhash.trans hu))
        · exact hother (hunique (Or.inr hmem) (Or.inr hv) (hhash.trans hu).symm)
      · rw [if_neg hhash, hring]
        apply and_congr_right
        intro hu
        have huv : u ≠ v := fun heq => hhash (heq ▸ hu.symm)
        simp [huv]
  · obtain ⟨-, -, ⟨-, hmember, hkept⟩ | ⟨hne, hnew, hmember, hinserted⟩⟩ :=
      update_cases (A := A) hR hnamed hasher v c.contents c.saved
    · apply hsame
      · intro u
        rw [hcall, hmember]
      · rw [hcall, hkept]
    · obtain ⟨hsaved, hothers⟩ := hkeeps.addition v hc hne hnew
      have hapart' := hapart v true (Call.verdict_updates.2 hc) hne self hself
      rw [if_pos hsaved] at hinserted
      rw [hcall, hinserted, hmember, ConsistentHashRing.insert, SortedMap.get_insert]
      by_cases hhash : hasher v = hash
      · simp only [if_pos hhash, Option.some.injEq]
        constructor
        · rintro rfl
          exact ⟨hhash.symm, Or.inr (Or.inr rfl)⟩
        · rintro ⟨hu, rfl | hmem | rfl⟩
          · exact absurd (hhash.trans hu) hapart'
          · exact absurd (hhash.trans hu).symm (hothers u hmem)
          · rfl
      · rw [if_neg hhash, hring]
        apply and_congr_right
        intro hu
        have huv : u ≠ v := fun heq => hhash (heq ▸ hu.symm)
        simp [huv]
  · apply hsame
    · intro u
      rw [hcall]
    · rw [hcall]

lemma start_calls (hR : R.Container) (h : m.Start R hasher) (hself : m.membership.self.map Peer.uid = some uid)
    (calls : List Call) (hkeeps : Along (call A R hasher T) (Keeps R hasher T) m calls)
    (hapart : ∀ c ∈ calls, ∀ v b, c.verdict T = some (v, b) → v ≠ uid → hasher v ≠ hasher uid) :
    (calls.foldl (call A R hasher T) m).Start R hasher := by
  induction calls generalizing m with
  | nil => exact h
  | cons c calls ih =>
    obtain ⟨hc, hrest⟩ := hkeeps
    obtain ⟨happart, hothers⟩ := List.forall_mem_cons.1 hapart
    have hnamed : m.Named R := ⟨h.wellFormed, fun hnone => by simp [hnone] at hself⟩
    refine ih (start_call hR h hc fun v b hv hne self hm => ?_) ((self_call hR hnamed c).trans hself) hrest hothers
    obtain rfl : self.uid = uid := by simpa [hm] using hself
    exact happart v b hv fun heq => hne (by rw [hm, heq]; rfl)

end Calls

/-- Nodes that start from peers of their own and process membership writes of their own, each in its own order. All of
them come to hold the nodes of `S` for the members. -/
structure Cluster (start : Bytes → ModifyPeer α τ) (calls : Bytes → List Call) (S : Finset Bytes) : Prop where
  started : ∀ u ∈ S, (start u).Start R hasher
  self : ∀ u ∈ S, (start u).membership.self.map Peer.uid = some u
  keeps : ∀ u ∈ S, Along (call A R hasher T) (Keeps R hasher T) (start u) (calls u)
  apart : ∀ u ∈ S, ∀ c ∈ calls u, ∀ v b, c.verdict T = some (v, b) → v ≠ u → hasher v ≠ hasher u
  members : ∀ u ∈ S, ∀ v, v ≠ u → (v ∈ S ↔ match latest T v (calls u) with
    | none => (start u).Member R v
    | some b => b = true)

namespace Cluster

variable {A R hasher T} {start : Bytes → ModifyPeer α τ} {calls : Bytes → List Call} {S : Finset Bytes} {u v : Bytes}

lemma named (h : Cluster A R hasher T start calls S) (hu : u ∈ S) : (start u).Named R :=
  ⟨(h.started u hu).wellFormed, fun hnone => by simpa [hnone] using h.self u hu⟩

variable (A R hasher T start calls) in
def node (u : Bytes) : ModifyPeer α τ := (calls u).foldl (call A R hasher T) (start u)

lemma knows (hR : R.Container) (h : Cluster A R hasher T start calls S) (hu : u ∈ S) :
    (node A R hasher T start calls u).Start R hasher ∧
    (node A R hasher T start calls u).membership.self.map Peer.uid = some u ∧
    ∀ v, v ≠ u → ((node A R hasher T start calls u).Member R v ↔ v ∈ S) := by
  have hself := h.self u hu
  refine ⟨start_calls hR (h.started u hu) hself _ (h.keeps u hu) (h.apart u hu), ?_, fun v hv => ?_⟩
  · exact (self_calls hR (h.named hu) (calls u)).2.trans hself
  · have hne : (start u).membership.self.map Peer.uid ≠ some v := by
      rw [hself]
      exact fun heq => hv (Option.some.inj heq).symm
    exact (member_calls hR (h.named hu) hne (calls u)).trans (h.members u hu v hv).symm

lemma ring_get (hR : R.Container) (h : Cluster A R hasher T start calls S) (hu : u ∈ S) (hash v : Bytes) :
    (node A R hasher T start calls u).ring.ring.get hash = some v ↔ hash = hasher v ∧ v ∈ S := by
  obtain ⟨⟨-, self, hself, hring⟩, huid, hmember⟩ := h.knows hR hu
  obtain rfl : self.uid = u := by simpa [hself] using huid
  rw [hring]
  apply and_congr_right
  intro _
  by_cases hv : v = self.uid
  · simp [hv, hu]
  · simp [hv, hmember v hv]

lemma ring_eq (hR : R.Container) (h : Cluster A R hasher T start calls S) (hu : u ∈ S) (hv : v ∈ S) :
    (node A R hasher T start calls u).ring = (node A R hasher T start calls v).ring := by
  apply congrArg ConsistentHashRing.mk
  apply SortedMap.ext_get
  intro hash
  ext w
  rw [h.ring_get hR hu, h.ring_get hR hv]

lemma peers (hR : R.Container) (h : Cluster A R hasher T start calls S) (hu : u ∈ S) :
    (node A R hasher T start calls u).ring.peers.Nodup ∧
      ∀ v, v ∈ (node A R hasher T start calls u).ring.peers ↔ v ∈ S := by
  have hmem (e : Bytes × Bytes) : e ∈ (node A R hasher T start calls u).ring.ring.entries ↔
      e.1 = hasher e.2 ∧ e.2 ∈ S := by
    rw [← h.ring_get hR hu, ← SortedMap.mem_entries]
  constructor
  · refine List.pairwise_map.2 (List.Pairwise.imp_of_mem ?_ (node A R hasher T start calls u).ring.ring.sorted)
    intro e e' he he' hlt heq
    refine absurd hlt ?_
    rw [((hmem e).1 he).1, ((hmem e').1 he').1, heq]
    exact lt_irrefl _
  · intro v
    simp only [ConsistentHashRing.peers, List.mem_map, hmem, Prod.exists]
    constructor
    · rintro ⟨_, _, ⟨-, hv⟩, rfl⟩
      exact hv
    · exact fun hv => ⟨hasher v, v, ⟨rfl, hv⟩, rfl⟩

lemma knowsAll (hR : R.Container) (h : Cluster A R hasher T start calls S) (hu : u ∈ S) {L : List Bytes}
    (hL : ∀ loc ∈ L, loc ∈ S) :
    MirrorToPeer.KnowsAll L u ((node A R hasher T start calls u).membership.interface R) := by
  obtain ⟨⟨hwell, self, hself, -⟩, huid, hmember⟩ := h.knows hR hu
  refine ⟨⟨0, self⟩, by simp [KnownPeers.interface, hself], by simpa [hself] using huid, fun loc hloc hne => ?_⟩
  have hknown := (hmember loc hne).2 (hL loc hloc)
  rw [Member, KnownPeers.lookup_eq hwell] at hknown
  obtain ⟨p, hp⟩ := Option.ne_none_iff_exists'.1 hknown
  obtain ⟨peer, hpeer, hname⟩ := hwell.named loc p hp
  refine ⟨⟨p + 1, peer⟩, ?_, hname, Nat.succ_ne_zero p⟩
  simp [KnownPeers.interface, KnownPeers.find_eq_some.2 ⟨hp, hpeer⟩]

theorem placement (hR : R.Container) (h : Cluster A R hasher T start calls S) (hS : S.Nonempty) (name : Bytes)
    (copies : ℕ) : ∃ owners : List Bytes, owners.Nodup ∧ (∀ o ∈ owners, o ∈ S) ∧
      owners.length = min copies S.card ∧ ∀ u ∈ S,
        (node A R hasher T start calls u).locator.locations hasher name copies = owners ∧
        ((node A R hasher T start calls u).locator.keyIsMine hasher name copies ↔ copies = 0 ∨ u ∈ owners) ∧
        ((node A R hasher T start calls u).locator.sectionIsMine
          ((node A R hasher T start calls u).locator.sectionOf hasher name) copies ↔ copies = 0 ∨ u ∈ owners) ∧
        (copies ≤ 32767 → ∀ request : Write, request.name = name → request.copies = copies → request.mirror = 0 →
          (MirrorToPeer.chain (fun w => (node A R hasher T start calls w).locator.locations hasher)
            (fun w => (node A R hasher T start calls w).membership.interface R) owners.length u request).map
              MirrorToPeer.ChainHop.chosen = owners.filter (· ≠ u)) := by
  obtain ⟨u₀, hu₀⟩ := hS
  obtain ⟨hnodup, hpeers⟩ := h.peers hR hu₀
  have hcard : (node A R hasher T start calls u₀).ring.ring.entries.length = S.card := by
    have hset : (node A R hasher T start calls u₀).ring.peers.toFinset = S := by
      ext v
      rw [List.mem_toFinset, hpeers]
    rw [← hset, List.toFinset_card_of_nodup hnodup, ConsistentHashRing.peers, List.length_map]
  have hlocs (u : Bytes) (hu : u ∈ S) : (node A R hasher T start calls u).locator.locations hasher name copies =
      (node A R hasher T start calls u₀).ring.locations (hasher name) copies := by
    rw [LocateKeys.locations, locator, h.ring_eq hR hu hu₀]
  have hlength := ConsistentHashRing.locations_length (node A R hasher T start calls u₀).ring (hasher name) copies
  rw [hcard] at hlength
  have howners : ∀ o ∈ (node A R hasher T start calls u₀).ring.locations (hasher name) copies, o ∈ S := by
    intro o ho
    obtain ⟨e, he, rfl⟩ := List.mem_map.1 ho
    exact (hpeers e.2).1 (List.mem_map.2 ⟨e, SortedMap.mem_circleFrom.1 (List.mem_of_mem_take he), rfl⟩)
  refine ⟨_, (ConsistentHashRing.locations_nodup _).2 hnodup _ _, howners, hlength, fun u hu => ?_⟩
  have hmine : (node A R hasher T start calls u).locator.keyIsMine hasher name copies ↔
      copies = 0 ∨ u ∈ (node A R hasher T start calls u₀).ring.locations (hasher name) copies := by
    have hself : (node A R hasher T start calls u).locator.self = some u := (h.knows hR hu).2.1
    simp only [LocateKeys.keyIsMine, hlocs u hu, LocateKeys.containsSelf, hself]
    have hempty : (node A R hasher T start calls u₀).ring.locations (hasher name) copies = [] ↔ copies = 0 := by
      have hpos : 0 < S.card := Finset.card_pos.2 ⟨u, hu⟩
      rw [← List.length_eq_zero_iff, hlength]
      omega
    split
    · next hnil => simp [hempty.1 hnil]
    · next hnil => simp [mt hempty.2 hnil]
  refine ⟨hlocs u hu, hmine, ?_, ?_⟩
  · rw [← (LocateKeys.locations_sectionOf hasher _ name copies).2]
    exact hmine
  · intro hshort request hname hcopies hmirror
    have hunsigned : toUnsigned (copies : ℤ) = copies := MirrorToPeer.toUnsigned_natCast (by omega)
    have hmem : ∀ w ∈ u :: (node A R hasher T start calls u₀).ring.locations (hasher name) copies, w ∈ S :=
      List.forall_mem_cons.2 ⟨hu, howners⟩
    refine (MirrorToPeer.chain_visits ((ConsistentHashRing.locations_nodup _).2 hnodup _ _) name
      (by exact_mod_cast hshort) (by rw [hlength]; exact_mod_cast min_le_left _ _) u (fun w hw => ?_) (fun w hw => ?_)
      request hname hcopies hmirror _ le_rfl).1
    · rw [hunsigned]
      exact hlocs w (hmem w hw)
    · exact h.knowsAll hR (hmem w hw) howners

section Example

omit [DecidableEq α] in
lemma keeps_of_saved {m : ModifyPeer α τ} {c : Call} (hsaved : c.saved) (hinj : Function.Injective hasher) :
    m.Keeps R hasher T c := by
  refine ⟨fun _ _ _ => hsaved, fun uid _ _ hnew => ⟨hsaved, fun u hu heq => hnew ?_⟩⟩
  exact hinj heq ▸ hu

def aloneAs (uid : Bytes) : ModifyPeer Unit (SortedMap Bytes ℕ) where
  ring := (⟨.empty⟩ : ConsistentHashRing).insert id uid uid
  membership := ⟨some ⟨uid, []⟩, .empty, fun _ => none, []⟩
  keyTabulator := ⟨.empty⟩

lemma not_member_aloneAs (uid u : Bytes) : ¬ (aloneAs uid).Member sortedTable u := by
  simp [Member, KnownPeers.lookup, KnownPeers.find, aloneAs, sortedTable]

lemma aloneAs_start (uid : Bytes) : (aloneAs uid).Start sortedTable id := by
  refine ⟨⟨?_, by simp [aloneAs], by simp [aloneAs, sortedTable]⟩, ⟨uid, []⟩, rfl, fun hash u => ?_⟩
  · intro u p hp
    simp [aloneAs, sortedTable] at hp
  · simp only [not_member_aloneAs, or_false]
    simp only [aloneAs, ConsistentHashRing.insert, SortedMap.get_insert, id, SortedMap.get_empty]
    by_cases hhash : uid = hash
    · simp [← hhash, eq_comm]
    · simp only [if_neg hhash, reduceCtorEq, false_iff, not_and]
      rintro rfl heq
      exact hhash heq.symm

def leave (uid : String) : Call :=
  ⟨membershipFilePrefix ++ ascii uid, VectorClock.toString .reference [⟨ascii "delete", 1, 0⟩], [], true⟩

/-- Three nodes hear of each other in different orders, and one of them of a node that has left again. -/
def heard (u : Bytes) : List Call :=
  if u = ascii "a" then [add "b" true, add "c" true]
  else if u = ascii "b" then [add "c" true, add "a" true]
  else [add "d" true, add "b" true, leave "d", add "a" true]

def three : Finset Bytes := {ascii "a", ascii "b", ascii "c"}

lemma three_cluster : Cluster noAddress sortedTable id .reference aloneAs heard three where
  started u _ := aloneAs_start u
  self u _ := rfl
  keeps u hu := by
    refine along_iff.2 fun before c hbefore => keeps_of_saved ?_ Function.injective_id
    have hc : c ∈ heard u := hbefore.subset (by simp)
    exact (by decide : ∀ u ∈ three, ∀ c ∈ heard u, c.saved) u hu c hc
  apart _ _ _ _ _ _ _ hne := hne
  members u hu v hv := by
    have hnamed : ∀ u ∈ three, ∀ v ∈ [ascii "a", ascii "b", ascii "c", ascii "d"], v ≠ u →
        (v ∈ three ↔ latest .reference v (heard u) = some true) := by decide +kernel
    have hnames : ∀ u ∈ three, ∀ w ∈ (heard u).reverse.filterMap (Call.verdict .reference),
        w.1 ∈ [ascii "a", ascii "b", ascii "c", ascii "d"] := by decide +kernel
    have hthree : ∀ v ∈ three, v ∈ [ascii "a", ascii "b", ascii "c", ascii "d"] := by decide
    simp only [not_member_aloneAs]
    by_cases hmem : v ∈ [ascii "a", ascii "b", ascii "c", ascii "d"]
    · rw [hnamed u hu v hmem hv]
      cases latest .reference v (heard u) with
      | none => simp
      | some b => simp
    · have hnone : latest .reference v (heard u) = none := by
        refine List.lookup_eq_none_iff.2 fun w hw => ?_
        simp only [bne_iff_ne, ne_eq]
        rintro rfl
        exact hmem (hnames u hu w hw)
      simp only [hnone, iff_false]
      exact fun hv' => hmem (hthree v hv')

theorem placement_example : ∃ owners : List Bytes, owners.length = 2 ∧ ∀ u ∈ three,
    ((node noAddress sortedTable id .reference aloneAs heard u).locator.keyIsMine id (ascii "key") 2 ↔ u ∈ owners) := by
  obtain ⟨owners, -, -, hlength, howners⟩ :=
    placement sortedTable_container three_cluster ⟨ascii "a", by decide⟩ (ascii "key") 2
  exact ⟨owners, hlength, fun u hu => by simpa using (howners u hu).2.1⟩

end Example

end Cluster

end ModifyPeer

end Turbopump
