import Turbopump.Callbacks.ComputedOptions
import Turbopump.Membership.KnownPeers

/-! The choice of a write's next mirror, and the chain of nodes that a write is passed along. -/

namespace Turbopump

def toShort (n : ℤ) : ℤ := (n + 32768) % 65536 - 32768

structure PeerPtr where
  object : ℕ
  peer : Peer
  deriving DecidableEq

structure IKnowPeers where
  self : Option PeerPtr
  lookup : Bytes → Option PeerPtr

namespace MirrorToPeer

def findNext (source self : Bytes) : ℕ → List Bytes → Option (ℕ × Bytes)
  -- The loop over the locations: where it breaks, and at which location.
  | _, [] => none
  | next, loc :: locations =>
    if loc = source ∨ loc = self then findNext source self (next + 1) locations else some (next, loc)

def withSource (self : PeerPtr) (params : WriteInstructions) : WriteInstructions :=
  if params.mirror = 0 then { params with source := self.peer.uid } else params

def chooseMirror (locations : Bytes → ℕ → List Bytes) (membership : IKnowPeers) (params : WriteInstructions) :
    Option PeerPtr × WriteInstructions :=
  let next := toUnsigned params.mirror
  if toUnsigned params.copies ≤ next then (none, params)
  else match membership.self with
    | none => (none, params)
    | some self =>
      let params := withSource self params
      let locations := locations params.name (toUnsigned params.copies)
      match findNext params.source self.peer.uid next (locations.drop next) with
      | none => (none, params)
      | some (next, loc) => match membership.lookup loc with
        | none => (none, params)
        | some peer =>
          if peer.object = self.object ∨ peer.peer.uid = params.source then (none, params)
          else (some peer, { params with mirror := toShort (next + 1) })

structure ChainHop where
  node : Bytes
  source : Bytes
  chosen : Bytes

/-- The first hops of a write: each chosen peer goes on from the request that was sent to it. -/
def chain (locations : Bytes → Bytes → ℕ → List Bytes) (membership : Bytes → IKnowPeers) :
    ℕ → Bytes → Write → List ChainHop
  | 0, _, _ => []
  | hops + 1, node, request =>
    match chooseMirror (locations node) (membership node) { toWrite := request } with
    | (none, _) => []
    | (some peer, params) =>
      ⟨node, params.source, peer.peer.uid⟩ :: chain locations membership hops peer.peer.uid params.toWrite

def KnowsAll (nodes : List Bytes) (node : Bytes) (membership : IKnowPeers) : Prop :=
  ∃ self, membership.self = some self ∧ self.peer.uid = node ∧
    ∀ loc ∈ nodes, loc ≠ node → ∃ peer, membership.lookup loc = some peer ∧ peer.peer.uid = loc ∧
      peer.object ≠ self.object

section Chain

variable {locations : Bytes → Bytes → ℕ → List Bytes} {membership : Bytes → IKnowPeers} {L : List Bytes}
  {origin : Bytes} {request : Write}

structure Underway (L : List Bytes) (origin node : Bytes) (request : Write) (m : ℕ) : Prop where
  copies : (L.length : ℤ) ≤ request.copies
  short : request.copies ≤ 32767
  mirror : request.mirror = m
  bound : m ≤ L.length
  known : node ∈ origin :: L
  first : m = 0 → node = origin
  later : m ≠ 0 → request.source = origin
  passed : node = origin ∨ node ∉ L.drop m

lemma toUnsigned_natCast {n : ℕ} (h : n < 4294967296) : toUnsigned n = n := by
  simp only [toUnsigned]
  omega

lemma toShort_of_le {n : ℤ} (h₀ : -32768 ≤ n) (h : n ≤ 32767) : toShort n = n := by
  simp only [toShort]
  omega

lemma findNext_eq (source self : Bytes) (L : List Bytes) (m : ℕ) :
    (findNext source self m (L.drop m) = none ∧ (L.drop m).filter (fun loc => loc ≠ source ∧ loc ≠ self) = []) ∨
    ∃ next loc, findNext source self m (L.drop m) = some (next, loc) ∧ m ≤ next ∧ next < L.length ∧ loc ∈ L ∧
      loc ≠ source ∧ loc ≠ self ∧ (L.drop m).filter (fun loc => loc ≠ source ∧ loc ≠ self) =
        loc :: (L.drop (next + 1)).filter (fun loc => loc ≠ source ∧ loc ≠ self) ∧
      loc :: L.drop (next + 1) <:+ L := by
  induction h : L.drop m generalizing m with
  | nil => exact Or.inl ⟨rfl, rfl⟩
  | cons loc rest ih =>
    have hm : m < L.length := by
      by_contra hge
      rw [List.drop_eq_nil_of_le (not_lt.1 hge)] at h
      exact absurd h (by simp)
    have hrest : L.drop (m + 1) = rest := by rw [← List.drop_drop, h, List.drop_one, List.tail_cons]
    by_cases hskip : loc = source ∨ loc = self
    · have hfilter : (loc :: rest).filter (fun loc => loc ≠ source ∧ loc ≠ self) =
          rest.filter (fun loc => loc ≠ source ∧ loc ≠ self) := by
        apply List.filter_cons_of_neg
        simp only [ne_eq, decide_eq_true_eq, not_and_or, not_not]
        exact hskip
      rw [hfilter]
      simp only [findNext, if_pos hskip]
      rcases ih (m + 1) hrest with hnone | ⟨next, loc', hfind, hle, hlt⟩
      · exact Or.inl hnone
      · exact Or.inr ⟨next, loc', hfind, by omega, hlt⟩
    · obtain ⟨hsource, hself⟩ := not_or.1 hskip
      refine Or.inr ⟨m, loc, by simp only [findNext, if_neg hskip], le_rfl, hm, ?_, hsource, hself, ?_, ?_⟩
      · exact List.mem_of_mem_drop (h ▸ List.mem_cons_self)
      · rw [hrest, List.filter_cons_of_pos (by simp [hsource, hself])]
      · rw [hrest, ← h]
        exact List.drop_suffix m L

lemma chooseMirror_eq (hL : L.Nodup) {node : Bytes} {m : ℕ} (h : Underway L origin node request m)
    (hlocations : locations node request.name (toUnsigned request.copies) = L)
    (hknows : KnowsAll L node (membership node)) :
    ((chooseMirror (locations node) (membership node) { toWrite := request }).1 = none ∧
      (L.drop m).filter (· ≠ origin) = []) ∨
    ∃ peer params m', chooseMirror (locations node) (membership node) { toWrite := request } = (some peer, params) ∧
      (L.drop m).filter (· ≠ origin) = peer.peer.uid :: (L.drop m').filter (· ≠ origin) ∧ m < m' ∧
      peer.peer.uid ≠ node ∧ peer.peer.uid ≠ origin ∧ params.source = origin ∧ params.name = request.name ∧
      params.copies = request.copies ∧ Underway L origin peer.peer.uid params.toWrite m' := by
  obtain ⟨self, hself, huid, hothers⟩ := hknows
  have hcopies := h.copies
  have hshort := h.short
  have hbound := h.bound
  have hmirror : toUnsigned request.mirror = m := by rw [h.mirror, toUnsigned_natCast (by omega)]
  have hlimit : toUnsigned request.copies = request.copies.toNat := by
    simp only [toUnsigned]
    omega
  -- the node itself is the origin, or is behind the write already
  have hfilter : ∀ k, m ≤ k → (L.drop k).filter (fun loc => loc ≠ origin ∧ loc ≠ node) =
      (L.drop k).filter (· ≠ origin) := by
    intro k hk
    apply List.filter_congr
    intro loc hloc
    simp only [ne_eq, decide_eq_decide, and_iff_left_iff_imp]
    rintro hne rfl
    rcases h.passed with rfl | hpassed
    · exact hne rfl
    · exact hpassed ((List.drop_suffix_drop_left L hk).mem hloc)
  have hsource : withSource self { toWrite := request } = { toWrite := { request with source := origin } } := by
    by_cases hm : m = 0
    · rw [withSource, if_pos (by simp [h.mirror, hm]), huid, h.first hm]
    · rw [withSource, if_neg (by simpa [h.mirror] using hm), ← h.later hm]
  by_cases hdone : toUnsigned request.copies ≤ m
  · left
    refine ⟨by simp only [chooseMirror, hmirror, if_pos hdone], ?_⟩
    rw [List.drop_eq_nil_of_le (by omega), List.filter_nil]
  · rcases findNext_eq origin node L m with
      ⟨hnone, hempty⟩ | ⟨next, loc, hfind, hle, hlt, hmem, horigin, hnode, hnext, hsuffix⟩
    · left
      refine ⟨?_, by rw [← hfilter m le_rfl, hempty]⟩
      simp only [chooseMirror, hmirror, if_neg hdone, hself, hsource, hlocations, huid, hnone]
    · right
      obtain ⟨peer, hlookup, hpeer, hobject⟩ := hothers loc hmem hnode
      rw [hfilter m le_rfl, hfilter (next + 1) (by omega)] at hnext
      refine ⟨peer, { toWrite := { request with source := origin, mirror := toShort (next + 1) } }, next + 1,
        ?_, ?_, by omega, ?_, ?_, rfl, rfl, rfl, ?_⟩
      · simp only [chooseMirror, hmirror, if_neg hdone, hself, hsource, hlocations, huid, hfind, hlookup]
        apply if_neg
        rintro (hsame | hsame)
        · exact hobject hsame
        · exact horigin (hpeer ▸ hsame)
      · rw [hpeer, hnext]
      · rwa [hpeer]
      · rwa [hpeer]
      · rw [hpeer]
        refine ⟨hcopies, hshort, ?_, hlt, List.mem_cons_of_mem _ hmem, by omega, fun _ => rfl, Or.inr ?_⟩
        · exact (toShort_of_le (by omega) (by omega)).trans (Nat.cast_succ next).symm
        · exact (List.nodup_cons.1 (hsuffix.sublist.nodup hL)).1

lemma chain_eq (hL : L.Nodup) (hknows : ∀ node ∈ origin :: L, KnowsAll L node (membership node)) {name : Bytes}
    {copies : ℤ} (hlocations : ∀ node ∈ origin :: L, locations node name (toUnsigned copies) = L) {node : Bytes}
    {m : ℕ} (h : Underway L origin node request m) (hname : request.name = name) (hcopies : request.copies = copies)
    (hops : ℕ) (hhops : L.length - m ≤ hops) :
    (chain locations membership hops node request).map ChainHop.chosen = (L.drop m).filter (· ≠ origin) ∧
    ∀ hop ∈ chain locations membership hops node request,
      hop.source = origin ∧ hop.chosen ≠ hop.node ∧ hop.chosen ≠ hop.source := by
  induction hops generalizing node request m with
  | zero => simp [chain, List.drop_eq_nil_of_le (show L.length ≤ m by omega)]
  | succ hops ih =>
    have hchoose := chooseMirror_eq hL h (by rw [hname, hcopies]; exact hlocations node h.known)
      (hknows node h.known)
    rcases hchoose with ⟨hnone, hempty⟩ | ⟨peer, params, m', hsome, hvisit, hlt, hnode, horigin, hsource, hn, hc, hu⟩
    · rcases hr : chooseMirror (locations node) (membership node) { toWrite := request } with ⟨_ | peer, params⟩
      · simp only [chain, hr, List.map_nil, hempty, true_and]
        exact fun hop hhop => absurd hhop List.not_mem_nil
      · simp [hr] at hnone
    · obtain ⟨hvisits, hgood⟩ := ih hu (hn.trans hname) (hc.trans hcopies) (by omega)
      simp only [chain, hsome, List.map_cons, hvisits, hvisit, List.mem_cons, true_and]
      rintro hop (rfl | hhop)
      · exact ⟨hsource, hnode, hsource ▸ horigin⟩
      · exact hgood hop hhop

theorem chain_visits (hL : L.Nodup) (name : Bytes) {copies : ℤ} (hshort : copies ≤ 32767)
    (hlen : (L.length : ℤ) ≤ copies) (origin : Bytes)
    (hlocations : ∀ node ∈ origin :: L, locations node name (toUnsigned copies) = L)
    (hknows : ∀ node ∈ origin :: L, KnowsAll L node (membership node)) (request : Write) (hname : request.name = name)
    (hcopies : request.copies = copies) (hmirror : request.mirror = 0) (hops : ℕ) (hhops : L.length ≤ hops) :
    (chain locations membership hops origin request).map ChainHop.chosen = L.filter (· ≠ origin) ∧
    (chain locations membership hops origin request).length ≤ L.length ∧
    ∀ hop ∈ chain locations membership hops origin request, hop.chosen ≠ hop.node ∧ hop.chosen ≠ hop.source := by
  have hstart : Underway L origin origin request 0 :=
    ⟨hcopies ▸ hlen, hcopies ▸ hshort, hmirror, Nat.zero_le _, List.mem_cons_self, fun _ => rfl, by simp, Or.inl rfl⟩
  obtain ⟨hvisits, hgood⟩ := chain_eq hL hknows hlocations hstart hname hcopies hops (by omega)
  rw [List.drop_zero] at hvisits
  refine ⟨hvisits, ?_, fun hop hhop => (hgood hop hhop).2⟩
  rw [← List.length_map, hvisits]
  exact List.length_filter_le _ _

def sampleNodes : List Bytes := [[1], [2], [3], [4]]

def sampleMembership (node : Bytes) : IKnowPeers where
  self := some ⟨0, ⟨node, []⟩⟩
  lookup loc := if loc ∈ sampleNodes ∧ loc ≠ node then some ⟨1 + loc.length, ⟨loc, []⟩⟩ else none

theorem chain_visits_example :
    (chain (fun _ _ limit => [[3], [1], [2]].take limit) sampleMembership 3 [1] { name := [107] }).map
      ChainHop.chosen = [[3], [2]] := by
  have hvisits := @chain_visits (fun _ _ limit => [[3], [1], [2]].take limit) sampleMembership [[3], [1], [2]]
    (by decide) [107] 3 (show (3 : ℤ) ≤ 32767 by decide) (by decide)
    [1] (fun _ _ => rfl) ?_ { name := [107] } rfl rfl rfl 3 le_rfl
  · exact hvisits.1
  · intro node hnode
    refine ⟨_, rfl, rfl, fun loc hloc hne => ?_⟩
    have hmem : loc ∈ sampleNodes := (by decide : ∀ loc ∈ [[3], [1], [2]], loc ∈ sampleNodes) loc hloc
    exact ⟨_, if_pos ⟨hmem, hne⟩, rfl, by simp⟩

end Chain

end MirrorToPeer

end Turbopump
