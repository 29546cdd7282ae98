import Turbopump.Lib.Pieces
import Turbopump.Membership.AddressTable

/-! The file that the known peers are saved to, and what is read back from it. -/

namespace Turbopump

structure TurboStr where
  split : Bytes → UInt8 → List Bytes
  join : List Bytes → UInt8 → Bytes
  -- the lines that `StateSaver::load` calls its function with
  lines : Bytes → List Bytes

/-- What is relied on of `turbo::str` and `StateSaver`: nothing but empty pieces, or lines, is left out. -/
structure TurboStr.Splits (S : TurboStr) : Prop where
  split : ∀ s d, Pieces d s (S.split s d)
  join : ∀ pieces d, S.join pieces d = List.intercalate [d] pieces
  lines : ∀ contents, Pieces 10 contents (S.lines contents)

namespace Peer

variable (S : TurboStr)

def iplist (peer : Peer) : Bytes :=
  let iplist := S.join peer.ips 124
  if iplist = [] then ascii "none" else iplist

def toString (peer : Peer) : Bytes := peer.uid ++ 32 :: peer.iplist S

def fromString (serial : Bytes) : Option Peer := match S.split serial 32 with
  | uid :: iplist :: _ => some ⟨uid, if iplist ≠ ascii "none" then S.split iplist 124 else []⟩
  | _ => none

structure Separated (peer : Peer) : Prop where
  uid : 32 ∉ peer.uid ∧ 10 ∉ peer.uid
  ips : ∀ ip ∈ peer.ips, 32 ∉ ip ∧ 10 ∉ ip ∧ 124 ∉ ip

/-- There are no separators in the peer, its addresses are not taken for none, and `split` keeps its empty strings. -/
structure Legible (peer : Peer) : Prop where
  separated : peer.Separated
  addresses : peer.ips ≠ [ascii "none"] ∧ peer.ips ≠ [[]]
  emptyUid : peer.uid = [] → (S.split (peer.toString S) 32).length = 2
  emptyIp : [] ∈ peer.ips → (S.split (S.join peer.ips 124) 124).length = peer.ips.length

section Lines

variable {S} {peer other : Peer}

lemma iplist_legible (hS : S.Splits) (h : peer.Separated) :
    peer.iplist S ≠ [] ∧ 32 ∉ peer.iplist S ∧ 10 ∉ peer.iplist S := by
  have hnone : ascii "none" ≠ [] ∧ 32 ∉ ascii "none" ∧ 10 ∉ ascii "none" := by decide +kernel
  have hjoin {c : UInt8} (hc : c ≠ 124) (hips : ∀ ip ∈ peer.ips, c ∉ ip) : c ∉ S.join peer.ips 124 := by
    rw [hS.join]
    intro hmem
    rcases mem_intercalate hmem with hmem | ⟨ip, hip, hmem⟩
    · exact hc hmem
    · exact hips ip hip hmem
  simp only [iplist]
  split_ifs with hempty
  · exact hnone
  · exact ⟨hempty, hjoin (by decide) fun ip hip => (h.ips ip hip).1, hjoin (by decide) fun ip hip => (h.ips ip hip).2.1⟩

lemma splitOn_toString (hS : S.Splits) (h : peer.Separated) :
    (peer.toString S).splitOn 32 = [peer.uid, peer.iplist S] := by
  rw [toString, List.splitOn_append_cons_self_of_not_mem h.uid.1, List.splitOn_eq_singleton (iplist_legible hS h).2.1]

lemma newline_not_mem (hS : S.Splits) (h : peer.Separated) : 10 ∉ peer.toString S := by
  rw [toString, List.mem_append, List.mem_cons, not_or, not_or]
  exact ⟨h.uid.2, by decide, (iplist_legible hS h).2.2⟩

lemma split_toString (hS : S.Splits) (h : peer.Separated) :
    S.split (peer.toString S) 32 = [peer.uid, peer.iplist S] ∨
      peer.uid = [] ∧ S.split (peer.toString S) 32 = [peer.iplist S] := by
  have hpieces := hS.split (peer.toString S) 32
  have hlist := (iplist_legible hS h).1
  by_cases huid : peer.uid = []
  · have hsublist := hpieces.sublist
    have hkept := hpieces.kept
    rw [splitOn_toString hS h, huid] at hsublist hkept
    rw [huid]
    match hsplit : S.split (peer.toString S) 32 with
    | [] => simp [hsplit, hlist] at hkept
    | [piece] =>
      by_cases hpiece : piece = []
      · simp [hsplit, hlist, hpiece] at hkept
      · simp [hsplit, hlist, hpiece] at hkept
        exact .inr ⟨rfl, by rw [hkept]⟩
    | _ :: _ :: _ =>
      rw [hsplit] at hsublist
      exact .inl (hsublist.eq_of_length_le (by simp))
  · left
    rw [hpieces.eq_splitOn, splitOn_toString hS h]
    simp [splitOn_toString hS h, Ne.symm huid, Ne.symm hlist]

lemma ips_read (hS : S.Splits) (h : peer.Separated) :
    (if peer.iplist S ≠ ascii "none" then S.split (peer.iplist S) 124 else []) = peer.ips ↔
      (peer.ips ≠ [ascii "none"] ∧ peer.ips ≠ [[]]) ∧
        ([] ∈ peer.ips → (S.split (S.join peer.ips 124) 124).length = peer.ips.length) := by
  have hjoin := hS.join peer.ips 124
  by_cases hempty : peer.ips = [] ∨ peer.ips = [[]]
  · have hlist : peer.iplist S = ascii "none" := by
      rw [iplist, hjoin]
      exact if_pos (intercalate_eq_nil.2 hempty)
    rw [hlist, if_neg (not_not.2 rfl)]
    rcases hempty with hips | hips
    · simp [hips]
    · simp [hips]
  · have hlist : peer.iplist S = S.join peer.ips 124 := by
      rw [iplist]
      exact if_neg fun hnil => hempty (intercalate_eq_nil.1 (hjoin ▸ hnil))
    rw [not_or] at hempty
    have hsplitOn : (S.join peer.ips 124).splitOn 124 = peer.ips := by
      rw [hjoin, List.splitOn_intercalate 124 (fun ip hip => (h.ips ip hip).2.2) hempty.1]
    have hpieces := hS.split (S.join peer.ips 124) 124
    rw [hlist]
    by_cases hnone : S.join peer.ips 124 = ascii "none"
    · have hips : peer.ips = [ascii "none"] := by
        rw [← hsplitOn, hnone]
        exact List.splitOn_eq_singleton (by decide +kernel)
      rw [if_neg (not_not.2 hnone), hips]
      simp
    · have hips : peer.ips ≠ [ascii "none"] := by
        intro hips
        apply hnone
        rw [hjoin, hips, List.intercalate_singleton]
      have hread := hpieces.eq_iff
      rw [hsplitOn] at hread
      rw [if_pos hnone, hread]
      refine ⟨fun hlength => ⟨⟨hips, hempty.2⟩, fun _ => hlength⟩, fun hlegible => ?_⟩
      by_cases hmem : [] ∈ peer.ips
      · exact hlegible.2 hmem
      · rw [hpieces.eq_splitOn (by rwa [hsplitOn]), hsplitOn]

lemma uid_read (hS : S.Splits) (h : peer.Separated) (hread : fromString S (peer.toString S) = some other) :
    other.uid = peer.uid := by
  rw [fromString] at hread
  rcases split_toString hS h with hsplit | ⟨-, hsplit⟩
  · rw [hsplit] at hread
    exact Option.some.inj hread ▸ rfl
  · simp [hsplit] at hread

lemma read_back_iff (hS : S.Splits) (h : peer.Separated) :
    fromString S (peer.toString S) = some peer ↔ peer.Legible S := by
  rw [fromString]
  rcases split_toString hS h with hsplit | ⟨huid, hsplit⟩
  · have hread := ips_read hS h
    simp only [hsplit, Option.some.injEq]
    constructor
    · intro hpeer
      obtain ⟨haddresses, hempty⟩ := hread.1 (congrArg Peer.ips hpeer)
      exact ⟨h, haddresses, fun _ => by simp [hsplit], hempty⟩
    · intro hlegible
      rw [hread.2 ⟨hlegible.addresses, hlegible.emptyIp⟩]
  · simp only [hsplit, reduceCtorEq, false_iff]
    intro hlegible
    simpa [hsplit] using hlegible.emptyUid huid

lemma separated_of_read (hS : S.Splits) {line : Bytes} (hline : 10 ∉ line) (hread : fromString S line = some peer) :
    peer.Separated := by
  have hpieces := hS.split line 32
  rw [fromString] at hread
  split at hread
  · rename_i uid iplist rest hsplit
    rw [hsplit] at hpieces
    obtain ⟨huid, huidLine⟩ := hpieces.not_mem List.mem_cons_self
    obtain ⟨hlist, hlistLine⟩ := hpieces.not_mem (List.mem_cons_of_mem _ List.mem_cons_self)
    obtain rfl := Option.some.inj hread
    refine ⟨⟨huid, fun hmem => hline (huidLine _ hmem)⟩, fun ip hip => ?_⟩
    dsimp only at hip
    split_ifs at hip with hnone
    · obtain ⟨hbar, hipList⟩ := (hS.split iplist 124).not_mem hip
      exact ⟨fun hmem => hlist (hipList _ hmem), fun hmem => hline (hlistLine _ (hipList _ hmem)), hbar⟩
    · simp at hip
  · cases hread

end Lines

end Peer

/-- What is relied on of the iterators of `routing_table`: they pass every element once. -/
def RoutingTable.Iterates {τ : Type} (R : RoutingTable τ) (iterate : τ → List ℕ) : Prop :=
  ∀ t, ∃ uids : List Bytes, uids.Nodup ∧ (∀ uid, uid ∈ uids ↔ (R.find t uid).isSome) ∧
    iterate t = uids.filterMap (R.find t)

structure PeerView where
  self : Option Peer
  members : Bytes → Option Peer

namespace PeerView

def update (v : PeerView) (peer : Peer) : PeerView := match v.self with
  | none => { v with self := some peer }
  | some self =>
    if peer.uid = self.uid then { v with self := some peer }
    else { v with members := Function.update v.members peer.uid (some peer) }

def ofPeers (peers : List Peer) : PeerView := peers.foldl update ⟨none, fun _ => none⟩

def Knows (v : PeerView) (peer : Peer) : Prop := v.self = some peer ∨ v.members peer.uid = some peer

variable {v : PeerView} {peer other : Peer} {peers : List Peer}

lemma knows_update (h : (v.update peer).Knows other) : other = peer ∨ v.Knows other := by
  rw [update] at h
  cases hself : v.self with
  | none =>
    simp only [hself, Knows, Option.some.injEq] at h
    exact h.imp Eq.symm .inr
  | some self =>
    simp only [hself] at h
    split_ifs at h with huid
    · simp only [Knows, Option.some.injEq] at h
      exact h.imp Eq.symm .inr
    · simp only [Knows, Function.update_apply] at h
      split_ifs at h with hother
      · rcases h with h | h
        · exact .inr (.inl (hself.trans h))
        · exact .inl (Option.some.inj h).symm
      · exact .inr (by rwa [Knows, hself])

lemma self_update (v : PeerView) (peer : Peer) : (v.update peer).self ≠ none := by
  cases hself : v.self with
  | none => simp [update, hself]
  | some self =>
    simp only [update, hself]
    split_ifs
    · simp
    · simp

lemma self_ofPeers (h : peers ≠ []) : (ofPeers peers).self ≠ none := by
  obtain ⟨before, last, rfl⟩ := (List.eq_nil_or_concat' peers).resolve_left h
  rw [ofPeers, List.foldl_append]
  exact self_update _ last

lemma knows_ofPeers (h : (ofPeers peers).Knows peer) : peer ∈ peers := by
  induction peers using List.reverseRecOn with
  | nil => simp [ofPeers, Knows] at h
  | append_singleton peers last ih =>
    rw [ofPeers, List.foldl_append] at h
    rw [List.mem_append, List.mem_singleton]
    exact (knows_update h).elim .inr fun h => .inl (ih h)

lemma foldl_update {self : Peer} (hself : v.self = some self) (h : (self.uid :: peers.map Peer.uid).Nodup) :
    peers.foldl update v =
      ⟨some self, fun uid => (peers.find? (·.uid = uid)).or (v.members uid)⟩ := by
  induction peers generalizing v with
  | nil =>
    obtain ⟨_, members⟩ := v
    simp only at hself
    simp [hself]
  | cons peer peers ih =>
    simp only [List.map_cons, List.nodup_cons, List.mem_cons, not_or] at h
    obtain ⟨⟨hne, hrest⟩, hpeer, hnodup⟩ := h
    have hupdate : v.update peer = { v with members := Function.update v.members peer.uid (some peer) } := by
      simp only [update, hself, if_neg (Ne.symm hne)]
    have hrun := @ih { v with members := Function.update v.members peer.uid (some peer) } hself
      (List.nodup_cons.2 ⟨hrest, hnodup⟩)
    rw [List.foldl_cons, hupdate, hrun, mk.injEq]
    refine ⟨rfl, funext fun uid => ?_⟩
    simp only [List.find?_cons, Function.update_apply]
    by_cases huid : peer.uid = uid
    · -- no later peer has this uid
      have hlater : peers.find? (·.uid = uid) = none := by
        rw [List.find?_eq_none]
        intro other hother
        rw [decide_eq_true_iff, ← huid]
        rintro hsame
        exact hpeer (hsame ▸ List.mem_map_of_mem hother)
      simp [hlater, huid]
    · simp [huid, Ne.symm huid]

lemma ofPeers_cons {self : Peer} (h : (self.uid :: peers.map Peer.uid).Nodup) :
    ofPeers (self :: peers) = ⟨some self, fun uid => peers.find? (·.uid = uid)⟩ := by
  rw [ofPeers, List.foldl_cons, foldl_update rfl h]
  simp [update]

end PeerView

namespace KnownPeers

variable {α τ : Type} [DecidableEq α] (A : SocketAddress α) (R : RoutingTable τ) (S : TurboStr)

def view (k : KnownPeers α τ) : PeerView := ⟨k.self, fun uid => (k.find R uid).map Prod.snd⟩

def addSelf (k : KnownPeers α τ) (generated : Bytes) : Bool × KnownPeers α τ := match k.self with
  | some _ => (false, k)
  | none => (true, { k with self := some ⟨generated, []⟩, members := R.setOrigin k.members generated })

-- in the order in which `forEachPeer` calls its function with them
def peers (iterate : τ → List ℕ) (k : KnownPeers α τ) : List Peer :=
  k.self.toList ++ (iterate k.members).filterMap (k.heap[·]?)

def toString (iterate : τ → List ℕ) (k : KnownPeers α τ) : Bytes :=
  (k.peers iterate).flatMap fun peer => peer.toString S ++ [10]

def loadLine (k : KnownPeers α τ) (line : Bytes) : KnownPeers α τ := match Peer.fromString S line with
  | some peer => (k.update A R peer.uid peer.ips).2
  | none => k

/-- `generated` is the uid that `MyMemberId::generate` makes up. -/
def load (k : KnownPeers α τ) (generated contents : Bytes) : KnownPeers α τ :=
  (((S.lines contents).foldl (loadLine A R S) k).addSelf R generated).2

section Saved

variable {A R S} {k : KnownPeers α τ} {iterate : τ → List ℕ} {generated contents : Bytes}

lemma view_update (h : k.WellFormed R) (hR : R.Container) (uid : Bytes) (ips : List Bytes) :
    (k.update A R uid ips).2.view R = (k.view R).update ⟨uid, ips⟩ := by
  rcases update_cases (A := A) h uid ips with ⟨hself, hk⟩ | ⟨self, hself, huid, hk⟩ | ⟨self, hself, huid, hp, hk⟩ |
    ⟨self, p, peer, hself, huid, hp, hpeer, hk⟩
  · rw [hk]
    have hnone (u : Bytes) := h.origin hself u
    have hempty (u : Bytes) := hR.setOrigin k.members uid hnone u
    simp [view, PeerView.update, hself, find, hnone, hempty]
  · subst huid
    rw [hk]
    simp [view, PeerView.update, hself, find]
  · rw [hk]
    simp only [view, PeerView.update, hself, if_neg huid, PeerView.mk.injEq, true_and]
    funext u
    rw [find, hR.insert _ _ _ hp, Function.update_apply]
    split_ifs with hu
    · simp
    · cases hq : R.find k.members u with
      | none => simp [find, hq]
      | some q =>
        obtain ⟨other, hother, -⟩ := h.named u q hq
        have hlt := (List.getElem?_eq_some_iff.1 hother).1
        simp [find, hq, List.getElem?_append_left hlt]
  · rw [hk]
    have hnamed := h.named uid p hp
    obtain ⟨peer', hpeer', hname⟩ := hnamed
    obtain rfl := Option.some.inj (hpeer.symm.trans hpeer')
    subst hname
    simp only [view, PeerView.update, hself, if_neg huid, PeerView.mk.injEq, true_and]
    funext u
    rw [Function.update_apply, find]
    have hlt := (List.getElem?_eq_some_iff.1 hpeer).1
    split_ifs with hu
    · simp [hu, hp, List.getElem?_set_self hlt]
    · cases hq : R.find k.members u with
      | none => simp [find, hq]
      | some q =>
        have hpq : p ≠ q := by
          rintro rfl
          obtain ⟨other, hother, hname⟩ := h.named u p hq
          obtain rfl := Option.some.inj (hpeer.symm.trans hother)
          exact hu hname.symm
        simp [find, hq, List.getElem?_set_ne hpq]

lemma view_remove (h : k.WellFormed R) (hR : R.Container) (uid : Bytes) :
    (k.remove A R uid).2.view R = { k.view R with members := Function.update (k.view R).members uid none } := by
  rcases remove_cases (A := A) h uid with ⟨hp, hk⟩ | ⟨p, peer, hp, -, -, hk⟩
  · rw [hk]
    have hnone : (k.view R).members uid = none := by simp [view, find, hp]
    rw [← hnone, Function.update_eq_self]
  · rw [hk]
    simp only [view, PeerView.mk.injEq, true_and]
    funext u
    rw [Function.update_apply, find, (hR.erase _ _ _ hp).2]
    split_ifs with hu
    · rfl
    · rfl

lemma knows_call (h : k.WellFormed R) (hR : R.Container) {c : Call} {peer : Peer}
    (hpeer : ((k.call A R c).view R).Knows peer) : c = .update peer.uid peer.ips ∨ (k.view R).Knows peer := by
  cases c with
  | update uid ips =>
    rw [call, view_update h hR] at hpeer
    exact (PeerView.knows_update hpeer).imp_left fun hsame => by rw [hsame]
  | remove uid =>
    simp only [call, view_remove h hR, PeerView.Knows, Function.update_apply] at hpeer
    split_ifs at hpeer with huid
    · simp only [or_false] at hpeer
      exact .inr (.inl hpeer)
    · exact .inr hpeer

lemma self_call (h : k.WellFormed R) (hR : R.Container) {c : Call}
    (hself : k.self ≠ none ∨ ∃ uid ips, c = .update uid ips) : (k.call A R c).self ≠ none := by
  change ((k.call A R c).view R).self ≠ none
  cases c with
  | update uid ips =>
    rw [call, view_update h hR]
    exact PeerView.self_update _ _
  | remove uid =>
    rw [call, view_remove h hR]
    exact hself.resolve_right (by simp)

lemma view_loadLine (h : k.WellFormed R) (hR : R.Container) (lines : List Bytes) :
    (lines.foldl (loadLine A R S) k).WellFormed R ∧
      (lines.foldl (loadLine A R S) k).view R = (lines.filterMap (Peer.fromString S)).foldl PeerView.update
        (k.view R) := by
  induction lines generalizing k with
  | nil => exact ⟨h, rfl⟩
  | cons line lines ih =>
    rw [List.foldl_cons, List.filterMap_cons]
    cases hread : Peer.fromString S line with
    | none =>
      simp only [loadLine, hread]
      exact ih h
    | some peer =>
      simp only [loadLine, hread]
      rw [List.foldl_cons, ← view_update h hR]
      exact ih (h.update hR peer.uid peer.ips)

def loaded (S : TurboStr) (generated contents : Bytes) : List Peer :=
  let peers := (S.lines contents).filterMap (Peer.fromString S)
  if peers = [] then [⟨generated, []⟩] else peers

lemma view_load (h : k.Fresh R) (hself : k.self = none) (hR : R.Container) :
    (k.load A R S generated contents).view R = PeerView.ofPeers (loaded S generated contents) := by
  obtain ⟨hlines, hview⟩ := view_loadLine (A := A) (S := S) h.wellFormed hR (S.lines contents)
  have hempty : k.view R = ⟨none, fun _ => none⟩ := by
    rw [view, hself]
    simp [find, h.members]
  rw [hempty] at hview
  change _ = PeerView.ofPeers _ at hview
  rw [load, loaded]
  split_ifs with hpeers
  · rw [hpeers] at hview
    have hnobody : ((S.lines contents).foldl (loadLine A R S) k).self = none := congrArg PeerView.self hview
    have hnone := hR.setOrigin _ generated (hlines.origin hnobody)
    simp only [addSelf, hnobody]
    simp [view, find, hnone, PeerView.ofPeers, PeerView.update]
  · obtain ⟨self, hsome⟩ := Option.ne_none_iff_exists'.1 (hview ▸ PeerView.self_ofPeers hpeers :
      (((S.lines contents).foldl (loadLine A R S) k).view R).self ≠ none)
    have hself : ((S.lines contents).foldl (loadLine A R S) k).self = some self := hsome
    rw [addSelf, hself]
    exact hview

omit [DecidableEq α] in
lemma exists_members (h : k.WellFormed R) (hR : R.Iterates iterate) : ∃ members : List Peer,
    k.peers iterate = k.self.toList ++ members ∧ (members.map Peer.uid).Nodup ∧
      (∀ peer ∈ members, (k.view R).members peer.uid = some peer) ∧
      ∀ uid, (k.view R).members uid = members.find? (·.uid = uid) := by
  obtain ⟨uids, hnodup, huids, hiterate⟩ := hR k.members
  have hview (uid : Bytes) : (k.view R).members uid = (R.find k.members uid).bind (k.heap[·]?) := by
    simp only [view, find]
    cases R.find k.members uid with
    | none => rfl
    | some p => simp
  have hnamed {uid : Bytes} {peer : Peer} (hpeer : (k.view R).members uid = some peer) : peer.uid = uid := by
    rw [hview] at hpeer
    obtain ⟨p, hp, hpeer⟩ := Option.bind_eq_some_iff.1 hpeer
    obtain ⟨peer', hpeer', hname⟩ := h.named uid p hp
    obtain rfl := Option.some.inj (hpeer.symm.trans hpeer')
    exact hname
  have hmembers : (iterate k.members).filterMap (k.heap[·]?) = uids.filterMap (k.view R).members := by
    rw [hiterate, List.filterMap_filterMap]
    exact List.filterMap_congr fun uid _ => (hview uid).symm
  have hmem {peer : Peer} (hpeer : peer ∈ uids.filterMap (k.view R).members) :
      (k.view R).members peer.uid = some peer := by
    obtain ⟨uid, -, hfound⟩ := List.mem_filterMap.1 hpeer
    rwa [hnamed hfound]
  refine ⟨uids.filterMap (k.view R).members, by rw [peers, hmembers], ?_, fun peer hpeer => hmem hpeer, fun uid => ?_⟩
  · refine List.Nodup.sublist ?_ hnodup
    have hall : ∀ uid ∈ uids, ((k.view R).members uid).map Peer.uid = some uid := by
      intro uid huid
      obtain ⟨p, hp⟩ := Option.isSome_iff_exists.1 ((huids uid).1 huid)
      obtain ⟨peer, hpeer, hname⟩ := h.named uid p hp
      rw [hview, hp, Option.bind_some, hpeer, Option.map_some, hname]
    rw [List.map_filterMap, List.filterMap_congr hall, List.filterMap_some]
  · cases hfind : (uids.filterMap (k.view R).members).find? (·.uid = uid) with
    | none =>
      rw [List.find?_eq_none] at hfind
      cases hfound : (k.view R).members uid with
      | none => rfl
      | some peer =>
        have huid : uid ∈ uids := by
          rw [huids]
          rw [hview] at hfound
          obtain ⟨p, hp, -⟩ := Option.bind_eq_some_iff.1 hfound
          rw [hp, Option.isSome_some]
        exact absurd (decide_eq_true (hnamed hfound)) (hfind peer (List.mem_filterMap.2 ⟨uid, huid, hfound⟩))
    | some peer =>
      have huid := List.find?_some (p := fun peer : Peer => decide (peer.uid = uid)) hfind
      rw [← of_decide_eq_true huid]
      exact hmem (List.mem_of_find?_eq_some hfind)

omit [DecidableEq α] in
lemma view_peers (h : k.WellFormed R) (hR : R.Iterates iterate) (hself : k.self ≠ none) :
    ((k.peers iterate).map Peer.uid).Nodup ∧ k.peers iterate ≠ [] ∧
      k.view R = PeerView.ofPeers (k.peers iterate) ∧ ∀ peer, peer ∈ k.peers iterate ↔ (k.view R).Knows peer := by
  obtain ⟨members, hpeers, hnodup, hmembers, hfind⟩ := exists_members h hR
  obtain ⟨self, hself⟩ := Option.ne_none_iff_exists'.1 hself
  rw [hself, Option.toList_some, List.singleton_append] at hpeers
  have hdistinct : (self.uid :: members.map Peer.uid).Nodup := by
    refine List.nodup_cons.2 ⟨fun hmem => ?_, hnodup⟩
    obtain ⟨peer, hpeer, hname⟩ := List.mem_map.1 hmem
    have hfound := hmembers peer hpeer
    rw [hname] at hfound
    simp [view, find, h.self self hself] at hfound
  have hview : k.view R = PeerView.ofPeers (k.peers iterate) := by
    rw [hpeers, PeerView.ofPeers_cons hdistinct, view, hself, PeerView.mk.injEq]
    exact ⟨rfl, funext hfind⟩
  refine ⟨by rwa [hpeers, List.map_cons], by simp [hpeers], hview, fun peer => ⟨fun hmem => ?_, fun hknows => ?_⟩⟩
  · rw [hpeers, List.mem_cons] at hmem
    rcases hmem with rfl | hmem
    · exact .inl hself
    · exact .inr (hmembers peer hmem)
  · rw [hview] at hknows
    exact PeerView.knows_ofPeers hknows

omit [DecidableEq α] in
lemma read_toString (hS : S.Splits) (h : ∀ peer ∈ k.peers iterate, peer.Separated) :
    (S.lines (k.toString S iterate)).filterMap (Peer.fromString S) =
      (k.peers iterate).filterMap fun peer => Peer.fromString S (peer.toString S) := by
  have hnil : Peer.fromString S [] = none := by
    have hlength := (hS.split [] 32).sublist.length_le
    rw [List.splitOn_nil, List.length_singleton] at hlength
    rw [Peer.fromString]
    split
    · rename_i hsplit
      simp [hsplit] at hlength
    · rfl
  have hlines : (k.toString S iterate).splitOn 10 = (k.peers iterate).map (Peer.toString S) ++ [[]] := by
    rw [← splitOn_flatMap, toString, List.flatMap_map]
    intro line hline
    obtain ⟨peer, hpeer, rfl⟩ := List.mem_map.1 hline
    exact Peer.newline_not_mem hS (h peer hpeer)
  rw [(hS.lines _).filterMap_eq hnil, hlines, List.filterMap_append, List.filterMap_map]
  simp [hnil]

lemma separated_of_mem_loaded (hS : S.Splits) (hid : 32 ∉ generated ∧ 10 ∉ generated) {peer : Peer}
    (h : peer ∈ loaded S generated contents) : peer.Separated := by
  rw [loaded] at h
  split_ifs at h
  · obtain rfl := List.mem_singleton.1 h
    exact ⟨hid, by simp⟩
  · obtain ⟨line, hline, hread⟩ := List.mem_filterMap.1 h
    exact Peer.separated_of_read hS ((hS.lines contents).not_mem hline).1 hread

omit [DecidableEq α] in
lemma load_toString_view (h : k.WellFormed R) (hR : R.Iterates iterate) (hS : S.Splits)
    (hid : generated ≠ [] ∧ 32 ∉ generated ∧ 10 ∉ generated) :
    PeerView.ofPeers (loaded S generated (k.toString S iterate)) = k.view R ↔
      k.self ≠ none ∧ ∀ peer ∈ k.peers iterate, peer.Legible S := by
  constructor
  · intro hrestored
    have hself : k.self ≠ none := by
      change (k.view R).self ≠ none
      rw [← hrestored]
      refine PeerView.self_ofPeers ?_
      rw [loaded]
      split_ifs with hpeers
      · simp
      · exact hpeers
    obtain ⟨hnodup, -, -, hknows⟩ := view_peers h hR hself
    have hloaded {peer : Peer} (hpeer : peer ∈ k.peers iterate) :
        peer ∈ loaded S generated (k.toString S iterate) :=
      PeerView.knows_ofPeers (hrestored ▸ (hknows peer).1 hpeer)
    have hseparated : ∀ peer ∈ k.peers iterate, peer.Separated :=
      fun peer hpeer => separated_of_mem_loaded hS hid.2 (hloaded hpeer)
    refine ⟨hself, fun peer hpeer => ?_⟩
    have hmem := hloaded hpeer
    rw [loaded, read_toString hS hseparated] at hmem
    split_ifs at hmem
    · obtain rfl := List.mem_singleton.1 hmem
      exact ⟨hseparated _ hpeer, by simp, fun huid => absurd huid hid.1, by simp⟩
    · -- the line that the peer is read from is its own, since no two uids are the same
      obtain ⟨other, hother, hread⟩ := List.mem_filterMap.1 hmem
      have huid := Peer.uid_read hS (hseparated other hother) hread
      obtain rfl := List.inj_on_of_nodup_map hnodup hpeer hother huid
      exact (Peer.read_back_iff hS (hseparated peer hpeer)).1 hread
  · rintro ⟨hself, hlegible⟩
    obtain ⟨-, hne, hview, -⟩ := view_peers h hR hself
    have hread : (k.peers iterate).filterMap (fun peer => Peer.fromString S (peer.toString S)) = k.peers iterate := by
      rw [List.filterMap_congr fun peer hpeer =>
        (Peer.read_back_iff hS (hlegible peer hpeer).separated).2 (hlegible peer hpeer), List.filterMap_some]
    rw [loaded, read_toString hS fun peer hpeer => (hlegible peer hpeer).separated, hread, if_neg hne, hview]

def Call.Legible (S : TurboStr) : Call → Prop
  | .update uid ips => Peer.Legible S ⟨uid, ips⟩
  | .remove _ => True

lemma knows_calls (hR : R.Container) (calls : List Call) (h : k.WellFormed R) {peer : Peer}
    (hpeer : ((calls.foldl (call A R) k).view R).Knows peer) :
    .update peer.uid peer.ips ∈ calls ∨ (k.view R).Knows peer := by
  induction calls generalizing k with
  | nil => exact .inr hpeer
  | cons c calls ih =>
    rcases ih (h.call hR c) hpeer with hmem | hknows
    · exact .inl (List.mem_cons_of_mem c hmem)
    · exact (knows_call h hR hknows).imp_left fun hc => List.mem_cons.2 (.inl hc.symm)

lemma self_calls (hR : R.Container) (calls : List Call) (h : k.WellFormed R)
    (hself : k.self ≠ none ∨ ∃ uid ips, Call.update uid ips ∈ calls) : (calls.foldl (call A R) k).self ≠ none := by
  induction calls generalizing k with
  | nil => exact hself.resolve_right (by simp)
  | cons c calls ih =>
    refine ih (h.call hR c) ?_
    rcases hself with hself | ⟨uid, ips, hmem⟩
    · exact .inl (self_call h hR (.inl hself))
    · rcases List.mem_cons.1 hmem with hc | hmem
      · exact .inl (self_call h hR (.inr ⟨uid, ips, hc.symm⟩))
      · exact .inr ⟨uid, ips, hmem⟩

theorem load_toString_iff (hR : R.Container) (hiterate : R.Iterates iterate) (hS : S.Splits)
    (hid : generated ≠ [] ∧ 32 ∉ generated ∧ 10 ∉ generated) (h : k.Fresh R) (hself : k.self = none)
    (calls : List Call) :
    ((∀ c ∈ calls, c.Legible S) → (∃ uid ips, .update uid ips ∈ calls) →
      (k.load A R S generated ((calls.foldl (call A R) k).toString S iterate)).view R =
        (calls.foldl (call A R) k).view R) ∧
    ((k.load A R S generated ((calls.foldl (call A R) k).toString S iterate)).view R =
        (calls.foldl (call A R) k).view R ↔
      (calls.foldl (call A R) k).self ≠ none ∧
        ∀ peer ∈ (calls.foldl (call A R) k).peers iterate, peer.Legible S) := by
  have hw := wellFormed_foldl (A := A) hR calls h.wellFormed
  rw [view_load h hself hR, load_toString_view hw hiterate hS hid]
  refine ⟨fun hcalls hupdate => ?_, Iff.rfl⟩
  have hsome := self_calls (A := A) hR calls h.wellFormed (.inr hupdate)
  obtain ⟨-, -, -, hknows⟩ := view_peers hw hiterate hsome
  refine ⟨hsome, fun peer hpeer => ?_⟩
  rcases knows_calls hR calls h.wellFormed ((hknows peer).1 hpeer) with hmem | hbefore
  · exact hcalls _ hmem
  · simp [PeerView.Knows, view, hself, find, h.members] at hbefore

def plainStr : TurboStr where
  split s d := s.splitOn d
  join pieces d := List.intercalate [d] pieces
  lines := List.splitOn 10

lemma plainStr_splits : plainStr.Splits := ⟨fun s d => Pieces.refl d s, fun _ _ => rfl, Pieces.refl 10⟩

def iterateSorted (t : SortedMap Bytes ℕ) : List ℕ := t.keys.filterMap t.get

lemma iterateSorted_iterates : sortedTable.Iterates iterateSorted :=
  fun t => ⟨t.keys, t.keys_nodup, fun _ => SortedMap.mem_keys.trans Option.isSome_iff_exists.symm, rfl⟩

def joining (uid : String) : List Call :=
  [.update (ascii "me") [], .update (ascii uid) [ascii "1.1.1.1:1592", ascii "10.0.0.0:80"]]

def restarted (calls : List Call) : KnownPeers (Bytes × Bytes) (SortedMap Bytes ℕ) :=
  nobody.load textAddress sortedTable plainStr (ascii "aWQ=")
    ((calls.foldl (call textAddress sortedTable) nobody).toString plainStr iterateSorted)

theorem load_toString_iff_joining : (restarted (joining "fooid")).view sortedTable =
    ((joining "fooid").foldl (call textAddress sortedTable) nobody).view sortedTable := by
  refine (load_toString_iff sortedTable_container iterateSorted_iterates plainStr_splits (by decide +kernel)
    nobody_fresh rfl (joining "fooid")).1 ?_ ⟨_, _, List.mem_cons_self⟩
  refine List.forall_mem_cons.2 ⟨?_, List.forall_mem_singleton.2 ?_⟩
  · exact ⟨⟨by decide +kernel, by simp⟩, by simp, fun huid => absurd huid (by decide +kernel), by simp⟩
  · exact ⟨⟨by decide +kernel, by decide +kernel⟩, by decide +kernel, fun huid => absurd huid (by decide +kernel),
      fun hmem => absurd hmem (by decide +kernel)⟩

theorem not_restored_with_space : nobody.Fresh sortedTable ∧ (restarted (joining "foo id")).view sortedTable ≠
    ((joining "foo id").foldl (call textAddress sortedTable) nobody).view sortedTable := by
  refine ⟨nobody_fresh, fun hrestored => ?_⟩
  have hmember := congrFun (congrArg PeerView.members hrestored) (ascii "foo id")
  revert hmember
  decide +kernel

end Saved

end KnownPeers

end Turbopump
