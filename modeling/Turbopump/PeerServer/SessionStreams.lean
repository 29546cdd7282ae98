import Turbopump.PeerServer.StreamIsolation
import Turbopump.PeerServer.WriteSessions

/-! The streams that one peer's write sessions are sent on. There are fewer numbers than sessions: what the other end
makes of them when a number is used again. -/

namespace Turbopump

/-- `Peer::_actionId`, the calls of `nextActionId` that are between their two increments, and what calls returned. -/
structure ActionIds where
  actionId : UInt8 := 0
  retrying : ℕ := 0
  issued : List UInt8 := []

namespace ActionIds

inductive Action where
  | call
  | retry
  deriving DecidableEq

/-- An atomic increment: the first of a call, or the second of one whose first came to zero. -/
def step (s : ActionIds) : Action → ActionIds
  | .call =>
    let res := s.actionId + 1
    if res = 0 then { s with actionId := res, retrying := s.retrying + 1 }
    else { s with actionId := res, issued := s.issued ++ [res] }
  | .retry =>
    if s.retrying = 0 then s
    else ⟨s.actionId + 1, s.retrying - 1, s.issued ++ [s.actionId + 1]⟩

/-- No call is overtaken by all the other numbers between its two increments. -/
def Prompt (s : ActionIds) : Action → Prop
  | .call => True
  | .retry => s.actionId ≠ 255

structure Cyclic (s : ActionIds) : Prop where
  issued : s.issued = (List.range s.issued.length).map fun k => UInt8.ofNat (k % 255 + 1)
  next : s.actionId.toNat % 255 = s.issued.length % 255

lemma Cyclic.issue {s : ActionIds} (h : s.Cyclic) (hlast : s.actionId ≠ 255) (retrying : ℕ) :
    Cyclic ⟨s.actionId + 1, retrying, s.issued ++ [s.actionId + 1]⟩ := by
  have hlt : s.actionId.toNat < 255 := by
    have hbound := s.actionId.toNat_lt
    have hne : s.actionId.toNat ≠ 255 := fun heq => hlast (UInt8.toNat_inj.1 heq)
    omega
  have hadd : (s.actionId + 1).toNat = s.actionId.toNat + 1 := by
    rw [UInt8.toNat_add, UInt8.toNat_one]
    exact Nat.mod_eq_of_lt (by omega)
  have hnext := h.next
  rw [Nat.mod_eq_of_lt hlt] at hnext
  constructor
  · rw [List.length_append, List.length_singleton, List.range_succ, List.map_append, ← h.issued, List.map_singleton]
    refine congrArg (fun id => s.issued ++ [id]) (UInt8.toNat_inj.1 ?_)
    rw [hadd, ← hnext, UInt8.toNat_ofNat']
    exact (Nat.mod_eq_of_lt (by omega)).symm
  · rw [hadd, hnext, List.length_append, List.length_singleton, Nat.mod_add_mod]

lemma Cyclic.step {s : ActionIds} (h : s.Cyclic) {a : Action} (ha : s.Prompt a) : (s.step a).Cyclic := by
  cases a with
  | call =>
    simp only [ActionIds.step]
    split
    · next hzero =>
      refine ⟨h.issued, ?_⟩
      have hlast : s.actionId.toNat = 255 := by
        have hadd := congrArg UInt8.toNat hzero
        rw [UInt8.toNat_add, UInt8.toNat_one, UInt8.toNat_zero] at hadd
        have hbound := s.actionId.toNat_lt
        omega
      have hnext := h.next
      rw [hlast] at hnext
      rw [hzero]
      simpa using hnext
    · next hne =>
      refine h.issue (fun hlast => hne ?_) _
      rw [hlast]
      rfl
  | retry =>
    simp only [ActionIds.step]
    split
    · exact h
    · exact h.issue ha _

lemma issued_getElem? {actions : List Action} (h : Along ActionIds.step Prompt {} actions) {i : ℕ} {id : UInt8}
    (hid : (actions.foldl ActionIds.step {}).issued[i]? = some id) : id = UInt8.ofNat (i % 255 + 1) := by
  have hcyclic : (actions.foldl ActionIds.step {}).Cyclic := h.invariant (fun _ _ hs ha => hs.step ha) ⟨rfl, rfl⟩
  have hlt := (List.getElem?_eq_some_iff.1 hid).1
  rw [hcyclic.issued, List.getElem?_map, List.getElem?_range hlt] at hid
  simpa using hid.symm

lemma streamOf_toNat (i : ℕ) : (UInt8.ofNat (i % 255 + 1)).toNat = i % 255 + 1 := by
  rw [UInt8.toNat_ofNat']
  exact Nat.mod_eq_of_lt (by omega)

lemma issued_apart {actions : List Action} (h : Along ActionIds.step Prompt {} actions) {i j : ℕ} {id : UInt8}
    (hi : (actions.foldl ActionIds.step {}).issued[i]? = some id)
    (hj : (actions.foldl ActionIds.step {}).issued[j]? = some id) (hlt : i < j) : i + 255 ≤ j := by
  have heq := congrArg UInt8.toNat ((issued_getElem? h hi).symm.trans (issued_getElem? h hj))
  rw [streamOf_toNat, streamOf_toNat] at heq
  omega

lemma issued_ne_zero {actions : List Action} (h : Along ActionIds.step Prompt {} actions) {i : ℕ} {id : UInt8}
    (hid : (actions.foldl ActionIds.step {}).issued[i]? = some id) : id ≠ 0 := by
  rintro rfl
  have heq := congrArg UInt8.toNat (issued_getElem? h hid)
  rw [streamOf_toNat, UInt8.toNat_zero] at heq
  omega

end ActionIds

namespace PeerCommandRunner

variable {γ : Type} (K : CommandCenter Unit γ)

def serve : List Packet → Option γ
  | [] => none
  | first :: later => (opened K first).map fun (cmd, rest) =>
    later.foldl (fun cmd p => if K.finished cmd then cmd else (K.run cmd p.payload ()).1) (K.run cmd rest ()).1

/-- The first packet of a session makes a command, its packets finish it, and no packet behind the one that does reads
as the header of another. -/
structure Contained (session : List Packet) : Prop where
  opens : ∃ p ps cmd rest, session = p :: ps ∧ opened K p = some (cmd, rest) ∧ K.finished cmd = false
  ends : ∀ cmd, serve K session = some cmd → K.finished cmd
  quiet : ∀ before p, before ++ [p] <+: session → ∀ cmd, serve K before = some cmd → K.finished cmd →
    opened K p = none

def soFar (wire : List (ℕ × Packet)) (i : ℕ) : List Packet := (wire.filter (·.1 = i)).map Prod.snd

/-- Sessions whose packets come in any mixture, each in its own order. A session only speaks once those that 255 or more
others were opened after are over. -/
structure Interleaved (sessions : List (List Packet)) (wire : List (ℕ × Packet)) : Prop where
  order : ∀ i, soFar wire i <+: sessions.getD i []
  apart : ∀ before i p, before ++ [(i, p)] <+: wire → ∀ j, j + 255 ≤ i → soFar before j = sessions.getD j []

def SentOn (ids : List UInt8) (sessions : List (List Packet)) : Prop :=
  ∀ (i : ℕ) (s : List Packet), sessions[i]? = some s → ∀ p ∈ s, ids[i]? = some p.virtid

def onStream (sessions : List (List Packet)) (ids : List UInt8) (v : UInt8) : List ℕ :=
  (List.range sessions.length).filter fun i => ids[i]? = some v

section Serve

variable {K} {session before : List Packet} {p : Packet} {sessions : List (List Packet)} {wire : List (ℕ × Packet)}
  {i j : ℕ}

lemma serve_snoc (hne : before ≠ []) : serve K (before ++ [p]) =
    (serve K before).map fun cmd => if K.finished cmd then cmd else (K.run cmd p.payload ()).1 := by
  cases before with
  | nil => exact absurd rfl hne
  | cons first later =>
    simp only [List.cons_append, serve, Option.map_map, List.foldl_append, List.foldl_cons, List.foldl_nil]
    rfl

lemma soFar_snoc (wire : List (ℕ × Packet)) (i j : ℕ) (p : Packet) :
    soFar (wire ++ [(i, p)]) j = if i = j then soFar wire j ++ [p] else soFar wire j := by
  by_cases hij : i = j
  · simp [soFar, hij]
  · simp [soFar, hij]

lemma Interleaved.of_append (h : Interleaved sessions wire) {before : List (ℕ × Packet)} (hpre : before <+: wire) :
    Interleaved sessions before := by
  refine ⟨fun i => ?_, fun b i p hb j hj => h.apart b i p (hb.trans hpre) j hj⟩
  obtain ⟨more, rfl⟩ := hpre
  refine List.IsPrefix.trans ?_ (h.order i)
  simp only [soFar, List.filter_append, List.map_append]
  exact List.prefix_append _ _

end Serve

section Phases

variable (sessions : List (List Packet)) (ids : List UInt8) (v : UInt8)

def earlier (j : ℕ) : List γ :=
  ((onStream sessions ids v).filter (· < j)).filterMap fun i => serve K (sessions.getD i [])

inductive Phase : List (ℕ × Packet) → Stream γ → Prop
  | idle {wire : List (ℕ × Packet)} (hnone : ∀ i ∈ onStream sessions ids v, soFar wire i = []) : Phase wire ⟨[], none⟩
  | current {wire : List (ℕ × Packet)} (j : ℕ) (hj : j ∈ onStream sessions ids v) (hsome : soFar wire j ≠ [])
    (hbefore : ∀ i ∈ onStream sessions ids v, i < j → soFar wire i = sessions.getD i [])
    (hafter : ∀ i ∈ onStream sessions ids v, j < i → soFar wire i = []) (cmd : γ)
    (hcmd : serve K (soFar wire j) = some cmd) :
    Phase wire ⟨earlier K sessions ids v j ++ [cmd], some (earlier K sessions ids v j).length⟩

/-- What is relied on of the numbers that sessions get. -/
structure Numbered : Prop where
  contained : ∀ s ∈ sessions, Contained K s
  apart : ∀ i ∈ onStream sessions ids v, ∀ j ∈ onStream sessions ids v, i < j → i + 255 ≤ j

variable {K sessions ids v} {wire : List (ℕ × Packet)} {st : Stream γ} {i j : ℕ} {p : Packet}

lemma Numbered.of_mem (h : Numbered K sessions ids v) (hi : i ∈ onStream sessions ids v) :
    Contained K (sessions.getD i []) := by
  have hlt : i < sessions.length := List.mem_range.1 (List.mem_filter.1 hi).1
  apply h.contained
  rw [List.getD_eq_getElem _ _ hlt]
  exact List.getElem_mem hlt

lemma Numbered.ne_nil (h : Numbered K sessions ids v) (hi : i ∈ onStream sessions ids v) : sessions.getD i [] ≠ [] := by
  obtain ⟨p, ps, -, -, hs, -⟩ := (h.of_mem hi).opens
  rw [hs]
  exact List.cons_ne_nil p ps

lemma onStream_sorted : (onStream sessions ids v).Pairwise (· < ·) := List.pairwise_lt_range.filter _

lemma filter_le (hj : j ∈ onStream sessions ids v) :
    (onStream sessions ids v).filter (· ≤ j) = (onStream sessions ids v).filter (· < j) ++ [j] := by
  refine List.Pairwise.eq_of_mem_iff (onStream_sorted.filter _) ?_ fun i => ?_
  · refine List.pairwise_append.2 ⟨onStream_sorted.filter _, List.pairwise_singleton _ _, fun i hi k hk => ?_⟩
    obtain rfl := List.mem_singleton.1 hk
    simpa using (List.mem_filter.1 hi).2
  · simp only [List.mem_filter, List.mem_append, List.mem_singleton, decide_eq_true_eq, le_iff_lt_or_eq]
    constructor
    · rintro ⟨hi, hlt | rfl⟩
      · exact Or.inl ⟨hi, hlt⟩
      · exact Or.inr rfl
    · rintro (⟨hi, hlt⟩ | rfl)
      · exact ⟨hi, Or.inl hlt⟩
      · exact ⟨hj, Or.inr rfl⟩

lemma unfinished_current {before : List γ} {cmd : γ} : Stream.unfinished K ⟨before ++ [cmd], some before.length⟩ =
    if K.finished cmd then none else some (before.length, cmd) := by
  simp [Stream.unfinished]

lemma Phase.first (hnum : Numbered K sessions ids v) (hwire : Interleaved sessions (wire ++ [(i, p)]))
    (hi : i ∈ onStream sessions ids v) (hnone : soFar wire i = [])
    (hafter : ∀ k ∈ onStream sessions ids v, i < k → soFar wire k = []) (hunfinished : st.unfinished K = none)
    (hserved : st.served = earlier K sessions ids v i) : Phase K sessions ids v (wire ++ [(i, p)]) (st.handle K p) := by
  have hfirst := hwire.order i
  rw [soFar_snoc, if_pos rfl, hnone, List.nil_append] at hfirst
  obtain ⟨q, ps, cmd, rest, hs, hopened, hcmd⟩ := (hnum.of_mem hi).opens
  rw [hs] at hfirst
  obtain rfl : p = q := (List.cons_prefix_cons.1 hfirst).1
  have hhandle : st.handle K p = ⟨earlier K sessions ids v i ++ [(K.run cmd rest ()).1],
      some (earlier K sessions ids v i).length⟩ := by
    simp only [Stream.handle, hunfinished, hopened, hcmd, hserved]
    rfl
  rw [hhandle]
  refine Phase.current i hi ?_ (fun k hk hlt => ?_) (fun k hk hlt => ?_) _ ?_
  · simp [soFar_snoc]
  · rw [soFar_snoc, if_neg (Nat.ne_of_gt hlt)]
    exact hwire.apart wire i p List.prefix_rfl k (hnum.apart k hk i hi hlt)
  · rw [soFar_snoc, if_neg (Nat.ne_of_lt hlt)]
    exact hafter k hk hlt
  · rw [soFar_snoc, if_pos rfl, hnone, List.nil_append, serve, hopened]
    rfl

lemma Phase.step (hnum : Numbered K sessions ids v) (h : Phase K sessions ids v wire st)
    (hwire : Interleaved sessions (wire ++ [(i, p)])) (hi : i ∈ onStream sessions ids v) :
    Phase K sessions ids v (wire ++ [(i, p)]) (st.handle K p) := by
  have hnext := hwire.order i
  rw [soFar_snoc, if_pos rfl] at hnext
  have hover (k : ℕ) (hk : k ∈ onStream sessions ids v) (hlt : k < i) : soFar wire k = sessions.getD k [] :=
    hwire.apart wire i p List.prefix_rfl k (hnum.apart k hk i hi hlt)
  cases h with
  | idle hnone =>
    refine Phase.first hnum hwire hi (hnone i hi) (fun k hk _ => hnone k hk) rfl ?_
    -- an earlier session on the stream would have to be over
    have hfirst : (onStream sessions ids v).filter (· < i) = [] := by
      refine List.filter_eq_nil_iff.2 fun k hk => ?_
      simp only [decide_eq_true_eq]
      intro hlt
      exact hnum.ne_nil hk ((hover k hk hlt).symm.trans (hnone k hk))
    simp only [earlier, hfirst, List.filterMap_nil]
  | current j hj hsome hbefore hafter cmd hcmd =>
    rcases lt_trichotomy i j with hlt | rfl | hlt
    · rw [hbefore i hi hlt] at hnext
      have := hnext.length_le
      simp at this
    · have hsnoc := serve_snoc (K := K) (p := p) hsome
      rw [hcmd, Option.map_some] at hsnoc
      have hothers (k : ℕ) (hk : k ≠ i) : soFar (wire ++ [(i, p)]) k = soFar wire k := by
        rw [soFar_snoc, if_neg (Ne.symm hk)]
      have hstep (cmd' : γ) (hcmd' : serve K (soFar wire i ++ [p]) = some cmd') : Phase K sessions ids v
          (wire ++ [(i, p)]) ⟨earlier K sessions ids v i ++ [cmd'], some (earlier K sessions ids v i).length⟩ := by
        refine Phase.current i hi ?_ (fun k hk hlt => ?_) (fun k hk hlt => ?_) cmd' ?_
        · simp [soFar_snoc]
        · rw [hothers k (Nat.ne_of_lt hlt)]
          exact hbefore k hk hlt
        · rw [hothers k (Nat.ne_of_gt hlt)]
          exact hafter k hk hlt
        · rw [soFar_snoc, if_pos rfl, hcmd']
      cases hfinished : K.finished cmd with
      | true =>
        have hopened := (hnum.of_mem hi).quiet _ p hnext cmd hcmd hfinished
        simp only [Stream.handle, unfinished_current, hfinished, if_true, hopened]
        exact hstep cmd (by rw [hsnoc, if_pos hfinished])
      | false =>
        have hrun := hstep (K.run cmd p.payload ()).1 (by rw [hsnoc, hfinished]; rfl)
        simp only [Stream.handle, unfinished_current, hfinished, Bool.false_eq_true, if_false]
        rwa [List.set_append_right _ _ le_rfl, Nat.sub_self, List.set_cons_zero]
    · -- the session before is over, and its command finished
      have hdone := hover j hj hlt
      rw [hdone] at hcmd
      have hfinished := (hnum.of_mem hj).ends cmd hcmd
      have hnone := hafter i hi hlt
      refine Phase.first hnum hwire hi hnone (fun k hk hk' => hafter k hk (hlt.trans hk')) ?_ ?_
      · rw [unfinished_current, if_pos hfinished]
      · have hfilter : (onStream sessions ids v).filter (· < i) = (onStream sessions ids v).filter (· ≤ j) := by
          refine List.filter_congr fun k hk => decide_eq_decide.2 ⟨fun hki => ?_, fun hkj => hkj.trans_lt hlt⟩
          by_contra hjk
          exact hnum.ne_nil hk ((hover k hk hki).symm.trans (hafter k hk (not_le.1 hjk)))
        have hearlier : earlier K sessions ids v i = earlier K sessions ids v j ++ [cmd] := by
          simp only [earlier, hfilter, filter_le hj, List.filterMap_append, List.filterMap_cons, hcmd,
            List.filterMap_nil]
        exact hearlier.symm

lemma Phase.other (h : Phase K sessions ids v wire st) (hi : i ∉ onStream sessions ids v) :
    Phase K sessions ids v (wire ++ [(i, p)]) st := by
  have hsame (k : ℕ) (hk : k ∈ onStream sessions ids v) : soFar (wire ++ [(i, p)]) k = soFar wire k := by
    rw [soFar_snoc, if_neg]
    rintro rfl
    exact hi hk
  cases h with
  | idle hnone => exact Phase.idle fun k hk => (hsame k hk).trans (hnone k hk)
  | current j hj hsome hbefore hafter cmd hcmd =>
    refine Phase.current j hj ?_ (fun k hk hlt => ?_) (fun k hk hlt => ?_) cmd ?_
    · rwa [hsame j hj]
    · rw [hsame k hk, hbefore k hk hlt]
    · rw [hsame k hk, hafter k hk hlt]
    · rwa [hsame j hj]

lemma mem_onStream (hids : SentOn ids sessions)
    (hwire : Interleaved sessions (wire ++ [(i, p)])) : i ∈ onStream sessions ids v ↔ p.virtid = v := by
  have hp : p ∈ sessions.getD i [] := by
    apply (hwire.order i).subset
    rw [soFar_snoc, if_pos rfl]
    exact List.mem_append_right _ List.mem_cons_self
  cases hs : sessions[i]? with
  | none => simp [List.getD, hs] at hp
  | some s =>
    have hid := hids i s hs p (by simpa [List.getD, hs] using hp)
    simp only [onStream, List.mem_filter, List.mem_range, (List.getElem?_eq_some_iff.1 hs).1, true_and, hid,
      Option.some.injEq, decide_eq_true_eq]

lemma Numbered.phase (hnum : Numbered K sessions ids v) (hids : SentOn ids sessions)
    (hwire : Interleaved sessions wire) :
    Phase K sessions ids v wire
      (((wire.map Prod.snd).filter (·.virtid = v)).foldl (Stream.handle K) ⟨[], none⟩) := by
  induction wire using List.reverseRecOn with
  | nil => exact Phase.idle fun _ _ => rfl
  | append_singleton wire e ih =>
    obtain ⟨i, p⟩ := e
    have hphase := ih (hwire.of_append (List.prefix_append _ _))
    rw [List.map_append, List.filter_append, List.foldl_append, List.map_singleton]
    by_cases hp : p.virtid = v
    · rw [List.filter_cons_of_pos (by simpa using hp), List.filter_nil, List.foldl_cons, List.foldl_nil]
      exact hphase.step hnum hwire ((mem_onStream hids hwire).2 hp)
    · rw [List.filter_cons_of_neg (by simpa using hp), List.filter_nil, List.foldl_nil]
      exact hphase.other fun hi => hp ((mem_onStream hids hwire).1 hi)

lemma Phase.served_eq (h : Phase K sessions ids v wire st) :
    st.served = (onStream sessions ids v).filterMap fun i => serve K (soFar wire i) := by
  cases h with
  | idle hnone =>
    symm
    apply List.filterMap_eq_nil_iff.2
    intro i hi
    rw [hnone i hi, serve]
  | current j hj hsome hbefore hafter cmd hcmd =>
    have hsplit : (onStream sessions ids v).filterMap (fun i => serve K (soFar wire i)) =
        ((onStream sessions ids v).filter (· ≤ j)).filterMap fun i => serve K (soFar wire i) := by
      rw [List.filterMap_filter]
      refine List.filterMap_congr fun k hk => ?_
      by_cases hkj : k ≤ j
      · simp [hkj]
      · simp [hkj, hafter k hk (not_le.1 hkj), serve]
    have hearlier : earlier K sessions ids v j =
        ((onStream sessions ids v).filter (· < j)).filterMap fun i => serve K (soFar wire i) := by
      refine List.filterMap_congr fun k hk => ?_
      obtain ⟨hk, hlt⟩ := List.mem_filter.1 hk
      rw [hbefore k hk (by simpa using hlt)]
    rw [hsplit, filter_le hj, List.filterMap_append, ← hearlier]
    simp [hcmd]

end Phases

end PeerCommandRunner

open PeerCommandRunner

namespace Dispatch

theorem served_sessions (known : UInt8 → Bytes → Bool) (finished : UInt8 → Bytes → List Bytes → Bool)
    {actions : List ActionIds.Action} (hprompt : Along ActionIds.step ActionIds.Prompt {} actions)
    {sessions : List (List Packet)} (hids : SentOn (actions.foldl ActionIds.step {}).issued sessions)
    (hsessions : ∀ s ∈ sessions, Contained (recording known finished) s) {wire : List (ℕ × Packet)}
    (hwire : Interleaved sessions wire) {groups : List (List Packet)}
    (hgroups : groups.flatten.filter (·.virtid ≠ 0) = wire.map Prod.snd) (v : UInt8) (hv : v ≠ 0) :
    (receive (recording known finished) groups).served v =
      (onStream sessions (actions.foldl ActionIds.step {}).issued v).filterMap fun i =>
        serve (recording known finished) (soFar wire i) := by
  have hnum : Numbered (recording known finished) sessions (actions.foldl ActionIds.step {}).issued v := by
    refine ⟨hsessions, fun i hi j hj hlt => ?_⟩
    have hi := (List.mem_filter.1 hi).2
    have hj := (List.mem_filter.1 hj).2
    exact ActionIds.issued_apart hprompt (by simpa using hi) (by simpa using hj) hlt
  have hpackets : groups.flatten.filter (·.virtid = v) = (wire.map Prod.snd).filter (·.virtid = v) := by
    rw [← hgroups, List.filter_filter]
    refine List.filter_congr fun p _ => ?_
    by_cases hp : p.virtid = v
    · simp [hp, hv]
    · simp [hp]
  have hphase := hnum.phase hids hwire
  rw [← hpackets, ← stream_receive] at hphase
  exact hphase.served_eq

section Example

open WriteSessions.Session (ending)

def twoSessions : List (List Packet) :=
  [[⟨1, package 100 (ascii "one"), by decide⟩, ⟨1, ascii "data", by decide⟩, ending 1],
    [⟨2, package 100 (ascii "two"), by decide⟩, ending 2]]

def mixed : List (ℕ × Packet) :=
  [(0, ⟨1, package 100 (ascii "one"), by decide⟩), (1, ⟨2, package 100 (ascii "two"), by decide⟩),
    (0, ⟨1, ascii "data", by decide⟩), (1, ending 2), (0, ending 1)]

def isWrite (id : UInt8) (_ : Bytes) : Bool := id = 100

def untilEmpty (_ : UInt8) (_ : Bytes) (payloads : List Bytes) : Bool := [] ∈ payloads.tail

lemma twoSessions_contained : ∀ s ∈ twoSessions, Contained (recording isWrite untilEmpty) s := by
  have hquiet : ∀ s ∈ twoSessions, ∀ k < s.length, ∀ p ∈ s[k]?, ∀ cmd ∈ serve (recording isWrite untilEmpty) (s.take k),
      (recording isWrite untilEmpty).finished cmd → opened (recording isWrite untilEmpty) p = none := by decide +kernel
  have hends : ∀ s ∈ twoSessions, ∀ cmd ∈ serve (recording isWrite untilEmpty) s,
      (recording isWrite untilEmpty).finished cmd := by decide +kernel
  intro s hs
  refine ⟨?_, fun cmd hcmd => hends s hs cmd hcmd, fun before p hpre cmd hcmd => ?_⟩
  · simp only [twoSessions, List.mem_cons, List.not_mem_nil, or_false] at hs
    rcases hs with rfl | rfl
    · exact ⟨_, _, ⟨100, ascii "one", []⟩, [], rfl, by decide +kernel, by decide⟩
    · exact ⟨_, _, ⟨100, ascii "two", []⟩, [], rfl, by decide +kernel, by decide⟩
  · obtain ⟨more, rfl⟩ := hpre
    refine hquiet _ hs before.length (by simp) p ?_ cmd ?_
    · simp
    · simpa using hcmd

lemma mixed_interleaved : Interleaved twoSessions mixed := by
  have hnumbers : ∀ e ∈ mixed, e.1 < 2 := by decide
  constructor
  · intro i
    match i with
    | 0 => decide +kernel
    | 1 => decide +kernel
    | i + 2 =>
      have hnone : soFar mixed (i + 2) = [] := by
        refine List.map_eq_nil_iff.2 (List.filter_eq_nil_iff.2 fun e he => ?_)
        have := hnumbers e he
        simp only [decide_eq_true_eq]
        omega
      exact hnone ▸ List.nil_prefix
  · intro before i p hpre j hj
    have := hnumbers (i, p) (hpre.subset (List.mem_append_right _ List.mem_cons_self))
    omega

theorem served_sessions_example : (receive (recording isWrite untilEmpty)
    [[⟨0, ascii "message", by decide⟩], mixed.map Prod.snd]).served 1 =
      [⟨100, ascii "one", [[], ascii "data", []]⟩] := by
  have hserved := @served_sessions isWrite untilEmpty [.call, .call] ⟨trivial, trivial, trivial⟩ twoSessions ?_
    twoSessions_contained mixed mixed_interleaved [[⟨0, ascii "message", by decide⟩], mixed.map Prod.snd]
    (by decide +kernel) 1 (by decide)
  · rw [hserved]
    decide +kernel
  · intro i s hs p hp
    match i with
    | 0 =>
      obtain rfl := Option.some.inj hs
      exact (by decide +kernel : ∀ p ∈ (twoSessions[0]), some (1 : UInt8) = some p.virtid) p hp
    | 1 =>
      obtain rfl := Option.some.inj hs
      exact (by decide +kernel : ∀ p ∈ (twoSessions[1]), some (2 : UInt8) = some p.virtid) p hp
    | i + 2 => simp [twoSessions] at hs

end Example

end Dispatch

end Turbopump
