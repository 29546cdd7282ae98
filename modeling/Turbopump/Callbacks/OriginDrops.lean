import Turbopump.Callbacks.Acknowledgements

/-! The last location but one acknowledges a write as soon as it has finished it itself, and the source may then drop
the write before the last location has it. -/

namespace Turbopump

open FileStore
open ChainCluster (fed)

namespace Route

variable (w : Route)

def Drops (s s' : ChainCluster) : Prop :=
  w.v ∈ versions (s.store w.origin).fs w.name false ∧ w.v ∉ versions (s'.store w.origin).fs w.name false

/-- An acknowledgement of as much as the source has only comes when all that its sender has sent on has come as well. -/
def Heard (s : ChainCluster) : ChainStep → Prop
  | .acknowledge source i => ∀ peer ack, (s.store source).callbacks.others.acks[i]? = some (peer, ack) →
      ack.size = (s.store w.origin).fs.size (filepath w.name w.v) →
        (s.store source).callbacks.others.packets.length ≤ s.received (source, 0)
  | _ => True

variable {w} {capacity : ℕ} {pack : Write → Bytes} {unpack : Bytes → Option Write} {T : TurboLib}
  {hasher : Bytes → Bytes} {keyIsMine : Bytes → Bytes → ℕ → Bool} {nodes : Bytes → ChainNode} {start s : ChainCluster}
  {buffs : List Bytes} {M : ℕ → Prop} {m : ℕ}

lemma OnWay.spread_all (hready : w.Ready capacity pack unpack T nodes start)
    (h : w.OnWay capacity pack T start buffs M s) (hbound : (contentOf buffs).length < 2 ^ 63) (hm : m ≤ w.L.length)
    (hlast : w.L.length ≤ m + 1) (hpos : m ≠ 0) (hfinished : (w.commandAt s m).finished = true)
    (hdelivered : (s.store (w.node m)).callbacks.others.packets.length ≤ s.received (w.node m, 0))
    (haccepts : 1 < w.L.length → ∀ last, w.L.getLast? = some last → FileStore.write T (start.store last).host
      (start.store last).fs w.name w.v (toUnsignedShort w.L.length) ≠ (.refused, (start.store last).fs)) :
    w.Spread (fun _ => True) s := by
  refine ⟨(h.spread_others hready hbound hm hlast hpos hfinished).1, fun m' hm' _ => ?_⟩
  by_cases hle : m' + 1 ≤ m
  · exact (h.finished_before hready hbound hm hle hfinished).1
  · -- the sender is the last location but one
    obtain rfl : m' = m := by omega
    have hnode : w.L.getLast? = some (w.node (m' + 1)) := by
      rw [node, List.getD_cons_succ, List.getLast?_eq_getElem?, List.getD_eq_getElem?_getD,
        show w.L.length - 1 = m' by omega, List.getElem?_eq_getElem hm', Option.getD_some]
    exact h.next_finished hready hbound hm' hfinished hdelivered (haccepts (by omega) _ hnode)

/-- What each acknowledgement of a whole write says, before or at the step that drops it, holds where it is dropped. -/
lemma Drops.spread {steps : List ChainStep} {source : Bytes} {i : ℕ} (hfit : Fit capacity T w)
    (hready : w.Ready capacity pack unpack T nodes start) (hsteps : ∀ buff ∈ fed steps, buff.length ≤ 0x10000)
    (hbound : (contentOf (fed steps)).length < 2 ^ 63)
    (hspread : ∀ before source' i', before ++ [.acknowledge source' i'] <+: steps ++ [.acknowledge source i] →
      let s := start.run T hasher capacity pack unpack nodes keyIsMine w.origin before
      w.OnWay capacity pack T start (fed before) M s → ∀ peer ack,
        (s.store source').callbacks.others.acks[i']? = some (peer, ack) →
          ack.size = (s.store w.origin).fs.size (filepath w.name w.v) →
            ack.size = (contentOf (fed before)).length → w.Spread M s) :
    let s := start.run T hasher capacity pack unpack nodes keyIsMine w.origin steps
    w.Drops s (s.acknowledge T keyIsMine source i) → w.OnWay capacity pack T start (fed steps) M s ∧ w.Spread M s := by
  rintro s ⟨hthere, hgone⟩
  have h : w.OnWay capacity pack T start (fed steps) M s := onWay_run hfit hready hsteps hbound
    fun before source' i' hstep => hspread before source' i' (hstep.trans (List.prefix_append _ _))
  refine ⟨h, ?_⟩
  rw [ChainCluster.acknowledge] at hgone
  split at hgone
  · exact absurd hthere hgone
  next peer ack hack =>
  rcases h.acknowledged keyIsMine hfit hready hbound hack with hkept | ⟨-, hall | ⟨hfile, hwhole⟩⟩
  · obtain ⟨m, hm, rfl⟩ := h.node_of_ack hack
    obtain ⟨horigin, -⟩ := h.acked hready hbound hm (peer, ack) (List.mem_of_getElem? hack)
    dsimp only at horigin
    rw [horigin, hkept, Function.update_eq_self] at hgone
    exact absurd hthere hgone
  · exact hall
  · exact hspread steps source i (List.prefix_refl _) h peer ack hack hfile hwhole

section Examples

def beforeAcks : List ChainStep :=
  [.feed [1, 2, 3, 4, 5], .deliver (ascii "o") 0, .feed []] ++ List.replicate 4 (.deliver (ascii "o") 0) ++
    List.replicate 4 (.deliver (ascii "a") 0)

def early : List ChainStep :=
  [.feed [1, 2, 3, 4, 5], .deliver (ascii "o") 0, .feed []] ++ List.replicate 4 (.deliver (ascii "o") 0)

def runShort (steps : List ChainStep) : ChainCluster := shortStart.run .wrapping id 4 packMirror unpackMirror shortNode
  (fun uid _ _ => uid ∈ short.L) short.origin steps

end Examples

end Route

end Turbopump
