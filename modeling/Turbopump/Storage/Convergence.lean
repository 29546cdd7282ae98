import Turbopump.Common.ReferenceClocks
import Turbopump.Lib.Maximal
import Turbopump.Storage.Opening

/-! A key that writes reach in any order, interleaved and more than once: what the store ends up with
depends only on which writes they are. -/

namespace Turbopump

open FileStore Maximal
open VectorClock (IsVersion)

structure Writes where
  versions : Finset Bytes
  copies : Bytes → ℕ
  content : Bytes → Bytes

namespace Writes

def file (W : Writes) (v : Bytes) : File := ⟨W.content v, mdToString { totalCopies := W.copies v }⟩

end Writes

/-- `compare` on version strings is a strict order, and equal are only identical versions. -/
structure Ordered (T : TurboLib) (W : Set Bytes) : Prop where
  equal : ∀ u ∈ W, ∀ v ∈ W, VectorClock.compareNames T u v = .equal ↔ u = v
  greater : ∀ u ∈ W, ∀ v ∈ W, VectorClock.compareNames T u v = .greaterThan ↔ VectorClock.compareNames T v u = .lessThan
  trans : ∀ u ∈ W, ∀ v ∈ W, ∀ w ∈ W, VectorClock.compareNames T u v = .lessThan →
    VectorClock.compareNames T v w = .lessThan → VectorClock.compareNames T u w = .lessThan

def Less (T : TurboLib) (u v : Bytes) : Prop := VectorClock.compareNames T u v = .lessThan

lemma Ordered.strictOn {T : TurboLib} {V : Set Bytes} (h : Ordered T V) : StrictOn (Less T) V where
  irrefl v hv hlt := by
    have := (h.equal v hv v hv).2 rfl
    simp [Less, this] at hlt
  trans := h.trans

structure Delivery where
  -- A write that is under way, and what it has yet to append.
  stream : Writestream
  pending : Bytes

structure Replica where
  fs : FileSystem
  deliveries : ℕ → Option Delivery

namespace Replica

inductive Action where
  | deliver (i : ℕ) (v : Bytes) (host : Host)
  | append (i length : ℕ)
  | commit (i : ℕ)

def Action.number : Action → ℕ
  | .deliver i _ _ => i
  | .append i _ => i
  | .commit i => i

variable (T : TurboLib) (hasher : Bytes → Bytes) (n : Bytes) (W : Writes)

def deliver (r : Replica) (i : ℕ) (v : Bytes) (host : Host) : Replica :=
  match FileStore.write T host r.fs n v (W.copies v) with
  | (.accepted w, fs) => ⟨fs, Function.update r.deliveries i (some ⟨w, W.content v⟩)⟩
  | (_, fs) => { r with fs := fs }

/-- `none` where the action cannot be taken. A delivery is of an unexpired version and gets a number of its
own; it is committed once it has appended all its content. -/
def step (r : Replica) : Action → Option Replica
  | .deliver i v host => match r.deliveries i with
    | none =>
      if v ∈ W.versions ∧ ! VectorClock.isExpired (VectorClock.ofName T v) 604800 host.now then
        some (r.deliver T n W i v host)
      else none
    | some _ => none
  | .append i length => match r.deliveries i with
    | none => none
    | some d =>
      let (w, fs) := d.stream.write r.fs (d.pending.take length)
      some ⟨fs, Function.update r.deliveries i (some ⟨w, d.pending.drop length⟩)⟩
  | .commit i => match r.deliveries i with
    | some ⟨w, []⟩ =>
      let (_, _, fs) := w.commit T hasher r.fs true
      some ⟨fs, Function.update r.deliveries i none⟩
    | _ => none

def run (r : Replica) (actions : List Action) : Option Replica := actions.foldlM (step T hasher n W) r

def Settled (r : Replica) : Prop :=
  ∃ fs actions, Vacant {n} fs ∧ run T hasher n W ⟨fs, fun _ => none⟩ actions = some r ∧
    (∀ v ∈ W.versions, ∃ i host, Action.deliver i v host ∈ actions) ∧ ∀ i, r.deliveries i = none

variable {T hasher n W}

def live (r : Replica) (i : ℕ) : Option Writestream := (r.deliveries i).map Delivery.stream

def finished (n : Bytes) (r : Replica) : Set Bytes := {v | v ∈ versions r.fs n false}

structure Sound (T : TurboLib) (n : Bytes) (W : Writes) (r : Replica) (D : Set Bytes) : Prop where
  tidy : Tidy T {n} r.fs r.live
  sent : ∀ i d, r.deliveries i = some d → d.stream.vstr T ∈ W.versions ∧
    written r.fs d.stream ++ d.pending = W.content (d.stream.vstr T) ∧
    mdToString d.stream.md = mdToString { totalCopies := W.copies (d.stream.vstr T) }
  kept : ∀ v file, stored r.fs n v = some file → v ∈ W.versions ∧ file = W.file v
  antichain : IsAntichain (Less T) (r.finished n)
  within : D ⊆ ↑W.versions
  received : ∀ v ∈ D, (∃ i d, r.deliveries i = some d ∧ d.stream.vstr T = v) ∨ Covered (Less T) (r.finished n) v

@[simp] lemma live_update (r : Replica) (fs : FileSystem) (i : ℕ) (d : Option Delivery) :
    live ⟨fs, Function.update r.deliveries i d⟩ = Function.update r.live i (d.map Delivery.stream) := by
  funext j
  by_cases hj : j = i
  · subst hj
    simp [live]
  · simp [live, hj]

section Steps

variable {r : Replica} {D : Set Bytes} {i : ℕ}

lemma Sound.name (h : Sound T n W r D) {d : Delivery} (hd : r.deliveries i = some d) : d.stream.name = n := by
  obtain ⟨k, ho⟩ := h.tidy.opened i d.stream (by simp [live, hd])
  exact ho.name

lemma Sound.subset (h : Sound T n W r D) (hT : T.Base64) : r.finished n ⊆ ↑W.versions := by
  intro v hv
  obtain ⟨file, hfile⟩ := (h.tidy.mem_versions_iff_stored hT rfl).1 hv
  exact (h.kept v file hfile).1

lemma finished_congr (hT : T.Base64) {r' : Replica} {live live' : ℕ → Option Writestream}
    (h : Tidy T {n} r.fs live) (h' : Tidy T {n} r'.fs live') (hstored : ∀ u, stored r'.fs n u = stored r.fs n u) :
    r'.finished n = r.finished n := by
  ext v
  exact h.mem_versions_congr hT h' rfl (hstored v)

lemma Sound.exists_received (hT : T.Base64) (h : Sound T n W r D) {v : Bytes} (hv : exists_ r.fs n v) :
    (∃ i d, r.deliveries i = some d ∧ d.stream.vstr T = v) ∨ Covered (Less T) (r.finished n) v := by
  have hmem : v ∈ versions r.fs n true := by simpa [exists_] using hv
  rcases (h.tidy.mem_versions_inprogress hT rfl).1 hmem with hfin | ⟨hver, k, hk⟩
  · exact Or.inr ⟨v, hfin, Or.inl rfl⟩
  · rcases h.tidy.entries n rfl _ k hk with htilde | ⟨i, w, hw, -, heq⟩
    · exact absurd (by simp) (htilde.getLast? hT)
    · obtain ⟨d, hd, rfl⟩ := Option.map_eq_some_iff.1 hw
      exact Or.inl ⟨i, d, hd, (List.append_cancel_right heq).symm⟩

lemma Sound.unfinished (hT : T.Base64) (h : Sound T n W r D) {fs : FileSystem} {d : Delivery}
    (htidy : Tidy T {n} fs (Function.update r.live i (some d.stream)))
    (hstored : ∀ u, stored fs n u = stored r.fs n u)
    (hothers : ∀ j e, j ≠ i → r.deliveries j = some e → written fs e.stream = written r.fs e.stream)
    (hsent : d.stream.vstr T ∈ W.versions ∧ written fs d.stream ++ d.pending = W.content (d.stream.vstr T) ∧
      mdToString d.stream.md = mdToString { totalCopies := W.copies (d.stream.vstr T) })
    (hold : ∀ e, r.deliveries i = some e → d.stream.vstr T = e.stream.vstr T) :
    Sound T n W ⟨fs, Function.update r.deliveries i (some d)⟩ (insert (d.stream.vstr T) D) := by
  have hfin : finished n ⟨fs, Function.update r.deliveries i (some d)⟩ = r.finished n :=
    finished_congr hT h.tidy htidy hstored
  constructor
  case tidy => simpa using htidy
  case sent =>
    intro j e he
    by_cases hj : j = i
    · subst hj
      obtain rfl : d = e := by simpa using he
      exact hsent
    · replace he : r.deliveries j = some e := by simpa [hj] using he
      simp only [hothers j e hj he]
      exact h.sent j e he
  case kept => exact fun v file hv => h.kept v file (hstored v ▸ hv)
  case antichain => exact hfin ▸ h.antichain
  case within => exact Set.insert_subset hsent.1 h.within
  case received =>
    rintro v (rfl | hv)
    · exact Or.inl ⟨i, d, by simp, rfl⟩
    · rw [hfin]
      refine (h.received v hv).imp_left ?_
      rintro ⟨j, e, he, rfl⟩
      by_cases hj : j = i
      · subst hj
        exact ⟨j, d, by simp, hold e he⟩
      · exact ⟨j, e, by simpa [hj] using he, rfl⟩

theorem Sound.deliver (hT : T.Base64) (hW : ∀ v ∈ W.versions, IsVersion T v) (h : Sound T n W r D)
    (hi : r.deliveries i = none) {v : Bytes} (hv : v ∈ W.versions) {host : Host}
    (hfresh : VectorClock.isExpired (VectorClock.ofName T v) 604800 host.now = false) :
    Sound T n W (r.deliver T n W i v host) (insert v D) := by
  by_cases hex : exists_ r.fs n v
  · have hsame : r.deliver T n W i v host = r := by
      simp [Replica.deliver, write_version (hW v hv), hex]
    rw [hsame]
    refine { h with within := Set.insert_subset hv h.within, received := ?_ }
    rintro u (rfl | hu)
    · exact h.exists_received hT hex
    · exact h.received u hu
  · have hnew : v ∉ versions r.fs n true := by simpa [exists_] using hex
    obtain ⟨w, fs, hopen, -, rfl, hmd, hempty, htidy, hstored, hothers⟩ :=
      h.tidy.openVersion hT (KeySpace.single n) rfl (hW v hv) hnew (i := i) (by simp [live, hi]) (W.copies v)
    have hdeliver : r.deliver T n W i (w.vstr T) host =
        ⟨fs, Function.update r.deliveries i (some ⟨w, W.content (w.vstr T)⟩)⟩ := by
      simp [Replica.deliver, write_version (hW _ hv), hfresh, hex, hopen]
    rw [hdeliver]
    refine h.unfinished (d := ⟨w, W.content (w.vstr T)⟩) hT htidy (hstored n rfl) (fun j e _ he => ?_)
      ⟨hv, by simp [hempty], by simp [hmd, mdToString]⟩ (by simp [hi])
    exact hothers j e.stream (by simp [live, he])

theorem Sound.append (hT : T.Base64) (h : Sound T n W r D) {d : Delivery} (hd : r.deliveries i = some d)
    (length : ℕ) {w : Writestream} {fs : FileSystem} (hwrite : d.stream.write r.fs (d.pending.take length) = (w, fs)) :
    Sound T n W ⟨fs, Function.update r.deliveries i (some ⟨w, d.pending.drop length⟩)⟩ D := by
  obtain ⟨w', fs', hwrite', -, hmd, hwritten, htidy, hstored, hothers⟩ :=
    h.tidy.write hT (KeySpace.single n) (i := i) (w := d.stream) (by simp [live, hd]) (d.pending.take length)
  obtain ⟨rfl, rfl⟩ := Prod.mk.inj (hwrite'.symm.trans hwrite)
  obtain ⟨hmem, hcontent, hcopies⟩ := h.sent i d hd
  have hvstr : w'.vstr T = d.stream.vstr T := by rw [Writestream.vstr, hmd, Writestream.vstr]
  have hsound := h.unfinished (d := ⟨w', d.pending.drop length⟩) hT htidy (hstored n rfl)
    (fun j e hj he => hothers j e.stream hj (by simp [live, he]))
    ⟨hvstr ▸ hmem, by rw [hwritten, hvstr, List.append_assoc, List.take_append_drop, hcontent],
      by rw [hmd, hvstr, hcopies]⟩
    (fun e he => by rw [hvstr, Option.some.inj (hd.symm.trans he)])
  exact { hsound with
    within := h.within
    received := fun v hv => hsound.received v (Set.mem_insert_of_mem _ hv) }

lemma finished_close (hT : T.Base64) (hO : Ordered T ↑W.versions) (h : Sound T n W r D) {w : Writestream}
    (hname : w.name = n) (hw : w.vstr T ∈ W.versions) {fs : FileSystem} {live : ℕ → Option Writestream}
    {digest : UInt64} {gone : List Bytes} (htidy : Tidy T {n} fs live)
    (hclosed : Closed T hasher {n} r.fs fs w digest gone) (ds : ℕ → Option Delivery) :
    finished n ⟨fs, ds⟩ = absorb (Less T) (r.finished n) (w.vstr T) := by
  subst hname
  have hsub := h.subset hT
  have habove : (∃ x, (x = w.vstr T ∨ x ∈ versions r.fs w.name false) ∧
      VectorClock.compareNames T x (w.vstr T) = .greaterThan) ↔
      ∃ x ∈ r.finished w.name, Less T (w.vstr T) x := by
    constructor
    · rintro ⟨x, rfl | hx, hgreater⟩
      · exact absurd ((hO.greater _ hw _ hw).1 hgreater) (hO.strictOn.irrefl _ hw)
      · exact ⟨x, hx, (hO.greater x (hsub hx) _ hw).1 hgreater⟩
    · rintro ⟨x, hx, hless⟩
      exact ⟨x, Or.inr hx, (hO.greater x (hsub hx) _ hw).2 hless⟩
  ext v
  have hgone := hclosed.gone_iff v
  rw [habove] at hgone
  show v ∈ versions fs w.name false ↔ (v = w.vstr T ∨ v ∈ versions r.fs w.name false) ∧ ¬ Less T v (w.vstr T) ∧ _
  rw [hclosed.mem_versions hT h.tidy htidy rfl, hgone]
  by_cases hvw : v = w.vstr T
  · simp only [hvw, true_or, true_and, not_or, and_true, Less]
  · simp only [hvw, false_or, false_and, or_false, not_false_eq_true, and_true, Less]
    tauto

theorem Sound.commit (hT : T.Base64) (hO : Ordered T ↑W.versions) (h : Sound T n W r D)
    {w w' : Writestream} (hd : r.deliveries i = some ⟨w, []⟩) {fs : FileSystem} {reader : Option Readstream}
    (hcommit : w.commit T hasher r.fs true = (reader, w', fs)) :
    Sound T n W ⟨fs, Function.update r.deliveries i none⟩ D := by
  obtain ⟨reader', w'', fs', gone, hcommit', -, -, -, htidy, hclosed⟩ :=
    h.tidy.close hasher hT (KeySpace.single n) (i := i) (w := w) (by simp [live, hd])
  obtain ⟨rfl, hrest⟩ := Prod.mk.inj (hcommit'.symm.trans hcommit)
  obtain ⟨rfl, rfl⟩ := Prod.mk.inj hrest
  have hname := h.name hd
  obtain ⟨hmem, hcontent, hcopies⟩ := h.sent i _ hd
  have hfin := finished_close hT hO h hname hmem htidy hclosed (Function.update r.deliveries i none)
  have hsub := h.subset hT
  constructor
  case tidy => simpa using htidy
  case sent =>
    intro j e he
    have hj : j ≠ i := by
      rintro rfl
      simp at he
    replace he : r.deliveries j = some e := by simpa [hj] using he
    have hsame : written fs' e.stream = written r.fs e.stream := by
      simp only [written, FileSystem.file, hclosed.inodes]
    simp only [hsame]
    exact h.sent j e he
  case kept =>
    intro v file hv
    subst hname
    rw [hclosed.stored] at hv
    split_ifs at hv with hgone hvw
    · obtain rfl := Option.some.inj hv
      refine ⟨hvw ▸ hmem, ?_⟩
      simp only [List.append_nil] at hcontent
      rw [Writes.file, hvw, hcopies, hcontent]
    · exact h.kept v file hv
  case antichain => exact hfin ▸ absorb_antichain h.antichain
  case within => exact h.within
  case received =>
    intro v hv
    rw [hfin]
    rcases h.received v hv with ⟨j, e, he, rfl⟩ | hcov
    · by_cases hj : j = i
      · subst hj
        obtain rfl := Option.some.inj (hd.symm.trans he)
        exact Or.inr (absorb_covers hO.strictOn hsub hmem h.antichain (Or.inl rfl))
      · exact Or.inl ⟨j, e, by simpa [hj] using he, rfl⟩
    · exact Or.inr (hcov.absorb hO.strictOn hsub hmem h.antichain (h.within hv))

def delivered (actions : List Action) : Set Bytes := {v | ∃ i host, Action.deliver i v host ∈ actions}

lemma delivered_cons (a : Action) (actions : List Action) :
    delivered (a :: actions) = delivered [a] ∪ delivered actions := by
  ext v
  simp only [delivered, List.mem_cons, List.not_mem_nil, or_false, Set.mem_union, Set.mem_ofPred_eq]
  constructor
  · rintro ⟨i, host, h | h⟩
    · exact Or.inl ⟨i, host, h⟩
    · exact Or.inr ⟨i, host, h⟩
  · rintro (⟨i, host, h⟩ | ⟨i, host, h⟩)
    · exact ⟨i, host, Or.inl h⟩
    · exact ⟨i, host, Or.inr h⟩

theorem Sound.step (hT : T.Base64) (hW : ∀ v ∈ W.versions, IsVersion T v) (hO : Ordered T ↑W.versions)
    (h : Sound T n W r D) {a : Action} {r' : Replica} (hstep : r.step T hasher n W a = some r') :
    Sound T n W r' (delivered [a] ∪ D) := by
  cases a with
  | deliver i v host =>
    have hdelivered : delivered [.deliver i v host] ∪ D = insert v D := by
      ext u
      simp [delivered, eq_comm]
    rw [hdelivered]
    simp only [Replica.step] at hstep
    split at hstep
    case h_1 hi =>
      split_ifs at hstep with hv
      obtain rfl := Option.some.inj hstep
      exact h.deliver hT hW hi hv.1 (by simpa using hv.2)
    case h_2 => simp at hstep
  | append i length =>
    have hdelivered : delivered [.append i length] ∪ D = D := by simp [delivered]
    rw [hdelivered]
    simp only [Replica.step] at hstep
    split at hstep
    case h_1 => simp at hstep
    case h_2 d hd =>
      obtain rfl := Option.some.inj hstep
      exact h.append hT hd length rfl
  | commit i =>
    have hdelivered : delivered [.commit i] ∪ D = D := by simp [delivered]
    rw [hdelivered]
    simp only [Replica.step] at hstep
    split at hstep
    case h_1 w hd =>
      obtain rfl := Option.some.inj hstep
      exact h.commit hT hO hd rfl
    case h_2 => simp at hstep

theorem Sound.run (hT : T.Base64) (hW : ∀ v ∈ W.versions, IsVersion T v) (hO : Ordered T ↑W.versions)
    (actions : List Action) (h : Sound T n W r D) {r' : Replica}
    (hrun : r.run T hasher n W actions = some r') : Sound T n W r' (delivered actions ∪ D) := by
  induction actions generalizing r D with
  | nil =>
    obtain rfl : r = r' := by simpa [Replica.run] using hrun
    simpa [delivered] using h
  | cons a actions ih =>
    obtain ⟨r₁, hstep, hrest⟩ := Option.bind_eq_some_iff.1 hrun
    have := ih (h.step hT hW hO hstep) hrest
    rwa [← Set.union_assoc, Set.union_comm (delivered actions), ← delivered_cons] at this

lemma Sound.start {fs : FileSystem} (hT : T.Base64) (h : Vacant {n} fs) : Sound T n W ⟨fs, fun _ => none⟩ ∅ := by
  have htidy : Tidy T {n} fs fun _ => none := h.tidy
  have hnone : ∀ v, v ∉ versions fs n false := fun v hv => by
    obtain ⟨-, k, hk⟩ := (htidy.mem_versions hT rfl).1 hv
    simp [h.files n rfl] at hk
  constructor
  case tidy => exact htidy
  case sent => simp
  case kept =>
    intro v file hv
    exact absurd ((htidy.mem_versions_iff_stored hT rfl).2 ⟨file, hv⟩) (hnone v)
  case antichain => exact fun v hv => absurd hv (hnone v)
  case within => exact Set.empty_subset _
  case received => simp

lemma Settled.stored (hT : T.Base64) (hW : ∀ v ∈ W.versions, IsVersion T v) (hO : Ordered T ↑W.versions)
    (h : Settled T hasher n W r) : r.finished n = maximals (Less T) ↑W.versions ∧
    ∀ v, stored r.fs n v = if v ∈ versions r.fs n false then some (W.file v) else none := by
  obtain ⟨fs, actions, hvacant, hrun, hall, hquiet⟩ := h
  have hsound := (Sound.start hT hvacant).run hT hW hO actions hrun
  have hcov : ∀ v ∈ (W.versions : Set Bytes), Covered (Less T) (r.finished n) v := by
    intro v hv
    refine (hsound.received v (Or.inl (hall v hv))).resolve_left ?_
    rintro ⟨i, d, hd, -⟩
    simp [hquiet] at hd
  refine ⟨eq_maximals (hsound.subset hT) hsound.antichain hO.strictOn hcov, fun v => ?_⟩
  by_cases hv : v ∈ versions r.fs n false
  · obtain ⟨file, hfile⟩ := (hsound.tidy.mem_versions_iff_stored hT rfl).1 hv
    rw [if_pos hv, hfile, (hsound.kept v file hfile).2]
  · rw [if_neg hv, FileStore.stored, if_neg hv]

end Steps

section Example

def older : Bytes := VectorClock.toString .reference [⟨[97], 1, 0⟩]

def newer : Bytes := VectorClock.toString .reference [⟨[97], 2, 0⟩]

def twoWrites : Writes := ⟨{older, newer}, fun _ => 3, fun v => if v = older then [1, 2] else [3]⟩

def actions : List Action :=
  [.deliver 0 newer ⟨[], 0⟩, .deliver 1 older ⟨[], 0⟩, .append 1 1, .append 0 1, .append 1 5, .commit 1, .commit 0,
    .deliver 2 older ⟨[], 0⟩, .append 2 7, .commit 2]

lemma isVersion_single (time : UInt64) : IsVersion .reference (VectorClock.toString .reference [⟨[97], time, 0⟩]) := by
  refine VectorClock.isVersion_toString TurboLib.reference_base64 (by simp) ?_ (by simp)
  rintro c hc
  obtain rfl := List.mem_singleton.1 hc
  exact ⟨show ∀ b ∈ [97], isPlain b by decide +kernel, by simp⟩

lemma step_untouched {r r' : Replica} {a : Action} {i : ℕ} (ha : a.number ≠ i)
    (hstep : r.step T hasher n W a = some r') : r'.deliveries i = r.deliveries i := by
  cases a with
  | deliver j v host =>
    simp only [Replica.step, Replica.deliver] at hstep
    split at hstep
    · split_ifs at hstep
      obtain rfl := Option.some.inj hstep
      split
      · exact Function.update_of_ne (Ne.symm ha) ..
      · rfl
    · simp at hstep
  | append j length =>
    simp only [Replica.step] at hstep
    split at hstep
    · simp at hstep
    · obtain rfl := Option.some.inj hstep
      exact Function.update_of_ne (Ne.symm ha) ..
  | commit j =>
    simp only [Replica.step] at hstep
    split at hstep
    · obtain rfl := Option.some.inj hstep
      exact Function.update_of_ne (Ne.symm ha) ..
    · simp at hstep

lemma run_untouched {r r' : Replica} {i : ℕ} (as : List Action) (has : ∀ a ∈ as, a.number ≠ i)
    (hrun : r.run T hasher n W as = some r') : r'.deliveries i = r.deliveries i := by
  induction as generalizing r with
  | nil =>
    obtain rfl : r = r' := by simpa [Replica.run] using hrun
    rfl
  | cons a as ih =>
    obtain ⟨ha, has⟩ := List.forall_mem_cons.1 has
    obtain ⟨r₁, hstep, hrest⟩ := Option.bind_eq_some_iff.1 hrun
    rw [ih has hrest, step_untouched ha hstep]

end Example

end Replica

end Turbopump
