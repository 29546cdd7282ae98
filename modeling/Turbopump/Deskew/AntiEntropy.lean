import Turbopump.Deskew.Offers
import Turbopump.Lib.Runs
import Turbopump.Storage.Convergence

/-! Nodes that write on their own and offer each other what they have, with messages under way between them: what their
stores come to hold. -/

namespace Turbopump

open FileStore Maximal
open VectorClock (IsVersion)

structure SyncNode where
  store : StoreState (Callbacks Unit)
  sessions : ℕ → Option Delivery

def SyncMessage.Meant (keys : Set Bytes) (W : Bytes → Writes) : SyncMessage → Prop
  | .offerWrite name version _ => name ∈ keys ∧ version ∈ (W name).versions
  | .demandWrite name version _ => name ∈ keys ∧ version ∈ (W name).versions
  | .store write contents => write.name ∈ keys ∧ write.version ∈ (W write.name).versions ∧
    contents = (W write.name).content write.version ∧ mdToString { totalCopies := toUnsignedShort write.copies } =
      mdToString { totalCopies := (W write.name).copies write.version }

def Fresh (T : TurboLib) (keys : Set Bytes) (W : Bytes → Writes) (host : Host) : Prop :=
  ∀ n ∈ keys, ∀ v ∈ (W n).versions, VectorClock.isExpired (VectorClock.ofName T v) 604800 host.now = false

structure Envelope (ι : Type) where
  sender : ι
  receiver : ι
  message : SyncMessage

structure SyncCluster (ι : Type) where
  nodes : ι → SyncNode
  network : List (Envelope ι)

namespace SyncNode

variable (T : TurboLib) (hasher : Bytes → Bytes)

/-- The first buffer of a write session: the store opens a stream for it or does not. -/
def start (i : ℕ) (host : Host) (name version : Bytes) (copies : ℤ) (content : Bytes) (s : SyncNode) : SyncNode :=
  match FileStore.write T host s.store.fs name version (toUnsignedShort copies) with
  | (.accepted w, fs) => ⟨{ s.store with fs := fs }, Function.update s.sessions i (some ⟨w, content⟩)⟩
  | (_, fs) => { s with store := { s.store with fs := fs } }

def append (i length : ℕ) (s : SyncNode) : SyncNode := match s.sessions i with
  | none => s
  | some d =>
    let (w, fs) := d.stream.write s.store.fs (d.pending.take length)
    ⟨{ s.store with fs := fs }, Function.update s.sessions i (some ⟨w, d.pending.drop length⟩)⟩

/-- A session commits once it has nothing left to append. -/
def commit (i : ℕ) (s : SyncNode) : SyncNode := match s.sessions i with
  | some ⟨w, []⟩ =>
    let (_, _, fs) := w.commit T hasher s.store.fs true
    ⟨{ s.store with fs := fs }, Function.update s.sessions i none⟩
  | _ => s

/-- A message that arrives, and what is sent back. A write that arrives is session `i`. -/
def receive (i : ℕ) (host : Host) (s : SyncNode) : SyncMessage → Option SyncMessage × SyncNode
  | .offerWrite name version source => ((OfferWriteCommand.run name version source s.store.fs).2, s)
  | .demandWrite name version source => ((DemandWriteCommand.run T name version source s.store.fs).2, s)
  | .store write contents => (none, s.start T i host write.name write.version write.copies contents)

def live (s : SyncNode) (i : ℕ) : Option Writestream := (s.sessions i).map Delivery.stream

def finished (n : Bytes) (s : SyncNode) : Set Bytes := {v | v ∈ versions s.store.fs n false}

def Has (n v : Bytes) (s : SyncNode) : Prop :=
  (∃ i d, s.sessions i = some d ∧ d.stream.name = n ∧ d.stream.vstr T = v) ∨ Covered (Less T) (s.finished n) v

structure Sound (keys : Set Bytes) (W : Bytes → Writes) (s : SyncNode) : Prop where
  tidy : Tidy T keys s.store.fs s.live
  sent : ∀ i d, s.sessions i = some d → d.stream.vstr T ∈ (W d.stream.name).versions ∧
    written s.store.fs d.stream ++ d.pending = (W d.stream.name).content (d.stream.vstr T) ∧
    mdToString d.stream.md = mdToString { totalCopies := (W d.stream.name).copies (d.stream.vstr T) }
  kept : ∀ n ∈ keys, ∀ v file, stored s.store.fs n v = some file → v ∈ (W n).versions ∧ file = (W n).file v
  antichain : ∀ n ∈ keys, IsAntichain (Less T) (s.finished n)

structure Grows (keys : Set Bytes) (W : Bytes → Writes) (s s' : SyncNode) : Prop where
  has : ∀ n ∈ keys, ∀ v ∈ (W n).versions, s.Has T n v → s'.Has T n v
  covered : ∀ n ∈ keys, ∀ v ∈ (W n).versions, Covered (Less T) (s.finished n) v → Covered (Less T) (s'.finished n) v

section Steps

variable {T hasher} {keys : Set Bytes} {W : Bytes → Writes} {s : SyncNode} {i : ℕ} {n v : Bytes}

@[simp] lemma live_update (store : StoreState (Callbacks Unit)) (s : SyncNode) (i : ℕ) (d : Option Delivery) :
    live ⟨store, Function.update s.sessions i d⟩ = Function.update s.live i (d.map Delivery.stream) := by
  funext j
  by_cases hj : j = i
  · subst hj
    simp [live]
  · simp [live, hj]

lemma Grows.refl (s : SyncNode) : Grows T keys W s s := ⟨fun _ _ _ _ h => h, fun _ _ _ _ h => h⟩

lemma Sound.name (h : Sound T keys W s) {d : Delivery} (hd : s.sessions i = some d) : d.stream.name ∈ keys := by
  obtain ⟨k, ho⟩ := h.tidy.opened i d.stream (by simp [live, hd])
  exact ho.name

lemma Sound.subset (hT : T.Base64) (h : Sound T keys W s) (hn : n ∈ keys) : s.finished n ⊆ ↑(W n).versions := by
  intro v hv
  obtain ⟨file, hfile⟩ := (h.tidy.mem_versions_iff_stored hT hn).1 hv
  exact (h.kept n hn v file hfile).1

lemma Sound.versions_inprogress (hT : T.Base64) (h : Sound T keys W s) (hn : n ∈ keys)
    (hv : v ∈ versions s.store.fs n true) : s.Has T n v ∧ v ∈ (W n).versions := by
  rcases (h.tidy.mem_versions_inprogress hT hn).1 hv with hfin | ⟨hver, k, hk⟩
  · exact ⟨Or.inr ⟨v, hfin, Or.inl rfl⟩, h.subset hT hn hfin⟩
  · rcases h.tidy.entries n hn _ k hk with htilde | ⟨i, w, hw, rfl, heq⟩
    · exact absurd (by simp) (htilde.getLast? hT)
    · obtain ⟨d, hd, rfl⟩ := Option.map_eq_some_iff.1 hw
      obtain rfl := List.append_cancel_right heq
      exact ⟨Or.inl ⟨i, d, hd, rfl, rfl⟩, (h.sent i d hd).1⟩

lemma Sound.unfinished (hT : T.Base64) (h : Sound T keys W s) {fs : FileSystem} {d : Delivery}
    (htidy : Tidy T keys fs (Function.update s.live i (some d.stream)))
    (hstored : ∀ n ∈ keys, ∀ u, stored fs n u = stored s.store.fs n u)
    (hothers : ∀ j e, j ≠ i → s.sessions j = some e → written fs e.stream = written s.store.fs e.stream)
    (hsent : d.stream.vstr T ∈ (W d.stream.name).versions ∧
      written fs d.stream ++ d.pending = (W d.stream.name).content (d.stream.vstr T) ∧
      mdToString d.stream.md = mdToString { totalCopies := (W d.stream.name).copies (d.stream.vstr T) })
    (hold : ∀ e, s.sessions i = some e → d.stream.name = e.stream.name ∧ d.stream.vstr T = e.stream.vstr T) :
    Sound T keys W ⟨{ s.store with fs := fs }, Function.update s.sessions i (some d)⟩ ∧
      Grows T keys W s ⟨{ s.store with fs := fs }, Function.update s.sessions i (some d)⟩ ∧
      ∀ n ∈ keys, finished n ⟨{ s.store with fs := fs }, Function.update s.sessions i (some d)⟩ = s.finished n := by
  have hfin : ∀ n ∈ keys, finished n ⟨{ s.store with fs := fs }, Function.update s.sessions i (some d)⟩ =
      s.finished n := by
    intro n hn
    ext v
    exact h.tidy.mem_versions_congr hT htidy hn (hstored n hn v)
  refine ⟨?_, ⟨?_, ?_⟩, hfin⟩
  · constructor
    case tidy => simpa using htidy
    case sent =>
      intro j e he
      by_cases hj : j = i
      · subst hj
        obtain rfl : d = e := by simpa using he
        exact hsent
      · replace he : s.sessions j = some e := by simpa [hj] using he
        simp only [hothers j e hj he]
        exact h.sent j e he
    case kept => exact fun n hn v file hv => h.kept n hn v file (hstored n hn v ▸ hv)
    case antichain => exact fun n hn => hfin n hn ▸ h.antichain n hn
  · rintro n hn v - (⟨j, e, he, rfl, rfl⟩ | hcov)
    · left
      by_cases hj : j = i
      · subst hj
        obtain ⟨hname, hvstr⟩ := hold e he
        exact ⟨j, d, by simp, hname, hvstr⟩
      · exact ⟨j, e, by simpa [hj] using he, rfl, rfl⟩
    · exact Or.inr (hfin n hn ▸ hcov)
  · exact fun n hn v _ hcov => hfin n hn ▸ hcov

lemma Sound.start (hT : T.Base64) (hk : KeySpace keys) (h : Sound T keys W s) (hi : s.sessions i = none)
    (hn : n ∈ keys) (hver : IsVersion T v) (hv : v ∈ (W n).versions) {copies : ℤ} {content : Bytes}
    (hcontent : content = (W n).content v)
    (hcopies : mdToString { totalCopies := toUnsignedShort copies } = mdToString { totalCopies := (W n).copies v })
    {host : Host} (hfresh : VectorClock.isExpired (VectorClock.ofName T v) 604800 host.now = false) :
    Sound T keys W (s.start T i host n v copies content) ∧ Grows T keys W s (s.start T i host n v copies content) ∧
      (∀ m ∈ keys, (s.start T i host n v copies content).finished m = s.finished m) ∧
      (s.start T i host n v copies content).Has T n v := by
  by_cases hex : exists_ s.store.fs n v
  · have hsame : s.start T i host n v copies content = s := by
      simp [SyncNode.start, write_version hver, hex]
    rw [hsame]
    refine ⟨h, Grows.refl s, fun _ _ => rfl, (h.versions_inprogress hT hn (v := v) ?_).1⟩
    simpa [exists_] using hex
  · have hnew : v ∉ versions s.store.fs n true := by simpa [exists_] using hex
    obtain ⟨w, fs, hopen, rfl, rfl, hmd, hempty, htidy, hstored, hothers⟩ :=
      h.tidy.openVersion hT hk hn hver hnew (i := i) (by simp [live, hi]) (toUnsignedShort copies)
    have hstart : s.start T i host w.name (w.vstr T) copies content =
        ⟨{ s.store with fs := fs }, Function.update s.sessions i (some ⟨w, content⟩)⟩ := by
      simp [SyncNode.start, write_version hver, hfresh, hex, hopen]
    obtain ⟨hsound, hgrows, hfin⟩ := h.unfinished (d := ⟨w, content⟩) hT htidy hstored
      (fun j e _ he => hothers j e.stream (by simp [live, he]))
      ⟨hv, by rw [hempty, hcontent, List.nil_append], by rw [← hcopies, hmd, mdToString, mdToString]⟩ (by simp [hi])
    rw [hstart]
    exact ⟨hsound, hgrows, hfin, Or.inl ⟨i, ⟨w, content⟩, by simp, rfl, rfl⟩⟩

lemma Sound.append (hT : T.Base64) (hk : KeySpace keys) (h : Sound T keys W s) (i length : ℕ) :
    Sound T keys W (s.append i length) ∧ Grows T keys W s (s.append i length) := by
  cases hd : s.sessions i with
  | none =>
    simp only [SyncNode.append, hd]
    exact ⟨h, Grows.refl s⟩
  | some d =>
    obtain ⟨w, fs, hwrite, hname, hmd, hwritten, htidy, hstored, hothers⟩ :=
      h.tidy.write hT hk (i := i) (w := d.stream) (by simp [live, hd]) (d.pending.take length)
    simp only [SyncNode.append, hd, hwrite]
    obtain ⟨hmem, hcontent, hcopies⟩ := h.sent i d hd
    have hvstr : w.vstr T = d.stream.vstr T := by rw [Writestream.vstr, hmd, Writestream.vstr]
    obtain ⟨hsound, hgrows, -⟩ := h.unfinished (d := ⟨w, d.pending.drop length⟩) hT htidy hstored
      (fun j e hj he => hothers j e.stream hj (by simp [live, he]))
      ⟨by rw [hname, hvstr]; exact hmem, by
        rw [hwritten, hname, hvstr, List.append_assoc, List.take_append_drop, hcontent],
        by rw [hmd, hname, hvstr, hcopies]⟩
      (fun e he => by rw [← Option.some.inj (hd.symm.trans he)]; exact ⟨hname, hvstr⟩)
    exact ⟨hsound, hgrows⟩

lemma finished_close (hT : T.Base64) (h : Sound T keys W s) {w : Writestream} (hn : w.name ∈ keys)
    (hO : Ordered T ↑(W w.name).versions) (hw : w.vstr T ∈ (W w.name).versions) {fs : FileSystem}
    {live : ℕ → Option Writestream} {digest : UInt64} {gone : List Bytes} (htidy : Tidy T keys fs live)
    (hclosed : Closed T hasher keys s.store.fs fs w digest gone) :
    {v | v ∈ versions fs w.name false} = absorb (Less T) (s.finished w.name) (w.vstr T) := by
  have hsub := h.subset hT hn
  have habove : (∃ x, (x = w.vstr T ∨ x ∈ versions s.store.fs w.name false) ∧
      VectorClock.compareNames T x (w.vstr T) = .greaterThan) ↔
      ∃ x ∈ s.finished w.name, Less T (w.vstr T) x := by
    constructor
    · rintro ⟨x, rfl | hx, hgreater⟩
      · exact absurd ((hO.greater _ hw _ hw).1 hgreater) (hO.strictOn.irrefl _ hw)
      · exact ⟨x, hx, (hO.greater x (hsub hx) _ hw).1 hgreater⟩
    · rintro ⟨x, hx, hless⟩
      exact ⟨x, Or.inr hx, (hO.greater x (hsub hx) _ hw).2 hless⟩
  ext v
  have hgone := hclosed.gone_iff v
  rw [habove] at hgone
  change v ∈ versions fs w.name false ↔
    (v = w.vstr T ∨ v ∈ versions s.store.fs w.name false) ∧ ¬ Less T v (w.vstr T) ∧ _
  rw [hclosed.mem_versions hT h.tidy htidy hn, hgone]
  by_cases hvw : v = w.vstr T
  · simp only [hvw, true_or, true_and, not_or, and_true, Less]
  · simp only [hvw, false_or, false_and, or_false, not_false_eq_true, and_true, Less]
    tauto

variable (hasher) in
lemma Sound.commit (hT : T.Base64) (hk : KeySpace keys) (hO : ∀ n ∈ keys, Ordered T ↑(W n).versions)
    (h : Sound T keys W s) (i : ℕ) :
    Sound T keys W (s.commit T hasher i) ∧ Grows T keys W s (s.commit T hasher i) := by
  rcases hd : s.sessions i with _ | ⟨w, _ | ⟨b, rest⟩⟩
  · simp only [SyncNode.commit, hd]
    exact ⟨h, Grows.refl s⟩
  · obtain ⟨reader, w', fs, gone, hcommit, -, -, -, htidy, hclosed⟩ :=
      h.tidy.close hasher hT hk (i := i) (w := w) (by simp [live, hd])
    simp only [SyncNode.commit, hd, hcommit]
    have hn : w.name ∈ keys := h.name hd
    obtain ⟨hmem, hcontent, hcopies⟩ := h.sent i _ hd
    have hfin : finished w.name ⟨{ s.store with fs := fs }, Function.update s.sessions i none⟩ =
        absorb (Less T) (s.finished w.name) (w.vstr T) := finished_close hT h hn (hO _ hn) hmem htidy hclosed
    have hother : ∀ m ∈ keys, m ≠ w.name →
        finished m ⟨{ s.store with fs := fs }, Function.update s.sessions i none⟩ = s.finished m := by
      intro m hm hne
      ext v
      exact h.tidy.mem_versions_congr hT htidy hm (hclosed.others m hm hne v)
    have hcovered : ∀ m ∈ keys, ∀ v ∈ (W m).versions, Covered (Less T) (s.finished m) v →
        Covered (Less T) (finished m ⟨{ s.store with fs := fs }, Function.update s.sessions i none⟩) v := by
      intro m hm v hv hcov
      by_cases hmw : m = w.name
      · subst hmw
        rw [hfin]
        exact hcov.absorb (hO _ hm).strictOn (h.subset hT hm) hmem (h.antichain _ hm) hv
      · rwa [hother m hm hmw]
    refine ⟨?_, ?_, hcovered⟩
    · constructor
      case tidy => simpa using htidy
      case sent =>
        intro j e he
        have hj : j ≠ i := by
          rintro rfl
          simp at he
        replace he : s.sessions j = some e := by simpa [hj] using he
        have hsame : written fs e.stream = written s.store.fs e.stream := by
          simp only [written, FileSystem.file, hclosed.inodes]
        simp only [hsame]
        exact h.sent j e he
      case kept =>
        intro m hm v file hv
        by_cases hmw : m = w.name
        · subst hmw
          simp only [hclosed.stored] at hv
          split_ifs at hv with hgone hvw
          · obtain rfl := Option.some.inj hv
            refine ⟨hvw ▸ hmem, ?_⟩
            simp only [List.append_nil] at hcontent
            rw [Writes.file, hvw, hcopies, hcontent]
          · exact h.kept _ hm v file hv
        · exact h.kept m hm v file (hclosed.others m hm hmw v ▸ hv)
      case antichain =>
        intro m hm
        by_cases hmw : m = w.name
        · subst hmw
          rw [hfin]
          exact absorb_antichain (h.antichain _ hm)
        · rw [hother m hm hmw]
          exact h.antichain m hm
    · rintro m hm v hv (⟨j, e, he, rfl, rfl⟩ | hcov)
      · by_cases hj : j = i
        · subst hj
          obtain rfl := Option.some.inj (hd.symm.trans he)
          right
          rw [hfin]
          exact absorb_covers (hO _ hm).strictOn (h.subset hT hm) hmem (h.antichain _ hm) (Or.inl rfl)
        · exact Or.inl ⟨j, e, by simpa [hj] using he, rfl, rfl⟩
      · exact Or.inr (hcovered m hm v hv hcov)
  · simp only [SyncNode.commit, hd]
    exact ⟨h, Grows.refl s⟩

lemma toUnsignedShort_toShort (copies : ℕ) : toUnsignedShort (toShort copies) = copies % 65536 := by
  simp only [toUnsignedShort, toShort]
  omega

lemma Sound.keyDir (h : Sound T keys W s) (hn : n ∈ keys) : KeyDir T s.store.fs n := h.tidy.keyDir hn

lemma Sound.mem_finished (hT : T.Base64) (h : Sound T keys W s) (hn : n ∈ keys) (hv : v ∈ s.finished n) :
    stored s.store.fs n v = some ((W n).file v) := by
  obtain ⟨file, hfile⟩ := (h.tidy.mem_versions_iff_stored hT hn).1 hv
  rw [hfile, (h.kept n hn v file hfile).2]

lemma Sound.sendKey (hT : T.Base64) (h : Sound T keys W s) (hn : n ∈ keys) (hver : IsVersion T v)
    (hv : v ∈ s.finished n) (source : Bytes) : ∃ write contents, SyncMessage.Meant keys W (.store write contents) ∧
      SkewCorrector.sendKey T n v source s.store.fs = (.returned true, some (.store write contents)) ∧
      write.name = n ∧ write.version = v := by
  have hfile := h.mem_finished hT hn hv
  obtain ⟨write, hsend, rfl, rfl, -, hcopies⟩ := SkewCorrector.sendKey_stored hT (h.keyDir hn) hver hfile source
  refine ⟨write, _, ⟨hn, h.subset hT hn hv, rfl, ?_⟩, hsend, rfl, rfl⟩
  rw [hcopies, toUnsignedShort_toShort]
  simp only [Writes.file, mdToString, mdFromString, UInt8.toNat_ofNat']
  congr 1
  apply UInt8.toNat_inj.1
  simp only [UInt8.toNat_ofNat']
  omega

lemma Sound.receive (hT : T.Base64) (hk : KeySpace keys) (hempty : [] ∉ keys)
    (hW : ∀ n ∈ keys, ∀ v ∈ (W n).versions, IsVersion T v) (h : Sound T keys W s) (hi : s.sessions i = none)
    {host : Host} (hfresh : Fresh T keys W host) {m : SyncMessage} (hm : m.Meant keys W) :
    Sound T keys W (s.receive T i host m).2 ∧ Grows T keys W s (s.receive T i host m).2 ∧
      ∀ reply ∈ (s.receive T i host m).1, reply.Meant keys W := by
  cases m with
  | offerWrite name version source =>
    refine ⟨h, Grows.refl s, fun reply hreply => ?_⟩
    simp only [SyncNode.receive, OfferWriteCommand.run] at hreply
    split_ifs at hreply
    · cases hreply
    · obtain rfl := Option.some.inj hreply
      exact hm
  | demandWrite name version source =>
    refine ⟨h, Grows.refl s, fun reply hreply => ?_⟩
    obtain ⟨hn, hv⟩ := hm
    have hname : name ≠ [] := fun heq => hempty (heq ▸ hn)
    simp only [SyncNode.receive, DemandWriteCommand.run, if_neg hname] at hreply
    by_cases hfin : version ∈ s.finished name
    · obtain ⟨write, contents, hmeant, hsend, -⟩ := h.sendKey hT hn (hW name hn version hv) hfin source
      rw [hsend] at hreply
      obtain rfl := Option.some.inj hreply
      exact hmeant
    · have hnone : stored s.store.fs name version = none := if_neg hfin
      rw [SkewCorrector.sendKey_missing hT (h.keyDir hn) (hW name hn version hv) hnone] at hreply
      cases hreply
  | store write contents =>
    obtain ⟨hn, hv, rfl, hcopies⟩ := hm
    obtain ⟨hsound, hgrows, -⟩ :=
      h.start hT hk hi hn (hW _ hn _ hv) hv rfl hcopies (hfresh _ hn _ hv)
    exact ⟨hsound, hgrows, fun reply hreply => by cases hreply⟩

lemma Sound.offered (hT : T.Base64) (h : Sound T keys W s) (hn : n ∈ keys) (host : Host) (source : Bytes) :
    s.Has T n v ∨ (s.receive T i host (.offerWrite n v source)).1 = some (.demandWrite n v source) := by
  by_cases hex : exists_ s.store.fs n v
  · exact Or.inl (h.versions_inprogress hT hn (by simpa [exists_] using hex)).1
  · right
    simp only [SyncNode.receive, OfferWriteCommand.run, if_pos hex]

lemma Sound.demanded (hT : T.Base64) (hempty : [] ∉ keys) (h : Sound T keys W s) (hn : n ∈ keys)
    (hver : IsVersion T v) (hv : v ∈ s.finished n) (host : Host) (source : Bytes) :
    ∃ write contents, (s.receive T i host (.demandWrite n v source)).1 = some (.store write contents) ∧
      write.name = n ∧ write.version = v := by
  have hname : n ≠ [] := fun heq => hempty (heq ▸ hn)
  obtain ⟨write, contents, -, hsend, rfl, rfl⟩ := h.sendKey hT hn hver hv source
  exact ⟨write, contents, by simp only [SyncNode.receive, DemandWriteCommand.run, if_neg hname, hsend], rfl, rfl⟩

end Steps

end SyncNode

namespace SyncCluster

variable {ι : Type}

/-- `k` is a message in the network, `i` a session. Messages may arrive in any order, twice, or never. -/
inductive Action (ι : Type) where
  | write (p : ι) (i : ℕ) (host : Host) (request : WriteInstructions) (contents : Bytes)
  | append (p : ι) (i length : ℕ)
  | commit (p : ι) (i : ℕ)
  | push (p q : ι) (host : Host) (tree : DigestTree) (first last : UInt64)
  | receive (k i : ℕ) (host : Host)
  | duplicate (k : ℕ)
  | lose (k : ℕ)

section Model

variable (T : TurboLib) (hasher : Bytes → Bytes)

def step [DecidableEq ι] (c : SyncCluster ι) : Action ι → SyncCluster ι
  | .write p i host request contents =>
    let node := (c.nodes p).start T i host request.name request.version request.copies contents
    { c with nodes := Function.update c.nodes p node }
  | .append p i length => { c with nodes := Function.update c.nodes p ((c.nodes p).append i length) }
  | .commit p i => { c with nodes := Function.update c.nodes p ((c.nodes p).commit T hasher i) }
  | .push p q host tree first last =>
    let (offers, store) := SkewCorrector.pushKeyRange T tree first last [] { (c.nodes p).store with host := host }
    ⟨Function.update c.nodes p { c.nodes p with store := store }, c.network ++ offers.map (⟨p, q, ·⟩)⟩
  | .receive k i host => match c.network[k]? with
    | none => c
    | some e =>
      let (reply, node) := (c.nodes e.receiver).receive T i host e.message
      ⟨Function.update c.nodes e.receiver node,
        c.network.eraseIdx k ++ reply.toList.map (⟨e.receiver, e.sender, ·⟩)⟩
  | .duplicate k => { c with network := c.network ++ c.network[k]?.toList }
  | .lose k => { c with network := c.network.eraseIdx k }

/-- What is written is as `W` has it and does not expire, and a session that starts has a number of its own. -/
def Allowed (keys : Set Bytes) (W : Bytes → Writes) (c : SyncCluster ι) : Action ι → Prop
  | .write p i host request contents => (c.nodes p).sessions i = none ∧ Fresh T keys W host ∧ request.name ∈ keys ∧
    request.version ∈ (W request.name).versions ∧ contents = (W request.name).content request.version ∧
    toUnsignedShort request.copies = (W request.name).copies request.version
  | .push _ _ host tree first last => Fresh T keys W host ∧ ∀ file ∈ tree.enumerate first last 50, file ∈ keys
  | .receive k i host => Fresh T keys W host ∧ ∀ e ∈ c.network[k]?, (c.nodes e.receiver).sessions i = none
  | _ => True

structure Start (keys : Set Bytes) (c : SyncCluster ι) : Prop where
  vacant : ∀ p, Vacant keys (c.nodes p).store.fs
  sessions : ∀ p i, (c.nodes p).sessions i = none
  network : c.network = []

structure Quiet (c : SyncCluster ι) : Prop where
  sessions : ∀ p i, (c.nodes p).sessions i = none
  network : c.network = []

structure Sound (keys : Set Bytes) (W : Bytes → Writes) (c : SyncCluster ι) : Prop where
  nodes : ∀ p, (c.nodes p).Sound T keys W
  network : ∀ e ∈ c.network, e.message.Meant keys W

def Brings (p q : ι) (n v : Bytes) (e : Envelope ι) : Prop := match e.message with
  | .offerWrite name version _ => e.sender = p ∧ e.receiver = q ∧ name = n ∧ version = v
  | .demandWrite name version _ => e.sender = q ∧ e.receiver = p ∧ name = n ∧ version = v
  | .store write _ => e.receiver = q ∧ write.name = n ∧ write.version = v

def Coming (p q : ι) (n v : Bytes) (c : SyncCluster ι) : Prop :=
  (c.nodes q).Has T n v ∨ ∃ e ∈ c.network, Brings p q n v e

/-- `p` pushed `n` to `q`, nothing was lost since, and all that `p` has in the end it had all that time. -/
def Synced [DecidableEq ι] (n : Bytes) (c : SyncCluster ι) (actions : List (Action ι)) (p q : ι) : Prop :=
  ∃ before host tree first last after, actions = before ++ .push p q host tree first last :: after ∧
    n ∈ tree.enumerate first last 50 ∧ (∀ k, .lose k ∉ after) ∧
    ∀ v ∈ ((actions.foldl (step T hasher) c).nodes p).finished n, ∀ more, more <+: after →
      v ∈ (((before ++ .push p q host tree first last :: more).foldl (step T hasher) c).nodes p).finished n

end Model

section Runs

variable {T : TurboLib} {hasher : Bytes → Bytes} {keys : Set Bytes} {W : Bytes → Writes} {c : SyncCluster ι}
  {p q : ι} {n v : Bytes}

lemma Start.sound (hT : T.Base64) (h : Start keys c) : Sound T keys W c := by
  constructor
  case nodes =>
    intro p
    have hlive : (c.nodes p).live = fun _ => none := by
      funext i
      simp [SyncNode.live, h.sessions p i]
    have htidy : Tidy T keys (c.nodes p).store.fs (c.nodes p).live := hlive ▸ (h.vacant p).tidy
    have hnone : ∀ n ∈ keys, ∀ v, v ∉ versions (c.nodes p).store.fs n false := by
      intro n hn v hv
      obtain ⟨-, k, hk⟩ := (htidy.mem_versions hT hn).1 hv
      simp [(h.vacant p).files n hn] at hk
    constructor
    case tidy => exact htidy
    case sent =>
      intro i d hd
      simp [h.sessions p i] at hd
    case kept =>
      intro n hn v file hv
      exact absurd ((htidy.mem_versions_iff_stored hT hn).2 ⟨file, hv⟩) (hnone n hn v)
    case antichain => exact fun n hn v hv => absurd hv (hnone n hn v)
  case network =>
    intro e he
    rw [h.network] at he
    cases he

lemma Sound.pushKeyRange (hT : T.Base64) (hW : ∀ n ∈ keys, ∀ v ∈ (W n).versions, IsVersion T v)
    (h : Sound T keys W c) {host : Host} (hfresh : Fresh T keys W host) {files : List Bytes}
    (hfiles : ∀ file ∈ files, file ∈ keys) (p : ι) :
    SkewCorrector.pushFiles T [] files { (c.nodes p).store with host := host } =
      (files.flatMap fun file => (versions (c.nodes p).store.fs file true).map (SyncMessage.offerWrite file · []),
        { (c.nodes p).store with host := host }) := by
  apply SkewCorrector.pushFiles_eq
  intro file hfile v hv
  have hn := hfiles file hfile
  obtain ⟨-, hmem⟩ := (h.nodes p).versions_inprogress hT hn hv
  rw [isExpired_version (hW file hn v hmem), hfresh file hn v hmem]

lemma Sound.brings (hT : T.Base64) (hk : KeySpace keys) (hempty : [] ∉ keys)
    (hW : ∀ n ∈ keys, ∀ v ∈ (W n).versions, IsVersion T v) (h : Sound T keys W c) {e : Envelope ι}
    (he : e ∈ c.network) (hn : n ∈ keys) (hv : v ∈ (c.nodes p).finished n) {i : ℕ}
    (hi : (c.nodes e.receiver).sessions i = none) {host : Host} (hfresh : Fresh T keys W host)
    (hbrings : Brings p q n v e) :
    (e.receiver = q ∧ ((c.nodes e.receiver).receive T i host e.message).2.Has T n v) ∨
      ∃ reply ∈ ((c.nodes e.receiver).receive T i host e.message).1,
        Brings p q n v ⟨e.receiver, e.sender, reply⟩ := by
  obtain ⟨sender, receiver, message⟩ := e
  have hver : IsVersion T v := hW n hn v ((h.nodes p).subset hT hn hv)
  cases message with
  | offerWrite name version source =>
    obtain ⟨rfl, rfl, rfl, rfl⟩ := hbrings
    rcases (h.nodes receiver).offered (i := i) (v := version) hT hn host source with hhas | hreply
    · exact Or.inl ⟨rfl, hhas⟩
    · exact Or.inr ⟨_, hreply, rfl, rfl, rfl, rfl⟩
  | demandWrite name version source =>
    obtain ⟨rfl, rfl, rfl, rfl⟩ := hbrings
    obtain ⟨write, contents, hreply, hname, hversion⟩ :=
      (h.nodes receiver).demanded (i := i) hT hempty hn hver hv host source
    exact Or.inr ⟨_, hreply, rfl, hname, hversion⟩
  | store write contents =>
    obtain ⟨rfl, rfl, rfl⟩ := hbrings
    obtain ⟨-, hmem, rfl, hcopies⟩ := h.network _ he
    obtain ⟨-, -, -, hhas⟩ := (h.nodes receiver).start hT hk hi hn hver hmem rfl hcopies (hfresh _ hn _ hmem)
    exact Or.inl ⟨rfl, hhas⟩

lemma Coming.covered (h : Coming T p q n v c) (hquiet : Quiet c) : Covered (Less T) ((c.nodes q).finished n) v := by
  rcases h with (⟨i, d, hd, -⟩ | hcov) | ⟨e, he, -⟩
  · simp [hquiet.sessions q i] at hd
  · exact hcov
  · simp [hquiet.network] at he

variable [DecidableEq ι]

lemma Sound.update (h : Sound T keys W c) {s : SyncNode} (hs : s.Sound T keys W) (p : ι) :
    ∀ q, (Function.update c.nodes p s q).Sound T keys W := by
  intro q
  by_cases hq : q = p
  · subst hq
    simpa using hs
  · simpa [hq] using h.nodes q

lemma grows_update {s : SyncNode} (hs : SyncNode.Grows T keys W (c.nodes p) s) (q : ι) :
    SyncNode.Grows T keys W (c.nodes q) (Function.update c.nodes p s q) := by
  by_cases hq : q = p
  · subst hq
    simpa using hs
  · simpa [hq] using SyncNode.Grows.refl (c.nodes q)

variable (hasher) in
lemma Sound.step (hT : T.Base64) (hk : KeySpace keys) (hempty : [] ∉ keys)
    (hW : ∀ n ∈ keys, ∀ v ∈ (W n).versions, IsVersion T v) (hO : ∀ n ∈ keys, Ordered T ↑(W n).versions)
    (h : Sound T keys W c) {a : Action ι} (ha : Allowed T keys W c a) :
    Sound T keys W (c.step T hasher a) ∧ ∀ q, SyncNode.Grows T keys W (c.nodes q) ((c.step T hasher a).nodes q) := by
  cases a with
  | write p i host request contents =>
    obtain ⟨hi, hfresh, hn, hv, hcontents, hcopies⟩ := ha
    obtain ⟨hsound, hgrows, -⟩ := (h.nodes p).start hT hk hi hn (hW _ hn _ hv) hv hcontents (by rw [hcopies])
      (hfresh _ hn _ hv)
    exact ⟨⟨h.update hsound p, h.network⟩, grows_update hgrows⟩
  | append p i length =>
    obtain ⟨hsound, hgrows⟩ := (h.nodes p).append hT hk i length
    exact ⟨⟨h.update hsound p, h.network⟩, grows_update hgrows⟩
  | commit p i =>
    obtain ⟨hsound, hgrows⟩ := (h.nodes p).commit hasher hT hk hO i
    exact ⟨⟨h.update hsound p, h.network⟩, grows_update hgrows⟩
  | push p q host tree first last =>
    obtain ⟨hfresh, hfiles⟩ := ha
    have hp := h.nodes p
    have hsound : SyncNode.Sound T keys W { c.nodes p with store := { (c.nodes p).store with host := host } } :=
      ⟨hp.tidy, hp.sent, hp.kept, hp.antichain⟩
    have hgrows : SyncNode.Grows T keys W (c.nodes p)
        { c.nodes p with store := { (c.nodes p).store with host := host } } :=
      ⟨fun _ _ _ _ hv => hv, fun _ _ _ _ hv => hv⟩
    simp only [SyncCluster.step, SkewCorrector.pushKeyRange, h.pushKeyRange hT hW hfresh hfiles p]
    refine ⟨⟨h.update hsound p, fun e he => ?_⟩, grows_update hgrows⟩
    rcases List.mem_append.1 he with he | he
    · exact h.network e he
    · obtain ⟨m, hm, rfl⟩ := List.mem_map.1 he
      obtain ⟨file, hfile, hm⟩ := List.mem_flatMap.1 hm
      obtain ⟨v, hv, rfl⟩ := List.mem_map.1 hm
      exact ⟨hfiles file hfile, (hp.versions_inprogress hT (hfiles file hfile) hv).2⟩
  | receive k i host =>
    obtain ⟨hfresh, hi⟩ := ha
    cases hmessage : c.network[k]? with
    | none =>
      simp only [SyncCluster.step, hmessage]
      exact ⟨h, fun q => SyncNode.Grows.refl _⟩
    | some e =>
      obtain ⟨hsound, hgrows, hreply⟩ := (h.nodes e.receiver).receive hT hk hempty hW (hi e hmessage) hfresh
        (h.network e (List.mem_of_getElem? hmessage))
      simp only [SyncCluster.step, hmessage]
      refine ⟨⟨h.update hsound _, fun e' he' => ?_⟩, grows_update hgrows⟩
      rcases List.mem_append.1 he' with he' | he'
      · exact h.network e' (List.mem_of_mem_eraseIdx he')
      · obtain ⟨reply, hmem, rfl⟩ := List.mem_map.1 he'
        exact hreply reply (Option.mem_toList.1 hmem)
  | duplicate k =>
    refine ⟨⟨h.nodes, fun e he => ?_⟩, fun q => SyncNode.Grows.refl _⟩
    rcases List.mem_append.1 he with he | he
    · exact h.network e he
    · exact h.network e (List.mem_of_getElem? (Option.mem_toList.1 he))
  | lose k =>
    exact ⟨⟨h.nodes, fun e he => h.network e (List.mem_of_mem_eraseIdx he)⟩, fun q => SyncNode.Grows.refl _⟩

variable (hasher) in
lemma Coming.step (hT : T.Base64) (hk : KeySpace keys) (hempty : [] ∉ keys)
    (hW : ∀ n ∈ keys, ∀ v ∈ (W n).versions, IsVersion T v) (hO : ∀ n ∈ keys, Ordered T ↑(W n).versions)
    (hsound : Sound T keys W c) {a : Action ι} (ha : Allowed T keys W c a) (hloss : ∀ k, a ≠ .lose k) (hn : n ∈ keys)
    (hv : v ∈ (c.nodes p).finished n) (h : Coming T p q n v c) : Coming T p q n v (c.step T hasher a) := by
  obtain ⟨-, hgrows⟩ := hsound.step hasher hT hk hempty hW hO ha
  have hmem : v ∈ (W n).versions := (hsound.nodes p).subset hT hn hv
  rcases h with hhas | ⟨e, he, hbrings⟩
  · exact Or.inl ((hgrows q).has n hn v hmem hhas)
  · cases a with
    | write | append | commit => exact Or.inr ⟨e, he, hbrings⟩
    | push | duplicate => exact Or.inr ⟨e, List.mem_append_left _ he, hbrings⟩
    | lose k => exact absurd rfl (hloss k)
    | receive k i host =>
      obtain ⟨hfresh, hi⟩ := ha
      cases hmessage : c.network[k]? with
      | none =>
        simp only [SyncCluster.step, hmessage]
        exact Or.inr ⟨e, he, hbrings⟩
      | some e' =>
        obtain ⟨hlt, rfl⟩ := List.getElem?_eq_some_iff.1 hmessage
        simp only [SyncCluster.step, hmessage]
        rcases List.mem_cons.1 ((List.getElem_cons_eraseIdx_perm hlt).mem_iff.2 he) with rfl | he
        · rcases hsound.brings hT hk hempty hW he hn hv (hi _ hmessage) hfresh hbrings with
            ⟨rfl, hhas⟩ | ⟨reply, hreply, hbrings⟩
          · exact Or.inl (by simpa using hhas)
          · refine Or.inr ⟨_, List.mem_append_right _ (List.mem_map_of_mem (Option.mem_toList.2 hreply)), hbrings⟩
        · exact Or.inr ⟨e, List.mem_append_left _ he, hbrings⟩

variable (hasher) in
lemma Sound.pushed (hT : T.Base64) (hW : ∀ n ∈ keys, ∀ v ∈ (W n).versions, IsVersion T v) (h : Sound T keys W c)
    {host : Host} {tree : DigestTree} {first last : UInt64}
    (ha : Allowed T keys W c (.push p q host tree first last)) (hn : n ∈ tree.enumerate first last 50)
    (hv : v ∈ (c.nodes p).finished n) :
    Coming T p q n v (c.step T hasher (.push p q host tree first last)) := by
  obtain ⟨hfresh, hfiles⟩ := ha
  have hkeys := hfiles n hn
  have hheld : v ∈ versions (c.nodes p).store.fs n true :=
    ((h.nodes p).tidy.mem_versions_inprogress hT hkeys).2 (Or.inl hv)
  simp only [SyncCluster.step, SkewCorrector.pushKeyRange, h.pushKeyRange hT hW hfresh hfiles p]
  refine Or.inr ⟨⟨p, q, .offerWrite n v []⟩, List.mem_append_right _ ?_, rfl, rfl, rfl, rfl⟩
  apply List.mem_map_of_mem
  exact List.mem_flatMap.2 ⟨n, hn, List.mem_map_of_mem hheld⟩

variable (hasher) in
lemma Coming.run (hT : T.Base64) (hk : KeySpace keys) (hempty : [] ∉ keys)
    (hW : ∀ n ∈ keys, ∀ v ∈ (W n).versions, IsVersion T v) (hO : ∀ n ∈ keys, Ordered T ↑(W n).versions)
    (hn : n ∈ keys) (actions : List (Action ι)) (hsound : Sound T keys W c)
    (hallowed : Along (SyncCluster.step T hasher) (Allowed T keys W) c actions) (hloss : ∀ k, .lose k ∉ actions)
    (hv : ∀ more, more <+: actions → v ∈ ((more.foldl (SyncCluster.step T hasher) c).nodes p).finished n)
    (h : Coming T p q n v c) : Coming T p q n v (actions.foldl (SyncCluster.step T hasher) c) := by
  induction actions generalizing c with
  | nil => exact h
  | cons a actions ih =>
    apply ih (hsound.step hasher hT hk hempty hW hO hallowed.1).1 hallowed.2
    · exact fun k hmem => hloss k (List.mem_cons_of_mem a hmem)
    · exact fun more hmore => hv (a :: more) (List.cons_prefix_cons.2 ⟨rfl, hmore⟩)
    · apply h.step hasher hT hk hempty hW hO hsound hallowed.1 _ hn (hv [] List.nil_prefix)
      exact fun k heq => hloss k (heq ▸ List.mem_cons_self)

variable (hasher) in
lemma Sound.run (hT : T.Base64) (hk : KeySpace keys) (hempty : [] ∉ keys)
    (hW : ∀ n ∈ keys, ∀ v ∈ (W n).versions, IsVersion T v) (hO : ∀ n ∈ keys, Ordered T ↑(W n).versions)
    (actions : List (Action ι)) (h : Sound T keys W c)
    (hallowed : Along (SyncCluster.step T hasher) (Allowed T keys W) c actions) :
    Sound T keys W (actions.foldl (SyncCluster.step T hasher) c) ∧ ∀ n ∈ keys, ∀ v ∈ (W n).versions, ∀ p,
      Covered (Less T) ((c.nodes p).finished n) v →
        Covered (Less T) (((actions.foldl (SyncCluster.step T hasher) c).nodes p).finished n) v := by
  induction actions generalizing c with
  | nil => exact ⟨h, fun _ _ _ _ _ hcov => hcov⟩
  | cons a actions ih =>
    obtain ⟨hstep, hgrows⟩ := h.step hasher hT hk hempty hW hO hallowed.1
    obtain ⟨hrun, hcov⟩ := ih hstep hallowed.2
    exact ⟨hrun, fun n hn v hv p hp => hcov n hn v hv p ((hgrows p).covered n hn v hv hp)⟩

lemma Synced.covered (hT : T.Base64) (hk : KeySpace keys) (hempty : [] ∉ keys)
    (hW : ∀ n ∈ keys, ∀ v ∈ (W n).versions, IsVersion T v) (hO : ∀ n ∈ keys, Ordered T ↑(W n).versions)
    (hn : n ∈ keys) (hsound : Sound T keys W c) {actions : List (Action ι)}
    (hallowed : Along (SyncCluster.step T hasher) (Allowed T keys W) c actions)
    (hquiet : Quiet (actions.foldl (SyncCluster.step T hasher) c)) (h : Synced T hasher n c actions p q) (v : Bytes)
    (hv : v ∈ ((actions.foldl (SyncCluster.step T hasher) c).nodes p).finished n) :
    Covered (Less T) (((actions.foldl (SyncCluster.step T hasher) c).nodes q).finished n) v := by
  obtain ⟨before, host, tree, first, last, after, rfl, hmem, hloss, hstay⟩ := h
  obtain ⟨hbefore, hpush, hafter⟩ := along_append _ |>.1 hallowed
  obtain ⟨hreached, -⟩ := hsound.run hasher hT hk hempty hW hO before hbefore
  have hhad : v ∈ ((before.foldl (SyncCluster.step T hasher) c).nodes p).finished n := by
    have h0 := hstay v hv [] List.nil_prefix
    obtain ⟨hfresh, hfiles⟩ := hpush
    simpa [SyncCluster.step, SkewCorrector.pushKeyRange, hreached.pushKeyRange hT hW hfresh hfiles p,
      SyncNode.finished] using h0
  have hcoming := hreached.pushed hasher hT hW hpush hmem hhad
  obtain ⟨hpushed, -⟩ := hreached.step hasher hT hk hempty hW hO hpush
  have hrun := hcoming.run hasher hT hk hempty hW hO hn after hpushed hafter hloss fun more hmore => by
    simpa [List.foldl_append] using hstay v hv more hmore
  rw [List.foldl_append, List.foldl_cons] at hquiet ⊢
  exact hrun.covered hquiet

theorem converged (hT : T.Base64) (hk : KeySpace keys) (hempty : [] ∉ keys)
    (hW : ∀ n ∈ keys, ∀ v ∈ (W n).versions, IsVersion T v) (hO : ∀ n ∈ keys, Ordered T ↑(W n).versions)
    (hn : n ∈ keys) (hstart : Start keys c) (actions : List (Action ι))
    (hallowed : Along (SyncCluster.step T hasher) (Allowed T keys W) c actions)
    (hquiet : Quiet (actions.foldl (SyncCluster.step T hasher) c))
    (hsynced : ∀ p q, Relation.ReflTransGen (Synced T hasher n c actions) p q) :
    ∀ p q, let node := (actions.foldl (SyncCluster.step T hasher) c).nodes
      (∀ v, stored (node p).store.fs n v = stored (node q).store.fs n v) ∧
      (∀ v file, stored (node p).store.fs n v = some file → v ∈ (W n).versions ∧ file = (W n).file v) ∧
      ∀ before, before <+: actions → ∀ v ∈ ((before.foldl (SyncCluster.step T hasher) c).nodes q).finished n,
        Covered (Less T) ((node p).finished n) v := by
  intro p q node
  have hsound : Sound T keys W c := hstart.sound hT
  obtain ⟨hend, -⟩ := hsound.run hasher hT hk hempty hW hO actions hallowed
  have hstrict := (hO n hn).strictOn
  have hsub : ∀ p, (node p).finished n ⊆ ↑(W n).versions := fun p => (hend.nodes p).subset hT hn
  have hpath : ∀ p q, ∀ v ∈ (node p).finished n, Covered (Less T) ((node q).finished n) v := fun p q =>
    covered_of_path (F := fun p => (node p).finished n) hstrict hsub
      (fun p q hpq => hpq.covered hT hk hempty hW hO hn hsound hallowed hquiet) (hsynced p q)
  have hsubset : ∀ p q, (node p).finished n ⊆ (node q).finished n := fun p q =>
    subset_of_covers hstrict (hsub q) (hsub p) ((hend.nodes p).antichain n hn) (hpath p q) (hpath q p)
  have hkept : ∀ p v file, stored (node p).store.fs n v = some file → v ∈ (W n).versions ∧ file = (W n).file v :=
    fun p => (hend.nodes p).kept n hn
  refine ⟨fun v => ?_, hkept p, ?_⟩
  · by_cases hv : v ∈ (node p).finished n
    · rw [(hend.nodes p).mem_finished hT hn hv, (hend.nodes q).mem_finished hT hn (hsubset p q hv)]
    · have hv' : v ∉ (node q).finished n := fun hv' => hv (hsubset q p hv')
      exact (if_neg hv).trans (if_neg hv').symm
  · rintro before ⟨after, rfl⟩ v hv
    obtain ⟨hbefore, hafter⟩ := along_append _ |>.1 hallowed
    obtain ⟨hreached, -⟩ := hsound.run hasher hT hk hempty hW hO before hbefore
    have hmem := (hreached.nodes q).subset hT hn hv
    obtain ⟨-, hcov⟩ := hreached.run hasher hT hk hempty hW hO after hafter
    have hq : Covered (Less T) ((node q).finished n) v := by
      have := hcov n hn v hmem q ⟨v, hv, Or.inl rfl⟩
      simpa only [node, List.foldl_append] using this
    exact hq.trans hstrict (hsub p) (hsub q) hmem (hpath q p)

end Runs

section Example

variable {ι : Type} [DecidableEq ι] {T : TurboLib} {hasher : Bytes → Bytes}

def Action.session : Action ι → Option ℕ
  | .write _ i _ _ _ => some i
  | .append _ i _ => some i
  | .commit _ i => some i
  | .receive _ i _ => some i
  | _ => none

lemma update_sessions {c : SyncCluster ι} {s : SyncNode} {p : ι} {i : ℕ}
    (hs : s.sessions i = (c.nodes p).sessions i) (q : ι) :
    (Function.update c.nodes p s q).sessions i = (c.nodes q).sessions i := by
  by_cases hq : q = p
  · subst hq
    simpa using hs
  · rw [Function.update_of_ne hq]

lemma start_sessions (s : SyncNode) {i j : ℕ} (hij : j ≠ i) (host : Host) (name version : Bytes) (copies : ℤ)
    (content : Bytes) : (s.start T i host name version copies content).sessions j = s.sessions j := by
  simp only [SyncNode.start]
  split
  · exact Function.update_of_ne hij ..
  · rfl

lemma step_untouched (c : SyncCluster ι) {a : Action ι} {i : ℕ} (ha : a.session ≠ some i) (q : ι) :
    ((c.step T hasher a).nodes q).sessions i = (c.nodes q).sessions i := by
  have hne : ∀ {j}, a.session = some j → i ≠ j := fun hj heq => ha (heq ▸ hj)
  cases a with
  | write p j host request contents =>
    apply update_sessions
    exact start_sessions _ (hne rfl) ..
  | append p j length =>
    apply update_sessions
    simp only [SyncNode.append]
    split
    · rfl
    · exact Function.update_of_ne (hne rfl) ..
  | commit p j =>
    apply update_sessions
    simp only [SyncNode.commit]
    split
    · exact Function.update_of_ne (hne rfl) ..
    · rfl
  | push p r host tree first last =>
    apply update_sessions
    rfl
  | receive k j host =>
    simp only [SyncCluster.step]
    split
    · rfl
    · apply update_sessions
      cases (_ : Envelope ι).message with
      | offerWrite | demandWrite => rfl
      | store write contents => exact start_sessions _ (hne rfl) ..
  | duplicate k | lose k => rfl

lemma run_untouched (c : SyncCluster ι) {i : ℕ} (actions : List (Action ι)) (h : ∀ a ∈ actions, a.session ≠ some i)
    (q : ι) : ((actions.foldl (step T hasher) c).nodes q).sessions i = (c.nodes q).sessions i := by
  induction actions generalizing c with
  | nil => rfl
  | cons a actions ih =>
    obtain ⟨ha, hactions⟩ := List.forall_mem_cons.1 h
    rw [List.foldl_cons, ih _ hactions, step_untouched c ha]

open Replica (older newer twoWrites isVersion_single)

def tree : DigestTree := DigestTree.update id {} [107] 1

def request (version : Bytes) : WriteInstructions := { name := [107], version := version, copies := 3 }

def push (p q : Bool) : Action Bool := .push p q ⟨[], 0⟩ tree 0 0xFFFFFFFFFFFFFFFF

def written : List (Action Bool) := [
  .write false 0 ⟨[], 0⟩ (request newer) [3], .append false 0 1, .commit false 0,
  .write true 0 ⟨[], 0⟩ (request older) [1, 2], .append true 0 2, .commit true 0]

def brought : List (Action Bool) := [
  .receive 0 0 ⟨[], 0⟩, .receive 0 0 ⟨[], 0⟩, .receive 0 1 ⟨[], 0⟩, .append true 1 1, .commit true 1]

def actions : List (Action Bool) :=
  written ++ push false true :: (brought ++ [push true false, .receive 0 1 ⟨[], 0⟩])

def empty : SyncCluster Bool := ⟨fun _ => ⟨⟨.empty, ⟨[], 0⟩, ⟨[], ()⟩⟩, fun _ => none⟩, []⟩

lemma sampled : Along (step .reference id) (Allowed .reference {[107]} fun _ => twoWrites) empty actions ∧
    Quiet (actions.foldl (step .reference id) empty) ∧
    ∀ p q, Relation.ReflTransGen (Synced .reference id [107] empty actions) p q := by
  have hall : ∀ file ∈ tree.enumerate 0 0xFFFFFFFFFFFFFFFF 50, file = [107] := by decide +kernel
  have hmem : [107] ∈ tree.enumerate 0 0xFFFFFFFFFFFFFFFF 50 := by decide +kernel
  refine ⟨?_, ?_, ?_⟩
  · have hfresh : Fresh .reference {[107]} (fun _ => twoWrites) ⟨[], 0⟩ := by
      have h : ∀ v ∈ twoWrites.versions,
          VectorClock.isExpired (VectorClock.ofName .reference v) 604800 0 = false := by decide +kernel
      exact fun _ _ => h
    have hversions : newer ∈ twoWrites.versions ∧ older ∈ twoWrites.versions := by decide +kernel
    have hcontent : [3] = twoWrites.content newer ∧ [1, 2] = twoWrites.content older := by decide +kernel
    refine ⟨⟨rfl, hfresh, rfl, hversions.1, hcontent.1, rfl⟩, trivial, trivial,
      ⟨rfl, hfresh, rfl, hversions.2, hcontent.2, rfl⟩, trivial, trivial, ⟨hfresh, hall⟩, ⟨hfresh, ?_⟩, ⟨hfresh, ?_⟩,
      ⟨hfresh, ?_⟩, trivial, trivial, ⟨hfresh, hall⟩, ⟨hfresh, ?_⟩, trivial⟩ <;> decide +kernel
  · constructor
    case sessions =>
      intro p i
      by_cases hi : i < 2
      · have h : ∀ p, ∀ i < 2, (((actions.foldl (step .reference id) empty).nodes p).sessions i).isNone := by
          decide +kernel
        exact Option.isNone_iff_eq_none.1 (h p i hi)
      · rw [run_untouched empty actions (fun a ha => ?_) p]
        · rfl
        · have h : ∀ a ∈ actions, ∀ j ∈ a.session, j < 2 := by decide +kernel
          exact fun heq => hi (h a ha i heq)
    case network =>
      have h : (actions.foldl (step .reference id) empty).network.isEmpty := by decide +kernel
      exact List.isEmpty_iff.1 h
  · have hfirst : Synced .reference id [107] empty actions false true := by
      refine ⟨written, ⟨[], 0⟩, tree, 0, 0xFFFFFFFFFFFFFFFF, brought ++ [push true false, .receive 0 1 ⟨[], 0⟩], rfl,
        hmem, by simp [brought, push], ?_⟩
      have h : ∀ v ∈ versions ((actions.foldl (step .reference id) empty).nodes false).store.fs [107] false,
          ∀ more ∈ (brought ++ [push true false, .receive 0 1 ⟨[], 0⟩]).inits,
            v ∈ versions (((written ++ push false true :: more).foldl (step .reference id) empty).nodes false).store.fs
              [107] false := by decide +kernel
      exact fun v hv more hmore => h v hv more (List.mem_inits _ _ |>.2 hmore)
    have hsecond : Synced .reference id [107] empty actions true false := by
      refine ⟨written ++ push false true :: brought, ⟨[], 0⟩, tree, 0, 0xFFFFFFFFFFFFFFFF, [.receive 0 1 ⟨[], 0⟩],
        rfl, hmem, by simp, ?_⟩
      have h : ∀ v ∈ versions ((actions.foldl (step .reference id) empty).nodes true).store.fs [107] false,
          ∀ more ∈ ([.receive 0 1 ⟨[], 0⟩] : List (Action Bool)).inits,
            v ∈ versions ((((written ++ push false true :: brought) ++ push true false :: more).foldl
              (step .reference id) empty).nodes true).store.fs [107] false := by decide +kernel
      exact fun v hv more hmore => h v hv more (List.mem_inits _ _ |>.2 hmore)
    intro p q
    cases p with
    | false => cases q with
      | false => exact .refl
      | true => exact .single hfirst
    | true => cases q with
      | false => exact .single hsecond
      | true => exact .refl

theorem converged_example : ∃ (c : SyncCluster Bool) (actions : List (Action Bool)), Start {[107]} c ∧
    Along (step .reference id) (Allowed .reference {[107]} fun _ => twoWrites) c actions ∧
    Quiet (actions.foldl (step .reference id) c) ∧
    (∀ p q, Relation.ReflTransGen (Synced .reference id [107] c actions) p q) ∧
    ∀ p q, let node := (actions.foldl (step .reference id) c).nodes
      (∀ v, stored (node p).store.fs [107] v = stored (node q).store.fs [107] v) ∧
      (∀ v file, stored (node p).store.fs [107] v = some file → v ∈ twoWrites.versions ∧ file = twoWrites.file v) ∧
      ∀ before, before <+: actions → ∀ v ∈ ((before.foldl (step .reference id) c).nodes q).finished [107],
        Covered (Less .reference) ((node p).finished [107]) v := by
  have hstart : Start {[107]} empty := ⟨fun _ => Vacant.empty _, fun _ _ => rfl, rfl⟩
  have hversion : ∀ n ∈ ({[107]} : Set Bytes), ∀ v ∈ twoWrites.versions, IsVersion .reference v := by
    intro n _ v hv
    rcases Finset.mem_insert.1 hv with rfl | hv
    · exact isVersion_single 1
    · obtain rfl := Finset.mem_singleton.1 hv
      exact isVersion_single 2
  have hordered : Ordered .reference ↑twoWrites.versions := by
    constructor
    case equal =>
      have h : ∀ u ∈ twoWrites.versions, ∀ v ∈ twoWrites.versions,
          VectorClock.compareNames .reference u v = .equal ↔ u = v := by decide +kernel
      exact h
    case greater =>
      have h : ∀ u ∈ twoWrites.versions, ∀ v ∈ twoWrites.versions,
          VectorClock.compareNames .reference u v = .greaterThan ↔
            VectorClock.compareNames .reference v u = .lessThan := by decide +kernel
      exact h
    case trans =>
      have h : ∀ u ∈ twoWrites.versions, ∀ v ∈ twoWrites.versions, ∀ w ∈ twoWrites.versions,
          VectorClock.compareNames .reference u v = .lessThan → VectorClock.compareNames .reference v w = .lessThan →
            VectorClock.compareNames .reference u w = .lessThan := by decide +kernel
      exact h
  obtain ⟨hallowed, hquiet, hsynced⟩ := sampled
  exact ⟨empty, actions, hstart, hallowed, hquiet, hsynced, converged TurboLib.reference_base64 (KeySpace.single _)
    (by simp) hversion (fun _ _ => hordered) rfl hstart actions hallowed hquiet hsynced⟩

end Example
end SyncCluster

end Turbopump
