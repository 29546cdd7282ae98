import Turbopump.Api.DroppedKeys
import Turbopump.Common.AscendingClocks

/-! Writes that name no version, beside other sessions of the key: what is left of a conflict once they commit. -/

namespace Turbopump

open FileStore
open VectorClock (IsVersion)
open TurboLib (Fits)

namespace FileStore

variable {T : TurboLib} {fs : FileSystem} {n : Bytes}

def clocks (T : TurboLib) (fs : FileSystem) (n : Bytes) : VectorClock :=
  (versions fs n true).flatMap (VectorClock.ofName T)

lemma KeyDir.fresh_greater (hT : T.Base64) (hP : T.Printable) (hA : T.Ascends) (h : KeyDir T fs n) (host : Host)
    (hid : ∀ b ∈ host.memberId, isPlain b) (hroom : Fits host.memberId (clocks T fs n)) {u : Bytes}
    (hu : u ∈ versions fs n true) :
    VectorClock.compareNames T u (VectorClock.toString T (FileStore.freshVersion T host fs n)) = .lessThan := by
  rw [VectorClock.compareNames, (h.freshVersion hT hP host hid).2.2, FileStore.freshVersion, mergedVersion,
    ← List.foldl_map]
  apply hA.less_increment hP.self
  · rwa [← List.flatMap_def]
  · exact List.mem_map_of_mem hu

lemma KeyDir.write_opens (hT : T.Base64) (hP : T.Printable) (h : KeyDir T fs n) (hr : fs.Rooted) (host : Host)
    (hid : ∀ b ∈ host.memberId, isPlain b) (version : Bytes) (copies : ℕ) :
    ((∀ w, (FileStore.write T host fs n version copies).1 ≠ .accepted w) ∧
      (∀ nm, (FileStore.write T host fs n version copies).2.lookup (dirpath n) nm = fs.lookup (dirpath n) nm) ∧
      (FileStore.write T host fs n version copies).2.inodes = fs.inodes) ∨
    ∃ clock inode fs', FileStore.write T host fs n version copies =
        (.accepted ⟨⟨some inode, 0, tempname n (VectorClock.toString T clock)⟩,
          { version := clock, totalCopies := copies }, n⟩, fs') ∧
      IsVersion T (VectorClock.toString T clock) ∧
      Opens fs fs' (dirpath n) (VectorClock.toString T clock ++ [126]) inode ∧
      (clock = FileStore.freshVersion T host fs n ∧ (∀ c, VectorClock.fromString T version = .parsed c → c = []) ∨
        VectorClock.fromString T version = .parsed clock ∧ clock ≠ [] ∧ version ∉ versions fs n true) := by
  obtain ⟨-, hfresh, -⟩ := h.freshVersion hT hP host hid
  obtain ⟨inode, fs', hopen, hopens⟩ := h.openVersion_opens hfresh copies
  rw [FileStore.freshVersion] at hopen
  cases hparse : VectorClock.fromString T version with
  | threw => exact .inl (by simp [FileStore.write, hparse])
  | failed => exact .inr ⟨_, inode, fs', by simpa only [FileStore.write, hparse], hfresh, hopens, .inl ⟨rfl, by simp⟩⟩
  | parsed clock =>
    by_cases hempty : clock = []
    · refine .inr ⟨_, inode, fs', by simpa only [FileStore.write, hparse, if_pos hempty], hfresh, hopens,
        .inl ⟨rfl, ?_⟩⟩
      rintro _ ⟨⟩
      exact hempty
    · rw [write_parsed hparse hempty]
      by_cases hold : exists_ fs n version || VectorClock.isExpired clock 604800 host.now
      · rw [if_pos hold]
        exact .inl ⟨by simp, fun _ => rfl, rfl⟩
      · rw [if_neg hold]
        have hnew : version ∉ versions fs n true := by
          rw [Bool.or_eq_true, not_or] at hold
          simpa [exists_] using hold.1
        by_cases hslash : 47 ∈ VectorClock.toString T clock
        · rw [h.openVersion_slash hr hempty hslash]
          exact .inl ⟨by simp, by simp, rfl⟩
        · obtain ⟨hversion, -⟩ := VectorClock.isVersion_of_parsed hT hparse hempty hslash
          obtain ⟨inode, fs', hopen, hopens⟩ := h.openVersion_opens hversion copies
          exact .inr ⟨clock, inode, fs', hopen, hversion, hopens, .inr ⟨rfl, hempty, hnew⟩⟩

end FileStore

namespace KeySessions

variable {θ : Type} {T : TurboLib} {hasher : Bytes → Bytes} {memberId n v : Bytes} {s : KeySessions θ} {i k : ℕ}
  {content : Bytes}

def sent (i : ℕ) (actions : List KeyAction) : Bytes := actions.flatMap fun
  | .append session buff => if session = i then buff else []
  | _ => []

lemma sent_cons (i : ℕ) (a : KeyAction) (actions : List KeyAction) :
    sent i (a :: actions) = sent i [a] ++ sent i actions := by
  simp [sent]

/-- What may go on beside the session `i` of the version `v`: nobody commits, the key is not dropped, a write that
spells this version spells it as it is stored, and a write that names none finds room for its clock. -/
def Quiet (T : TurboLib) (memberId n v : Bytes) (s : KeySessions θ) : KeyAction → Prop
  | .start _ _ version _ =>
    (∀ clock, VectorClock.fromString T version = .parsed clock → VectorClock.toString T clock = v → version = v) ∧
      ((∀ clock, VectorClock.fromString T version = .parsed clock → clock = []) → Fits memberId (clocks T s.store.fs n))
  | .append _ _ => True
  | .flush _ => True
  | .commit _ => False
  | .ack keyIsMine _ _ => ∀ copies, keyIsMine n copies

structure Ranged (n : Bytes) (s : KeySessions θ) : Prop where
  lookup : ∀ nm k, s.store.fs.lookup (dirpath n) nm = some k → k < s.store.fs.inodes.length
  live : ∀ j w k, s.live j = some w → w.writer.inode = some k → k < s.store.fs.inodes.length

structure Mine (T : TurboLib) (n v : Bytes) (i k : ℕ) (content : Bytes) (s : KeySessions θ) : Prop where
  consistent : s.Consistent T n
  ranged : s.Ranged n
  live : ∃ w, s.live i = some w ∧ w.vstr T = v ∧ w.writer.inode = some k ∧ w.writer.offset = content.length
  temp : s.store.fs.lookup (dirpath n) (v ++ [126]) = some k
  sole : ∀ nm, s.store.fs.lookup (dirpath n) nm = some k → nm = v ++ [126]
  others : ∀ j w, j ≠ i → s.live j = some w → w.writer.inode ≠ some k
  content : (s.store.fs.file k).content = content
  greater : ∀ u, IsVersion T u → ∀ l, s.store.fs.lookup (dirpath n) u = some l →
    VectorClock.compareNames T u v = .lessThan

section Mine

def replace (s : KeySessions θ) (j : ℕ) (w : Writestream) (fs : FileSystem) : KeySessions θ :=
  { s.setFiles fs with live := Function.update s.live j (some w) }

variable {fs' : FileSystem} {w : Writestream} {j : ℕ}

lemma live_replace (s : KeySessions θ) (j : ℕ) (w : Writestream) (fs : FileSystem) :
    (s.replace j w fs).live j = some w :=
  Function.update_self ..

lemma live_replace_of_ne {l : ℕ} (h : l ≠ j) (s : KeySessions θ) (w : Writestream) (fs : FileSystem) :
    (s.replace j w fs).live l = s.live l :=
  Function.update_of_ne h ..

lemma Ranged.replace (h : s.Ranged n) (hlength : s.store.fs.inodes.length ≤ fs'.inodes.length)
    (hlookup : ∀ nm l, fs'.lookup (dirpath n) nm = some l → l < fs'.inodes.length)
    (hw : ∀ l, w.writer.inode = some l → l < fs'.inodes.length) : (s.replace j w fs').Ranged n where
  lookup := hlookup
  live l w' m hw' hm := by
    by_cases hl : l = j
    · subst hl
      obtain rfl := Option.some.inj ((live_replace s l w fs').symm.trans hw')
      exact hw m hm
    · exact (h.live l w' m ((live_replace_of_ne hl s w fs').symm.trans hw') hm).trans_le hlength

lemma Ranged.step (hT : T.Base64) (hP : T.Printable) (hid : ∀ b ∈ memberId, isPlain b) (hs : s.Consistent T n)
    (h : s.Ranged n) (a : KeyAction) : (s.step T hasher memberId n a).Ranged n := by
  cases a with
  | start j now version copies =>
    rw [KeySessions.step, KeySessions.start]
    cases hlive : s.live j with
    | some w => exact h
    | none =>
      rcases hs.keyDir.write_opens hT hP hs.rooted ⟨memberId, now⟩ hid version copies with
        ⟨hrefused, hlookup, hinodes⟩ | ⟨clock, inode, fs', hwrite, -, hopens, -⟩
      · cases hwrite : FileStore.write T ⟨memberId, now⟩ s.store.fs n version copies with
        | mk answer fs' =>
          rw [hwrite] at hrefused hlookup hinodes
          have hlength : fs'.inodes.length = s.store.fs.inodes.length := congrArg List.length hinodes
          have hstay : (s.setFiles fs').Ranged n := by
            refine ⟨fun nm l hl => ?_, fun l w m hw hm => (h.live l w m hw hm).trans_eq hlength.symm⟩
            exact (h.lookup nm l (hlookup nm ▸ hl)).trans_eq hlength.symm
          cases answer with
          | refused => exact hstay
          | threw => exact hstay
          | accepted w => exact absurd rfl (hrefused w)
      · have hlength := hopens.length
        have hinode : inode < fs'.inodes.length := by
          rcases hopens.inode with hold | ⟨rfl, hone⟩
          · exact (h.lookup _ inode hold).trans_le hlength
          · omega
        rw [hwrite]
        refine h.replace hlength (fun nm l hl => ?_) ?_
        · rw [hopens.lookup] at hl
          split_ifs at hl
          · exact Option.some.inj hl ▸ hinode
          · exact (h.lookup nm l hl).trans_le hlength
        · rintro l ⟨⟩
          exact hinode
  | append j buff =>
    rw [KeySessions.step]
    cases hw : s.live j with
    | none => exact h
    | some w =>
      cases hinode : w.writer.inode with
      | none =>
        simp only [Writestream.write, hinode]
        exact h.replace le_rfl h.lookup (by simp [hinode])
      | some l =>
        have hlength : (s.store.fs.writeAt l w.writer.offset buff).inodes.length = s.store.fs.inodes.length := by
          simp [FileSystem.writeAt]
        simp only [Writestream.write, hinode]
        refine h.replace hlength.ge (fun nm m hm => (h.lookup nm m hm).trans_eq hlength.symm) ?_
        rintro m ⟨⟩
        exact (h.live j w l hw hinode).trans_eq hlength.symm
  | flush j =>
    rw [KeySessions.step]
    cases hw : s.live j with
    | none => exact h
    | some w => exact h.replace le_rfl h.lookup fun l hl => h.live j w l hw hl
  | commit j =>
    rw [KeySessions.step]
    cases hw : s.live j with
    | none => exact h
    | some w =>
      have hsession := hs.live j w hw
      have hlive (l : ℕ) (w' : Writestream) (hw' : Function.update s.live j none l = some w') : s.live l = some w' := by
        by_cases hl : l = j
        · subst hl
          rw [Function.update_self] at hw'
          cases hw'
        · rwa [Function.update_of_ne hl] at hw'
      cases hk : s.store.fs.lookup (dirpath n) (w.vstr T ++ [126]) with
      | none =>
        simp only [setFiles, (commit_lost hsession hk true).2]
        exact ⟨h.lookup, fun l w' m hw' hm => h.live l w' m (hlive l w' hw') hm⟩
      | some k =>
        obtain ⟨gone, hc⟩ := @commit_commits T hasher s.store.fs n w hT hs.keyDir hsession k hk
        have hlength := congrArg List.length hc.inodes
        refine ⟨fun nm l hl => ?_, fun l w' m hw' hm => (h.live l w' m (hlive l w' hw') hm).trans_eq hlength.symm⟩
        have hl' : (w.commit T hasher s.store.fs true).2.2.lookup (dirpath n) nm = some l := hl
        rw [hc.lookup] at hl'
        refine lt_of_lt_of_eq ?_ hlength.symm
        split_ifs at hl'
        · exact Option.some.inj hl' ▸ h.lookup _ k hk
        · exact h.lookup nm l hl'
  | ack keyIsMine version size =>
    rw [KeySessions.step]
    rcases AckWriteCommand.run_cases (T := T) keyIsMine ⟨n, version, size⟩ s.store with hfs | hfs
    · exact ⟨by rw [hfs]; exact h.lookup, by rw [hfs]; exact h.live⟩
    · have hlength : (s.store.fs.removeAll (dirpath n)).inodes = s.store.fs.inodes := by simp [FileSystem.removeAll]
      refine ⟨fun nm l hl => ?_, by rw [hfs, hlength]; exact h.live⟩
      have hnone : s.store.fs.removeAll (dirpath n) = (AckWriteCommand.run T keyIsMine ⟨n, version, size⟩
        s.store).2.fs :=
        hfs.symm
      rw [← hnone, FileSystem.lookup_removeAll, if_pos (.inl (List.prefix_refl _))] at hl
      cases hl

lemma Mine.other (hT : T.Base64) (h : s.Mine T n v i k content) (hij : j ≠ i)
    (hconsistent : (s.replace j w fs').Consistent T n) (hlength : s.store.fs.inodes.length ≤ fs'.inodes.length)
    (hw : ∀ l, w.writer.inode = some l → l < fs'.inodes.length ∧ l ≠ k)
    (hcontent : (fs'.file k).content = (s.store.fs.file k).content)
    (hlookup : ∀ nm, fs'.lookup (dirpath n) nm = s.store.fs.lookup (dirpath n) nm ∨
      ∃ c, nm = c ++ [126] ∧ c ≠ v ∧ fs'.lookup (dirpath n) nm = w.writer.inode) :
    (s.replace j w fs').Mine T n v i k content := by
  constructor
  case consistent => exact hconsistent
  case ranged =>
    refine h.ranged.replace hlength (fun nm l hl => ?_) fun l hl => (hw l hl).1
    rcases hlookup nm with hsame | ⟨c, -, -, hnew⟩
    · exact (h.ranged.lookup nm l (hsame ▸ hl)).trans_le hlength
    · exact (hw l (hnew ▸ hl)).1
  case live =>
    obtain ⟨w', hw', hrest⟩ := h.live
    exact ⟨w', (live_replace_of_ne hij.symm s w fs').trans hw', hrest⟩
  case temp =>
    rcases hlookup (v ++ [126]) with hsame | ⟨c, hnm, hne, -⟩
    · exact hsame.trans h.temp
    · exact absurd (List.append_cancel_right hnm).symm hne
  case sole =>
    intro nm hnm
    rcases hlookup nm with hsame | ⟨c, -, -, hnew⟩
    · exact h.sole nm (hsame ▸ hnm)
    · exact absurd rfl (hw k (hnew ▸ hnm)).2
  case others =>
    intro l w' hli hw' hk
    by_cases hl : l = j
    · subst hl
      obtain rfl := Option.some.inj ((live_replace s l w fs').symm.trans hw')
      exact absurd rfl (hw k hk).2
    · exact h.others l w' hli ((live_replace_of_ne hl s w fs').symm.trans hw') hk
  case content => exact hcontent.trans h.content
  case greater =>
    intro u hu l hl
    rcases hlookup u with hsame | ⟨c, hnm, -⟩
    · exact h.greater u hu l (hsame ▸ hl)
    · exact absurd hnm.symm (temp_ne_version hT hu)

lemma Mine.own (h : s.Mine T n v i k content) {bytes : Bytes} (hconsistent : (s.replace i w fs').Consistent T n)
    (hlength : s.store.fs.inodes.length ≤ fs'.inodes.length) (hv : w.vstr T = v) (hinode : w.writer.inode = some k)
    (hoffset : w.writer.offset = bytes.length) (hbytes : (fs'.file k).content = bytes)
    (hlookup : ∀ nm, fs'.lookup (dirpath n) nm = s.store.fs.lookup (dirpath n) nm) :
    (s.replace i w fs').Mine T n v i k bytes where
  consistent := hconsistent
  ranged := by
    have hk := (h.ranged.lookup _ k h.temp).trans_le hlength
    refine h.ranged.replace hlength (fun nm l hl => ?_) fun l hl => ?_
    · exact (h.ranged.lookup nm l (hlookup nm ▸ hl)).trans_le hlength
    · exact Option.some.inj (hinode.symm.trans hl) ▸ hk
  live := ⟨w, live_replace s i w fs', hv, hinode, hoffset⟩
  temp := (hlookup _).trans h.temp
  sole nm hnm := h.sole nm (hlookup nm ▸ hnm)
  others l w' hli hw' := h.others l w' hli ((live_replace_of_ne hli s w fs').symm.trans hw')
  content := hbytes
  greater u hu l hl := h.greater u hu l (hlookup u ▸ hl)

variable (hT : T.Base64) (hP : T.Printable) (hid : ∀ b ∈ memberId, isPlain b)
include hT hP hid

lemma Mine.start (hA : T.Ascends) (h : s.Mine T n v i k content) {now : UInt64} {version : Bytes} {copies : ℕ}
    (hquiet : Quiet T memberId n v s (.start j now version copies)) :
    (s.start T memberId n j now version copies).Mine T n v i k content := by
  have hconsistent := h.consistent.start hT hP hid j now version copies
  have hdir := h.consistent.keyDir
  rw [KeySessions.start] at hconsistent ⊢
  cases hlive : s.live j with
  | some w => exact h
  | none =>
    rw [hlive] at hconsistent
    have hij : j ≠ i := by
      rintro rfl
      obtain ⟨w, hw, -⟩ := h.live
      simp [hlive] at hw
    rcases hdir.write_opens hT hP h.consistent.rooted ⟨memberId, now⟩ hid version copies with
      ⟨hrefused, hlookup, hinodes⟩ | ⟨clock, inode, fs', hwrite, hversion, hopens, hclock⟩
    · cases hwrite : FileStore.write T ⟨memberId, now⟩ s.store.fs n version copies with
      | mk answer fs' =>
        rw [hwrite] at hrefused hlookup hinodes hconsistent
        have hlength : fs'.inodes.length = s.store.fs.inodes.length := congrArg List.length hinodes
        have hstay (hconsistent : (s.setFiles fs').Consistent T n) : (s.setFiles fs').Mine T n v i k content := by
          refine ⟨hconsistent, ⟨fun nm l hl => ?_, fun l w m hw hm => ?_⟩, h.live, (hlookup _).trans h.temp,
            fun nm hnm => h.sole nm (hlookup nm ▸ hnm), h.others, ?_, fun u hu l hl =>
              h.greater u hu l (hlookup u ▸ hl)⟩
          · exact (h.ranged.lookup nm l (hlookup nm ▸ hl)).trans_eq hlength.symm
          · exact (h.ranged.live l w m hw hm).trans_eq hlength.symm
          · rw [setFiles, FileSystem.file, hinodes]
            exact h.content
        cases answer with
        | refused => exact hstay hconsistent
        | threw => exact hstay hconsistent
        | accepted w => exact absurd rfl (hrefused w)
    · -- another version is opened, for this one is there by its name and what is new is after it
      have hmem : v ∈ versions s.store.fs n true := by
        obtain ⟨w, hw, hwv, -⟩ := h.live
        exact (hdir.mem_versions_inprogress hT).2 (.inr ⟨hwv ▸ (h.consistent.live i w hw).version, k, h.temp⟩)
      have hother : VectorClock.toString T clock ≠ v := by
        intro hv
        rcases hclock with ⟨rfl, hnone⟩ | ⟨hparse, hne, hnew⟩
        · have hless := hdir.fresh_greater hT hP hA ⟨memberId, now⟩ hid (hquiet.2 hnone) hmem
          rw [hv, show VectorClock.compareNames T v v = .equal from hP.self _] at hless
          cases hless
        · exact hnew (hquiet.1 clock hparse hv ▸ hmem)
      have hlength := hopens.length
      have hk : k < s.store.fs.inodes.length := h.ranged.lookup _ k h.temp
      have hinode : inode < fs'.inodes.length ∧ inode ≠ k := by
        rcases hopens.inode with hold | ⟨rfl, hone⟩
        · refine ⟨(h.ranged.lookup _ inode hold).trans_le hlength, ?_⟩
          rintro rfl
          exact hother (List.append_cancel_right (h.sole _ hold))
        · exact ⟨by omega, hk.ne'⟩
      rw [hwrite] at hconsistent ⊢
      apply h.other hT hij hconsistent hlength
      · rintro l ⟨⟩
        exact hinode
      · exact hopens.content k
      · intro nm
        by_cases hnm : VectorClock.toString T clock ++ [126] = nm
        · exact .inr ⟨_, hnm.symm, hother, (hopens.lookup nm).trans (if_pos hnm)⟩
        · exact .inl ((hopens.lookup nm).trans (if_neg hnm))

lemma Mine.append (h : s.Mine T n v i k content) (buff : Bytes) :
    (s.step T hasher memberId n (.append j buff)).Mine T n v i k (content ++ if j = i then buff else []) := by
  have hconsistent : (s.step T hasher memberId n (.append j buff)).Consistent T n := h.consistent.step hT hP hid _
  rw [KeySessions.step] at hconsistent ⊢
  have hlength (l o : ℕ) : s.store.fs.inodes.length ≤ (s.store.fs.writeAt l o buff).inodes.length := by
    simp [FileSystem.writeAt]
  by_cases hi : j = i
  · subst hi
    obtain ⟨w, hw, hv, hinode, hoffset⟩ := h.live
    simp only [hw, Writestream.write, hinode, if_true] at hconsistent ⊢
    refine h.own hconsistent (hlength k _) hv rfl ?_ ?_ fun nm => rfl
    · simp [hoffset]
    · -- the session writes where its file ends
      rw [FileSystem.file_writeAt _ _ (h.ranged.lookup _ k h.temp), hoffset, h.content, FileSystem.overwrite_end]
  · rw [if_neg hi, List.append_nil]
    cases hw : s.live j with
    | none => exact h
    | some w =>
      simp only [hw] at hconsistent ⊢
      cases hinode : w.writer.inode with
      | none =>
        simp only [Writestream.write, hinode] at hconsistent ⊢
        exact h.other hT hi hconsistent le_rfl (by simp [hinode]) rfl fun nm => .inl rfl
      | some l =>
        have hlk : l ≠ k := fun hlk => h.others j w hi hw (hlk ▸ hinode)
        simp only [Writestream.write, hinode] at hconsistent ⊢
        apply h.other hT hi hconsistent (hlength l _)
        · rintro m ⟨⟩
          exact ⟨(h.ranged.live j w l hw hinode).trans_le (hlength l _), hlk⟩
        · rw [FileSystem.file_writeAt_of_ne _ _ hlk]
        · exact fun nm => .inl rfl

lemma Mine.flush (h : s.Mine T n v i k content) :
    (s.step T hasher memberId n (.flush j)).Mine T n v i k content := by
  have hconsistent : (s.step T hasher memberId n (.flush j)).Consistent T n := h.consistent.step hT hP hid _
  rw [KeySessions.step] at hconsistent ⊢
  cases hw : s.live j with
  | none => exact h
  | some w =>
    simp only [hw] at hconsistent ⊢
    by_cases hi : j = i
    · subst hi
      obtain ⟨w', hw', hv, hinode, hoffset⟩ := h.live
      obtain rfl := Option.some.inj (hw.symm.trans hw')
      exact h.own hconsistent le_rfl hv hinode hoffset h.content fun nm => rfl
    · apply h.other hT hi hconsistent le_rfl
      · exact fun l hl => ⟨h.ranged.live j w l hw hl, fun hlk => h.others j w hi hw (hlk ▸ hl)⟩
      · rfl
      · exact fun nm => .inl rfl

lemma Mine.step (hA : T.Ascends) (h : s.Mine T n v i k content) {a : KeyAction} (hquiet : Quiet T memberId n v s a) :
    (s.step T hasher memberId n a).Mine T n v i k (content ++ sent i [a]) := by
  cases a with
  | append j buff => simpa [sent] using h.append hT hP hid buff
  | commit j => exact hquiet.elim
  | start j now version copies =>
    rw [show sent i [.start j now version copies] = [] from rfl, List.append_nil]
    exact h.start hT hP hid hA hquiet
  | flush j =>
    rw [show sent i [.flush j] = [] from rfl, List.append_nil]
    exact h.flush hT hP hid
  | ack keyIsMine version size =>
    have hkept := AckWriteCommand.run_mine (T := T) ⟨n, version, size⟩ hquiet s.store
    rw [show sent i [.ack keyIsMine version size] = [] from rfl, List.append_nil, KeySessions.step, hkept]
    exact h

lemma Mine.run (hA : T.Ascends) (h : s.Mine T n v i k content) {actions : List KeyAction}
    (hquiet : Along (KeySessions.step T hasher memberId n) (Quiet T memberId n v) s actions) :
    (actions.foldl (KeySessions.step T hasher memberId n) s).Mine T n v i k (content ++ sent i actions) := by
  induction actions generalizing s content with
  | nil => simpa [sent] using h
  | cons a actions ih =>
    have hrun := ih (h.step hT hP hid hA hquiet.1) hquiet.2
    rwa [List.append_assoc, ← sent_cons] at hrun

lemma mine_of_start (hA : T.Ascends) (hs : s.Consistent T n) (hr : s.Ranged n) (hi : s.live i = none)
    (now : UInt64) (hroom : Fits memberId (clocks T s.store.fs n)) (copies : ℕ) :
    ∃ w, (s.start T memberId n i now [] copies).live i = some w ∧
      w.md.version = FileStore.freshVersion T ⟨memberId, now⟩ s.store.fs n ∧
      (∀ u ∈ versions s.store.fs n true, VectorClock.compareNames T u (w.vstr T) = .lessThan) ∧
      ∃ k, (s.start T memberId n i now [] copies).Mine T n (w.vstr T) i k [] := by
  have hconsistent := hs.start hT hP hid i now [] copies
  have hdir := hs.keyDir
  obtain ⟨hne, hversion, hname⟩ := hdir.freshVersion hT hP ⟨memberId, now⟩ hid
  have hgreater (u : Bytes) (hu : u ∈ versions s.store.fs n true) :=
    hdir.fresh_greater hT hP hA ⟨memberId, now⟩ hid hroom hu
  obtain ⟨inode, fs', hopen, hopens⟩ := hdir.openVersion_opens hversion copies
  have hself (u : Bytes) : VectorClock.compareNames T u u = .equal := hP.self _
  -- the version is none of those that are there, so its file is a new one
  have hnew (l : ℕ) : s.store.fs.lookup (dirpath n)
      (VectorClock.toString T (FileStore.freshVersion T ⟨memberId, now⟩ s.store.fs n) ++ [126]) ≠ some l := by
    intro hl
    have hless := hgreater _ ((hdir.mem_versions_inprogress hT).2 (.inr ⟨hversion, l, hl⟩))
    rw [hself] at hless
    cases hless
  obtain ⟨rfl, hone⟩ := hopens.inode.resolve_left (hnew inode)
  rw [KeySessions.start, hi, write_fresh, hopen] at hconsistent ⊢
  have hlength := hopens.length
  refine ⟨_, Function.update_self .., rfl, hgreater, s.store.fs.inodes.length, hconsistent, ?_,
    ⟨_, Function.update_self .., rfl, rfl, rfl⟩, (hopens.lookup _).trans (if_pos rfl), fun nm hnm => ?_,
    fun j w hj hw hk => ?_, ?_, fun u hu l hl => ?_⟩
  · refine hr.replace hlength (fun nm l hl => ?_) ?_
    · rw [hopens.lookup] at hl
      split_ifs at hl
      · obtain rfl := Option.some.inj hl
        omega
      · exact (hr.lookup nm l hl).trans_le hlength
    · rintro l ⟨⟩
      omega
  · have hnm' : fs'.lookup (dirpath n) nm = some s.store.fs.inodes.length := hnm
    rw [hopens.lookup] at hnm'
    split_ifs at hnm' with heq
    · exact heq.symm
    · exact absurd (hr.lookup nm _ hnm') (lt_irrefl _)
  · exact absurd (hr.live j w _ ((live_replace_of_ne hj s _ fs').symm.trans hw) hk) (lt_irrefl _)
  · exact (hopens.content _).trans (congrArg File.content (file_default le_rfl))
  · have hl' : fs'.lookup (dirpath n) u = some l := hl
    rw [hopens.lookup, if_neg (temp_ne_version hT hu)] at hl'
    exact hgreater u ((hdir.mem_versions_inprogress hT).2 (.inl ((hdir.mem_versions hT).2 ⟨hu, l, hl'⟩)))

end Mine

section Resolved

def Resolved (T : TurboLib) (hasher : Bytes → Bytes) (memberId n v : Bytes) (i : ℕ) (content : Bytes)
    (s : KeySessions θ) : Prop :=
  ∃ w, s.live i = some w ∧ (w.commit T hasher s.store.fs true).1.isSome ∧
    versions (s.step T hasher memberId n (.commit i)).store.fs n false = [v] ∧
    ∃ reader, FileStore.read T (s.step T hasher memberId n (.commit i)).store.fs n [] false = .accepted reader ∧
      ((s.step T hasher memberId n (.commit i)).store.fs.file reader.inode).content = content

def readBytes (T : TurboLib) (fs : FileSystem) (n : Bytes) : Option Bytes := match FileStore.read T fs n [] false with
  | .accepted reader => some (fs.file reader.inode).content
  | _ => none

lemma Resolved.readBytes (h : Resolved T hasher memberId n v i content s) :
    KeySessions.readBytes T (s.step T hasher memberId n (.commit i)).store.fs n = some content := by
  obtain ⟨-, -, -, -, reader, hread, hcontent⟩ := h
  simp only [KeySessions.readBytes, hread, hcontent]

lemma read_single {fs : FileSystem} (hv : IsVersion T v)
    (hversions : versions fs n false = [v]) (hmerge : T.merge [] (VectorClock.ofName T v) = VectorClock.ofName T v)
    (hk : fs.lookup (dirpath n) v = some k) :
    ∃ reader, FileStore.read T fs n [] false = .accepted reader ∧ reader.inode = k := by
  have hmerged : mergedVersion T fs n false = VectorClock.ofName T v := by
    rw [mergedVersion, hversions]
    exact hmerge
  have hfind : fs.find (filepath n v) = some k := by
    rw [filepath_eq hv, FileSystem.find_concat, hk]
  have hnone : VectorClock.fromString T [] = .failed := by simp [VectorClock.fromString, readUnsigned, readSign]
  simp only [FileStore.read, hnone, read.openReader, hmerged, hv.toString_ofName, hfind]
  exact ⟨_, rfl, rfl⟩

lemma Mine.resolved (hT : T.Base64) (hP : T.Printable) (h : s.Mine T n v i k content)
    (hmerge : T.merge [] (VectorClock.ofName T v) = VectorClock.ofName T v) :
    Resolved T hasher memberId n v i content s := by
  obtain ⟨w, hw, rfl, -⟩ := h.live
  have hs := h.consistent.live i w hw
  have hdir := h.consistent.keyDir
  have hself (u : Bytes) : VectorClock.compareNames T u u = .equal := hP.self _
  obtain ⟨gone, hc⟩ := @commit_commits T hasher s.store.fs n w hT hdir hs k h.temp
  have hless (u : Bytes) (hu : u ∈ versions s.store.fs n false) :
      VectorClock.compareNames T u (w.vstr T) = .lessThan := by
    obtain ⟨hu, l, hl⟩ := (hdir.mem_versions hT).1 hu
    exact h.greater u hu l hl
  have hkept : w.vstr T ∉ gone := by
    rw [hc.gone_iff]
    rintro (⟨-, hself'⟩ | ⟨-, x, rfl | hx, hx'⟩)
    · rw [hself] at hself'
      cases hself'
    · rw [hself] at hx'
      cases hx'
    · rw [hless x hx] at hx'
      cases hx'
  have hmem (u : Bytes) : u ∈ versions (w.commit T hasher s.store.fs true).2.2 n false ↔ u = w.vstr T := by
    rw [hc.mem_versions hT hdir hs.version]
    constructor
    · rintro ⟨rfl | hu, hngone⟩
      · rfl
      · exact absurd ((hc.gone_iff u).2 (.inl ⟨.inr hu, hless u hu⟩)) hngone
    · rintro rfl
      exact ⟨.inl rfl, hkept⟩
  have hdir' := hc.keyDir hdir hs.version
  have hversions : versions (w.commit T hasher s.store.fs true).2.2 n false = [w.vstr T] := by
    refine List.perm_singleton.1 ((List.perm_ext_iff_of_nodup hdir'.versions_nodup (List.nodup_singleton _)).2
      fun u => ?_)
    rw [hmem, List.mem_singleton]
  have hk : (w.commit T hasher s.store.fs true).2.2.lookup (dirpath n) (w.vstr T) = some k := by
    rw [hc.lookup, if_neg hkept, if_pos rfl]
  have hfind : s.store.fs.find w.writer.path = some k := by
    rw [hs.path, tempname_eq hs.version, FileSystem.find_concat, h.temp]
  obtain ⟨reader, hread, hinode⟩ := read_single hs.version hversions hmerge hk
  refine ⟨w, hw, ?_, ?_, reader, ?_, ?_⟩
  · simp [Writestream.commit, hfind]
  · simp only [KeySessions.step, hw]
    exact hversions
  · simp only [KeySessions.step, hw]
    exact hread
  · simp only [KeySessions.step, hw, setFiles]
    rw [hinode, FileSystem.file, hc.inodes]
    exact h.content

def inConflict : List KeyAction :=
  [.start 0 1 (ascii "1,a.0G000000000=") 3, .append 0 [97], .start 1 1 (ascii "1,b.0G000000000=") 3,
    .commit 0, .commit 1,
    .start 2 1 (ascii "1,c.0G000000000=") 3]

def conflicted : KeySessions Unit :=
  inConflict.foldl (step .latest id (ascii "me") (ascii "k")) { store := ⟨.empty, ⟨[], 0⟩, ⟨[], ()⟩⟩ }

lemma conflicted_consistent : conflicted.Consistent .latest (ascii "k") ∧ conflicted.Ranged (ascii "k") := by
  have hempty := (Vacant.empty {ascii "k"}).tidy (T := .latest)
  apply foldl_invariant (I := fun s : KeySessions Unit => s.Consistent .latest (ascii "k") ∧ s.Ranged (ascii "k"))
  · intro s a hs
    exact ⟨hs.1.step TurboLib.latest_base64 TurboLib.latest_printable (by decide +kernel) a,
      hs.2.step TurboLib.latest_base64 TurboLib.latest_printable (by decide +kernel) hs.1 a⟩
  · exact ⟨⟨hempty.keyDir rfl, .empty, by simp⟩, fun nm l hl => hempty.linked _ nm l hl, by simp⟩

example : (versions conflicted.store.fs (ascii "k") false, versions conflicted.store.fs (ascii "k") true) =
    ([ascii "1,a.0G000000000=", ascii "1,b.0G000000000="],
      [ascii "1,a.0G000000000=", ascii "1,b.0G000000000=", ascii "1,c.0G000000000="]) := by decide +kernel

def beside : List KeyAction :=
  [.append 3 [104], .start 4 3 [] 3, .append 4 [120], .append 2 [121], .flush 3, .append 3 [105]]

def respelled : List KeyAction :=
  [.start 4 2 (ascii "04,me.0W000000000=,a.0G000000000=,b.0G000000000=,c.0G000000000=") 3, .append 3 [104, 105],
    .append 4 [120]]

end Resolved

end KeySessions

end Turbopump
