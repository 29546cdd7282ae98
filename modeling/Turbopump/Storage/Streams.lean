import Turbopump.Storage.Tidy

/-! What the steps of a write stream do to a tidy store: open, write, flush, close. -/

namespace Turbopump

open VectorClock (IsVersion)

namespace FileStore

variable {T : TurboLib} {hasher : Bytes → Bytes} {keys : Set Bytes} {fs : FileSystem}
  {live : ℕ → Option Writestream} {i : ℕ}

def written (fs : FileSystem) (w : Writestream) : Bytes := match w.writer.inode with
  | none => []
  | some inode => (fs.file inode).content

lemma Opened.written {w : Writestream} {inode : ℕ} (h : Opened T keys fs w inode) :
    FileStore.written fs w = (fs.file inode).content := by
  simp [FileStore.written, h.writer]

lemma Tidy.inode_ne (hk : KeySpace keys) (h : Tidy T keys fs live) {j k l : ℕ} {w w' : Writestream}
    (hw : live i = some w) (hw' : live j = some w') (ho : Opened T keys fs w k) (ho' : Opened T keys fs w' l)
    (hij : i ≠ j) : k ≠ l := by
  rintro rfl
  obtain ⟨hdir, hname⟩ := h.single _ _ _ _ _ ho.linked ho'.linked
  exact hij (h.distinct i j w w' hw hw' (hk.apart _ ho.name _ ho'.name hdir) (List.append_cancel_right hname))

lemma Tidy.inode_ne_version (hT : T.Base64) (h : Tidy T keys fs live) {w : Writestream} {k l : ℕ}
    (ho : Opened T keys fs w k) {n v : Bytes} (hv : IsVersion T v) (hl : fs.lookup (dirpath n) v = some l) :
    k ≠ l := by
  rintro rfl
  exact temp_ne_version hT hv (h.single _ _ _ _ _ ho.linked hl).2

section Open

variable {n v : Bytes}

structure Created (fs fs' : FileSystem) (dir : Path) (nm : Bytes) (md : Bytes) : Prop where
  lookup : ∀ d x, fs'.lookup d x = if dir = d ∧ nm = x then some fs.inodes.length else fs.lookup d x
  hasDir : ∀ p, fs'.HasDir p ↔ fs.HasDir p ∨ p <+: dir
  length : fs'.inodes.length = fs.inodes.length + 1
  file : fs'.file fs.inodes.length = ⟨[], md⟩
  file_old : ∀ k < fs.inodes.length, fs'.file k = fs.file k

lemma openVersion_created {nm : Bytes} (clock : VectorClock) (copies : ℕ)
    (hpath : tempname n (VectorClock.toString T clock) = dirpath n ++ [nm])
    (hdir : ¬ fs.HasDir (dirpath n ++ [nm])) (hnew : fs.lookup (dirpath n) nm = none) :
    ∃ fs', openVersion T fs n clock copies = (.accepted ⟨⟨some fs.inodes.length, 0, dirpath n ++ [nm]⟩,
        { version := clock, totalCopies := copies }, n⟩, fs') ∧
      Created fs fs' (dirpath n) nm (mdToString { version := clock, totalCopies := copies }) := by
  have hdir' : ¬ (fs.createDirectories (dirpath n)).HasDir (dirpath n ++ [nm]) := by
    rw [FileSystem.hasDir_createDirectories]
    rintro (hd | hpre)
    · exact hdir hd
    · simpa using hpre.length_le
  have hhas : (fs.createDirectories (dirpath n)).HasDir (dirpath n) := by simp
  have hopen := FileSystem.openWrite_new hhas hdir' (by simpa using hnew)
  rw [FileSystem.inodes_createDirectories] at hopen
  refine ⟨_, by simp only [openVersion, hpath, hopen]; rfl, ?_, ?_, ?_, ?_, ?_⟩
  · intro d x
    rw [FileSystem.lookup_setAttribute]
    exact (FileSystem.lookup_link hhas _).trans (by rw [FileSystem.lookup_createDirectories])
  · intro p
    exact FileSystem.hasDir_link.trans FileSystem.hasDir_createDirectories
  · simp [FileSystem.setAttribute]
  · rw [FileSystem.file_setAttribute _ (by simp)]
    simp [FileSystem.file]
  · intro k hlt
    rw [FileSystem.file_setAttribute_of_ne _ (Nat.ne_of_gt hlt)]
    simp [FileSystem.file, List.getElem?_append_left hlt]

lemma Opened.created {fs' : FileSystem} {dir : Path} {nm md : Bytes} {w : Writestream} {k : ℕ}
    (ho : Opened T keys fs w k) (hlt : k < fs.inodes.length) (hc : Created fs fs' dir nm md)
    (hne : fs.lookup dir nm = none) : Opened T keys fs' w k where
  name := ho.name
  version := ho.version
  clock := ho.clock
  path := ho.path
  writer := ho.writer
  linked := by
    rw [hc.lookup, if_neg, ho.linked]
    rintro ⟨rfl, rfl⟩
    simp [ho.linked] at hne
  offset := by rw [hc.file_old k hlt, ho.offset]
  md := by rw [hc.file_old k hlt, ho.md]

theorem Tidy.openVersion (hT : T.Base64) (hk : KeySpace keys) (h : Tidy T keys fs live) (hn : n ∈ keys)
    (hv : IsVersion T v) (hnew : v ∉ versions fs n true) (hi : live i = none) (copies : ℕ) :
    ∃ w fs', openVersion T fs n (VectorClock.ofName T v) copies = (.accepted w, fs') ∧ w.name = n ∧ w.vstr T = v ∧
      w.md = { version := VectorClock.ofName T v, totalCopies := copies } ∧ written fs' w = [] ∧
      Tidy T keys fs' (Function.update live i (some w)) ∧
      (∀ n' ∈ keys, ∀ u, stored fs' n' u = stored fs n' u) ∧
      ∀ j w', live j = some w' → written fs' w' = written fs w' := by
  have htemp : fs.lookup (dirpath n) (v ++ [126]) = none := Option.eq_none_iff_forall_ne_some.2 fun k hk' =>
    hnew ((h.mem_versions_inprogress hT hn).2 (Or.inr ⟨hv, k, hk'⟩))
  have hdir : ¬ fs.HasDir (dirpath n ++ [v ++ [126]]) := fun hd => h.subdirs n hn _ hd (by simp [hv.comma])
  have hprint : VectorClock.toString T (VectorClock.ofName T v) = v := hv.toString_ofName
  obtain ⟨fs', hopen, hc⟩ := openVersion_created (T := T) (VectorClock.ofName T v) copies
    (by rw [hprint, tempname_eq hv]) hdir htemp
  have hfresh : ∀ j w', live j = some w' → w'.name = n → w'.vstr T ≠ v := by
    rintro j w' hw' rfl rfl
    obtain ⟨k, ho⟩ := h.opened j w' hw'
    simp [ho.linked] at htemp
  have htidy : Tidy T keys fs' (Function.update live i (some ⟨⟨some fs.inodes.length, 0,
      dirpath n ++ [v ++ [126]]⟩, { version := VectorClock.ofName T v, totalCopies := copies }, n⟩)) := by
    constructor
    case subdirs =>
      intro m hm c hd
      rcases (hc.hasDir _).1 hd with hd | hpre
      · exact h.subdirs m hm c hd
      · exact hk.nested m hm n hn c hpre
    case linked =>
      intro d nm k hl
      rw [hc.lookup] at hl
      rw [hc.length]
      split_ifs at hl
      · rw [← Option.some.inj hl]
        omega
      · have := h.linked d nm k hl
        omega
    case single =>
      intro d nm d' nm' k hl hl'
      rw [hc.lookup] at hl hl'
      split_ifs at hl hl' with h₁ h₂ h₂
      · exact ⟨h₁.1.symm.trans h₂.1, h₁.2.symm.trans h₂.2⟩
      · have := h.linked _ _ _ hl'
        rw [← Option.some.inj hl] at this
        exact absurd this (lt_irrefl _)
      · have := h.linked _ _ _ hl
        rw [← Option.some.inj hl'] at this
        exact absurd this (lt_irrefl _)
      · exact h.single _ _ _ _ _ hl hl'
    case opened =>
      intro j w' hw'
      by_cases hj : j = i
      · subst hj
        rw [Function.update_self, Option.some.injEq] at hw'
        subst hw'
        refine ⟨fs.inodes.length, hn, by rw [Writestream.vstr, hprint]; exact hv, ?_, ?_, rfl, ?_, ?_, ?_⟩
        · rw [Writestream.vstr, hprint]
        · rw [Writestream.vstr, hprint, tempname_eq hv]
        · rw [Writestream.vstr, hprint, hc.lookup, if_pos ⟨rfl, rfl⟩]
        · simp [hc.file]
        · rw [hc.file]
      · rw [Function.update_of_ne hj] at hw'
        obtain ⟨k, ho⟩ := h.opened j w' hw'
        exact ⟨k, ho.created (h.linked _ _ _ ho.linked) hc htemp⟩
    case distinct =>
      intro j l w₁ w₂ h₁ h₂ hname hvstr
      by_cases hj : j = i <;> by_cases hl : l = i
      · rw [hj, hl]
      · rw [hj, Function.update_self, Option.some.injEq] at h₁
        rw [Function.update_of_ne hl] at h₂
        subst h₁
        exact absurd (hvstr.symm.trans hprint) (hfresh l w₂ h₂ hname.symm)
      · rw [hl, Function.update_self, Option.some.injEq] at h₂
        rw [Function.update_of_ne hj] at h₁
        subst h₂
        exact absurd (hvstr.trans hprint) (hfresh j w₁ h₁ hname)
      · rw [Function.update_of_ne hj] at h₁
        rw [Function.update_of_ne hl] at h₂
        exact h.distinct j l w₁ w₂ h₁ h₂ hname hvstr
    case entries =>
      intro m hm nm k hl
      rw [hc.lookup] at hl
      split_ifs at hl with hnm
      · exact Or.inr ⟨i, _, Function.update_self .., hk.apart _ hn _ hm hnm.1, by rw [Writestream.vstr, hprint, hnm.2]⟩
      · refine (h.entries m hm nm k hl).imp_right ?_
        rintro ⟨j, w', hw', hname, hnm'⟩
        have hj : j ≠ i := by
          rintro rfl
          simp [hi] at hw'
        exact ⟨j, w', by rwa [Function.update_of_ne hj], hname, hnm'⟩
  refine ⟨_, fs', hopen, rfl, hprint, rfl, by simp [written, hc.file], htidy, fun m hm u => ?_, fun j w' hw' => ?_⟩
  · refine h.stored_congr hT htidy hm (fun u hu => ?_) u
    rw [hc.lookup, if_neg fun hnm => temp_ne_version hT hu hnm.2]
    cases hl : fs.lookup (dirpath m) u with
    | none => rfl
    | some k => exact congrArg some (hc.file_old k (h.linked _ _ _ hl))
  · obtain ⟨k, ho⟩ := h.opened j w' hw'
    have hlt := h.linked _ _ _ ho.linked
    rw [(ho.created hlt hc htemp).written, ho.written, hc.file_old k hlt]

end Open

section Write

lemma Tidy.replace (h : Tidy T keys fs live) {fs' : FileSystem} {w w' : Writestream} (hw : live i = some w)
    (hlookup : ∀ d nm, fs'.lookup d nm = fs.lookup d nm) (hdir : ∀ p, fs'.HasDir p ↔ fs.HasDir p)
    (hlen : fs'.inodes.length = fs.inodes.length) (hname : w'.name = w.name) (hvstr : w'.vstr T = w.vstr T)
    (ho : ∃ k, Opened T keys fs' w' k)
    (hothers : ∀ j w'' k, j ≠ i → live j = some w'' → Opened T keys fs w'' k → Opened T keys fs' w'' k) :
    Tidy T keys fs' (Function.update live i (some w')) := by
  -- every stream after the step stands for one before it
  have hold : ∀ j u', Function.update live i (some w') j = some u' →
      ∃ u, live j = some u ∧ u.name = u'.name ∧ u.vstr T = u'.vstr T := by
    intro j u' hu'
    by_cases hj : j = i
    · subst hj
      rw [Function.update_self, Option.some.injEq] at hu'
      exact ⟨w, hw, hu' ▸ hname.symm, hu' ▸ hvstr.symm⟩
    · rw [Function.update_of_ne hj] at hu'
      exact ⟨u', hu', rfl, rfl⟩
  constructor
  case subdirs => exact fun n hn c hd => h.subdirs n hn c ((hdir _).1 hd)
  case linked => exact fun d nm k hl => hlen ▸ h.linked d nm k (hlookup d nm ▸ hl)
  case single => exact fun d nm d' nm' k hl hl' => h.single d nm d' nm' k (hlookup d nm ▸ hl) (hlookup d' nm' ▸ hl')
  case opened =>
    intro j u' hu'
    by_cases hj : j = i
    · subst hj
      rw [Function.update_self, Option.some.injEq] at hu'
      exact hu' ▸ ho
    · rw [Function.update_of_ne hj] at hu'
      obtain ⟨k, hk⟩ := h.opened j u' hu'
      exact ⟨k, hothers j u' k hj hu' hk⟩
  case distinct =>
    intro j l u₁ u₂ h₁ h₂ hn hv
    obtain ⟨u₁', h₁', hn₁, hv₁⟩ := hold j u₁ h₁
    obtain ⟨u₂', h₂', hn₂, hv₂⟩ := hold l u₂ h₂
    exact h.distinct j l u₁' u₂' h₁' h₂' (hn₁.trans (hn.trans hn₂.symm)) (hv₁.trans (hv.trans hv₂.symm))
  case entries =>
    intro n hn nm k hl
    rcases h.entries n hn nm k (hlookup _ _ ▸ hl) with hv | ⟨j, u, hu, hun, hnm⟩
    · exact Or.inl hv
    · refine Or.inr ?_
      by_cases hj : j = i
      · subst hj
        obtain rfl := Option.some.inj (hw.symm.trans hu)
        exact ⟨j, w', Function.update_self .., hname.trans hun, by rw [hvstr, hnm]⟩
      · exact ⟨j, u, by rwa [Function.update_of_ne hj], hun, hnm⟩

theorem Tidy.write (hT : T.Base64) (hk : KeySpace keys) (h : Tidy T keys fs live) {w : Writestream}
    (hw : live i = some w) (buff : Bytes) :
    ∃ w' fs', w.write fs buff = (w', fs') ∧ w'.name = w.name ∧ w'.md = w.md ∧
      written fs' w' = written fs w ++ buff ∧ Tidy T keys fs' (Function.update live i (some w')) ∧
      (∀ n' ∈ keys, ∀ u, stored fs' n' u = stored fs n' u) ∧
      ∀ j w'', j ≠ i → live j = some w'' → written fs' w'' = written fs w'' := by
  obtain ⟨k, ho⟩ := h.opened i w hw
  have hlt := h.linked _ _ _ ho.linked
  have hwrite : w.write fs buff =
      ({ w with writer.offset := w.writer.offset + buff.length }, fs.writeAt k w.writer.offset buff) := by
    simp [Writestream.write, ho.writer]
  have hfile : (fs.writeAt k w.writer.offset buff).file k =
      { fs.file k with content := (fs.file k).content ++ buff } := by
    rw [FileSystem.file_writeAt _ _ hlt, ho.offset, FileSystem.overwrite_end]
  have ho' : Opened T keys (fs.writeAt k w.writer.offset buff)
      { w with writer.offset := w.writer.offset + buff.length } k :=
    { name := ho.name, version := ho.version, clock := ho.clock, path := ho.path, writer := ho.writer,
      linked := ho.linked, offset := by rw [hfile]; simp [ho.offset], md := by rw [hfile]; exact ho.md }
  have hothers : ∀ j w'' l, j ≠ i → live j = some w'' → Opened T keys fs w'' l →
      Opened T keys (fs.writeAt k w.writer.offset buff) w'' l := by
    intro j w'' l hj hw'' hl
    have hne := h.inode_ne hk hw hw'' ho hl (Ne.symm hj)
    exact { hl with
      offset := by rw [FileSystem.file_writeAt_of_ne _ _ hne, hl.offset]
      md := by rw [FileSystem.file_writeAt_of_ne _ _ hne, hl.md] }
  have htidy : Tidy T keys (fs.writeAt k w.writer.offset buff)
      (Function.update live i (some { w with writer.offset := w.writer.offset + buff.length })) :=
    h.replace hw (fun _ _ => rfl) (fun _ => Iff.rfl) (by simp [FileSystem.writeAt]) rfl rfl ⟨k, ho'⟩ hothers
  refine ⟨_, _, hwrite, rfl, rfl, ?_, htidy, fun m hm u => ?_, ?_⟩
  · rw [ho.written]
    simp [written, ho.writer, hfile]
  · refine h.stored_congr hT htidy hm (fun u hu => ?_) u
    rw [FileSystem.lookup_writeAt]
    cases hl : fs.lookup (dirpath m) u with
    | none => rfl
    | some l => exact congrArg some (FileSystem.file_writeAt_of_ne _ _ (h.inode_ne_version hT ho hu hl))
  · intro j w'' hj hw''
    obtain ⟨l, hl⟩ := h.opened j w'' hw''
    rw [(hothers j w'' l hj hw'' hl).written, hl.written,
      FileSystem.file_writeAt_of_ne _ _ (h.inode_ne hk hw hw'' ho hl (Ne.symm hj))]

variable (hasher) in
theorem Tidy.flush (h : Tidy T keys fs live) {w : Writestream} (hw : live i = some w) :
    ∃ reader w', w.commit T hasher fs false = (some reader, w', fs) ∧ w'.name = w.name ∧
      w'.vstr T = w.vstr T ∧ mdToString w'.md = mdToString w.md ∧ w'.writer = w.writer ∧
      reader.md.version = w.md.version ∧ some reader.inode = w.writer.inode ∧
      reader.md.digest = Writestream.digest hasher (w.vstr T) (written fs w).length ∧
      Tidy T keys fs (Function.update live i (some w')) := by
  obtain ⟨k, ho⟩ := h.opened i w hw
  have hfind : fs.find w.writer.path = some k := by
    rw [ho.path, tempname_eq ho.version, FileSystem.find_concat, ho.linked]
  have hcommit : w.commit T hasher fs false =
      (some ⟨k, { w.md with digest := Writestream.digest hasher (w.vstr T) (fs.file k).content.length }⟩,
        { w with md.digest := Writestream.digest hasher (w.vstr T) (fs.file k).content.length }, fs) := by
    simp [Writestream.commit, hfind, Writestream.vstr]
  refine ⟨_, _, hcommit, rfl, rfl, rfl, rfl, rfl, ho.writer.symm, ?_, ?_⟩
  · rw [ho.written]
  · exact h.replace hw (fun _ _ => rfl) (fun _ => Iff.rfl) rfl rfl rfl
      ⟨k, ho.name, ho.version, ho.clock, ho.path, ho.writer, ho.linked, ho.offset, ho.md⟩ fun _ _ _ _ _ hl => hl

end Write

section Close

variable {n : Bytes}

def digestOf (hasher : Bytes → Bytes) (fs : FileSystem) (name v : Bytes) : UInt64 :=
  Writestream.digest hasher v (fs.size (filepath name v))

def indexed (hasher : Bytes → Bytes) (fs : FileSystem) (name : Bytes) : UInt64 :=
  xorAll ((versions fs name false).map (digestOf hasher fs name))

lemma digestOf_congr (hT : T.Base64) {fs' : FileSystem} {live' : ℕ → Option Writestream}
    (h : Tidy T keys fs live) (h' : Tidy T keys fs' live') (hn : n ∈ keys) {u : Bytes}
    (hu : u ∈ versions fs n false) (hstored : stored fs' n u = stored fs n u) :
    digestOf hasher fs' n u = digestOf hasher fs n u := by
  obtain ⟨hver, k, hk⟩ := (h.mem_versions hT hn).1 hu
  rw [h.stored_eq hT hn hver, h'.stored_eq hT hn hver, hk] at hstored
  obtain ⟨k', hk', hfile⟩ := Option.map_eq_some_iff.1 hstored
  simp only [digestOf, FileSystem.size, filepath_eq hver, FileSystem.find_concat, hk, hk', hfile]

lemma indexed_congr (hT : T.Base64) {fs' : FileSystem} {live' : ℕ → Option Writestream}
    (h : Tidy T keys fs live) (h' : Tidy T keys fs' live') (hn : n ∈ keys)
    (hstored : ∀ u, stored fs' n u = stored fs n u) : indexed hasher fs' n = indexed hasher fs n := by
  have hperm : (versions fs' n false).Perm (versions fs n false) :=
    (List.perm_ext_iff_of_nodup (h'.versions_nodup hn) (h.versions_nodup hn)).2 fun u =>
      h.mem_versions_congr hT h' hn (hstored u)
  rw [indexed, xorAll_perm (hperm.map _), indexed]
  exact congrArg xorAll (List.map_congr_left fun u hu => digestOf_congr hT h h' hn hu (hstored u))

variable (hasher) in
lemma Tidy.purge (hT : T.Base64) (n : Bytes) (gone : List Bytes) (h : Tidy T keys fs live)
    (hgone : ∀ u ∈ gone, IsVersion T u) (hnodup : gone.Nodup) (md : KeyMetadata) :
    ∃ fs', gone.foldl (FileStore.purge hasher n) (md, fs) =
        ({ md with digest := md.digest ^^^ xorAll (gone.map (digestOf hasher fs n)) }, fs') ∧
      Tidy T keys fs' live ∧ fs'.inodes = fs.inodes ∧
      ∀ d x, fs'.lookup d x = if dirpath n = d ∧ x ∈ gone then none else fs.lookup d x := by
  induction gone generalizing fs md with
  | nil => exact ⟨fs, by simp, h, rfl, by simp⟩
  | cons u gone ih =>
    obtain ⟨hu, hnodup'⟩ := List.nodup_cons.1 hnodup
    have hver := hgone u List.mem_cons_self
    have hlink : ∀ d x, (fs.link (dirpath n) u none).lookup d x =
        if dirpath n = d ∧ u = x then none else fs.lookup d x := by
      intro d x
      by_cases hd : fs.HasDir (dirpath n)
      · exact FileSystem.lookup_link hd none
      · by_cases hdx : dirpath n = d ∧ u = x
        · rw [if_pos hdx, FileSystem.link, FileSystem.not_hasDir.1 hd]
          simp [FileSystem.lookup, ← hdx.1, FileSystem.not_hasDir.1 hd]
        · rw [if_neg hdx, FileSystem.lookup_link_none _ hdx]
    have hmore : ∀ d x k, (fs.link (dirpath n) u none).lookup d x = some k → fs.lookup d x = some k := by
      intro d x k hl
      rw [hlink] at hl
      split_ifs at hl
      exact hl
    have htidy : Tidy T keys (fs.link (dirpath n) u none) live :=
      { subdirs := fun m hm c hd => h.subdirs m hm c (FileSystem.hasDir_link.1 hd)
        linked := fun d x k hl => by rw [FileSystem.inodes_link]; exact h.linked d x k (hmore d x k hl)
        single := fun d x d' x' k hl hl' => h.single d x d' x' k (hmore _ _ _ hl) (hmore _ _ _ hl')
        opened := fun i w hw => by
          obtain ⟨k, ho⟩ := h.opened i w hw
          refine ⟨k, ho.name, ho.version, ho.clock, ho.path, ho.writer, ?_, ?_, ?_⟩
          · rw [hlink, if_neg fun hdx => temp_ne_version hT hver hdx.2.symm, ho.linked]
          · rw [ho.offset, FileSystem.file, FileSystem.file, FileSystem.inodes_link]
          · rw [FileSystem.file, FileSystem.inodes_link]
            exact ho.md
        distinct := h.distinct
        entries := fun m hm x k hl => h.entries m hm x k (hmore _ _ _ hl) }
    obtain ⟨fs', hfold, htidy', hinodes, hlookup⟩ := ih htidy (fun x hx => hgone x (List.mem_cons_of_mem _ hx)) hnodup'
      { md with digest := md.digest ^^^ digestOf hasher fs n u }
    refine ⟨fs', ?_, htidy', hinodes.trans (FileSystem.inodes_link _), fun d x => ?_⟩
    · rw [List.foldl_cons, FileStore.purge, filepath_eq hver, FileSystem.remove_concat, ← filepath_eq hver]
      refine hfold.trans ?_
      have hsame : gone.map (digestOf hasher (fs.link (dirpath n) u none) n) = gone.map (digestOf hasher fs n) := by
        refine List.map_congr_left fun x hx => ?_
        have hxver := hgone x (List.mem_cons_of_mem _ hx)
        have hux : u ≠ x := fun heq => hu (heq ▸ hx)
        simp only [digestOf, FileSystem.size, filepath_eq hxver, FileSystem.find_concat, hlink, hux, and_false,
          if_false, FileSystem.file, FileSystem.inodes_link]
      rw [hsame, List.map_cons, xorAll_cons, UInt64.xor_assoc]
    · rw [hlookup, hlink]
      by_cases hd : dirpath n = d <;> by_cases hx : u = x <;> by_cases hg : x ∈ gone <;>
        simp [hd, hx, hg, eq_comm]

lemma Tidy.rename (hT : T.Base64) (hk : KeySpace keys) (h : Tidy T keys fs live) {w : Writestream} {k : ℕ}
    (hw : live i = some w) (ho : Opened T keys fs w k) :
    ∃ fs', fs.rename (tempname w.name (w.vstr T)) (filepath w.name (w.vstr T)) = (true, fs') ∧
      Tidy T keys fs' (Function.update live i none) ∧ fs'.inodes = fs.inodes ∧
      ∀ n ∈ keys, ∀ u, stored fs' n u = if n = w.name ∧ u = w.vstr T then some (fs.file k) else stored fs n u := by
  have hdir := FileSystem.hasDir_of_lookup ho.linked
  set fs' := (fs.link (dirpath w.name) (w.vstr T ++ [126]) none).link (dirpath w.name) (w.vstr T) (some k)
  have hlookup : ∀ d x, fs'.lookup d x = if dirpath w.name = d ∧ w.vstr T = x then some k
      else if dirpath w.name = d ∧ w.vstr T ++ [126] = x then none else fs.lookup d x := fun d x => by
    rw [FileSystem.lookup_link (FileSystem.hasDir_link.2 hdir), FileSystem.lookup_link hdir]
  have hinodes : fs'.inodes = fs.inodes := by simp only [fs', FileSystem.inodes_link]
  -- a name in the new store is the finished version's, or was there and is not the temporary one
  have hold : ∀ d x l, fs'.lookup d x = some l → (dirpath w.name = d ∧ w.vstr T = x ∧ l = k) ∨
      (fs.lookup d x = some l ∧ ¬ (dirpath w.name = d ∧ w.vstr T ++ [126] = x)) := by
    intro d x l hl
    rw [hlookup] at hl
    split_ifs at hl with h₁ h₂
    · exact Or.inl ⟨h₁.1, h₁.2, (Option.some.inj hl).symm⟩
    · exact Or.inr ⟨hl, h₂⟩
  have htemp : ∀ d x, fs.lookup d x = some k → dirpath w.name = d ∧ w.vstr T ++ [126] = x := fun d x hl =>
    h.single _ _ _ _ _ ho.linked hl
  have htidy : Tidy T keys fs' (Function.update live i none) := by
    constructor
    case subdirs =>
      exact fun n hn c hd => h.subdirs n hn c (FileSystem.hasDir_link.1 (FileSystem.hasDir_link.1 hd))
    case linked =>
      intro d x l hl
      rw [hinodes]
      rcases hold d x l hl with ⟨-, -, rfl⟩ | ⟨hl, -⟩
      · exact h.linked _ _ _ ho.linked
      · exact h.linked d x l hl
    case single =>
      intro d x d' x' l hl hl'
      rcases hold d x l hl with ⟨rfl, rfl, rfl⟩ | ⟨hl, hne⟩ <;>
        rcases hold d' x' _ hl' with ⟨rfl, rfl, heq⟩ | ⟨hl', hne'⟩
      · exact ⟨rfl, rfl⟩
      · exact absurd (htemp _ _ hl') hne'
      · exact absurd (htemp _ _ (heq ▸ hl)) hne
      · exact h.single _ _ _ _ _ hl hl'
    case opened =>
      intro j w' hw'
      by_cases hj : j = i
      · simp [hj] at hw'
      · rw [Function.update_of_ne hj] at hw'
        obtain ⟨l, ho'⟩ := h.opened j w' hw'
        refine ⟨l, ho'.name, ho'.version, ho'.clock, ho'.path, ho'.writer, ?_, ?_, ?_⟩
        · rw [hlookup, if_neg fun hx => temp_ne_version hT ho.version hx.2.symm, if_neg ?_, ho'.linked]
          rintro ⟨hd, hx⟩
          exact hj (h.distinct j i w' w hw' hw (hk.apart _ ho'.name _ ho.name hd.symm)
            (List.append_cancel_right hx.symm))
        · rw [ho'.offset, FileSystem.file, FileSystem.file, hinodes]
        · rw [FileSystem.file, hinodes]
          exact ho'.md
    case distinct =>
      intro j l w₁ w₂ h₁ h₂ hn hv
      have hne : ∀ j u, Function.update live i none j = some u → live j = some u := by
        intro j u hu
        by_cases hj : j = i
        · simp [hj] at hu
        · rwa [Function.update_of_ne hj] at hu
      exact h.distinct j l w₁ w₂ (hne j w₁ h₁) (hne l w₂ h₂) hn hv
    case entries =>
      intro n hn x l hl
      rcases hold _ x l hl with ⟨-, rfl, -⟩ | ⟨hl, hne⟩
      · exact Or.inl ho.version
      · refine (h.entries n hn x l hl).imp_right ?_
        rintro ⟨j, w', hw', hname, hx⟩
        refine ⟨j, w', ?_, hname, hx⟩
        rw [Function.update_of_ne, hw']
        rintro rfl
        obtain rfl := Option.some.inj (hw.symm.trans hw')
        exact hne ⟨by rw [hname], hx.symm⟩
  refine ⟨fs', ?_, htidy, hinodes, fun n hn u => ?_⟩
  · rw [tempname_eq ho.version, filepath_eq ho.version, FileSystem.rename_eq ho.linked fun hd =>
      h.subdirs _ ho.name _ hd ho.version.comma]
  · by_cases hu : IsVersion T u
    · rw [htidy.stored_eq hT hn hu, h.stored_eq hT hn hu, hlookup]
      by_cases hnu : n = w.name ∧ u = w.vstr T
      · rw [if_pos hnu, if_pos ⟨by rw [hnu.1], hnu.2.symm⟩]
        simp [FileSystem.file, hinodes]
      · rw [if_neg hnu, if_neg, if_neg fun hx => temp_ne_version hT hu hx.2]
        · simp only [show fs'.file = fs.file from funext fun l => by simp only [FileSystem.file, hinodes]]
        · exact fun hx => hnu ⟨hk.apart _ hn _ ho.name hx.1.symm, hx.2.symm⟩
    · rw [htidy.stored_none hT hn hu, if_neg, h.stored_none hT hn hu]
      rintro ⟨-, rfl⟩
      exact hu ho.version

lemma mem_obsolete {all : List Bytes} (hall : ∀ x ∈ all, IsVersion T x) {v : Bytes} (hv : IsVersion T v) (u : Bytes) :
    u ∈ obsolete T all (VectorClock.ofName T v) ↔
      (u ∈ all ∧ VectorClock.compareNames T u v = .lessThan) ∨
      (u = v ∧ ∃ x ∈ all, VectorClock.compareNames T x v = .greaterThan) := by
  simp only [obsolete, List.mem_dedup, List.mem_filterMap]
  constructor
  · rintro ⟨x, hx, hu⟩
    split at hu
    case h_1 hless =>
      rw [(hall x hx).toString_ofName, Option.some.injEq] at hu
      exact Or.inl ⟨hu ▸ hx, hu ▸ hless⟩
    case h_2 hgreater =>
      rw [hv.toString_ofName, Option.some.injEq] at hu
      exact Or.inr ⟨hu.symm, x, hx, hgreater⟩
    case h_3 => simp at hu
  · rintro (⟨hu, hless⟩ | ⟨rfl, x, hx, hgreater⟩)
    · refine ⟨u, hu, ?_⟩
      rw [VectorClock.compareNames] at hless
      simp only [hless, (hall u hu).toString_ofName]
    · refine ⟨x, hx, ?_⟩
      rw [VectorClock.compareNames] at hgreater
      simp only [hgreater, hv.toString_ofName]

/-- What closing the stream `w` does to the finished versions: its own is finished, and `gone` is what it
makes obsolete or finds itself obsoleted by. -/
structure Closed (T : TurboLib) (hasher : Bytes → Bytes) (keys : Set Bytes) (fs fs' : FileSystem)
    (w : Writestream) (digest : UInt64) (gone : List Bytes) : Prop where
  gone_iff : ∀ u, u ∈ gone ↔
    ((u = w.vstr T ∨ u ∈ versions fs w.name false) ∧ VectorClock.compareNames T u (w.vstr T) = .lessThan) ∨
    (u = w.vstr T ∧ ∃ x, (x = w.vstr T ∨ x ∈ versions fs w.name false) ∧
      VectorClock.compareNames T x (w.vstr T) = .greaterThan)
  stored : ∀ u, stored fs' w.name u = if u ∈ gone then none
    else if u = w.vstr T then some ⟨written fs w, mdToString w.md⟩ else stored fs w.name u
  others : ∀ n ∈ keys, n ≠ w.name → ∀ u, FileStore.stored fs' n u = FileStore.stored fs n u
  inodes : fs'.inodes = fs.inodes
  digest : w.vstr T ∉ versions fs w.name false → indexed hasher fs' w.name = indexed hasher fs w.name ^^^ digest

lemma indexed_insert (hT : T.Base64) {fs' : FileSystem} {live' : ℕ → Option Writestream}
    (h : Tidy T keys fs live) (h' : Tidy T keys fs' live') (hn : n ∈ keys) {v : Bytes}
    (hv : v ∉ versions fs n false) (hmem : ∀ u, u ∈ versions fs' n false ↔ u = v ∨ u ∈ versions fs n false)
    (hstored : ∀ u, u ≠ v → stored fs' n u = stored fs n u) :
    indexed hasher fs' n = digestOf hasher fs' n v ^^^ indexed hasher fs n := by
  have hperm : (versions fs' n false).Perm (v :: versions fs n false) :=
    (List.perm_ext_iff_of_nodup (h'.versions_nodup hn) (List.nodup_cons.2 ⟨hv, h.versions_nodup hn⟩)).2 fun u => by
      rw [hmem, List.mem_cons]
  rw [indexed, xorAll_perm (hperm.map _), List.map_cons, xorAll_cons, indexed]
  refine congrArg (fun l => digestOf hasher fs' n v ^^^ xorAll l) (List.map_congr_left fun u hu => ?_)
  exact digestOf_congr hT h h' hn hu (hstored u fun heq => hv (heq ▸ hu))

lemma indexed_filter (hT : T.Base64) {fs' : FileSystem} {live' : ℕ → Option Writestream}
    (h : Tidy T keys fs live) (h' : Tidy T keys fs' live') (hn : n ∈ keys) {gone : List Bytes} (hnodup : gone.Nodup)
    (hsub : ∀ u ∈ gone, u ∈ versions fs n false)
    (hstored : ∀ u, stored fs' n u = if u ∈ gone then none else stored fs n u) :
    indexed hasher fs' n = indexed hasher fs n ^^^ xorAll (gone.map (digestOf hasher fs n)) := by
  have hmem : ∀ u, u ∈ versions fs' n false ↔ u ∈ versions fs n false ∧ u ∉ gone := by
    intro u
    rw [h'.mem_versions_iff_stored hT hn, h.mem_versions_iff_stored hT hn, hstored]
    by_cases hu : u ∈ gone <;> simp [hu]
  have hleft : (versions fs' n false).Perm ((versions fs n false).filter fun u => ! decide (u ∈ gone)) :=
    (List.perm_ext_iff_of_nodup (h'.versions_nodup hn) ((h.versions_nodup hn).filter _)).2 fun u => by
      rw [hmem, List.mem_filter]
      simp
  have hgone : gone.Perm ((versions fs n false).filter fun u => decide (u ∈ gone)) :=
    (List.perm_ext_iff_of_nodup hnodup ((h.versions_nodup hn).filter _)).2 fun u => by
      rw [List.mem_filter, decide_eq_true_eq]
      exact ⟨fun hu => ⟨hsub u hu, hu⟩, And.right⟩
  have hsame : (versions fs' n false).map (digestOf hasher fs' n) =
    (versions fs' n false).map (digestOf hasher fs n) := by
    refine List.map_congr_left fun u hu => ?_
    obtain ⟨hu, hug⟩ := (hmem u).1 hu
    exact digestOf_congr hT h h' hn hu (by rw [hstored, if_neg hug])
  rw [indexed, hsame, xorAll_perm (hleft.map _), xorAll_filter_not, indexed, xorAll_perm (hgone.map _)]

lemma Closed.mem_versions (hT : T.Base64) {fs' : FileSystem} {live' : ℕ → Option Writestream} {w : Writestream}
    {digest : UInt64} {gone : List Bytes} (h : Tidy T keys fs live) (h' : Tidy T keys fs' live')
    (hn : w.name ∈ keys) (hc : Closed T hasher keys fs fs' w digest gone) (u : Bytes) :
    u ∈ versions fs' w.name false ↔ u ∉ gone ∧ (u = w.vstr T ∨ u ∈ versions fs w.name false) := by
  rw [h'.mem_versions_iff_stored hT hn, h.mem_versions_iff_stored hT hn, hc.stored]
  by_cases hu : u ∈ gone <;> by_cases huw : u = w.vstr T <;> simp [hu, huw]

variable (hasher) in
theorem Tidy.close (hT : T.Base64) (hk : KeySpace keys) (h : Tidy T keys fs live) {w : Writestream}
    (hw : live i = some w) :
    ∃ reader w' fs' gone, w.commit T hasher fs true = (some reader, w', fs') ∧ w'.writer.inode = none ∧
      reader.md.version = w.md.version ∧ some reader.inode = w.writer.inode ∧
      Tidy T keys fs' (Function.update live i none) ∧ Closed T hasher keys fs fs' w reader.md.digest gone := by
  obtain ⟨k, ho⟩ := h.opened i w hw
  have hfind : fs.find w.writer.path = some k := by
    rw [ho.path, tempname_eq ho.version, FileSystem.find_concat, ho.linked]
  obtain ⟨fs₁, hrename, htidy₁, hinodes₁, hstored₁⟩ := h.rename hT hk hw ho
  have hmem₁ : ∀ u, u ∈ versions fs₁ w.name false ↔ u = w.vstr T ∨ u ∈ versions fs w.name false := by
    intro u
    rw [htidy₁.mem_versions_iff_stored hT ho.name, hstored₁ _ ho.name, h.mem_versions_iff_stored hT ho.name]
    by_cases hu : u = w.vstr T <;> simp [hu]
  have hall : ∀ x ∈ versions fs₁ w.name false, IsVersion T x := fun x hx =>
    ((htidy₁.mem_versions hT ho.name).1 hx).1
  set gone := obsolete T (versions fs₁ w.name false) w.md.version with hgone_def
  have hgone := mem_obsolete hall ho.version
  rw [ho.clock, ← hgone_def] at hgone
  have hsub : ∀ u ∈ gone, u ∈ versions fs₁ w.name false := by
    intro u hu
    rcases (hgone u).1 hu with hu | hu
    · exact hu.1
    · exact (hmem₁ u).2 (Or.inl hu.1)
  have hnodup : gone.Nodup := List.nodup_dedup _
  set md : KeyMetadata := { w.md with digest := Writestream.digest hasher (w.vstr T) (fs.file k).content.length }
    with hmd
  obtain ⟨fs₂, hpurge, htidy₂, hinodes₂, hlookup₂⟩ := htidy₁.purge hasher hT w.name gone
    (fun u hu => hall u (hsub u hu)) hnodup md
  set md' : KeyMetadata := { md with digest := md.digest ^^^ xorAll (gone.map (digestOf hasher fs₁ w.name)) }
    with hmd'
  have hstored₂ : ∀ n ∈ keys, ∀ u, stored fs₂ n u =
      if n = w.name ∧ u ∈ gone then none else stored fs₁ n u := by
    intro n hn u
    by_cases hu : IsVersion T u
    · rw [htidy₂.stored_eq hT hn hu, htidy₁.stored_eq hT hn hu, hlookup₂]
      by_cases hnu : n = w.name ∧ u ∈ gone
      · rw [if_pos hnu, if_pos ⟨by rw [hnu.1], hnu.2⟩]
        rfl
      · rw [if_neg hnu, if_neg fun hx => hnu ⟨hk.apart _ hn _ ho.name hx.1.symm, hx.2⟩]
        simp only [show fs₂.file = fs₁.file from funext fun l => by simp only [FileSystem.file, hinodes₂]]
    · rw [htidy₂.stored_none hT hn hu, htidy₁.stored_none hT hn hu, ite_self]
  have hcommit : w.commit T hasher fs true =
      (some ⟨k, md'⟩, ⟨{ w.writer with inode := none }, md', w.name⟩, fs₂) := by
    simp only [Writestream.commit, hfind, if_true, onWriteComplete, Option.map_some]
    rw [← Writestream.vstr, hrename]
    simp only [purgeObsolete, ← hgone_def, ← hmd, hpurge]
  refine ⟨_, _, fs₂, gone, hcommit, rfl, rfl, ho.writer.symm, htidy₂, ?_⟩
  constructor
  case gone_iff => simpa only [hmem₁] using hgone
  case stored =>
    intro u
    rw [hstored₂ _ ho.name, hstored₁ _ ho.name, ho.written]
    simp only [true_and, ← ho.md]
  case others =>
    intro n hn hne u
    rw [hstored₂ n hn, if_neg fun hx => hne hx.1, hstored₁ n hn, if_neg fun hx => hne hx.1]
  case inodes => exact hinodes₂.trans hinodes₁
  case digest =>
    intro hv
    have hown : digestOf hasher fs₁ w.name (w.vstr T) =
        Writestream.digest hasher (w.vstr T) (fs.file k).content.length := by
      have hfile := hstored₁ _ ho.name (w.vstr T)
      rw [if_pos ⟨rfl, rfl⟩, htidy₁.stored_eq hT ho.name ho.version] at hfile
      obtain ⟨k', hk', hfile⟩ := Option.map_eq_some_iff.1 hfile
      simp only [digestOf, FileSystem.size, filepath_eq ho.version, FileSystem.find_concat, hk', hfile]
    rw [indexed_filter hT htidy₁ htidy₂ ho.name hnodup hsub fun u => by rw [hstored₂ _ ho.name]; simp,
      indexed_insert hT h htidy₁ ho.name hv hmem₁ fun u hu => by rw [hstored₁ _ ho.name, if_neg fun hx => hu hx.2],
      hown, UInt64.xor_comm _ (indexed hasher fs w.name), UInt64.xor_assoc]

end Close

end FileStore

end Turbopump
