import Turbopump.Storage.SimpleReads

/-! The names under which `enumerate` reports the keys of the simple store. It sees the files' paths, and has to find
out from these what `FilePaths` has made them of. -/

namespace Turbopump

namespace FilePaths

def decorate : FileName → Bytes → Bytes
  | .current, last => last
  | .deleted, last => ascii ".deleted." ++ last
  | .inprogress, last => 46 :: last ++ [126]
  | .reserve, last => 46 :: last ++ [126, 126]

def path (name : Bytes) (slot : FileName) : Path :=
  (components name).dropLast ++ [decorate slot ((components name).getLast?.getD [])]

def descend (dir : Path) (c : Bytes) : Option Path :=
  if c = [46, 46] then if dir = [] then none else some dir.dropLast else some (dir ++ [c])

def resolve (p : Path) : Option Path := p.foldlM descend []

end FilePaths

structure SimpleStore where
  homedir : Bytes
  keys : List (Bytes × SimpleFiles)
  directories : Path → Option UInt64 := fun _ => none

namespace SimpleStore

open FilePaths

variable (T : TurboLib) (hasher : Bytes → Bytes)

def fullPath (homedir : Bytes) (p : Path) : Bytes :=
  homedir ++ (if homedir.getLast? = some 47 then [] else [47]) ++ List.intercalate [47] p

def shortname (homedir filename : Bytes) : Bytes :=
  if homedir <:+: filename then filename.drop (homedir.length + 1) else (filename.splitOn 47).getLast?.getD []

def describe (homedir filename : Bytes) (file : StampedFile) : Option (Bytes × KeyMetadata × Bytes) :=
  if filename.getLast? = some 126 then none
  else SimpleFileStore.describe T hasher (shortname homedir filename) file

def file (homedir name : Bytes) (files : SimpleFiles) (slot : FileName) : Option (Bytes × StampedFile) :=
  (files.get slot).bind fun file => (resolve (path name slot)).map fun p => (fullPath homedir p, file)

def tree (store : SimpleStore) : List (Bytes × StampedFile) :=
  store.keys.flatMap fun (name, files) =>
    [FileName.current, .deleted, .inprogress, .reserve].filterMap (file store.homedir name files)

def enumerate (store : SimpleStore) : List (Bytes × KeyMetadata × Bytes) :=
  store.tree.filterMap fun (filename, file) => describe T hasher store.homedir filename file

def seen (store : SimpleStore) (key : Bytes × SimpleFiles) : SimpleFiles :=
  key.2.seen fun slot => (resolve (path key.1 slot)).bind store.directories

structure Held (name : Bytes) (files : SimpleFiles) : Prop where
  named : ∃ last, (components name).getLast? = some last ∧ last ≠ [46, 46]
  either : files.current ≠ none ∧ files.deleted = none ∨ files.current = none ∧ files.deleted ≠ none

/-- A report of a key: its own name, the version that is read if it is deleted, and no copies of membership keys. -/
structure Reports (store : SimpleStore) (key : Bytes × SimpleFiles) (report : Bytes × KeyMetadata × Bytes) : Prop where
  name : report.1 = key.1
  deleted : key.2.deleted ≠ none → VectorClock.isDeleted report.2.1.version ∧
    ∃ reading, SimpleFileStore.read T key.1 (store.seen key) [] = .accepted reading ∧
      reading.md.version = report.2.1.version
  membership : ModifyPeer.membershipFilePrefix <+: key.1 → report.2.1.totalCopies = 0

def Normal (name : Bytes) : Prop := List.intercalate [47] (components name) = name ∧ [46, 46] ∉ components name

/-- The marks on the file's name are those of the store, and they stand where `enumerate` looks for them. -/
structure Recognised (store : SimpleStore) (key : Bytes × SimpleFiles) : Prop where
  homedir : store.homedir.getLast? ≠ some 47
  normal : Normal key.1
  tilde : key.1.getLast? ≠ some 126
  live : key.2.current ≠ none → ¬ ascii ".deleted." <+: key.1
  deleted : key.2.deleted ≠ none → 47 ∉ key.1 ∧ SimpleFileStore.Hidden (store.seen key)

end SimpleStore

namespace FilePaths

variable {p q : Path} {c : Bytes}

lemma descend_of_ne (h : c ≠ [46, 46]) (dir : Path) : descend dir c = some (dir ++ [c]) := if_neg h

lemma resolve_concat (h : c ≠ [46, 46]) : resolve (p ++ [c]) = (resolve p).map (· ++ [c]) := by
  rw [resolve, List.foldlM_append, resolve]
  cases p.foldlM descend [] with
  | none => rfl
  | some q => simp [descend_of_ne h]

lemma resolve_plain (h : [46, 46] ∉ p) : resolve p = some p := by
  induction p using List.reverseRecOn with
  | nil => rfl
  | append_singleton p c ih =>
    have hc : c ≠ [46, 46] := fun heq => h (heq ▸ by simp)
    rw [resolve_concat hc, ih fun hmem => h (List.mem_append_left _ hmem)]
    rfl

def weight (p : Path) : ℕ := (p.map fun c => c.length + 1).sum

lemma weight_intercalate (h : p ≠ []) : (List.intercalate [47] p).length + 1 = weight p := by
  induction p with
  | nil => exact absurd rfl h
  | cons c p ih =>
    by_cases hp : p = []
    · simp [hp, weight]
    · have hrest := ih hp
      rw [intercalate_cons hp, List.length_append, List.length_cons]
      rw [weight] at hrest ⊢
      rw [List.map_cons, List.sum_cons]
      omega

lemma weight_components (s : Bytes) : weight (components s) ≤ s.length + 1 := by
  induction hn : s.length using Nat.strong_induction_on generalizing s with
  | h k ih =>
    by_cases hslash : 47 ∈ s
    · obtain ⟨a, b, rfl, -⟩ := List.eq_append_cons_of_mem hslash
      rw [List.length_append, List.length_cons] at hn
      have ha := ih a.length (by omega) a rfl
      have hb := ih b.length (by omega) b rfl
      rw [weight] at ha hb ⊢
      rw [components_append, List.map_append, List.sum_append]
      omega
    · rw [components, List.splitOn_eq_singleton hslash, weight]
      by_cases hs : s ≠ [] ∧ s ≠ [46]
      · simp [hs, hn]
      · simp [hs]

lemma resolve_sublist (h : resolve p = some q) : q.Sublist p := by
  induction p using List.reverseRecOn generalizing q with
  | nil => exact Option.some.inj h ▸ List.Sublist.refl _
  | append_singleton p c ih =>
    by_cases hc : c = [46, 46]
    · rw [resolve, List.foldlM_append] at h
      change (resolve p).bind _ = some q at h
      obtain ⟨dir, hdir, hup⟩ := Option.bind_eq_some_iff.1 h
      have hq : q = dir.dropLast := by
        simp only [List.foldlM_cons, List.foldlM_nil, descend, hc, if_true] at hup
        split_ifs at hup
        · simp at hup
        · simpa using hup.symm
      rw [hq]
      exact (List.dropLast_sublist dir).trans ((ih hdir).trans (List.sublist_append_left _ _))
    · rw [resolve_concat hc] at h
      obtain ⟨dir, hdir, rfl⟩ := Option.map_eq_some_iff.1 h
      exact (ih hdir).append (List.Sublist.refl _)

lemma weight_sublist (h : q.Sublist p) : weight q ≤ weight p := (h.map _).sum_le_sum fun _ _ => Nat.zero_le _

def IsComponent (c : Bytes) : Prop := 47 ∉ c ∧ c ≠ [] ∧ c ≠ [46]

lemma isComponent_of_mem {s : Bytes} (h : c ∈ components s) : IsComponent c := by
  have hfilter := (List.mem_filter.1 h).2
  rw [decide_eq_true_iff] at hfilter
  exact ⟨slash_of_mem_components h, hfilter⟩

lemma components_intercalate (h : ∀ c ∈ p, IsComponent c) : components (List.intercalate [47] p) = p := by
  induction p with
  | nil => rfl
  | cons c p ih =>
    obtain ⟨hslash, hne, hdot⟩ := h c (by simp)
    by_cases hp : p = []
    · rw [hp, show List.intercalate [47] [c] = c by simp [List.intercalate], components_name hslash hne hdot]
    · rw [intercalate_cons hp, components_append, components_name hslash hne hdot,
        ih fun d hd => h d (List.mem_cons_of_mem _ hd)]
      rfl

lemma resolve_dotdot (h : resolve p = some q) : [46, 46] ∉ q := by
  induction p using List.reverseRecOn generalizing q with
  | nil => exact Option.some.inj h ▸ List.not_mem_nil
  | append_singleton p c ih =>
    by_cases hc : c = [46, 46]
    · rw [resolve, List.foldlM_append] at h
      change (resolve p).bind _ = some q at h
      obtain ⟨dir, hdir, hup⟩ := Option.bind_eq_some_iff.1 h
      simp only [List.foldlM_cons, List.foldlM_nil, descend, hc, if_true] at hup
      split_ifs at hup
      · simp at hup
      · obtain rfl : dir.dropLast = q := by simpa using hup
        exact fun hmem => ih hdir (List.mem_of_mem_dropLast hmem)
    · rw [resolve_concat hc] at h
      obtain ⟨dir, hdir, rfl⟩ := Option.map_eq_some_iff.1 h
      simpa [Ne.symm hc] using ih hdir

end FilePaths

namespace SimpleStore

open FilePaths

variable {T : TurboLib} {hasher : Bytes → Bytes} {homedir name last : Bytes} {files : SimpleFiles} {init q : Path}
  {slot : FileName} {store : SimpleStore}

lemma decorate_ne_up (h : last ≠ [46, 46]) : decorate slot last ≠ [46, 46] := by
  have htilde (hmem : 126 ∈ decorate slot last) : decorate slot last ≠ [46, 46] := fun heq =>
    absurd (heq ▸ hmem) (by decide : (126 : UInt8) ∉ [46, 46])
  cases slot with
  | current => exact h
  | deleted => exact fun heq => absurd (congrArg List.length heq) (by simp [decorate, ascii])
  | inprogress => exact htilde (by simp [decorate])
  | reserve => exact htilde (by simp [decorate])

lemma file_eq (hname : components name = init ++ [last]) (hup : last ≠ [46, 46]) : file homedir name files slot =
    (files.get slot).bind fun file => (resolve init).map fun q =>
      (fullPath homedir (q ++ [decorate slot last]), file) := by
  rw [file, path, hname, List.dropLast_concat, List.getLast?_concat, Option.getD_some,
    resolve_concat (decorate_ne_up hup)]
  simp only [Option.map_map]
  rfl

lemma intercalate_concat (q : Path) (c : Bytes) : ∃ dir, List.intercalate [47] (q ++ [c]) = dir ++ c := by
  induction q with
  | nil => exact ⟨[], by simp [List.intercalate]⟩
  | cons d q ih =>
    obtain ⟨dir, hdir⟩ := ih
    refine ⟨d ++ 47 :: dir, ?_⟩
    rw [List.cons_append, intercalate_cons (by simp), hdir, List.append_assoc, List.cons_append]

lemma getLast?_fullPath {c : Bytes} (hc : c ≠ []) : (fullPath homedir (q ++ [c])).getLast? = c.getLast? := by
  obtain ⟨dir, hdir⟩ := intercalate_concat q c
  rw [fullPath, hdir, ← List.append_assoc, List.getLast?_append_of_ne_nil _ hc]

lemma shortname_fullPath (p : Path) : shortname homedir (fullPath homedir p) =
    if homedir.getLast? = some 47 then (List.intercalate [47] p).drop 1 else List.intercalate [47] p := by
  have hinfix : homedir <:+: fullPath homedir p := by
    rw [fullPath, List.append_assoc]
    exact (List.prefix_append _ _).isInfix
  rw [shortname, if_pos hinfix, fullPath, List.append_assoc, ← List.drop_drop, List.drop_left]
  split_ifs <;> rfl

lemma describe_some {path : Bytes} {file : StampedFile} {report : Bytes × KeyMetadata × Bytes}
    (h : SimpleFileStore.describe T hasher path file = some report) : path.getLast? ≠ some 126 ∧
      report.1 = (if ascii ".deleted." <+: path then path.drop 9 else path) ∧
      report.2.1.version = SimpleFileStore.lookupVersion T file.mtime (ascii ".deleted." <+: path) ∧
      report.2.1.totalCopies = if ModifyPeer.membershipFilePrefix <+: report.1 then 0 else 3 := by
  rw [SimpleFileStore.describe] at h
  split_ifs at h with hlast
  obtain rfl := Option.some.inj h
  refine ⟨hlast, ?_, rfl, ?_⟩
  · simp
  · rfl

lemma exists_describe {path : Bytes} (h : path.getLast? ≠ some 126) (file : StampedFile) :
    ∃ report, SimpleFileStore.describe T hasher path file = some report :=
  ⟨_, if_neg h⟩

lemma describe_tilde {file : StampedFile} (hslot : slot = .inprogress ∨ slot = .reserve) :
    describe T hasher homedir (fullPath homedir (q ++ [decorate slot last])) file = none := by
  have hlast : decorate slot last ≠ [] ∧ (decorate slot last).getLast? = some 126 := by
    rcases hslot with rfl | rfl
    · exact ⟨by simp [decorate], List.getLast?_concat⟩
    · exact ⟨by simp [decorate], List.getLast?_append_of_ne_nil _ (by simp)⟩
  rw [describe, getLast?_fullPath hlast.1, hlast.2, if_pos rfl]

def heldSlot (files : SimpleFiles) : FileName := if files.current = none then .deleted else .current

variable (T hasher homedir) in
def reportOf (key : Bytes × SimpleFiles) : Option (Bytes × KeyMetadata × Bytes) :=
  (file homedir key.1 key.2 (heldSlot key.2)).bind fun (filename, file) => describe T hasher homedir filename file

lemma Held.components (h : Held name files) : ∃ init last, components name = init ++ [last] ∧ last ≠ [46, 46] := by
  obtain ⟨last, hlast, hup⟩ := h.named
  exact ⟨(Turbopump.components name).dropLast, last, (List.dropLast_append_getLast? last hlast).symm, hup⟩

lemma Held.reports (h : Held name files) :
    ([FileName.current, .deleted, .inprogress, .reserve].filterMap (file homedir name files)).filterMap
      (fun (filename, file) => describe T hasher homedir filename file) =
        (reportOf T hasher homedir (name, files)).toList := by
  obtain ⟨init, last, hname, hup⟩ := h.components
  have hnone {slot : FileName} (hslot : files.get slot = none) : file homedir name files slot = none := by
    rw [file, hslot]
    rfl
  have htilde {slot : FileName} (hslot : slot = .inprogress ∨ slot = .reserve) :
      (file homedir name files slot).bind (fun (filename, file) => describe T hasher homedir filename file) = none := by
    rw [file_eq hname hup]
    cases files.get slot with
    | none => rfl
    | some held =>
      cases resolve init with
      | none => rfl
      | some q => exact describe_tilde hslot
  rw [List.filterMap_filterMap, reportOf, heldSlot]
  rcases h.either with ⟨hcurrent, hdeleted⟩ | ⟨hcurrent, hdeleted⟩
  · rw [if_neg hcurrent]
    simp only [List.filterMap_cons, List.filterMap_nil, htilde (.inl rfl), htilde (.inr rfl),
      show file homedir name files .deleted = none from hnone hdeleted, Option.bind_none]
    cases (file homedir name files .current).bind _ <;> rfl
  · rw [if_pos hcurrent]
    simp only [List.filterMap_cons, List.filterMap_nil, htilde (.inl rfl), htilde (.inr rfl),
      show file homedir name files .current = none from hnone hcurrent, Option.bind_none]
    cases (file homedir name files .deleted).bind _ <;> rfl

lemma enumerate_eq (h : ∀ key ∈ store.keys, Held key.1 key.2) :
    enumerate T hasher store = store.keys.filterMap (reportOf T hasher store.homedir) := by
  rw [enumerate, tree, List.filterMap_flatMap, List.filterMap_eq_flatMap_toList]
  exact List.flatMap_congr fun key hkey => (h key hkey).reports

lemma forall₂_filterMap {α β : Type} {R : α → β → Prop} {f : α → Option β} {keys : List α} :
    List.Forall₂ R keys (keys.filterMap f) ↔ ∀ key ∈ keys, ∃ b, f key = some b ∧ R key b := by
  induction keys with
  | nil => simp
  | cons key keys ih =>
    rw [List.forall_mem_cons, ← ih]
    cases hkey : f key with
    | none =>
      -- one entry is missing, and no other key has two
      have hshort := List.length_filterMap_le f keys
      rw [List.filterMap_cons_none hkey]
      refine iff_of_false (fun h => ?_) (by simp)
      have hlength := h.length_eq
      rw [List.length_cons] at hlength
      omega
    | some b => simp [List.filterMap_cons_some hkey]

lemma length_le (hname : components name = init ++ [last]) (hresolve : resolve init = some q) (c : Bytes) :
    (List.intercalate [47] (q ++ [c])).length + last.length ≤ name.length + c.length := by
  have hpath : (List.intercalate [47] (q ++ [c])).length + 1 = weight (q ++ [c]) := weight_intercalate (by simp)
  have hless := weight_sublist (resolve_sublist hresolve)
  have hall := weight_components name
  rw [hname] at hall
  simp only [weight, List.map_append, List.sum_append, List.map_cons, List.map_nil, List.sum_singleton]
    at hpath hless hall
  omega

lemma isComponents (hname : components name = init ++ [last]) (hresolve : resolve init = some q) :
    (∀ c ∈ q, IsComponent c) ∧ IsComponent last := by
  refine ⟨fun c hc => isComponent_of_mem (s := name) ?_, isComponent_of_mem (s := name) ?_⟩
  · rw [hname]
    exact List.mem_append_left _ ((resolve_sublist hresolve).subset hc)
  · rw [hname]
    simp

lemma normal_iff (hname : components name = init ++ [last]) (hup : last ≠ [46, 46]) :
    (∃ q, resolve init = some q ∧ List.intercalate [47] (q ++ [last]) = name) ↔ Normal name := by
  constructor
  · rintro ⟨q, hresolve, hsame⟩
    obtain ⟨hq, hlast⟩ := isComponents hname hresolve
    have hcomponents : components name = q ++ [last] := by
      rw [← hsame]
      exact components_intercalate fun c hc => (List.mem_append.1 hc).elim (hq c) fun hc =>
        List.mem_singleton.1 hc ▸ hlast
    refine ⟨hcomponents ▸ hsame, ?_⟩
    rw [hcomponents, List.mem_append, List.mem_singleton]
    exact not_or.2 ⟨resolve_dotdot hresolve, Ne.symm hup⟩
  · rintro ⟨hsame, hplain⟩
    rw [hname] at hsame hplain
    exact ⟨init, resolve_plain fun h => hplain (List.mem_append_left _ h), hsame⟩

lemma reportOf_some {slot : FileName} {report : Bytes × KeyMetadata × Bytes} (hname : components name = init ++ [last])
    (hup : last ≠ [46, 46]) (hslot : heldSlot files = slot) (hmark : decorate slot last ≠ []) :
    reportOf T hasher homedir (name, files) = some report ↔ ∃ file q, files.get slot = some file ∧
      resolve init = some q ∧
      (decorate slot last).getLast? ≠ some 126 ∧ SimpleFileStore.describe T hasher
        (if homedir.getLast? = some 47 then (List.intercalate [47] (q ++ [decorate slot last])).drop 1
          else List.intercalate [47] (q ++ [decorate slot last])) file = some report := by
  rw [reportOf, hslot, file_eq hname hup]
  cases files.get slot with
  | none => simp
  | some file =>
    cases resolve init with
    | none => simp
    | some q =>
      by_cases htilde : (decorate slot last).getLast? = some 126
      · simp [describe, getLast?_fullPath hmark, htilde]
      · simp [describe, getLast?_fullPath hmark, htilde, shortname_fullPath]

lemma live_iff (h : Held name files) (hcurrent : files.current ≠ none) :
    (∃ report, reportOf T hasher store.homedir (name, files) = some report ∧ Reports T store (name, files) report) ↔
      Recognised store (name, files) := by
  obtain ⟨init, last, hname, hup⟩ := h.components
  obtain ⟨file, hfile⟩ := Option.ne_none_iff_exists'.1 hcurrent
  have hdeleted : files.deleted = none := h.either.elim (·.2) fun hnone => absurd hnone.1 hcurrent
  have hlast : last ≠ [] := (isComponent_of_mem (s := name) (by rw [hname]; simp)).2.1
  have hslot : heldSlot files = .current := if_neg hcurrent
  have hreport {report : Bytes × KeyMetadata × Bytes} :=
    @reportOf_some T hasher store.homedir name last files init .current report hname hup hslot hlast
  constructor
  · rintro ⟨report, hsome, hreports⟩
    obtain ⟨file', q, -, hresolve, htilde, hdescribe⟩ := hreport.1 hsome
    have hlength := length_le hname hresolve (decorate .current last)
    have hwidth : (decorate .current last).length = last.length := rfl
    obtain ⟨dir, hdir⟩ := intercalate_concat q (decorate .current last)
    have hpos := List.length_pos_iff.2 hlast
    have hhome : store.homedir.getLast? ≠ some 47 := by
      intro hhome
      rw [if_pos hhome] at hdescribe
      have hshort := congrArg List.length (hreports.name.symm.trans (describe_some hdescribe).2.1)
      rw [hdir, List.length_append] at hlength
      split_ifs at hshort <;> simp only [List.length_drop, hdir, List.length_append] at hshort <;> omega
    rw [if_neg hhome] at hdescribe
    obtain ⟨-, hfirst, -⟩ := describe_some hdescribe
    replace hfirst : name = _ := hreports.name.symm.trans hfirst
    have hmark : ¬ ascii ".deleted." <+: List.intercalate [47] (q ++ [decorate .current last]) := by
      intro hmark
      rw [if_pos hmark] at hfirst
      have hshort := congrArg List.length hfirst
      have hnine : 9 ≤ (List.intercalate [47] (q ++ [decorate .current last])).length := hmark.length_le
      rw [List.length_drop] at hshort
      omega
    rw [if_neg hmark] at hfirst
    refine ⟨hhome, (normal_iff hname hup).1 ⟨q, hresolve, hfirst.symm⟩, ?_, fun _ => hfirst ▸ hmark, ?_⟩
    · have hne : decorate .current last ≠ [] := hlast
      rw [hfirst, hdir, List.getLast?_append_of_ne_nil _ hne]
      exact htilde
    · exact fun hne => absurd hdeleted hne
  · intro hrecognised
    obtain ⟨q, hresolve, hsame⟩ := (normal_iff hname hup).2 hrecognised.normal
    obtain ⟨report, hdescribe⟩ := @exists_describe T hasher name hrecognised.tilde file
    obtain ⟨-, hfirst, -, hcopies⟩ := describe_some hdescribe
    rw [if_neg (hrecognised.live hcurrent)] at hfirst
    refine ⟨report, hreport.2 ⟨file, q, hfile, hresolve, ?_, ?_⟩, hfirst, fun hne => absurd hdeleted hne,
      fun hmember => ?_⟩
    · obtain ⟨dir, hdir⟩ := intercalate_concat q last
      rw [decorate, ← List.getLast?_append_of_ne_nil dir hlast, ← hdir, hsame]
      exact hrecognised.tilde
    · rw [if_neg hrecognised.homedir, decorate, hsame]
      exact hdescribe
    · rw [hcopies, hfirst, if_pos hmember]

lemma mark_in_front_iff (hname : components name = init ++ [last]) (hresolve : resolve init = some q) :
    List.intercalate [47] (q ++ [decorate .deleted last]) = ascii ".deleted." ++ name ↔ q = [] ∧ name = last := by
  obtain ⟨hq, hlast⟩ := isComponents hname hresolve
  constructor
  · intro h
    cases q with
    | nil =>
      have hsame : last = name := by simpa [List.intercalate, decorate] using h
      exact ⟨rfl, hsame.symm⟩
    | cons d q =>
      -- the last component of the name would be its own mark
      exfalso
      rw [List.cons_append] at h
      obtain ⟨d', rfl⟩ := SimpleFileStore.prefix_intercalate_iff.1 (h ▸ List.prefix_append _ _)
      rw [intercalate_cons (by simp), List.append_assoc, List.append_cancel_left_eq] at h
      have hcomponents := congrArg components h
      rw [components_append, components_intercalate, hname, ← List.append_assoc] at hcomponents
      · have hsame := (List.append_inj' hcomponents rfl).2
        have hlength := congrArg List.length (List.singleton_inj.1 hsame)
        simp [decorate, ascii] at hlength
        omega
      · intro c hc
        rcases List.mem_append.1 hc with hc | hc
        · exact hq c (List.mem_cons_of_mem _ hc)
        · obtain rfl := List.mem_singleton.1 hc
          have hmark : (47 : UInt8) ∉ ascii ".deleted." := by decide
          exact ⟨by simp [decorate, hmark, hlast.1], by simp [decorate, hlast.2.1],
            fun heq => absurd (congrArg List.length heq) (by simp [decorate, ascii])⟩
  · rintro ⟨rfl, rfl⟩
    simp [List.intercalate, decorate]

lemma deleted_iff (hL : T.MergesLatest) (hT : T.Base64) (hS : T.Stamps) (hM : T.MergesIntoEmpty) (h : Held name files)
    (hdeleted : files.deleted ≠ none) (hclear : (store.seen (name, files)).current = none) :
    (∃ report, reportOf T hasher store.homedir (name, files) = some report ∧ Reports T store (name, files) report) ↔
      Recognised store (name, files) := by
  obtain ⟨init, last, hname, hup⟩ := h.components
  have hcurrent : files.current = none := h.either.elim (fun hnone => absurd hnone.2 hdeleted) (·.1)
  obtain ⟨file, hfile⟩ := Option.ne_none_iff_exists'.1 hdeleted
  have hlast := isComponent_of_mem (s := name) (c := last) (by rw [hname]; simp)
  have hslot : heldSlot files = .deleted := if_pos hcurrent
  have hreport {report : Bytes × KeyMetadata × Bytes} :=
    @reportOf_some T hasher store.homedir name last files init .deleted report hname hup hslot
      (by simp [decorate, hlast.2.1])
  have hseen : (store.seen (name, files)).deleted = some file := by
    simp [seen, SimpleFiles.seen, SimpleFiles.get, hfile]
  have hread := @SimpleFileStore.read_deleted_iff T name (store.seen (name, files)) hL hT hS hM file hclear hseen
  constructor
  · rintro ⟨report, hsome, hreports⟩
    obtain ⟨file', q, hfile', hresolve, htilde, hdescribe⟩ := hreport.1 hsome
    obtain rfl : file = file' := Option.some.inj (hfile.symm.trans hfile')
    obtain ⟨-, hfirst, hversion, -⟩ := describe_some hdescribe
    obtain ⟨hdeletes, hreading⟩ := hreports.deleted hdeleted
    replace hfirst : name = _ := hreports.name.symm.trans hfirst
    -- the version is marked as deleted, so the mark has been found
    rw [hversion, (SimpleFileStore.lookupVersion_spec hS _ _).2.2.2, decide_eq_true_iff] at hdeletes
    rw [if_pos hdeletes] at hfirst
    rw [hversion, decide_eq_true hdeletes] at hreading
    have hlength := length_le hname hresolve (decorate .deleted last)
    have hwidth : (decorate .deleted last).length = last.length + 9 := by simp [decorate, ascii]
    have hhome : store.homedir.getLast? ≠ some 47 := by
      intro hhome
      rw [if_pos hhome] at hfirst hdeletes
      have hshort := congrArg List.length hfirst
      have hnine := hdeletes.length_le
      simp only [List.length_drop] at hshort hnine
      have hmark : (ascii ".deleted.").length = 9 := by simp [ascii]
      omega
    rw [if_neg hhome] at hfirst hdeletes
    obtain ⟨rest, hrest⟩ := hdeletes
    have hpath : List.intercalate [47] (q ++ [decorate .deleted last]) = ascii ".deleted." ++ name := by
      rw [hfirst, ← hrest]
      simp [ascii]
    obtain ⟨rfl, rfl⟩ := (mark_in_front_iff hname hresolve).1 hpath
    refine ⟨hhome, (normal_iff hname hup).1 ⟨[], hresolve, by simp [List.intercalate]⟩, ?_, ?_, fun _ => ⟨hlast.1, ?_⟩⟩
    · rwa [decorate, List.getLast?_append_of_ne_nil _ hlast.2.1] at htilde
    · exact fun hne => absurd hcurrent hne
    · exact hread.1 hreading
  · intro hrecognised
    obtain ⟨q, hresolve, hsame⟩ := (normal_iff hname hup).2 hrecognised.normal
    obtain ⟨hslash, hhidden⟩ := hrecognised.deleted hdeleted
    have hq : q = [] := by
      by_contra hne
      obtain ⟨d, q, rfl⟩ := List.exists_cons_of_ne_nil hne
      rw [List.cons_append, intercalate_cons (by simp)] at hsame
      exact hslash (hsame ▸ by simp)
    have hlast' : name = last := by rw [← hsame, hq]; simp [List.intercalate]
    have hpath := (mark_in_front_iff hname hresolve).2 ⟨hq, hlast'⟩
    have htilde : (ascii ".deleted." ++ name).getLast? ≠ some 126 := by
      rw [List.getLast?_append_of_ne_nil _ (hlast' ▸ hlast.2.1)]
      exact hrecognised.tilde
    obtain ⟨report, hdescribe⟩ := @exists_describe T hasher _ htilde file
    obtain ⟨-, hfirst, hversion, hcopies⟩ := describe_some hdescribe
    rw [if_pos (List.prefix_append _ _)] at hfirst
    replace hfirst : report.1 = name := hfirst.trans (by simp [ascii])
    rw [decide_eq_true (List.prefix_append _ _)] at hversion
    refine ⟨report, hreport.2 ⟨file, q, hfile, hresolve, ?_, ?_⟩, hfirst, fun _ => ⟨?_, ?_⟩, fun hmember => ?_⟩
    · rw [decorate, ← hlast']
      exact htilde
    · rw [if_neg hrecognised.homedir, hpath]
      exact hdescribe
    · rw [hversion, (SimpleFileStore.lookupVersion_spec hS _ _).2.2.2]
    · rw [hversion]
      exact hread.2 hhidden
    · rw [hcopies, hfirst, if_pos hmember]

section Examples

def twoKeys : SimpleStore :=
  ⟨ascii "./store", [(ascii "woo/hoo", { current := some ⟨[97], 5⟩ }), (ascii "deleted", { deleted := some ⟨[], 6⟩ })],
    fun p => if p = [ascii "woo"] then some 5 else none⟩

lemma Reports.names {keys : List (Bytes × SimpleFiles)} {reports : List (Bytes × KeyMetadata × Bytes)}
    (h : List.Forall₂ (Reports T store) keys reports) : reports.map Prod.fst = keys.map Prod.fst := by
  induction h with
  | nil => rfl
  | cons hreports _ ih => rw [List.map_cons, List.map_cons, hreports.name, ih]

def deletedBelow : SimpleStore :=
  ⟨ascii "./store", [(ascii "woo/hoo", { deleted := some ⟨[], 6⟩ })], twoKeys.directories⟩

end Examples

end SimpleStore

end Turbopump
