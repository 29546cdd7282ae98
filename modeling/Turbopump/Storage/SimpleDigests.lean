import Turbopump.Common.ReferenceClocks
import Turbopump.Lib.Xor
import Turbopump.Storage.SimpleFileStore

/-! The digest that a commit reports against the digests that `enumerate` reports before and after it. -/

namespace Turbopump

namespace VectorClock

section Printed

variable {T : TurboLib} {c d : Clock} {r s : Bytes} {n m : ℕ}

lemma append_stop_inj {b : UInt8} {x y : Bytes} (hx : b ∉ x) (hy : b ∉ y) (h : x ++ b :: r = y ++ b :: s) :
    x = y ∧ r = s := by
  have hstop {z : Bytes} (hz : b ∉ z) : ∀ a ∈ z, decide (a ≠ b) := by
    intro a ha
    rw [decide_eq_true_iff]
    rintro rfl
    exact hz ha
  have hbefore := congrArg (List.takeWhile fun a => decide (a ≠ b)) h
  rw [takeWhile_append_stop (hstop hx) (by simp), takeWhile_append_stop (hstop hy) (by simp)] at hbefore
  subst hbefore
  exact ⟨rfl, (List.cons.inj (List.append_cancel_left h)).2⟩

lemma head_decimal {b : UInt8} (h : b ∈ (decimal n).head?) : isDigit b := mem_decimal (List.mem_of_head? h)

lemma decimal_injective (h : decimal n = decimal m) : n = m := by
  rw [← ofDecimal_decimal n, h, ofDecimal_decimal]

lemma printClock_append (hT : T.Base64) (hS : T.Stamps) (hc : 46 ∉ c.key) (hd : 46 ∉ d.key) (hcount : d.count = 0)
    (hs : s.head? ≠ some 46) (h : printClock T c ++ r = printClock T d ++ s) : c = d ∧ r = s := by
  simp only [printClock, List.append_assoc, List.cons_append, hcount, if_true, List.nil_append] at h
  obtain ⟨hkey, htime⟩ := append_stop_inj hc hd h
  obtain ⟨htime, hrest⟩ := List.append_inj htime (hS.width _ _)
  have ht : c.time = d.time := by
    have := hT.decode c.time [] (.inl rfl)
    rw [htime, hT.decode d.time [] (.inl rfl)] at this
    exact this.symm
  have hzero : c.count = 0 := by
    by_contra hzero
    rw [if_neg hzero] at hrest
    rw [← hrest] at hs
    exact hs rfl
  rw [if_pos hzero, List.nil_append] at hrest
  refine ⟨?_, hrest⟩
  obtain ⟨key, time, count⟩ := c
  simp only at hkey ht hzero
  rw [hkey, ht, hzero, ← hcount]

lemma printClocks_append (hT : T.Base64) (hS : T.Stamps) {u v : VectorClock} (hv : ∀ c ∈ v, 46 ∉ c.key)
    (hu : ∀ d ∈ u, 46 ∉ d.key ∧ d.count = 0) (hlength : v.length = u.length)
    (h : (v.flatMap fun c => 44 :: printClock T c) ++ decimal n =
      (u.flatMap fun c => 44 :: printClock T c) ++ decimal m) : v = u ∧ n = m := by
  induction v generalizing u with
  | nil =>
    obtain rfl : u = [] := List.length_eq_zero_iff.1 hlength.symm
    exact ⟨rfl, decimal_injective h⟩
  | cons c v ih =>
    cases u with
    | nil => simp at hlength
    | cons d u =>
      simp only [List.flatMap_cons, List.cons_append, List.append_assoc, List.cons.injEq, true_and] at h
      have hstop : ((u.flatMap fun c => 44 :: printClock T c) ++ decimal m).head? ≠ some 46 := by
        intro hhead
        cases u with
        | nil => exact absurd (head_decimal hhead) (by decide)
        | cons e u => simp at hhead
      obtain ⟨rfl, hrest⟩ := printClock_append hT hS (hv c (by simp)) (hu d (by simp)).1 (hu d (by simp)).2 hstop h
      obtain ⟨rfl, rfl⟩ := ih (fun c hc => hv c (List.mem_cons_of_mem _ hc))
        (fun d hd => hu d (List.mem_cons_of_mem _ hd)) (by simpa using hlength) hrest
      exact ⟨rfl, rfl⟩

lemma toString_append_decimal (hT : T.Base64) (hS : T.Stamps) {u v : VectorClock} (hv : ∀ c ∈ v, 46 ∉ c.key)
    (hvne : v ≠ []) (hu : ∀ d ∈ u, 46 ∉ d.key ∧ d.count = 0) (hune : u ≠ [])
    (h : toString T v ++ decimal n = toString T u ++ decimal m) : v = u ∧ n = m := by
  have hcomma (k : ℕ) : 44 ∉ decimal k := fun hmem => absurd (mem_decimal hmem) (by decide)
  obtain ⟨c, v, rfl⟩ := List.exists_cons_of_ne_nil hvne
  obtain ⟨d, u, rfl⟩ := List.exists_cons_of_ne_nil hune
  have hsplit := h
  simp only [toString, List.flatMap_cons, List.append_assoc, List.cons_append] at hsplit
  obtain ⟨hlength, -⟩ := append_stop_inj (hcomma _) (hcomma _) hsplit
  have hlength' := decimal_injective hlength
  rw [toString, toString, hlength', List.append_assoc, List.append_assoc] at h
  exact printClocks_append hT hS hv hu hlength' (List.append_cancel_left h)

end Printed

end VectorClock

namespace SimpleFileStore

variable (T : TurboLib)

def slot (isDeleted : Bool) (files : SimpleFiles) : Option StampedFile :=
  if isDeleted then files.deleted else files.current

def slotPath (isDeleted : Bool) (name : Bytes) : Bytes := if isDeleted then deletedPath name else currentPath name

def takenFor (path : Bytes) : Option Bool :=
  if path.getLast? = some 126 then none else some (decide (ascii ".deleted." <+: path))

def text (isDeleted : Bool) (file : StampedFile) : Bytes :=
  VectorClock.toString T (lookupVersion T file.mtime isDeleted) ++ decimal file.content.length

def reported (name : Bytes) (files : SimpleFiles) : List Bytes :=
  files.current.toList.filterMap (fun file => (takenFor (currentPath name)).map (text T · file)) ++
    files.deleted.toList.filterMap (fun file => (takenFor (deletedPath name)).map (text T · file))

def enumeratedDigest (hasher : Bytes → Bytes) (name : Bytes) (files : SimpleFiles) : UInt64 :=
  xorAll ((enumerate T hasher name files).map (·.2.1.digest))

def Balanced (name : Bytes) (files : SimpleFiles) (w : SimpleStream) : Prop :=
  ∀ hasher, (w.commit T hasher files).1.md.digest =
    enumeratedDigest T hasher name files ^^^ enumeratedDigest T hasher name (w.commit T hasher files).2

/-- The new file is the newest, its version is what its time alone gives back, and `enumerate` takes it for what
it is, and the file that it takes the place of too. A file that `enumerate` mistakes must be one of the same
time and size as the one that it replaces. -/
def Restamped (name : Bytes) (files : SimpleFiles) (version : VectorClock) (size : ℕ) : Prop :=
  let isDeleted := VectorClock.isDeleted version
  let time := timeFromVersion version
  testIfVersionGreater version (slot (!isDeleted) files) ∧ version = lookupVersion T time isDeleted ∧
    if takenFor (slotPath isDeleted name) = some isDeleted then
      slot (!isDeleted) files = none ∨ takenFor (slotPath (!isDeleted) name) = some (!isDeleted)
    else ∃ file, slot isDeleted files = some file ∧ file.mtime = time ∧ file.content.length = size

structure Settled (files : SimpleFiles) : Prop where
  reserve : files.reserve = none
  either : files.current = none ∨ files.deleted = none

variable {T}

lemma lookupVersion_false (hS : T.Stamps) (t : UInt64) : lookupVersion T t false = [⟨ascii "sec", t, 0⟩] := by
  simp [lookupVersion, hS.sec]

lemma lookupVersion_true (hS : T.Stamps) (t : UInt64) :
    lookupVersion T t true = [⟨ascii "delete", t, 0⟩, ⟨ascii "sec", t, 0⟩] := by
  simp [lookupVersion, hS.sec, hS.delete]

lemma lookupVersion_spec (hS : T.Stamps) (t : UInt64) (isDeleted : Bool) :
    lookupVersion T t isDeleted ≠ [] ∧ (∀ c ∈ lookupVersion T t isDeleted, 46 ∉ c.key ∧ c.count = 0) ∧
      timeFromVersion (lookupVersion T t isDeleted) = t ∧
      VectorClock.isDeleted (lookupVersion T t isDeleted) = isDeleted := by
  cases isDeleted with
  | false =>
    rw [lookupVersion_false hS]
    exact ⟨by simp, by simp [ascii]; decide, rfl, by simp [VectorClock.isDeleted]; decide⟩
  | true =>
    rw [lookupVersion_true hS]
    exact ⟨by simp, by simp [ascii]; decide, rfl, by simp [VectorClock.isDeleted]⟩

lemma text_inj (hT : T.Base64) (hS : T.Stamps) {b b' : Bool} {f g : StampedFile} (h : text T b f = text T b' g) :
    b = b' ∧ f.mtime = g.mtime ∧ f.content.length = g.content.length := by
  obtain ⟨hne, hplain, htime, hdeleted⟩ := lookupVersion_spec hS f.mtime b
  obtain ⟨hne', hplain', htime', hdeleted'⟩ := lookupVersion_spec hS g.mtime b'
  obtain ⟨hversion, hsize⟩ :=
    VectorClock.toString_append_decimal hT hS (fun c hc => (hplain c hc).1) hne hplain' hne' h
  exact ⟨by rw [← hdeleted, hversion, hdeleted'], by rw [← htime, hversion, htime'], hsize⟩

lemma describe_digest (hasher : Bytes → Bytes) (path : Bytes) (file : StampedFile) :
    (describe T hasher path file).map (·.2.1.digest) =
      (takenFor path).map fun b => Hash.integer (hasher (text T b file)) := by
  simp only [describe, takenFor]
  split
  · rfl
  · simp [Writestream.digest, text]

lemma enumeratedDigest_eq (hasher : Bytes → Bytes) (name : Bytes) (files : SimpleFiles) :
    enumeratedDigest T hasher name files = xorAll ((reported T name files).map fun s => Hash.integer (hasher s)) := by
  have hslot (path : Bytes) (slot : Option StampedFile) :
      (slot.toList.filterMap (describe T hasher path)).map (·.2.1.digest) =
        (slot.toList.filterMap fun file => (takenFor path).map (text T · file)).map fun s =>
          Hash.integer (hasher s) := by
    rw [List.map_filterMap, List.map_filterMap]
    refine List.filterMap_congr fun file _ => ?_
    rw [describe_digest, Option.map_map]
    rfl
  rw [enumeratedDigest, enumerate, reported, List.map_append, List.map_append, hslot, hslot]

def finished (files : SimpleFiles) (version : VectorClock) (file : StampedFile) : SimpleFiles :=
  if testIfVersionGreater version (slot (!VectorClock.isDeleted version) files) then
    let stamped := some { file with mtime := timeFromVersion version }
    if VectorClock.isDeleted version then { files with current := none, deleted := stamped, inprogress := none }
    else { files with current := stamped, deleted := none, inprogress := none }
  else { files with inprogress := none }

variable (T) in
def entered (files : SimpleFiles) (version : VectorClock) (size : ℕ) : List Bytes :=
  (VectorClock.toString T version ++ decimal size) ::
    if testIfVersionGreater version (slot (!VectorClock.isDeleted version) files) then
      files.current.toList.map (text T false) ++ files.deleted.toList.map (text T true)
    else []

section Commit

variable {files : SimpleFiles} {w : SimpleStream} {file : StampedFile} {name : Bytes}

lemma removeIfExists_eq (hasher : Bytes → Bytes) (b : Bool) (slot : Option StampedFile) :
    removeIfExists T hasher b slot = xorAll ((slot.toList.map (text T b)).map fun s => Hash.integer (hasher s)) := by
  cases slot with
  | none => rfl
  | some file => simp [removeIfExists, Writestream.digest, text]

lemma commit_cases (hasher : Bytes → Bytes) (hreserve : files.reserve = none) (hfile : files.inprogress = some file) :
    (w.commit T hasher files).1.md.digest = xorAll ((entered T files w.md.version file.content.length).map
        fun s => Hash.integer (hasher s)) ∧
      (w.commit T hasher files).2 = finished files w.md.version file := by
  have hdigest : Writestream.digest hasher (VectorClock.toString T w.md.version) file.content.length =
      Hash.integer (hasher (VectorClock.toString T w.md.version ++ decimal file.content.length)) := rfl
  cases hdeleted : VectorClock.isDeleted w.md.version with
  | true =>
    by_cases hnewer : testIfVersionGreater w.md.version files.current = true
    · simp [SimpleStream.commit, onWriteComplete, onDeleteComplete, hfile, hdeleted, hnewer, entered, finished, slot,
        hdigest, removeIfExists_eq, UInt64.xor_assoc]
    · simp [SimpleStream.commit, onWriteComplete, onDeleteComplete, hfile, hdeleted, hnewer, entered, finished, slot,
        hdigest]
  | false =>
    by_cases hnewer : testIfVersionGreater w.md.version files.deleted = true
    · simp [SimpleStream.commit, onWriteComplete, hfile, hdeleted, hnewer, hreserve, entered, finished, slot, hdigest,
        removeIfExists_eq, UInt64.xor_assoc]
    · simp [SimpleStream.commit, onWriteComplete, hfile, hdeleted, hnewer, entered, finished, slot, hdigest]

lemma balanced_iff_pairsOff (hreserve : files.reserve = none) (hfile : files.inprogress = some file) :
    Balanced T name files w ↔ PairsOff (entered T files w.md.version file.content.length ++
      (reported T name files ++ reported T name (finished files w.md.version file))) := by
  have hsum (hasher : Bytes → Bytes) : ((w.commit T hasher files).1.md.digest =
      enumeratedDigest T hasher name files ^^^ enumeratedDigest T hasher name (w.commit T hasher files).2) ↔
        xorAll ((entered T files w.md.version file.content.length ++ (reported T name files ++
          reported T name (finished files w.md.version file))).map fun s => Hash.integer (hasher s)) = 0 := by
    obtain ⟨hdigest, hafter⟩ := commit_cases (w := w) hasher hreserve hfile
    rw [hdigest, hafter, enumeratedDigest_eq, enumeratedDigest_eq, List.map_append, xorAll_append, List.map_append,
      xorAll_append, UInt64.xor_eq_zero_iff]
  constructor
  · intro h text
    let indicator : Bytes → Bytes := fun s => if s = text then [1, 0, 0, 0, 0, 0, 0, 0] else [0, 0, 0, 0, 0, 0, 0, 0]
    have hindicator : (fun s => Hash.integer (indicator s)) = fun s => if s = text then 1 else 0 := by
      funext s
      by_cases hs : s = text
      · simp only [indicator, if_pos hs]
        decide
      · simp only [indicator, if_neg hs]
        decide
    have hzero := (hsum indicator).1 (h indicator)
    rw [hindicator, xorAll_indicator] at hzero
    by_contra hodd
    rw [if_neg hodd] at hzero
    exact absurd hzero (by decide)
  · exact fun h hasher => (hsum hasher).2 (h.xorAll_map _)

lemma version_text_iff (hT : T.Base64) (hS : T.Stamps) {version : VectorClock} (hne : version ≠ [])
    (hkeys : ∀ c ∈ version, 46 ∉ c.key) {size : ℕ} {b : Bool} {file : StampedFile} :
    VectorClock.toString T version ++ decimal size = text T b file ↔
      VectorClock.isDeleted version = b ∧ file.mtime = timeFromVersion version ∧ file.content.length = size ∧
        version = lookupVersion T (timeFromVersion version) (VectorClock.isDeleted version) := by
  constructor
  · intro h
    obtain ⟨hne', hplain, htime, hdeleted⟩ := lookupVersion_spec hS file.mtime b
    obtain ⟨rfl, rfl⟩ := VectorClock.toString_append_decimal hT hS hkeys hne hplain hne' h
    rw [htime, hdeleted]
    exact ⟨rfl, rfl, rfl, rfl⟩
  · rintro ⟨rfl, htime, hsize, hversion⟩
    rw [text, htime, hsize, ← hversion]

end Commit

section Paths

lemma prefix_intercalate_iff {d : Bytes} {rest : List Bytes} :
    ascii ".deleted." <+: List.intercalate [47] (d :: rest) ↔ ascii ".deleted." <+: d := by
  by_cases hrest : rest = []
  · rw [hrest]
    simp [List.intercalate]
  rw [intercalate_cons hrest]
  constructor
  · intro h
    by_cases hlength : (ascii ".deleted.").length ≤ d.length
    · exact List.prefix_of_prefix_length_le h (List.prefix_append _ _) hlength
    · -- the slash that ends the component would be a character of the mark
      have hslash : d ++ [47] <+: ascii ".deleted." := by
        refine List.prefix_of_prefix_length_le ⟨List.intercalate [47] rest, ?_⟩ h ?_
        · simp
        · rw [List.length_append, List.length_singleton]
          omega
      exact absurd (hslash.subset (by simp)) (by decide : (47 : UInt8) ∉ ascii ".deleted.")
  · exact fun h => h.trans (List.prefix_append _ _)

lemma takenFor_deletedPath {name : Bytes} (h : ascii ".deleted." <+: currentPath name) :
    ascii ".deleted." <+: deletedPath name := by
  rw [currentPath] at h
  rw [deletedPath]
  cases hcomponents : components name with
  | nil =>
    rw [hcomponents] at h
    exact absurd h (by decide)
  | cons d rest =>
    rw [hcomponents, prefix_intercalate_iff] at h
    by_cases hrest : rest = []
    · subst hrest
      exact ⟨d, by simp [List.intercalate]⟩
    · rw [List.dropLast_cons_of_ne_nil hrest, List.cons_append]
      exact prefix_intercalate_iff.2 h

lemma takenFor_slotPath {name : Bytes} {b : Bool} (h : takenFor (slotPath b name) = some (!b)) :
    takenFor (slotPath (!b) name) ≠ some b := by
  have htaken {path : Bytes} {b : Bool} (h : takenFor path = some b) : decide (ascii ".deleted." <+: path) = b := by
    rw [takenFor] at h
    split at h
    · simp at h
    · simpa using h
  intro h'
  cases b with
  | false => exact of_decide_eq_false (htaken h') (takenFor_deletedPath (of_decide_eq_true (htaken h)))
  | true => exact of_decide_eq_false (htaken h) (takenFor_deletedPath (of_decide_eq_true (htaken h')))

end Paths

section Balance

variable {files : SimpleFiles} {w : SimpleStream} {file : StampedFile} {name : Bytes}

variable (T) in
def reportedOf (name : Bytes) (files : SimpleFiles) (b : Bool) : List Bytes :=
  (slot b files).toList.filterMap fun file => (takenFor (slotPath b name)).map (text T · file)

lemma reported_perm (b : Bool) : (reported T name files).Perm
    (reportedOf T name files b ++ reportedOf T name files (!b)) := by
  cases b with
  | false => exact List.Perm.refl _
  | true => exact List.perm_append_comm

lemma balanced_iff_slots (hreserve : files.reserve = none) (hfile : files.inprogress = some file) {b : Bool}
    (hb : VectorClock.isDeleted w.md.version = b)
    (hnewer : testIfVersionGreater w.md.version (slot (!b) files) = true) :
    Balanced T name files w ↔ PairsOff ((VectorClock.toString T w.md.version ++ decimal file.content.length) ::
      ((slot b files).toList.map (text T b) ++ (slot (!b) files).toList.map (text T (!b)) ++
        (reportedOf T name files b ++ reportedOf T name files (!b) ++
          (takenFor (slotPath b name)).toList.map
            (text T · { file with mtime := timeFromVersion w.md.version })))) := by
  subst hb
  have hentered : (entered T files w.md.version file.content.length).Perm
      ((VectorClock.toString T w.md.version ++ decimal file.content.length) ::
        ((slot (VectorClock.isDeleted w.md.version) files).toList.map (text T (VectorClock.isDeleted w.md.version)) ++
          (slot (!VectorClock.isDeleted w.md.version) files).toList.map
            (text T (!VectorClock.isDeleted w.md.version)))) := by
    rw [entered, if_pos hnewer]
    apply List.Perm.cons
    cases VectorClock.isDeleted w.md.version with
    | false => exact List.Perm.refl _
    | true => exact List.perm_append_comm
  have hbefore := @reported_perm T files name (VectorClock.isDeleted w.md.version)
  have hafter : (reported T name (finished files w.md.version file)).Perm
      ((takenFor (slotPath (VectorClock.isDeleted w.md.version) name)).toList.map
        (text T · { file with mtime := timeFromVersion w.md.version })) := by
    rw [finished, if_pos hnewer]
    cases hb : VectorClock.isDeleted w.md.version with
    | false =>
      simp only [reported, slotPath]
      cases htaken : takenFor (currentPath name) <;> simp [htaken]
    | true =>
      simp only [reported, slotPath]
      cases htaken : takenFor (deletedPath name) <;> simp [htaken]
  rw [balanced_iff_pairsOff hreserve hfile]
  have hall := hentered.append (hbefore.append hafter)
  exact ⟨fun h => h.perm hall, fun h => h.perm hall.symm⟩

section Slots

variable {s : Bytes} {b : Bool} {t : UInt64} {size : ℕ} {version : VectorClock} {o new : StampedFile}
  (own : Option Bool)
  (htext : ∀ {b' : Bool} {g : StampedFile}, s = text T b' g ↔ b = b' ∧ g.mtime = t ∧ g.content.length = size ∧
    version = lookupVersion T t b)
  (hnewtime : new.mtime = t) (hnewsize : new.content.length = size)

include htext hnewtime hnewsize

lemma pairsOff_first : PairsOff (s :: own.toList.map (text T · new)) ↔
    version = lookupVersion T t b ∧ own = some b := by
  cases own with
  | none =>
    suffices ¬ PairsOff [s] by simpa using this
    exact not_pairsOff_of_odd (by simp)
  | some k =>
    suffices PairsOff [s, text T k new] ↔ version = lookupVersion T t b ∧ k = b by simpa using this
    rw [pairsOff_two, htext]
    tauto

lemma pairsOff_replaced :
    PairsOff (s :: text T b o :: (own.toList.map (text T · o) ++ own.toList.map (text T · new))) ↔
      version = lookupVersion T t b ∧ (own = some b ∨ o.mtime = t ∧ o.content.length = size) := by
  cases own with
  | none =>
    suffices PairsOff [s, text T b o] ↔ version = lookupVersion T t b ∧ o.mtime = t ∧ o.content.length = size by
      simpa using this
    rw [pairsOff_two, htext]
    tauto
  | some k =>
    by_cases hk : k = b
    · subst hk
      suffices PairsOff [s, text T k o, text T k o, text T k new] ↔ version = lookupVersion T t k by simpa using this
      rw [pairsOff_between, htext]
      tauto
    · suffices PairsOff [s, text T b o, text T k o, text T k new] ↔
          version = lookupVersion T t b ∧ o.mtime = t ∧ o.content.length = size by simpa [hk] using this
      constructor
      · intro h
        rcases pairsOff_four h with ⟨hs, -⟩ | ⟨hs, -⟩ | ⟨hs, -⟩
        · have hversion := htext.1 hs
          tauto
        · exact absurd (htext.1 hs).1.symm hk
        · exact absurd (htext.1 hs).1.symm hk
      · rintro ⟨hversion, htime, hsize⟩
        have hsame : text T k o = text T k new := by rw [text, text, htime, hsize, hnewtime, hnewsize]
        rw [← hsame, htext.2 ⟨rfl, htime, hsize, hversion⟩]
        exact pairsOff_cons_cons.2 (pairsOff_two.2 rfl)

variable {own} in
lemma pairsOff_moved (hT : T.Base64) (hS : T.Stamps) {other : Option Bool}
    (hpaths : own = some (!b) → other ≠ some b) :
    PairsOff (s :: text T (!b) o :: (other.toList.map (text T · o) ++ own.toList.map (text T · new))) ↔
      version = lookupVersion T t b ∧ own = some b ∧ other = some (!b) := by
  have hno {g : StampedFile} : s ≠ text T (!b) g := fun h => by
    have hb := (htext.1 h).1
    cases b <;> simp at hb
  cases own with
  | none =>
    cases other with
    | none =>
      suffices ¬ PairsOff [s, text T (!b) o] by simpa using this
      exact fun h => hno (pairsOff_two.1 h)
    | some j =>
      suffices ¬ PairsOff [s, text T (!b) o, text T j o] by simpa using this
      exact not_pairsOff_of_odd (by simp)
  | some k =>
    cases other with
    | none =>
      suffices ¬ PairsOff [s, text T (!b) o, text T k new] by simpa using this
      exact not_pairsOff_of_odd (by simp)
    | some j =>
      suffices PairsOff [s, text T (!b) o, text T j o, text T k new] ↔
          version = lookupVersion T t b ∧ k = b ∧ j = !b by simpa using this
      constructor
      · intro h
        rcases pairsOff_four h with ⟨hs, -⟩ | ⟨hs, hrest⟩ | ⟨hs, hrest⟩
        · exact absurd hs hno
        · -- then both files are mistaken, which no path does
          obtain rfl := (htext.1 hs).1
          obtain rfl := (text_inj hT hS hrest).1
          exact absurd rfl (hpaths rfl)
        · obtain ⟨rfl, -, -, hversion⟩ := htext.1 hs
          exact ⟨hversion, rfl, (text_inj hT hS hrest).1.symm⟩
      · rintro ⟨hversion, rfl, rfl⟩
        exact pairsOff_between.2 (htext.2 ⟨rfl, hnewtime, hnewsize, hversion⟩)

end Slots

lemma balanced_iff (hT : T.Base64) (hS : T.Stamps) (hsettled : Settled files) (hfile : files.inprogress = some file)
    (hne : w.md.version ≠ []) (hkeys : ∀ c ∈ w.md.version, 46 ∉ c.key) :
    Balanced T name files w ↔ Restamped T name files w.md.version file.content.length := by
  by_cases hnewer : testIfVersionGreater w.md.version (slot (!VectorClock.isDeleted w.md.version) files) = true
  case neg =>
    -- the texts are those of the same files twice, and the version's own
    refine iff_of_false (fun h => ?_) fun h => hnewer h.1
    have hpairs := ((balanced_iff_pairsOff hsettled.reserve hfile).1 h).even_length
    rw [entered, if_neg hnewer, finished, if_neg hnewer] at hpairs
    have hsame : reported T name { files with inprogress := none } = reported T name files := rfl
    rw [hsame, List.length_append, List.length_append, List.length_singleton, Nat.even_add] at hpairs
    simp at hpairs
  rw [balanced_iff_slots hsettled.reserve hfile rfl hnewer]
  have htext {b : Bool} {g : StampedFile} := @version_text_iff T hT hS w.md.version hne hkeys file.content.length b g
  have heither : slot (VectorClock.isDeleted w.md.version) files = none ∨
      slot (!VectorClock.isDeleted w.md.version) files = none := by
    cases VectorClock.isDeleted w.md.version with
    | false => exact hsettled.either
    | true => exact hsettled.either.symm
  simp only [Restamped, hnewer, true_and, reportedOf]
  generalize htime : timeFromVersion w.md.version = t at htext ⊢
  generalize VectorClock.isDeleted w.md.version = b at htext heither ⊢
  have hnewtime : ({ file with mtime := t } : StampedFile).mtime = t := rfl
  have hnewsize : ({ file with mtime := t } : StampedFile).content.length = file.content.length := rfl
  cases hown : slot b files with
  | some o =>
    rw [hown] at heither
    rw [heither.resolve_left (by simp)]
    have hreplaced := pairsOff_replaced (o := o) (takenFor (slotPath b name)) htext hnewtime hnewsize
    cases htaken : takenFor (slotPath b name) with
    | none => simpa [htaken] using hreplaced
    | some k => by_cases hk : k = b <;> simpa [htaken, hk] using hreplaced
  | none =>
    cases hother : slot (!b) files with
    | none =>
      have hfirst := pairsOff_first (takenFor (slotPath b name)) htext hnewtime hnewsize
      by_cases htaken : takenFor (slotPath b name) = some b <;> simpa [htaken] using hfirst
    | some o =>
      have hmoved := pairsOff_moved (o := o) htext hnewtime hnewsize hT hS (@takenFor_slotPath name b)
      cases htaken : takenFor (slotPath (!b) name) with
      | none => simpa [htaken] using hmoved
      | some j => by_cases hk : takenFor (slotPath b name) = some b <;> simpa [htaken, hk] using hmoved

end Balance

end SimpleFileStore

structure SimpleSession where
  host : Host
  version : Bytes
  buffers : List (Host × Bytes)

def SimpleSession.written (T : TurboLib) (session : SimpleSession) (files : SimpleFiles) :
    StoreAnswer SimpleStream × SimpleFiles :=
  match SimpleFileStore.write T session.host files session.version with
  | (.accepted w, files) =>
    let (w, files) := session.buffers.foldl (fun (w, files) (host, buff) => w.write host files buff) (w, files)
    (.accepted w, files)
  | (answer, files) => (answer, files)

namespace SimpleFileStore

/-- The files of a key after sessions one after the other, some of them refused or given up, and `remove`s. -/
inductive Reachable (T : TurboLib) : SimpleFiles → Prop
  | empty : Reachable T {}
  | written (session : SimpleSession) {files : SimpleFiles} (h : Reachable T files) :
      Reachable T (session.written T files).2
  | committed (hasher : Bytes → Bytes) (session : SimpleSession) {files : SimpleFiles} {w : SimpleStream}
      (h : Reachable T files) (hw : (session.written T files).1 = .accepted w) :
      Reachable T (w.commit T hasher (session.written T files).2).2
  | removed {files : SimpleFiles} (h : Reachable T files) :
      Reachable T { files with current := none, deleted := none, inprogress := none }

section Sessions

variable {T : TurboLib} {files : SimpleFiles} {w : SimpleStream}

structure Opened (files : SimpleFiles) (w : SimpleStream) (files' : SimpleFiles) : Prop where
  current : files'.current = files.current
  deleted : files'.deleted = files.deleted
  reserve : files'.reserve = files.reserve
  inprogress : files'.inprogress.isSome
  version : w.md.version ≠ []
  keys : ∀ c ∈ w.md.version, 46 ∉ c.key

lemma openVersion_cases (host : Host) (files : SimpleFiles) {version : VectorClock} (hne : version ≠ [])
    (hkeys : ∀ c ∈ version, 46 ∉ c.key) :
    openVersion T host files version = (.refused, files) ∨
      ∃ w files', openVersion T host files version = (.accepted w, files') ∧ Opened files w files' := by
  rw [openVersion]
  split
  · exact .inl rfl
  · exact .inr ⟨_, _, rfl, rfl, rfl, rfl, rfl, hne, hkeys⟩

lemma write_cases (hS : T.Stamps) (host : Host) (files : SimpleFiles) (version : Bytes) :
    (∃ answer, (∀ w, answer ≠ .accepted w) ∧ write T host files version = (answer, files)) ∨
      ∃ w files', write T host files version = (.accepted w, files') ∧ Opened files w files' := by
  have hopen {clock : VectorClock} (hne : clock ≠ []) (hkeys : ∀ c ∈ clock, 46 ∉ c.key) :
      (∃ answer, (∀ w, answer ≠ .accepted w) ∧ openVersion T host files clock = (answer, files)) ∨
        ∃ w files', openVersion T host files clock = (.accepted w, files') ∧ Opened files w files' :=
    (openVersion_cases host files hne hkeys).imp_left fun h => ⟨_, by simp, h⟩
  have hfresh := @hopen [⟨ascii "sec", host.now, 0⟩] (by simp) (by simp; decide)
  rw [write, hS.sec]
  cases hparse : VectorClock.fromString T version with
  | threw => exact .inl ⟨_, by simp, rfl⟩
  | failed => exact hfresh
  | parsed clock =>
    by_cases hne : clock = []
    · simp only [if_pos hne]
      exact hfresh
    · simp only [if_neg hne]
      refine hopen hne ?_
      rw [VectorClock.fromString] at hparse
      split at hparse
      · simp at hparse
      · exact fun c hc hdot => (((VectorClock.parseClocks_spec hparse).2 c hc).1 46 hdot).2.1 rfl

lemma Opened.write {files' : SimpleFiles} (h : Opened files w files') (host : Host) (buff : Bytes) :
    Opened files (w.write host files' buff).1 (w.write host files' buff).2 := by
  obtain ⟨file, hfile⟩ := Option.isSome_iff_exists.1 h.inprogress
  rw [SimpleStream.write, hfile]
  split
  · exact h
  · exact ⟨h.current, h.deleted, h.reserve, rfl, h.version, h.keys⟩

lemma written_cases (hS : T.Stamps) (session : SimpleSession) (files : SimpleFiles) :
    (∃ answer, (∀ w, answer ≠ .accepted w) ∧ session.written T files = (answer, files)) ∨
      ∃ w files', session.written T files = (.accepted w, files') ∧ Opened files w files' := by
  have hbuffers (buffers : List (Host × Bytes)) : ∀ w files', Opened files w files' →
      Opened files (buffers.foldl (fun (w, files) (host, buff) => w.write host files buff) (w, files')).1
        (buffers.foldl (fun (w, files) (host, buff) => w.write host files buff) (w, files')).2 := by
    induction buffers with
    | nil => exact fun _ _ h => h
    | cons b buffers ih => exact fun _ _ h => ih _ _ (h.write b.1 b.2)
  rw [SimpleSession.written]
  obtain ⟨answer, hanswer, heq⟩ | ⟨w, files', heq, hopened⟩ := write_cases hS session.host files session.version
  · rw [heq]
    cases answer with
    | accepted w => exact absurd rfl (hanswer w)
    | refused => exact .inl ⟨_, hanswer, rfl⟩
    | threw => exact .inl ⟨_, hanswer, rfl⟩
  · rw [heq]
    exact .inr ⟨_, _, rfl, hbuffers _ _ _ hopened⟩

lemma Opened.settled {files' : SimpleFiles} (h : Opened files w files') (hs : Settled files) : Settled files' :=
  ⟨h.reserve.trans hs.reserve, by rw [h.current, h.deleted]; exact hs.either⟩

lemma Settled.finished (h : Settled files) (version : VectorClock) (file : StampedFile) :
    Settled (finished files version file) := by
  rw [SimpleFileStore.finished]
  split
  · dsimp only
    split
    · exact ⟨h.reserve, .inl rfl⟩
    · exact ⟨h.reserve, .inr rfl⟩
  · exact ⟨h.reserve, h.either⟩

lemma Reachable.settled (hS : T.Stamps) (h : Reachable T files) : Settled files := by
  induction h with
  | empty => exact ⟨rfl, .inl rfl⟩
  | removed _ ih => exact ⟨ih.reserve, .inl rfl⟩
  | @written session files _ ih =>
    obtain ⟨answer, -, heq⟩ | ⟨w, files', heq, hopened⟩ := written_cases hS session files
    · rw [heq]
      exact ih
    · rw [heq]
      exact hopened.settled ih
  | @committed hasher session files w _ hw ih =>
    obtain ⟨answer, hanswer, heq⟩ | ⟨w', files', heq, hopened⟩ := written_cases hS session files
    · rw [heq] at hw
      exact absurd hw (hanswer w)
    · obtain ⟨file, hfile⟩ := Option.isSome_iff_exists.1 hopened.inprogress
      rw [heq] at hw
      obtain rfl : w' = w := by simpa using hw
      have hsettled := hopened.settled ih
      rw [heq, (commit_cases hasher hsettled.reserve hfile).2]
      exact hsettled.finished _ _

theorem commit_balanced_iff (hT : T.Base64) (hS : T.Stamps) (h : Reachable T files)
    {directories : FileName → Option UInt64} (hclear : ∀ slot, directories slot = none) {session : SimpleSession}
    {files' : SimpleFiles} (hw : session.written T (files.seen directories) = (.accepted w, files')) (name : Bytes) :
    Balanced T name files' w ↔
      ∃ file, files'.inprogress = some file ∧ Restamped T name files w.md.version file.content.length := by
  rw [SimpleFiles.seen_eq_self hclear] at hw
  obtain ⟨answer, hanswer, heq⟩ | ⟨w', files'', heq, hopened⟩ := written_cases hS session files
  · rw [heq] at hw
    exact absurd (congrArg Prod.fst hw) (hanswer w)
  · rw [heq] at hw
    obtain ⟨hw, rfl⟩ := Prod.mk.inj hw
    obtain rfl : w' = w := by simpa using hw
    obtain ⟨file, hfile⟩ := Option.isSome_iff_exists.1 hopened.inprogress
    rw [balanced_iff hT hS (hopened.settled (h.settled hS)) hfile hopened.version hopened.keys]
    have hslot (b : Bool) : slot b files'' = slot b files := by
      cases b with
      | false => exact hopened.current
      | true => exact hopened.deleted
    simp only [Restamped, hslot, hfile, Option.some.injEq, exists_eq_left']

end Sessions

section Examples

def sessionOf (key : String) : SimpleSession :=
  ⟨⟨[], 5⟩, ascii "1," ++ ascii key ++ ascii ".0G000000000=", [(⟨[], 5⟩, [104, 105])]⟩

theorem commit_balanced_iff_example : Balanced TurboLib.reference (ascii "a")
    ((sessionOf "sec").written TurboLib.reference {}).2 ⟨2, { version := [⟨ascii "sec", 1, 0⟩] }, false⟩ := by
  have hwritten : (sessionOf "sec").written TurboLib.reference {} =
      (.accepted ⟨2, { version := [⟨ascii "sec", 1, 0⟩] }, false⟩, { inprogress := some ⟨[104, 105], 5⟩ }) := by
    decide +kernel
  rw [hwritten]
  have hclear : SimpleFiles.seen {} (fun _ => none) = {} := rfl
  refine (commit_balanced_iff TurboLib.reference_base64 TurboLib.reference_stamps .empty (fun _ => rfl)
    (hclear ▸ hwritten) _).2
    ⟨⟨[104, 105], 5⟩, rfl, rfl, by decide +kernel, ?_⟩
  rw [if_pos (by decide +kernel)]
  exact .inl rfl

theorem not_balanced_when_foreign : ∃ w files',
    (sessionOf "foo").written TurboLib.reference {} = (.accepted w, files') ∧
      ¬ Balanced TurboLib.reference (ascii "a") files' w := by
  refine ⟨⟨2, { version := [⟨ascii "foo", 1, 0⟩] }, false⟩, { inprogress := some ⟨[104, 105], 5⟩ },
    by decide +kernel, ?_⟩
  intro h
  exact absurd (h id) (by decide +kernel)

end Examples

end SimpleFileStore

end Turbopump
