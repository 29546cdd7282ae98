import Turbopump.Storage.Enumeration

/-! Which keys a listing leaves out as deleted. -/

namespace Turbopump

open FileStore (line describe)
open VectorClock (IsVersion ofName isDeleted)

structure ListKeys where
  all : Bool := false
  deleted : Bool := false
  deriving DecidableEq

/-- What is relied on of `turbo::str::join`: the joined string starts with the first one. -/
structure Joins (join : List Bytes → Bytes) : Prop where
  first : ∀ l ls, l <+: join (l :: ls)

namespace ListKeysCommand

def find (c : UInt8) (s : Bytes) : Option Bytes := match s.dropWhile (· ≠ c) with
  | [] => none
  | rest => some rest

def firstClock (report : Bytes) : Option Bytes :=
  -- from the first comma behind the first colon on
  (find 58 report).bind (find 44)

def printKey (params : ListKeys) (name report : Bytes) : Bytes :=
  if params.all = false ∧ ascii ".membership/" <+: name then []
  else
    let data := 34 :: name ++ ascii "\":\"" ++ report ++ ascii "\",\n"
    if params.deleted then data
    else match firstClock report with
      | none => []
      | some clock => if ascii ",delete." <+: clock then [] else data

section FirstClock

variable {T : TurboLib} {v : Bytes} {join : List Bytes → Bytes} {hasher : Bytes → Bytes} {homedir : Bytes}
  {fs : FileSystem} {p : Path} {entry : Bytes × KeyMetadata × List Bytes}

lemma find_append {c : UInt8} {s : Bytes} (h : c ∉ s) (t : Bytes) : find c (s ++ c :: t) = some (c :: t) := by
  have hs : ∀ b ∈ s, decide (b ≠ c) := by
    intro b hb
    rw [decide_eq_true_iff]
    rintro rfl
    exact h hb
  rw [find, VectorClock.dropWhile_append_stop hs (by simp)]

lemma not_mem_decimal {c : UInt8} (hc : isDigit c = false) (n : ℕ) : c ∉ decimal n := by
  intro h
  rw [VectorClock.mem_decimal h] at hc
  cases hc

lemma append_dot_prefix {a b : Bytes} (ha : 46 ∉ a) (hb : 46 ∉ b) (t : Bytes) : a ++ [46] <+: b ++ 46 :: t ↔ a = b := by
  have hword {s : Bytes} (hs : 46 ∉ s) (t : Bytes) : (s ++ 46 :: t).takeWhile (· ≠ 46) = s := by
    refine VectorClock.takeWhile_append_stop (fun c hc => ?_) (by simp)
    rw [decide_eq_true_iff]
    rintro rfl
    exact hs hc
  constructor
  · rintro ⟨rest, hrest⟩
    rw [← hword hb t, ← hrest, List.append_assoc, List.singleton_append, hword ha]
  · rintro rfl
    exact ⟨t, by simp⟩

lemma firstClock_line (hv : IsVersion T v) (size : ℕ) (rest : Bytes) : ∃ clock,
    firstClock (line size v ++ rest) = some clock ∧
      (ascii ",delete." <+: clock ↔ isDeleted (ofName T v) = true) := by
  obtain ⟨c, cs, hclock⟩ := List.exists_cons_of_ne_nil hv.ofName_ne_nil
  have hkey : 46 ∉ c.key := fun hmem => by
    have hplain := (hv.plain c (hclock ▸ List.mem_cons_self)).key 46 hmem
    exact absurd hplain (by decide)
  obtain ⟨tail, htail⟩ : ∃ tail, VectorClock.toString T (c :: cs) =
      decimal (c :: cs).length ++ 44 :: (c.key ++ 46 :: tail) := by
    simp only [VectorClock.toString, VectorClock.printClock, List.flatMap_cons, List.append_assoc, List.cons_append]
    exact ⟨_, rfl⟩
  have hversion : v = decimal (c :: cs).length ++ 44 :: (c.key ++ 46 :: tail) := by
    rw [← hv.toString_ofName, hclock, htail]
  refine ⟨44 :: (c.key ++ 46 :: (tail ++ rest)), ?_, ?_⟩
  · have hcolon : find 58 (line size v ++ rest) = some (58 :: (v ++ rest)) := by
      rw [line, List.append_assoc, List.cons_append, find_append (not_mem_decimal (by decide) size)]
    have hcomma : (58 :: (v ++ rest)) =
        (58 :: decimal (c :: cs).length) ++ 44 :: (c.key ++ 46 :: (tail ++ rest)) := by
      rw [hversion]
      simp only [List.append_assoc, List.cons_append]
    have hnone : (44 : UInt8) ∉ 58 :: decimal (c :: cs).length := by
      rw [List.mem_cons, not_or]
      exact ⟨by decide, not_mem_decimal (by decide) _⟩
    rw [firstClock, hcolon, Option.bind_some, hcomma, find_append hnone]
  · have hword : ascii ",delete." = 44 :: (ascii "delete" ++ [46]) := by decide
    rw [hword, List.cons_prefix_cons, append_dot_prefix (by decide) hkey, hclock]
    simp [isDeleted, eq_comm]

lemma printKey_nonempty (hjoin : Joins join) (hv : IsVersion T v) (size : ℕ) (ls : List Bytes) (name : Bytes) :
    printKey { all := true } name (join (line size v :: ls)) ≠ [] ↔ isDeleted (ofName T v) = false := by
  obtain ⟨rest, hrest⟩ := hjoin.first (line size v) ls
  obtain ⟨clock, hclock, hdeleted⟩ := firstClock_line hv size rest
  rw [hrest] at hclock
  simp only [printKey, hclock, Bool.true_eq_false, false_and, if_false, Bool.false_eq_true]
  by_cases h : isDeleted (ofName T v) = true
  · simp [hdeleted.2 h, h]
  · simp [mt hdeleted.1 h, h]

/-- The lines of a report are sorted, so the first is that of a least version. -/
lemma exists_first (h : describe hasher homedir fs p = some entry) : ∃ v ∈ fs.fileNames p, ∃ ls,
    entry.2.2 = line (fs.size (p ++ [v])) v :: ls ∧
      ∀ u ∈ fs.fileNames p, line (fs.size (p ++ [v])) v ≤ line (fs.size (p ++ [u])) u := by
  obtain ⟨hne, -, -, hperm⟩ := FileStore.describe_some h
  have hsorted : entry.2.2.Pairwise (· ≤ ·) := by
    cases hnames : fs.fileNames p with
    | nil => exact absurd hnames hne
    | cons first others =>
      simp only [describe, hnames] at h
      obtain rfl := Option.some.inj h
      exact List.pairwise_insertionSort _ _
  cases hlines : entry.2.2 with
  | nil =>
    have hlength := hperm.length_eq
    rw [hlines, List.length_map] at hlength
    exact absurd (List.length_eq_zero_iff.1 hlength.symm) hne
  | cons l ls =>
    rw [hlines] at hperm hsorted
    obtain ⟨v, hv, rfl⟩ := List.mem_map.1 (hperm.subset List.mem_cons_self)
    refine ⟨v, hv, ls, rfl, fun u hu => ?_⟩
    rcases List.mem_cons.1 (hperm.symm.subset (List.mem_map_of_mem (f := fun nm => line (fs.size (p ++ [nm])) nm) hu))
      with heq | hmem
    · exact heq.ge
    · exact (List.pairwise_cons.1 hsorted).1 _ hmem

end FirstClock

/-- The version whose line comes first is not deleted, or all versions are. -/
def Settled (T : TurboLib) (fs : FileSystem) (p : Path) : Prop := ∃ v ∈ fs.fileNames p,
  (∀ u ∈ fs.fileNames p, line (fs.size (p ++ [v])) v ≤ line (fs.size (p ++ [u])) u) ∧
    (isDeleted (ofName T v) = false ∨ ∀ u ∈ fs.fileNames p, isDeleted (ofName T u) = true)

theorem printKey_iff {T : TurboLib} {join : List Bytes → Bytes} (hjoin : Joins join) {hasher : Bytes → Bytes}
    {homedir : Bytes} {fs : FileSystem} {p : Path} {entry : Bytes × KeyMetadata × List Bytes}
    (hversions : ∀ v ∈ fs.fileNames p, IsVersion T v) (h : describe hasher homedir fs p = some entry) :
    (printKey { all := true } entry.1 (join entry.2.2) ≠ [] ↔
      ∃ v ∈ fs.fileNames p, isDeleted (ofName T v) = false) ↔ Settled T fs p := by
  obtain ⟨v, hv, ls, hlines, hleast⟩ := exists_first h
  have hprint := printKey_nonempty hjoin (hversions v hv) (fs.size (p ++ [v])) ls entry.1
  rw [← hlines] at hprint
  -- the least line is that of one version only
  have hunique {u : Bytes} (hu : u ∈ fs.fileNames p)
      (hu' : ∀ w ∈ fs.fileNames p, line (fs.size (p ++ [u])) u ≤ line (fs.size (p ++ [w])) w) : u = v := by
    rw [← FileStore.line_name (fs.size (p ++ [u])) u, le_antisymm (hu' v hv) (hleast u hu), FileStore.line_name]
  rw [hprint]
  constructor
  · intro hiff
    refine ⟨v, hv, hleast, ?_⟩
    by_cases hlive : isDeleted (ofName T v) = false
    · exact .inl hlive
    · refine .inr fun u hu => ?_
      by_contra hdead
      exact hlive (hiff.2 ⟨u, hu, by simpa using hdead⟩)
  · rintro ⟨u, hu, hfirst, hsettled⟩
    obtain rfl := hunique hu hfirst
    refine ⟨fun hlive => ⟨u, hu, hlive⟩, ?_⟩
    rintro ⟨w, hw, hlive⟩
    rcases hsettled with hfirst | hall
    · exact hfirst
    · rw [hall w hw] at hlive
      cases hlive

section Examples

def halfDeleted : FileSystem := (List.foldl (StoreSessions.step .reference id) { fs := .empty }
  [.write 0 ⟨ascii "me", 1⟩ (ascii "a") [] 3, .append 0 [97, 98, 99], .commit 0,
    .write 1 ⟨ascii "me", 2⟩ (ascii "a") (ascii "2,delete.0G000000000=,peer.0G000000000=") 3, .commit 1]).fs

lemma joins_spaced : Joins (List.intercalate [32]) where
  first l ls := by
    cases ls with
    | nil => simp
    | cons m ls => simp

lemma halfDeleted_names : halfDeleted.fileNames [ascii "a"] =
    [ascii "1,me.0G000000000=", ascii "2,delete.0G000000000=,peer.0G000000000="] := by
  decide +kernel

lemma halfDeleted_versions : ∀ v ∈ halfDeleted.fileNames [ascii "a"], IsVersion .reference v := by
  rw [halfDeleted_names]
  intro v hv
  rcases List.mem_pair.1 hv with rfl | rfl
  · exact ⟨⟨[⟨ascii "me", 1, 0⟩], by decide +kernel, by decide, by decide +kernel⟩, by decide +kernel⟩
  · exact ⟨⟨[⟨ascii "delete", 1, 0⟩, ⟨ascii "peer", 1, 0⟩], by decide +kernel, by decide, by decide +kernel⟩,
      by decide +kernel⟩

theorem printKey_iff_example : ∃ entry, describe id (ascii "/store") halfDeleted [ascii "a"] = some entry ∧
    ((printKey { all := true } entry.1 (List.intercalate [32] entry.2.2) ≠ [] ↔
      ∃ v ∈ halfDeleted.fileNames [ascii "a"], isDeleted (ofName .reference v) = false) ↔
        Settled .reference halfDeleted [ascii "a"]) := by
  obtain ⟨entry, hentry⟩ := @FileStore.exists_describe id (ascii "/store") halfDeleted [ascii "a"] (by
    rw [halfDeleted_names]
    simp)
  exact ⟨entry, hentry, printKey_iff joins_spaced halfDeleted_versions hentry⟩

theorem not_printed_when_half_deleted : (∃ v ∈ halfDeleted.fileNames [ascii "a"],
    IsVersion .reference v ∧ isDeleted (ofName .reference v) = false) ∧
    (describe id (ascii "/store") halfDeleted [ascii "a"]).map
      (fun entry => printKey { all := true } entry.1 (List.intercalate [32] entry.2.2)) = some [] := by
  have hmem : ascii "1,me.0G000000000=" ∈ halfDeleted.fileNames [ascii "a"] := by
    rw [halfDeleted_names]
    exact List.mem_cons_self
  exact ⟨⟨_, hmem, halfDeleted_versions _ hmem, by decide +kernel⟩, by decide +kernel⟩

end Examples

end ListKeysCommand

end Turbopump
