import Turbopump.Common.ReferenceClocks
import Turbopump.Storage.SimpleFileStore

/-! Which version strings make the parser, and with it the stores, throw. -/

namespace Turbopump

namespace VectorClock

variable (T : TurboLib)

/-- `fromString` of a clock: whether it is true, or `none` for an exception, and the clock afterwards. -/
def assign (clock : VectorClock) (str : Bytes) : Option Bool × VectorClock := match fromString T str with
  | .parsed v => (some true, v)
  | .failed => (some false, clock)
  | .threw => (none, clock)

def tokens : ℕ → Bytes → List Bytes
  | 0, _ => []
  | size + 1, s => match readToken s with
    | none => []
    | some (token, s) => token :: tokens size s

def countOf (token : Bytes) : Option Bytes := match token.dropWhile (· ≠ 46) with
  | [] => none
  | _ :: rest => match rest.dropWhile (· ≠ 46) with
    | [] => none
    | _ :: count => some count

/-- Wherever one of the announced clocks has a second dot, a number in the range of `unsigned long` follows. -/
def Counted (str : Bytes) : Prop :=
  ∀ size rest, readUnsigned (2 ^ 32) (str.map fun c => if c = 44 then 32 else c) = some (size, rest) →
    ∀ token ∈ tokens size rest, ∀ count, countOf token = some count → readUnsigned (2 ^ 64) count ≠ none

def mergeName (version : VectorClock) (name : Bytes) : Option VectorClock := match fromString T name with
  | .parsed temp => some (T.merge version temp)
  | .failed => some (T.merge version [])
  | .threw => none

/-- What `mergedVersion` makes of the listed names, `none` where one of them throws. -/
def mergedOrThrew (all : List Bytes) : Option VectorClock := all.foldlM (mergeName T) []

/-- No exception out of the parser, or out of the stores while they list no name for the key that throws, and no
half-written clock. -/
structure Harmless (str : Bytes) : Prop where
  fromString : ∀ clock, ∃ answer, (assign T clock str).1 = some answer ∧
    (answer = false → (assign T clock str).2 = clock)
  write : ∀ host fs name copies, (∀ v ∈ FileStore.versions fs name true, Counted v) →
    (FileStore.write T host fs name str copies).1 ≠ .threw
  simpleWrite : ∀ host files, (SimpleFileStore.write T host files str).1 ≠ .threw
  read : ∀ fs name inprogress, (∀ v ∈ FileStore.versions fs name inprogress, Counted v) →
    FileStore.read T fs name str inprogress ≠ .threw

section Throws

variable {T} {s str : Bytes}

lemma parseClock_eq_threw {token : Bytes} :
    parseClock T token = .threw ↔ ∃ count, countOf token = some count ∧ readUnsigned (2 ^ 64) count = none := by
  cases hkey : token.dropWhile (· ≠ 46) with
  | nil => simp only [parseClock, countOf, hkey, reduceCtorEq, false_and, exists_false]
  | cons b rest =>
    cases htime : rest.dropWhile (· ≠ 46) with
    | nil => simp only [parseClock, countOf, hkey, htime, reduceCtorEq, false_and, exists_false]
    | cons b count =>
      cases hread : readUnsigned (2 ^ 64) count with
      | none => simp only [parseClock, countOf, hkey, htime, hread, Option.some.injEq, exists_eq_left']
      | some pair => simp only [parseClock, countOf, hkey, htime, hread, Option.some.injEq, exists_eq_left',
        reduceCtorEq]

lemma parseClock_ne_failed {token : Bytes} : parseClock T token ≠ .failed := by
  cases hkey : token.dropWhile (· ≠ 46) with
  | nil => simp only [parseClock, hkey, ne_eq, reduceCtorEq, not_false_eq_true]
  | cons b rest =>
    cases htime : rest.dropWhile (· ≠ 46) with
    | nil => simp only [parseClock, hkey, htime, ne_eq, reduceCtorEq, not_false_eq_true]
    | cons b count =>
      cases hread : readUnsigned (2 ^ 64) count with
      | none => simp only [parseClock, hkey, htime, hread, ne_eq, reduceCtorEq, not_false_eq_true]
      | some pair => simp only [parseClock, hkey, htime, hread, ne_eq, reduceCtorEq, not_false_eq_true]

lemma parseClocks_eq_threw {size : ℕ} :
    parseClocks T size s = .threw ↔ ∃ token ∈ tokens size s, parseClock T token = .threw := by
  induction size generalizing s with
  | zero => simp [parseClocks, tokens]
  | succ size ih =>
    cases hread : readToken s with
    | none => simp [parseClocks, tokens, hread]
    | some pair =>
      obtain ⟨token, rest⟩ := pair
      simp only [parseClocks, tokens, hread, List.mem_cons, exists_eq_or_imp, ← ih]
      cases hclock : parseClock T token with
      | failed => exact absurd hclock parseClock_ne_failed
      | threw => simp
      | parsed c =>
        cases hclocks : parseClocks T size rest with
        | failed => simp
        | threw => simp
        | parsed cs => simp

lemma fromString_eq_threw : fromString T str = .threw ↔ ¬ Counted str := by
  simp only [fromString, Counted]
  cases hread : readUnsigned (2 ^ 32) (str.map fun c => if c = 44 then 32 else c) with
  | none => simp
  | some pair =>
    obtain ⟨size, rest⟩ := pair
    simp only [Option.some.injEq, Prod.mk.injEq, and_imp, forall_eq', forall_apply_eq_imp_iff, parseClocks_eq_threw,
      parseClock_eq_threw]
    push Not
    rfl

lemma mergeName_of_counted (h : Counted str) (version : VectorClock) :
    mergeName T version str = some (T.merge version (ofName T str)) := by
  cases hparse : fromString T str with
  | threw => exact absurd h (fromString_eq_threw.1 hparse)
  | failed => simp only [mergeName, ofName, hparse]
  | parsed temp => simp only [mergeName, ofName, hparse]

lemma mergedOrThrew_eq_mergedVersion {fs : FileSystem} {name : Bytes} {inprogress : Bool} :
    mergedOrThrew T (FileStore.versions fs name inprogress) = some (FileStore.mergedVersion T fs name inprogress) ↔
      ∀ v ∈ FileStore.versions fs name inprogress, Counted v := by
  rw [mergedOrThrew, FileStore.mergedVersion]
  generalize ([] : VectorClock) = acc
  induction FileStore.versions fs name inprogress generalizing acc with
  | nil => simp
  | cons v all ih =>
    rw [List.foldlM_cons, List.foldl_cons, List.forall_mem_cons]
    by_cases hv : Counted v
    · simp [mergeName_of_counted hv, hv, ih]
    · simp [mergeName, fromString_eq_threw.2 hv, hv]

lemma openVersion_ne_threw (fs : FileSystem) (name : Bytes) (v : VectorClock) (copies : ℕ) :
    (FileStore.openVersion T fs name v copies).1 ≠ .threw := by
  simp only [FileStore.openVersion]
  split <;> simp

lemma simple_openVersion_ne_threw (host : Host) (files : SimpleFiles) (v : VectorClock) :
    (SimpleFileStore.openVersion T host files v).1 ≠ .threw := by
  simp only [SimpleFileStore.openVersion]
  split <;> simp

lemma openReader_ne_threw (fs : FileSystem) (name : Bytes) (inprogress : Bool) (v : VectorClock) :
    FileStore.read.openReader T fs name inprogress v ≠ .threw := by
  simp only [FileStore.read.openReader]
  split <;> simp

theorem harmless_iff : Harmless T str ↔ Counted str := by
  constructor
  · intro h
    by_contra hbad
    obtain ⟨answer, hanswer, -⟩ := h.fromString []
    simp [assign, fromString_eq_threw.2 hbad] at hanswer
  · intro h
    have hparse : fromString T str ≠ .threw := fun hthrew => fromString_eq_threw.1 hthrew h
    cases hcases : fromString T str with
    | threw => exact absurd hcases hparse
    | failed =>
      constructor
      · exact fun clock => ⟨false, by simp [assign, hcases], by simp [assign, hcases]⟩
      · intro host fs name copies _
        simp only [FileStore.write, hcases]
        exact openVersion_ne_threw _ _ _ _
      · intro host files
        simp only [SimpleFileStore.write, hcases]
        exact simple_openVersion_ne_threw _ _ _
      · intro fs name inprogress _
        simp only [FileStore.read, hcases]
        exact openReader_ne_threw _ _ _ _
    | parsed clock =>
      constructor
      · exact fun clock => ⟨true, by simp [assign, hcases], by simp⟩
      · intro host fs name copies _
        simp only [FileStore.write, hcases]
        split_ifs
        · exact openVersion_ne_threw _ _ _ _
        · simp
        · exact openVersion_ne_threw _ _ _ _
      · intro host files
        simp only [SimpleFileStore.write, hcases]
        exact simple_openVersion_ne_threw _ _ _
      · intro fs name inprogress _
        simp only [FileStore.read, hcases]
        exact openReader_ne_threw _ _ _ _

theorem not_harmless_without_number : ¬ Harmless TurboLib.reference (ascii "1,a.b.c") := by
  intro h
  obtain ⟨answer, hanswer, -⟩ := h.fromString []
  have hthrew : (assign TurboLib.reference [] (ascii "1,a.b.c")).1 = none := by decide
  simp [hthrew] at hanswer

end Throws

end VectorClock

end Turbopump
