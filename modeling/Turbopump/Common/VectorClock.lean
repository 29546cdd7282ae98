import Turbopump.Basic

/-! Vector clocks and the version strings that they are printed to and parsed from. -/

namespace Turbopump

structure Clock where
  key : Bytes
  time : UInt64
  count : ℕ
  deriving DecidableEq

abbrev VectorClock := List Clock

inductive Compare where
  | lessThan
  | greaterThan
  | equal
  | conflict
  deriving DecidableEq

/-- What turbolib provides: `base64::encode_bin` and `decode_as` on 64-bit integers, and
`bounded_time_vector`'s `compare`, `merge` and `increment`. -/
structure TurboLib where
  encodeBin : UInt64 → Bytes
  decodeAs : Bytes → UInt64
  compare : VectorClock → VectorClock → Compare
  merge : VectorClock → VectorClock → VectorClock
  increment : VectorClock → Bytes → UInt64 → VectorClock

def decimal (n : ℕ) : Bytes := if n = 0 then [48] else ((Nat.digits 10 n).map (UInt8.ofNat <| 48 + ·)).reverse

def isDigit (c : UInt8) : Bool := 48 ≤ c && c ≤ 57

def isSpace (c : UInt8) : Bool := c = 32 || (9 ≤ c && c ≤ 13)

def ofDecimal (digits : Bytes) : ℕ := Nat.ofDigits 10 (digits.reverse.map fun c => c.toNat - 48)

def readSign : Bytes → Bool × Bytes
  | 45 :: s => (true, s)
  | 43 :: s => (false, s)
  | s => (false, s)

/-- An unsigned integer below `bound` at the front of the input: what `>>` reads into an `unsigned` and
`strtoul` into an `unsigned long`. A minus sign negates the value that was read. -/
def readUnsigned (bound : ℕ) (s : Bytes) : Option (ℕ × Bytes) :=
  let (negative, s) := readSign (s.dropWhile isSpace)
  let digits := s.takeWhile isDigit
  if digits = [] then none
  else if bound ≤ ofDecimal digits then none
  else some (if negative then (bound - ofDecimal digits) % bound else ofDecimal digits, s.dropWhile isDigit)

def readToken (s : Bytes) : Option (Bytes × Bytes) :=
  -- `>>` into a string.
  let s := s.dropWhile isSpace
  let token := s.takeWhile fun c => ! isSpace c
  if token = [] then none else some (token, s.dropWhile fun c => ! isSpace c)

inductive Parsed (α : Type) where
  | parsed (a : α)
  | failed
  | threw
  deriving DecidableEq

namespace VectorClock

variable (T : TurboLib)

def printClock (c : Clock) : Bytes :=
  c.key ++ 46 :: T.encodeBin c.time ++ if c.count = 0 then [] else 46 :: decimal c.count

def toString (v : VectorClock) : Bytes := decimal v.length ++ v.flatMap fun c => 44 :: printClock T c

/-- One clock. The substring that `decode_as` gets is as long as the position of the second dot, so it
goes on past that dot; `std::stoul` throws where it finds no number. -/
def parseClock (token : Bytes) : Parsed Clock :=
  let key := token.takeWhile (· ≠ 46)
  match token.dropWhile (· ≠ 46) with
  | [] => .parsed ⟨[], 0, 0⟩
  | _ :: rest =>
    let time := rest.takeWhile (· ≠ 46)
    match rest.dropWhile (· ≠ 46) with
    | [] => .parsed ⟨key, T.decodeAs time, 0⟩
    | _ :: count => match readUnsigned (2 ^ 64) count with
      | none => .threw
      | some (count, _) => .parsed ⟨key, T.decodeAs (rest.take (key.length + 1 + time.length)), count⟩

def parseClocks : ℕ → Bytes → Parsed VectorClock
  | 0, _ => .parsed []
  | size + 1, s => match readToken s with
    | none => .failed
    | some (token, s) => match parseClock T token with
      | .parsed c => match parseClocks size s with
        | .parsed cs => .parsed (c :: cs)
        | .failed => .failed
        | .threw => .threw
      | .failed => .failed
      | .threw => .threw

def fromString (str : Bytes) : Parsed VectorClock :=
  match readUnsigned (2 ^ 32) (str.map fun c => if c = 44 then 32 else c) with
  | none => .failed
  | some (size, s) => parseClocks T size s

def ofName (name : Bytes) : VectorClock :=
  -- The clock that a version's file name stands for, empty also where the parser throws on the name.
  match fromString T name with
  | .parsed v => v
  | _ => []

def isDeleted (v : VectorClock) : Bool := match v with
  | [] => false
  | c :: _ => c.key = ascii "delete"

def isExpired (v : VectorClock) (timeout now : UInt64) : Bool := match v with
  | [] => false
  | c :: _ => VectorClock.isDeleted v && c.time + timeout ≤ now

def compareNames (u v : Bytes) : Compare := T.compare (ofName T u) (ofName T v)

structure IsVersion (v : Bytes) : Prop where
  canonical : ∃ clock, fromString T v = .parsed clock ∧ clock ≠ [] ∧ toString T clock = v
  slash : 47 ∉ v

end VectorClock

def isPlain (c : UInt8) : Bool := c ≠ 44 && c ≠ 46 && c ≠ 47 && ! isSpace c

/-- What is relied on of `base64`: its alphabet, and that decoding reads one encoded integer. -/
structure TurboLib.Base64 (T : TurboLib) : Prop where
  alphabet : ∀ t, ∀ c ∈ T.encodeBin t, isPlain c ∧ c ≠ 126
  decode : ∀ t rest, (rest = [] ∨ rest.head? = some 46) → T.decodeAs (T.encodeBin t ++ rest) = t

/-- What is relied on of `bounded_time_vector`: incrementing the merge of versions gives a version that is
none of them, as long as no count is used up. -/
structure TurboLib.Advances (T : TurboLib) : Prop where
  bounded : ∀ v id now, T.increment v id now ≠ [] ∧ (T.increment v id now).length ≤ 6
  keys : ∀ (vs : List VectorClock) id now, ∀ c ∈ T.increment (vs.foldl T.merge []) id now,
    c.key = id ∨ ∃ v ∈ vs, ∃ d ∈ v, c.key = d.key
  counts : ∀ (vs : List VectorClock) id now, (∀ v ∈ vs, ∀ c ∈ v, c.count < 2 ^ 64 - 1) →
    ∀ c ∈ T.increment (vs.foldl T.merge []) id now, c.count < 2 ^ 64
  fresh : ∀ (vs : List VectorClock) id now, (∀ v ∈ vs, ∀ c ∈ v, c.count < 2 ^ 64 - 1) →
    T.increment (vs.foldl T.merge []) id now ∉ vs

/-- What is relied on of turbolib by the versions that the simple store reads off its files. -/
structure TurboLib.Stamps (T : TurboLib) : Prop where
  width : ∀ t u, (T.encodeBin t).length = (T.encodeBin u).length
  sec : ∀ t, T.increment [] (ascii "sec") t = [⟨ascii "sec", t, 0⟩]
  delete : ∀ t u, T.increment [⟨ascii "sec", t, 0⟩] (ascii "delete") u =
    [⟨ascii "delete", u, 0⟩, ⟨ascii "sec", t, 0⟩]

namespace VectorClock

section Names

variable {T : TurboLib}

lemma mem_decimal {n : ℕ} {c : UInt8} (h : c ∈ decimal n) : isDigit c := by
  simp only [decimal] at h
  split at h
  · obtain rfl := List.mem_singleton.1 h
    decide
  · obtain ⟨d, hd, rfl⟩ := List.mem_map.1 (List.mem_reverse.1 h)
    have hlt : d < 10 := Nat.digits_lt_base (by omega) hd
    interval_cases d <;> decide

lemma isPlain_of_isDigit {c : UInt8} (h : isDigit c) : isPlain c ∧ c ≠ 126 := by
  simp only [isDigit, Bool.and_eq_true, decide_eq_true_eq, UInt8.le_iff_toNat_le] at h
  simp only [isPlain, isSpace, ne_eq, ← UInt8.toNat_inj, UInt8.le_iff_toNat_le, Bool.and_eq_true, decide_eq_true_eq,
    Bool.not_eq_true', Bool.or_eq_false_iff, decide_eq_false_iff_not]
  have h₁ : 48 ≤ c.toNat := h.1
  have h₂ : c.toNat ≤ 57 := h.2
  simp
  omega

lemma decimal_ne_nil (n : ℕ) : decimal n ≠ [] := by
  simp only [decimal]
  split
  · simp
  · simpa [Nat.digits_ne_nil_iff_ne_zero] using ‹_›

lemma mem_printClock_tail (hT : T.Base64) {c : Clock} {b : UInt8}
    (h : b ∈ T.encodeBin c.time ++ if c.count = 0 then [] else 46 :: decimal c.count) :
    (isPlain b ∧ b ≠ 126) ∨ b = 46 := by
  rcases List.mem_append.1 h with h | h
  · exact Or.inl (hT.alphabet _ _ h)
  · split at h
    · simp at h
    · rcases List.mem_cons.1 h with h | h
      · exact Or.inr h
      · exact Or.inl (isPlain_of_isDigit (mem_decimal h))

lemma comma_mem_toString {v : VectorClock} (h : v ≠ []) : 44 ∈ toString T v := by
  obtain ⟨c, cs, rfl⟩ := List.exists_cons_of_ne_nil h
  simp [toString]

lemma getLast?_toString (hT : T.Base64) {v : VectorClock} (h : v ≠ []) : (toString T v).getLast? ≠ some 126 := by
  obtain ⟨cs, c, rfl⟩ := (List.eq_nil_or_concat' v).resolve_left h
  -- the last clock ends with its dot, its time and its count
  have hlast : toString T (cs ++ [c]) = (decimal (cs ++ [c]).length ++ (cs.flatMap fun c => 44 :: printClock T c) ++
      (44 :: c.key)) ++ 46 :: (T.encodeBin c.time ++ if c.count = 0 then [] else 46 :: decimal c.count) := by
    simp [toString, printClock]
  rw [hlast, List.getLast?_append_of_ne_nil _ (by simp)]
  intro htilde
  rcases List.mem_cons.1 (List.mem_of_getLast? htilde) with h | h
  · exact absurd h (by decide)
  · rcases mem_printClock_tail hT h with h | h
    · exact absurd h (by decide)
    · exact absurd h (by decide)

namespace IsVersion

variable {v : Bytes}

lemma toString_ofName (h : IsVersion T v) : toString T (ofName T v) = v := by
  obtain ⟨clock, hparse, -, hprint⟩ := h.canonical
  simp [ofName, hparse, hprint]

lemma ofName_ne_nil (h : IsVersion T v) : ofName T v ≠ [] := by
  obtain ⟨clock, hparse, hne, -⟩ := h.canonical
  simpa [ofName, hparse] using hne

lemma fromString (h : IsVersion T v) : fromString T v = .parsed (ofName T v) := by
  obtain ⟨clock, hparse, -, -⟩ := h.canonical
  simp [ofName, hparse]

lemma comma (h : IsVersion T v) : 44 ∈ v := h.toString_ofName ▸ comma_mem_toString h.ofName_ne_nil

lemma getLast? (hT : T.Base64) (h : IsVersion T v) : v.getLast? ≠ some 126 :=
  h.toString_ofName ▸ getLast?_toString hT h.ofName_ne_nil

lemma ne_dot (h : IsVersion T v) : v ≠ [46] := by
  rintro rfl
  exact absurd h.comma (by decide)

end IsVersion

end Names

end VectorClock

end Turbopump
