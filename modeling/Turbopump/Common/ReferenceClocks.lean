import Turbopump.Common.VersionString
import Turbopump.Lib.Digits

/-! Integers in base 64 and clock vectors that have what is relied on of turbolib. -/

namespace Turbopump

namespace Base64

def symbol (d : ℕ) : UInt8 := UInt8.ofNat <|
  if d < 10 then 48 + d else if d < 36 then 55 + d else if d = 36 then 45 else if d = 37 then 95 else 59 + d

def index (c : UInt8) : ℕ :=
  if c ≤ 45 then 36 else if c ≤ 57 then c.toNat - 48 else if c ≤ 90 then c.toNat - 55 else if c = 95 then 37
  else c.toNat - 59

lemma index_symbol {d : ℕ} (h : d < 64) : index (symbol d) = d := by
  have : ∀ d : Fin 64, index (symbol d) = d := by decide
  exact this ⟨d, h⟩

lemma isPlain_symbol {d : ℕ} (h : d < 64) : isPlain (symbol d) ∧ symbol d ≠ 126 := by
  have : ∀ d : Fin 64, isPlain (symbol d) ∧ symbol d ≠ 126 := by decide
  exact this ⟨d, h⟩

def encodeBin (t : UInt64) : Bytes := (lowDigits 64 11 (4 * swapBytes t.toNat)).reverse.map symbol ++ [61]

def decodeAs (s : Bytes) : UInt64 :=
  UInt64.ofNat (swapBytes (Nat.ofDigits 64 ((s.take 11).map index).reverse / 4))

lemma decodeAs_encodeBin (t : UInt64) (rest : Bytes) : decodeAs (encodeBin t ++ rest) = t := by
  have hmem : ∀ d ∈ (lowDigits 64 11 (4 * swapBytes t.toNat)).reverse, index (symbol d) = d := fun d hd =>
    index_symbol (lt_of_mem_lowDigits (by omega) (List.mem_reverse.1 hd))
  have hindex : ((lowDigits 64 11 (4 * swapBytes t.toNat)).reverse.map symbol).map index =
      (lowDigits 64 11 (4 * swapBytes t.toNat)).reverse := by
    rw [List.map_map]
    exact (List.map_congr_left hmem).trans (List.map_id' _)
  have htake : (encodeBin t ++ rest).take 11 = (lowDigits 64 11 (4 * swapBytes t.toNat)).reverse.map symbol := by
    rw [encodeBin, List.append_assoc]
    exact List.take_left' (by simp)
  have hlt := swapBytes_lt t.toNat
  rw [decodeAs, htake, hindex, List.reverse_reverse, ofDigits_lowDigits (by omega),
    Nat.mul_div_cancel_left _ (by omega), swapBytes_swapBytes t.toNat_lt, UInt64.ofNat_toNat]

example : encodeBin 1 = ascii "0G000000000=" := by decide

end Base64

namespace Clocks

def notAfter (c d : Clock) : Bool := c.time < d.time || (c.time = d.time && c.count ≤ d.count)

def covers (u v : VectorClock) : Bool := u.all fun c => v.any fun d => d.key = c.key && notAfter c d

def compare (u v : VectorClock) : Compare := match covers u v, covers v u with
  | true, true => .equal
  | true, false => .lessThan
  | false, true => .greaterThan
  | false, false => .conflict

def merge (u v : VectorClock) : VectorClock := u ++ v.filter (· ∉ u)

def newest (key : Bytes) : VectorClock → Option Clock
  | [] => none
  | c :: cs => if c.key = key then match newest key cs with
      | none => some c
      | some d => some (if notAfter c d then d else c)
    else newest key cs

def next (v : VectorClock) (key : Bytes) (now : UInt64) : Clock := match newest key v with
  | none => ⟨key, now, 0⟩
  | some c => if c.time < now then ⟨key, now, 0⟩ else ⟨key, c.time, c.count + 1⟩

def increment (v : VectorClock) (key : Bytes) (now : UInt64) : VectorClock :=
  (next v key now :: v.filter fun c => c.key ≠ key).take 6

lemma mem_merged {vs : List VectorClock} {u : VectorClock} {c : Clock} :
    c ∈ vs.foldl merge u ↔ c ∈ u ∨ ∃ v ∈ vs, c ∈ v := by
  induction vs generalizing u with
  | nil => simp
  | cons v vs ih =>
    rw [List.foldl_cons, ih]
    by_cases hu : c ∈ u <;> simp [merge, hu]

lemma notAfter_iff {c d : Clock} : notAfter c d ↔ c.time < d.time ∨ c.time = d.time ∧ c.count ≤ d.count := by
  simp [notAfter]

lemma notAfter_trans {c d e : Clock} (h : notAfter c d) (h' : notAfter d e) : notAfter c e := by
  rw [notAfter_iff] at *
  simp only [UInt64.lt_iff_toNat_lt, ← UInt64.toNat_inj] at *
  omega

lemma notAfter_total {c d : Clock} (h : ¬ notAfter c d) : notAfter d c := by
  rw [notAfter_iff] at *
  simp only [UInt64.lt_iff_toNat_lt, ← UInt64.toNat_inj] at *
  omega

lemma newest_none {key : Bytes} {v : VectorClock} (h : newest key v = none) : ∀ c ∈ v, c.key ≠ key := by
  induction v with
  | nil => simp
  | cons c cs ih =>
    simp only [newest] at h
    split_ifs at h with hc
    · split at h <;> simp at h
    · exact List.forall_mem_cons.2 ⟨hc, ih h⟩

lemma newest_some {key : Bytes} {v : VectorClock} {d : Clock} (h : newest key v = some d) :
    d ∈ v ∧ ∀ c ∈ v, c.key = key → notAfter c d := by
  induction v generalizing d with
  | nil => simp [newest] at h
  | cons c cs ih =>
    simp only [newest] at h
    split_ifs at h with hc
    · cases he : newest key cs with
      | none =>
        simp only [he, Option.some.injEq] at h
        subst h
        refine ⟨by simp, List.forall_mem_cons.2 ⟨fun _ => by simp [notAfter], fun e hmem hkey => ?_⟩⟩
        exact absurd hkey (newest_none he e hmem)
      | some e =>
        simp only [he, Option.some.injEq] at h
        obtain ⟨hmem, hlate⟩ := ih he
        by_cases hce : notAfter c e
        · rw [if_pos hce] at h
          subst h
          exact ⟨List.mem_cons_of_mem _ hmem, List.forall_mem_cons.2 ⟨fun _ => hce, hlate⟩⟩
        · rw [if_neg hce] at h
          subst h
          refine ⟨by simp, List.forall_mem_cons.2 ⟨fun _ => by simp [notAfter], fun b hb hkey => ?_⟩⟩
          exact notAfter_trans (hlate b hb hkey) (notAfter_total hce)
    · obtain ⟨hmem, hlate⟩ := ih h
      exact ⟨List.mem_cons_of_mem _ hmem, List.forall_mem_cons.2 ⟨fun hkey => absurd hkey hc, hlate⟩⟩

lemma next_after {v : VectorClock} {key : Bytes} (now : UInt64) {c : Clock} (hc : c ∈ v) (hkey : c.key = key) :
    ¬ notAfter (next v key now) c := by
  intro hafter
  cases hd : newest key v with
  | none => exact newest_none hd c hc hkey
  | some d =>
    have hcd := (newest_some hd).2 c hc hkey
    simp only [next, hd] at hafter
    split_ifs at hafter with hnow <;> rw [notAfter_iff] at hafter hcd <;>
      simp only [UInt64.lt_iff_toNat_lt, ← UInt64.toNat_inj] at hafter hcd hnow <;> omega

lemma mem_increment {v : VectorClock} {key : Bytes} {now : UInt64} {c : Clock} (h : c ∈ increment v key now) :
    c = next v key now ∨ c ∈ v := by
  rcases List.mem_cons.1 (List.mem_of_mem_take h) with h | h
  · exact Or.inl h
  · exact Or.inr (List.mem_of_mem_filter h)

lemma next_key (v : VectorClock) (key : Bytes) (now : UInt64) : (next v key now).key = key := by
  simp only [next]
  split
  · rfl
  · split_ifs <;> rfl

section Latest

def put (v : VectorClock) (c : Clock) : VectorClock :=
  if ∃ d ∈ v, d.key = c.key ∧ notAfter c d then v else v.filter (·.key ≠ c.key) ++ [c]

def mergeLatest (u v : VectorClock) : VectorClock := v.foldl put u

def incrementLatest (v : VectorClock) (key : Bytes) (now : UInt64) : VectorClock :=
  (next v key now :: mergeLatest [] (v.filter (·.key ≠ key))).take 6

lemma notAfter_refl (c : Clock) : notAfter c c := by simp [notAfter]

variable {u v : VectorClock} {c d : Clock}

lemma mem_put (h : d ∈ put v c) : d ∈ v ∨ d = c := by
  rw [put] at h
  split_ifs at h
  · exact .inl h
  · rcases List.mem_append.1 h with h | h
    · exact .inl (List.mem_of_mem_filter h)
    · exact .inr (List.mem_singleton.1 h)

lemma put_covers (h : d ∈ v ∨ d = c) : ∃ e ∈ put v c, e.key = d.key ∧ notAfter d e := by
  rw [put]
  split_ifs with hcovered
  · rcases h with h | rfl
    · exact ⟨d, h, rfl, notAfter_refl d⟩
    · exact hcovered
  · rcases h with h | rfl
    · by_cases hkey : d.key = c.key
      · exact ⟨c, by simp, hkey.symm, notAfter_total fun hafter => hcovered ⟨d, h, hkey, hafter⟩⟩
      · exact ⟨d, List.mem_append_left _ (List.mem_filter.2 ⟨h, by simpa using hkey⟩), rfl, notAfter_refl d⟩
    · exact ⟨d, by simp, rfl, notAfter_refl d⟩

lemma nodup_put (h : (v.map Clock.key).Nodup) (c : Clock) : ((put v c).map Clock.key).Nodup := by
  rw [put]
  split_ifs
  · exact h
  · rw [List.map_append, List.nodup_append]
    refine ⟨h.sublist (List.filter_sublist.map _), by simp, ?_⟩
    simp only [List.map_cons, List.map_nil, List.mem_singleton, List.mem_map, List.mem_filter]
    rintro _ ⟨d, ⟨-, hd⟩, rfl⟩ _ rfl
    simpa using hd

lemma mem_mergeLatest (h : c ∈ mergeLatest u v) : c ∈ u ∨ c ∈ v := by
  induction v generalizing u with
  | nil => exact .inl h
  | cons d v ih =>
    rcases ih h with h | h
    · rcases mem_put h with h | rfl
      · exact .inl h
      · exact .inr List.mem_cons_self
    · exact .inr (List.mem_cons_of_mem _ h)

lemma mergeLatest_covers (h : c ∈ u ∨ c ∈ v) : ∃ d ∈ mergeLatest u v, d.key = c.key ∧ notAfter c d := by
  induction v generalizing u c with
  | nil => exact ⟨c, h.resolve_right (by simp), rfl, notAfter_refl c⟩
  | cons d v ih =>
    have hnext : ∃ e, (e ∈ put u d ∨ e ∈ v) ∧ e.key = c.key ∧ notAfter c e := by
      rw [List.mem_cons, ← or_assoc] at h
      rcases h with h | h
      · obtain ⟨e, he, hkey, hafter⟩ := put_covers h
        exact ⟨e, .inl he, hkey, hafter⟩
      · exact ⟨c, .inr h, rfl, notAfter_refl c⟩
    obtain ⟨e, he, hkey, hafter⟩ := hnext
    obtain ⟨f, hf, hkey', hafter'⟩ := ih he
    exact ⟨f, hf, hkey'.trans hkey, notAfter_trans hafter hafter'⟩

lemma nodup_mergeLatest (h : (u.map Clock.key).Nodup) (v : VectorClock) : ((mergeLatest u v).map Clock.key).Nodup := by
  induction v generalizing u with
  | nil => exact h
  | cons c v ih => exact ih (nodup_put h c)

lemma mergeLatest_append (h : ((u ++ v).map Clock.key).Nodup) : mergeLatest u v = u ++ v := by
  induction v generalizing u with
  | nil => simp [mergeLatest]
  | cons c v ih =>
    have hnew : ∀ d ∈ u, d.key ≠ c.key := by
      rw [List.map_append, List.nodup_append] at h
      exact fun d hd => h.2.2 _ (List.mem_map_of_mem hd) _ (by simp)
    have hput : put u c = u ++ [c] := by
      rw [put, if_neg fun hold => ?_, List.filter_eq_self.2 fun d hd => by simpa using hnew d hd]
      obtain ⟨d, hd, hkey, -⟩ := hold
      exact hnew d hd hkey
    rw [mergeLatest, List.foldl_cons, hput]
    exact (ih (by simpa using h)).trans (by simp)

end Latest

end Clocks

def TurboLib.reference : TurboLib :=
  ⟨Base64.encodeBin, Base64.decodeAs, Clocks.compare, Clocks.merge, Clocks.increment⟩

namespace TurboLib

lemma reference_base64 : reference.Base64 where
  alphabet := by
    intro t c hc
    rcases List.mem_append.1 hc with hc | hc
    · obtain ⟨d, hd, rfl⟩ := List.mem_map.1 hc
      exact Base64.isPlain_symbol (lt_of_mem_lowDigits (by omega) (List.mem_reverse.1 hd))
    · obtain rfl := List.mem_singleton.1 hc
      decide
  decode := fun t rest _ => Base64.decodeAs_encodeBin t rest

lemma reference_advances : reference.Advances where
  bounded v id now := ⟨by simp [reference, Clocks.increment], by simp [reference, Clocks.increment]⟩
  keys := by
    intro vs id now c hc
    rcases Clocks.mem_increment hc with rfl | hc
    · exact Or.inl (Clocks.next_key _ _ _)
    · obtain hc | ⟨v, hv, hc⟩ := Clocks.mem_merged.1 hc
      · simp at hc
      · exact Or.inr ⟨v, hv, c, hc, rfl⟩
  counts := by
    intro vs id now hcounts c hc
    have hold : ∀ d ∈ vs.foldl Clocks.merge [], d.count < 2 ^ 64 - 1 := by
      intro d hd
      obtain hd | ⟨v, hv, hd⟩ := Clocks.mem_merged.1 hd
      · simp at hd
      · exact hcounts v hv d hd
    rcases Clocks.mem_increment hc with rfl | hc
    · simp only [Clocks.next]
      split
      case h_1 => simp
      case h_2 d hd =>
        have := hold d (Clocks.newest_some hd).1
        split_ifs
        · simp
        · show d.count + 1 < 2 ^ 64
          omega
    · exact (hold c hc).trans (by omega)
  fresh := by
    intro vs id now _ hmem
    -- the next clock would be one of those that it follows
    have hnext : Clocks.next (vs.foldl Clocks.merge []) id now ∈ vs.foldl Clocks.merge [] :=
      Clocks.mem_merged.2 (Or.inr ⟨_, hmem, by simp [reference, Clocks.increment]⟩)
    exact Clocks.next_after now hnext (Clocks.next_key _ _ _) (by simp [Clocks.notAfter])

lemma reference_stamps : reference.Stamps where
  width t u := by simp [reference, Base64.encodeBin]
  sec t := by simp [reference, Clocks.increment, Clocks.next, Clocks.newest]
  delete t u := by
    have hne : ascii "sec" ≠ ascii "delete" := by decide
    simp [reference, Clocks.increment, Clocks.next, Clocks.newest, hne]

def wrapping : TurboLib :=
  { reference with
    increment := fun v key now => (Clocks.increment v key now).map fun c => { c with count := c.count % 2 ^ 64 } }

lemma wrapping_base64 : wrapping.Base64 := ⟨reference_base64.alphabet, reference_base64.decode⟩

lemma wrapping_printable : wrapping.Printable where
  bounded v id now := by simp [wrapping, Clocks.increment]
  merge u v hu hv c hc := by
    rcases List.mem_append.1 hc with hc | hc
    · exact hu c hc
    · exact hv c (List.mem_of_mem_filter hc)
  increment v id now hid hv c hc := by
    obtain ⟨d, hd, rfl⟩ := List.mem_map.1 hc
    refine ⟨fun b hb => ?_, Nat.mod_lt _ (by decide)⟩
    rcases Clocks.mem_increment hd with rfl | hd
    · exact hid b (Clocks.next_key v id now ▸ hb)
    · exact (hv d hd).key b hb
  self v := by
    have hcovers : Clocks.covers v v = true := by
      rw [Clocks.covers, List.all_eq_true]
      intro c hc
      exact List.any_eq_true.2 ⟨c, hc, by simp [Clocks.notAfter]⟩
    simp [wrapping, reference, Clocks.compare, hcovers]

def latest : TurboLib :=
  { reference with
    merge := Clocks.mergeLatest
    increment := fun v key now => (Clocks.incrementLatest v key now).map fun c => { c with count := c.count % 2 ^ 64 } }

lemma latest_base64 : latest.Base64 := ⟨reference_base64.alphabet, reference_base64.decode⟩

lemma latest_mem {v : VectorClock} {id : Bytes} {now : UInt64} {c : Clock} (h : c ∈ Clocks.incrementLatest v id now) :
    c = Clocks.next v id now ∨ c ∈ v := by
  rcases List.mem_cons.1 (List.mem_of_mem_take h) with h | h
  · exact .inl h
  · exact .inr (List.mem_of_mem_filter ((Clocks.mem_mergeLatest h).resolve_left (by simp)))

lemma latest_printable : latest.Printable where
  bounded v id now := by simp [latest, Clocks.incrementLatest]
  merge u v hu hv c hc := (Clocks.mem_mergeLatest hc).elim (hu c) (hv c)
  increment v id now hid hv c hc := by
    obtain ⟨d, hd, rfl⟩ := List.mem_map.1 hc
    refine ⟨fun b hb => ?_, Nat.mod_lt _ (by decide)⟩
    rcases latest_mem hd with rfl | hd
    · exact hid b (Clocks.next_key v id now ▸ hb)
    · exact (hv d hd).key b hb
  self := wrapping_printable.self

end TurboLib

end Turbopump
