import Turbopump.Common.VectorClock

/-! A printed version is read back as the clocks that it was printed from. -/

namespace Turbopump

def isLegible (c : UInt8) : Bool := c ≠ 44 && c ≠ 46 && ! isSpace c

structure Clock.Legible (c : Clock) : Prop where
  key : ∀ b ∈ c.key, isLegible b
  count : c.count < 2 ^ 64

structure Clock.Plain (c : Clock) : Prop where
  key : ∀ b ∈ c.key, isPlain b
  count : c.count < 2 ^ 64

/-- What the printing of clocks relies on of `base64`. Decoding stops at a dot: `parseClock` hands it the time with
the count still behind it. -/
structure TurboLib.Inverts (T : TurboLib) : Prop where
  alphabet : ∀ t, ∀ c ∈ T.encodeBin t, isLegible c
  decode : ∀ t rest, (rest = [] ∨ rest.head? = some 46) → T.decodeAs (T.encodeBin t ++ rest) = t

lemma isLegible_of_isPlain {c : UInt8} (h : isPlain c) : isLegible c := by
  simp only [isPlain, isLegible, Bool.and_eq_true] at h ⊢
  exact ⟨h.1.1, h.2⟩

lemma Clock.Plain.legible {c : Clock} (h : c.Plain) : c.Legible :=
  ⟨fun b hb => isLegible_of_isPlain (h.key b hb), h.count⟩

lemma TurboLib.Base64.inverts {T : TurboLib} (hT : T.Base64) : T.Inverts :=
  ⟨fun t c hc => isLegible_of_isPlain (hT.alphabet t c hc).1, hT.decode⟩

/-- What is relied on of `bounded_time_vector`: its clocks have the keys that they are given and 64-bit counts, and
a version is equal to itself. -/
structure TurboLib.Printable (T : TurboLib) : Prop where
  bounded : ∀ v id now, T.increment v id now ≠ [] ∧ (T.increment v id now).length ≤ 6
  merge : ∀ u v : VectorClock, (∀ c ∈ u, c.Plain) → (∀ c ∈ v, c.Plain) → ∀ c ∈ T.merge u v, c.Plain
  increment : ∀ (v : VectorClock) id now, (∀ b ∈ id, isPlain b) → (∀ c ∈ v, c.Plain) →
    ∀ c ∈ T.increment v id now, c.Plain
  self : ∀ v, T.compare v v = .equal

namespace VectorClock

section Span

variable {α : Type} {p : α → Bool} {l r : List α}

lemma takeWhile_append_stop (hl : ∀ a ∈ l, p a) (hr : ∀ a ∈ r.head?, ¬ p a) : (l ++ r).takeWhile p = l := by
  rw [List.takeWhile_append_of_pos hl]
  cases r with
  | nil => simp
  | cons a r => simp [hr a rfl]

lemma dropWhile_append_stop (hl : ∀ a ∈ l, p a) (hr : ∀ a ∈ r.head?, ¬ p a) : (l ++ r).dropWhile p = r := by
  rw [List.dropWhile_append_of_pos hl]
  cases r with
  | nil => simp
  | cons a r => simp [hr a rfl]

end Span

section Decimal

variable {n bound : ℕ} {s : Bytes}

lemma ofDecimal_decimal (n : ℕ) : ofDecimal (decimal n) = n := by
  by_cases hn : n = 0
  · subst hn
    decide
  · have hdigit : ∀ d ∈ Nat.digits 10 n, (UInt8.ofNat (48 + d)).toNat - 48 = d := by
      intro d hd
      have hlt : d < 10 := Nat.digits_lt_base (by omega) hd
      rw [UInt8.toNat_ofNat']
      omega
    have hmap : (Nat.digits 10 n).map (fun d => (UInt8.ofNat (48 + d)).toNat - 48) = Nat.digits 10 n :=
      (List.map_congr_left hdigit).trans (List.map_id' _)
    simp only [ofDecimal, decimal, if_neg hn, List.reverse_reverse, List.map_map]
    exact (congrArg (Nat.ofDigits 10) hmap).trans (Nat.ofDigits_digits 10 n)

lemma readSign_digits {c : UInt8} {cs : Bytes} (h : isDigit c) :
    readSign ((c :: cs).dropWhile isSpace) = (false, c :: cs) := by
  have hplain := (isPlain_of_isDigit h).1
  have hspace : isSpace c = false := by
    simp only [isPlain, Bool.and_eq_true, Bool.not_eq_true'] at hplain
    exact hplain.2
  rw [List.dropWhile_cons_of_neg (by simp [hspace])]
  unfold readSign
  split
  case h_1 heq =>
    obtain ⟨rfl, -⟩ := List.cons.inj heq
    exact absurd h (by decide)
  case h_2 heq =>
    obtain ⟨rfl, -⟩ := List.cons.inj heq
    exact absurd h (by decide)
  case h_3 => rfl

lemma readUnsigned_printed (hs : ∀ c ∈ s.head?, isDigit c = false) :
    readUnsigned bound (decimal n ++ s) = if bound ≤ n then none else some (n, s) := by
  have hdigits : ∀ c ∈ decimal n, isDigit c := fun c hc => mem_decimal hc
  have hstop : ∀ c ∈ s.head?, ¬ isDigit c := by simpa using hs
  obtain ⟨c, cs, hcons⟩ := List.exists_cons_of_ne_nil (decimal_ne_nil n)
  have hsign : readSign ((decimal n ++ s).dropWhile isSpace) = (false, decimal n ++ s) := by
    rw [hcons, List.cons_append]
    exact readSign_digits (hdigits c (by simp [hcons]))
  simp only [readUnsigned, hsign, takeWhile_append_stop hdigits hstop, dropWhile_append_stop hdigits hstop,
    decimal_ne_nil, ofDecimal_decimal, if_false, Bool.false_eq_true]

lemma readUnsigned_decimal (hn : n < bound) (hs : ∀ c ∈ s.head?, isDigit c = false) :
    readUnsigned bound (decimal n ++ s) = some (n, s) := by
  rw [readUnsigned_printed hs, if_neg (Nat.not_le.2 hn)]

end Decimal

section RoundTrip

variable {T : TurboLib} {c : Clock} {s : Bytes}

lemma parseClock_printClock (hT : T.Inverts) (h : c.Legible) : parseClock T (printClock T c) = .parsed c := by
  have hdot : ∀ b, isLegible b → decide (b ≠ 46) := by
    intro b hb
    simp only [isLegible, Bool.and_eq_true] at hb
    exact hb.1.2
  have hkey : ∀ b ∈ c.key, decide (b ≠ 46) := fun b hb => hdot b (h.key b hb)
  have htime : ∀ b ∈ T.encodeBin c.time, decide (b ≠ 46) := fun b hb => hdot b (hT.alphabet _ b hb)
  set tail : Bytes := if c.count = 0 then [] else 46 :: decimal c.count with htail
  have hstop : ∀ b ∈ tail.head?, ¬ decide (b ≠ 46) := by
    intro b hb
    rw [htail] at hb
    split_ifs at hb
    · simp at hb
    · obtain rfl : 46 = b := by simpa using hb
      decide
  have hprint : printClock T c = c.key ++ 46 :: (T.encodeBin c.time ++ tail) := by
    rw [printClock, htail, List.append_assoc, List.cons_append]
  simp only [parseClock, hprint, takeWhile_append_stop hkey (r := 46 :: (T.encodeBin c.time ++ tail)) (by simp),
    dropWhile_append_stop hkey (r := 46 :: (T.encodeBin c.time ++ tail)) (by simp),
    takeWhile_append_stop htime hstop, dropWhile_append_stop htime hstop]
  by_cases hc : c.count = 0
  · have hdecode := hT.decode c.time [] (Or.inl rfl)
    rw [List.append_nil] at hdecode
    simp only [htail, if_pos hc, hdecode]
    rw [← hc]
  · have hcount := readUnsigned_decimal (s := []) h.count (by simp)
    rw [List.append_nil] at hcount
    -- the time is decoded from a substring that may reach past it
    have hdecode : T.decodeAs ((T.encodeBin c.time ++ 46 :: decimal c.count).take
        (c.key.length + 1 + (T.encodeBin c.time).length)) = c.time := by
      rw [List.take_append, List.take_of_length_le (by omega)]
      refine hT.decode c.time _ (Or.inr ?_)
      rw [show c.key.length + 1 + (T.encodeBin c.time).length - (T.encodeBin c.time).length = c.key.length + 1 by omega]
      rfl
    simp only [htail, if_neg hc, hcount, hdecode]

lemma mem_printClock (hT : T.Inverts) (h : c.Legible) {b : UInt8} (hb : b ∈ printClock T c) :
    isLegible b ∨ b = 46 := by
  rw [printClock, List.append_assoc, List.cons_append, List.mem_append] at hb
  rcases hb with hb | hb
  · exact Or.inl (h.key b hb)
  · rcases List.mem_cons.1 hb with hb | hb
    · exact Or.inr hb
    · rcases List.mem_append.1 hb with hb | hb
      · exact Or.inl (hT.alphabet _ b hb)
      · split_ifs at hb
        · simp at hb
        · exact (List.mem_cons.1 hb).symm.imp_left fun hb =>
            isLegible_of_isPlain (isPlain_of_isDigit (mem_decimal hb)).1

lemma slash_printClock (hT : T.Base64) (h : c.Plain) : 47 ∉ printClock T c := by
  intro hb
  rw [printClock, List.append_assoc, List.cons_append, List.mem_append] at hb
  rcases hb with hb | hb
  · exact absurd (h.key _ hb) (by decide)
  · rcases List.mem_cons.1 hb with hb | hb
    · exact absurd hb (by decide)
    · rcases mem_printClock_tail hT hb with hb | hb
      · exact absurd hb.1 (by decide)
      · exact absurd hb (by decide)

lemma printClock_not_space (hT : T.Inverts) (h : c.Legible) : ∀ b ∈ printClock T c, ! isSpace b := by
  intro b hb
  rcases mem_printClock hT h hb with hb | rfl
  · simp only [isLegible, Bool.and_eq_true] at hb
    exact hb.2
  · decide

lemma readToken_printClock (hT : T.Inverts) (h : c.Legible) (hs : ∀ b ∈ s.head?, isSpace b) :
    readToken (32 :: (printClock T c ++ s)) = some (printClock T c, s) := by
  have hns := printClock_not_space hT h
  have hne : printClock T c ≠ [] := by simp [printClock]
  obtain ⟨b, bs, hcons⟩ := List.exists_cons_of_ne_nil hne
  have hb : isSpace b = false := by simpa using hns b (by simp [hcons])
  have hdrop : (32 :: (printClock T c ++ s)).dropWhile isSpace = printClock T c ++ s := by
    rw [List.dropWhile_cons_of_pos (by decide), hcons, List.cons_append, List.dropWhile_cons_of_neg (by simp [hb])]
  have hstop : ∀ b ∈ s.head?, ¬ (! isSpace b) := fun b hb => by simp [hs b hb]
  simp only [readToken, hdrop, takeWhile_append_stop hns hstop, dropWhile_append_stop hns hstop, hne, if_false]

def spaced (T : TurboLib) (v : VectorClock) : Bytes := v.flatMap fun c => 32 :: printClock T c

lemma mem_head?_spaced {v : VectorClock} : ∀ b ∈ (spaced T v).head?, b = 32 := by
  intro b hb
  cases v with
  | nil => simp [spaced] at hb
  | cons d v => simpa [spaced, eq_comm] using hb

lemma parseClocks_spaced (hT : T.Inverts) (v : VectorClock) (h : ∀ c ∈ v, c.Legible) :
    parseClocks T v.length (spaced T v) = .parsed v := by
  induction v with
  | nil => rfl
  | cons c v ih =>
    obtain ⟨hc, hv⟩ := List.forall_mem_cons.1 h
    have hstop : ∀ b ∈ (spaced T v).head?, isSpace b := fun b hb => mem_head?_spaced b hb ▸ by decide
    have hcons : spaced T (c :: v) = 32 :: (printClock T c ++ spaced T v) := rfl
    simp only [List.length_cons, hcons, parseClocks, readToken_printClock hT hc hstop,
      parseClock_printClock hT hc, ih hv]

lemma map_comma {l : Bytes} (h : 44 ∉ l) : l.map (fun c => if c = 44 then 32 else c) = l := by
  have hid : ∀ c ∈ l, (if c = 44 then 32 else c) = c := by
    intro c hc
    rw [if_neg]
    rintro rfl
    exact h hc
  exact (List.map_congr_left hid).trans (List.map_id' _)

lemma map_toString (hT : T.Inverts) {v : VectorClock} (h : ∀ c ∈ v, c.Legible) :
    (toString T v).map (fun c => if c = 44 then 32 else c) = decimal v.length ++ spaced T v := by
  rw [toString, List.map_append, map_comma fun hc => absurd (mem_decimal hc) (by decide), List.map_flatMap]
  congr 1
  refine List.flatMap_congr fun c hc => ?_
  rw [List.map_cons, if_pos rfl, map_comma fun hcomma => ?_]
  rcases mem_printClock hT (h c hc) hcomma with hb | hb
  · exact absurd hb (by decide)
  · exact absurd hb (by decide)

lemma isDigit_head?_spaced {v : VectorClock} : ∀ b ∈ (spaced T v).head?, isDigit b = false :=
  fun b hb => mem_head?_spaced b hb ▸ by decide

lemma parsed_toString (hT : T.Inverts) {v : VectorClock} (h : ∀ c ∈ v, c.Legible) (hlen : v.length < 2 ^ 32) :
    fromString T (toString T v) = .parsed v := by
  simp only [fromString, map_toString hT h, readUnsigned_decimal hlen isDigit_head?_spaced, parseClocks_spaced hT v h]

theorem fromString_toString (hT : T.Base64) {v : VectorClock} (h : ∀ c ∈ v, c.Plain) (hlen : v.length < 2 ^ 32) :
    fromString T (toString T v) = .parsed v :=
  parsed_toString hT.inverts (fun c hc => (h c hc).legible) hlen

theorem isVersion_toString (hT : T.Base64) {v : VectorClock} (hne : v ≠ []) (h : ∀ c ∈ v, c.Plain)
    (hlen : v.length < 2 ^ 32) : IsVersion T (toString T v) where
  canonical := ⟨v, fromString_toString hT h hlen, hne, rfl⟩
  slash := by
    intro hslash
    rw [toString, List.mem_append, List.mem_flatMap] at hslash
    rcases hslash with hslash | ⟨c, hc, hslash⟩
    · exact absurd (mem_decimal hslash) (by decide)
    · rcases List.mem_cons.1 hslash with hslash | hslash
      · exact absurd hslash (by decide)
      · exact slash_printClock hT (h c hc) hslash

/-- The first slash of a printed version stands in one of its clocks, behind a comma. -/
lemma comma_of_slash {v : VectorClock} (hne : v ≠ []) {a b : Bytes} (hv : toString T v = a ++ 47 :: b) : 44 ∈ a := by
  by_contra hcomma
  obtain ⟨d, ds, rfl⟩ := List.exists_cons_of_ne_nil hne
  have hdigits {k : ℕ} {x : UInt8} (hx : ¬ isDigit x) : ∀ y ∈ decimal k, decide (y ≠ x) := by
    intro y hy
    rw [decide_eq_true_iff]
    rintro rfl
    exact hx (mem_decimal hy)
  have htake : (toString T (d :: ds)).takeWhile (fun y => decide (y ≠ 44)) = decimal (d :: ds).length := by
    rw [toString, List.flatMap_cons, List.cons_append]
    exact takeWhile_append_stop (hdigits (by decide)) (by simp)
  have hbefore : ∀ y ∈ a ++ [47], decide (y ≠ 44) := by
    intro y hy
    rw [decide_eq_true_iff]
    rintro rfl
    simp [hcomma] at hy
  rw [hv, show a ++ 47 :: b = (a ++ [47]) ++ b by simp, List.takeWhile_append_of_pos hbefore] at htake
  have hmem : 47 ∈ decimal (d :: ds).length := by
    rw [← htake]
    simp
  exact absurd (mem_decimal hmem) (by decide)

end RoundTrip

section Read

variable {T : TurboLib} {s : Bytes}

lemma mem_of_readUnsigned {bound n : ℕ} {rest : Bytes} (h : readUnsigned bound s = some (n, rest)) :
    n < bound ∧ ∀ b ∈ rest, b ∈ s := by
  have hsign : ∀ l : Bytes, ∀ b ∈ (readSign l).2, b ∈ l := by
    intro l b hb
    unfold readSign at hb
    split at hb
    · exact List.mem_cons_of_mem _ hb
    · exact List.mem_cons_of_mem _ hb
    · exact hb
  simp only [readUnsigned] at h
  split_ifs at h with _ hlt hneg
  · obtain ⟨rfl, rfl⟩ := Prod.mk.inj (Option.some.inj h)
    exact ⟨Nat.mod_lt _ (by omega), fun b hb =>
      List.dropWhile_subset _ (hsign _ b (List.dropWhile_subset _ hb))⟩
  · obtain ⟨rfl, rfl⟩ := Prod.mk.inj (Option.some.inj h)
    exact ⟨by omega, fun b hb => List.dropWhile_subset _ (hsign _ b (List.dropWhile_subset _ hb))⟩

lemma mem_of_readToken {token rest : Bytes} (h : readToken s = some (token, rest)) :
    (∀ b ∈ token, b ∈ s ∧ isSpace b = false) ∧ ∀ b ∈ rest, b ∈ s := by
  simp only [readToken] at h
  split_ifs at h
  obtain ⟨rfl, rfl⟩ := Prod.mk.inj (Option.some.inj h)
  refine ⟨fun b hb => ⟨List.dropWhile_subset _ (List.takeWhile_subset _ hb), ?_⟩, fun b hb =>
    List.dropWhile_subset _ (List.dropWhile_subset _ hb)⟩
  simpa using List.mem_takeWhile_imp hb

lemma mem_of_parseClock {token : Bytes} {c : Clock} (h : parseClock T token = .parsed c) :
    (∀ b ∈ c.key, b ∈ token ∧ b ≠ 46) ∧ c.count < 2 ^ 64 := by
  have hkey : ∀ b ∈ token.takeWhile (· ≠ 46), b ∈ token ∧ b ≠ 46 := fun b hb =>
    ⟨List.takeWhile_subset _ hb, by simpa using List.mem_takeWhile_imp hb⟩
  simp only [parseClock] at h
  split at h
  · obtain rfl := Parsed.parsed.inj h
    simp
  · split at h
    · obtain rfl := Parsed.parsed.inj h
      exact ⟨hkey, by simp⟩
    · split at h
      · simp at h
      · rename_i hcount
        obtain rfl := Parsed.parsed.inj h
        exact ⟨hkey, (mem_of_readUnsigned hcount).1⟩

lemma parseClocks_spec {size : ℕ} {v : VectorClock} (h : parseClocks T size s = .parsed v) :
    v.length = size ∧
      ∀ c ∈ v, (∀ b ∈ c.key, b ∈ s ∧ b ≠ 46 ∧ isSpace b = false) ∧ c.count < 2 ^ 64 := by
  induction size generalizing s v with
  | zero =>
    obtain rfl : [] = v := by simpa [parseClocks] using h
    simp
  | succ size ih =>
    simp only [parseClocks] at h
    cases htoken : readToken s with
    | none => simp [htoken] at h
    | some pair =>
      obtain ⟨token, rest⟩ := pair
      obtain ⟨hin, hrest⟩ := mem_of_readToken htoken
      cases hclock : parseClock T token with
      | failed => simp [htoken, hclock] at h
      | threw => simp [htoken, hclock] at h
      | parsed c =>
        cases hclocks : parseClocks T size rest with
        | failed => simp [htoken, hclock, hclocks] at h
        | threw => simp [htoken, hclock, hclocks] at h
        | parsed cs =>
          obtain rfl : c :: cs = v := by simpa [htoken, hclock, hclocks] using h
          obtain ⟨hkey, hcount⟩ := mem_of_parseClock hclock
          obtain ⟨hlength, hcs⟩ := ih hclocks
          refine ⟨by rw [List.length_cons, hlength], List.forall_mem_cons.2 ⟨⟨fun b hb => ?_, hcount⟩, ?_⟩⟩
          · obtain ⟨hmem, hdot⟩ := hkey b hb
            exact ⟨(hin b hmem).1, hdot, (hin b hmem).2⟩
          · intro d hd
            obtain ⟨hkey, hcount⟩ := hcs d hd
            exact ⟨fun b hb => ⟨hrest b (hkey b hb).1, (hkey b hb).2⟩, hcount⟩

lemma plain_of_parseClocks {size : ℕ} {v : VectorClock} (hcomma : 44 ∉ s) (hslash : 47 ∉ s)
    (h : parseClocks T size s = .parsed v) : ∀ c ∈ v, c.Plain := by
  intro c hc
  obtain ⟨hkey, hcount⟩ := (parseClocks_spec h).2 c hc
  refine ⟨fun b hb => ?_, hcount⟩
  obtain ⟨hs, hdot, hspace⟩ := hkey b hb
  have h44 : b ≠ 44 := fun heq => hcomma (heq ▸ hs)
  have h47 : b ≠ 47 := fun heq => hslash (heq ▸ hs)
  simp [isPlain, h44, h47, hdot, hspace]

lemma isVersion_of_parsed (hT : T.Base64) {v : VectorClock} (h : VectorClock.fromString T s = .parsed v) (hne : v ≠ [])
    (hslash : 47 ∉ toString T v) : IsVersion T (toString T v) ∧ ofName T (toString T v) = v := by
  simp only [VectorClock.fromString] at h
  split at h
  · simp at h
  · rename_i size rest hsize
    obtain ⟨hbound, hrest⟩ := mem_of_readUnsigned hsize
    obtain ⟨hlength, hclocks⟩ := parseClocks_spec h
    have hplain : ∀ c ∈ v, c.Plain := by
      intro c hc
      obtain ⟨hkey, hcount⟩ := hclocks c hc
      refine ⟨fun b hb => ?_, hcount⟩
      obtain ⟨hs, hdot, hspace⟩ := hkey b hb
      have h44 : b ≠ 44 := by
        rintro rfl
        obtain ⟨d, -, hd⟩ := List.mem_map.1 (hrest _ hs)
        split_ifs at hd with heq
        · exact absurd hd (by decide)
        · exact heq hd
      have h47 : b ≠ 47 := by
        rintro rfl
        refine hslash (List.mem_append_right _ (List.mem_flatMap.2 ⟨c, hc, List.mem_cons_of_mem _ ?_⟩))
        rw [printClock, List.append_assoc]
        exact List.mem_append_left _ hb
      simp [isPlain, h44, h47, hdot, hspace]
    have hparse := fromString_toString hT hplain (hlength ▸ hbound)
    exact ⟨isVersion_toString hT hne hplain (hlength ▸ hbound), by rw [ofName, hparse]⟩

lemma plain_of_fromString {v : VectorClock} (hslash : 47 ∉ s) (h : VectorClock.fromString T s = .parsed v) :
    (∀ c ∈ v, c.Plain) ∧ v.length < 2 ^ 32 := by
  simp only [VectorClock.fromString] at h
  split at h
  · simp at h
  · rename_i size rest hsize
    obtain ⟨hbound, hmem⟩ := mem_of_readUnsigned hsize
    refine ⟨plain_of_parseClocks (fun hb => ?_) (fun hb => ?_) h, (parseClocks_spec h).1 ▸ hbound⟩
    · obtain ⟨c, -, hc⟩ := List.mem_map.1 (hmem _ hb)
      split_ifs at hc with heq
      · exact absurd hc (by decide)
      · exact heq hc
    · obtain ⟨c, hc, heq⟩ := List.mem_map.1 (hmem _ hb)
      split_ifs at heq
      · exact absurd heq (by decide)
      · exact hslash (heq ▸ hc)

lemma IsVersion.plain {v : Bytes} (h : IsVersion T v) : ∀ c ∈ ofName T v, c.Plain :=
  (plain_of_fromString h.slash h.fromString).1

lemma toString_ofName_slash (hT : T.Base64) (hslash : 47 ∉ s) : 47 ∉ toString T (ofName T s) := by
  have hnil : 47 ∉ toString T [] := by simp [toString, decimal]
  rw [ofName]
  cases h : VectorClock.fromString T s with
  | threw => exact hnil
  | failed => exact hnil
  | parsed v =>
    obtain ⟨hplain, hlength⟩ := plain_of_fromString hslash h
    by_cases hne : v = []
    · exact hne ▸ hnil
    · exact (isVersion_toString hT hne hplain hlength).slash

lemma toString_ne (T : TurboLib) (v : VectorClock) : toString T v ≠ [] ∧ toString T v ≠ [46] := by
  obtain ⟨c, cs, hcons⟩ := List.exists_cons_of_ne_nil (decimal_ne_nil v.length)
  rw [toString, hcons, List.cons_append]
  refine ⟨by simp, fun heq => ?_⟩
  have hdigit : isDigit c := mem_decimal (hcons ▸ List.mem_cons_self)
  rw [(List.cons.inj heq).1] at hdigit
  exact absurd hdigit (by decide)

end Read

end VectorClock

end Turbopump
