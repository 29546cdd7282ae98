import Mathlib

/-! Self-delimiting codes: a decoder that takes one frame off the front of a stream, the frames it
reads from a whole stream, and what is left of them when the stream is cut at any symbol. -/

structure Framing (α β : Type) where
  encode : α → List β
  decode : List β → Option (α × List β)
  decode_nil : decode [] = none
  decode_length : ∀ {s a t}, decode s = some (a, t) → t.length < s.length
  decode_encode : ∀ a t, decode (encode a ++ t) = some (a, t)
  decode_cut : ∀ a k, k < (encode a).length → decode ((encode a).take k) = none

namespace Framing

variable {α β : Type} (F : Framing α β)

def encodeAll (as : List α) : List β := as.flatMap F.encode

def frames : ℕ → List β → List α
  | 0, _ => []
  | fuel + 1, s => match F.decode s with
    | none => []
    | some (a, t) => a :: frames fuel t

def decodeAll (s : List β) : List α := F.frames s.length s

@[simp] lemma encodeAll_nil : F.encodeAll [] = [] := rfl

@[simp] lemma encodeAll_cons (a : α) (as : List α) :
    F.encodeAll (a :: as) = F.encode a ++ F.encodeAll as := rfl

@[simp] lemma encodeAll_append (as bs : List α) :
    F.encodeAll (as ++ bs) = F.encodeAll as ++ F.encodeAll bs := by
  simp [encodeAll]

lemma frames_enough (m n : ℕ) (s : List β) (hm : s.length ≤ m) (hn : s.length ≤ n) :
    F.frames m s = F.frames n s := by
  induction m generalizing n s with
  | zero =>
    obtain rfl : s = [] := List.length_eq_zero_iff.mp (by omega)
    cases n <;> simp [frames, F.decode_nil]
  | succ m ih =>
    cases n with
    | zero =>
      obtain rfl : s = [] := List.length_eq_zero_iff.mp (by omega)
      simp [frames, F.decode_nil]
    | succ n =>
      cases hd : F.decode s with
      | none => simp [frames, hd]
      | some p =>
        have hlt := F.decode_length (a := p.1) (t := p.2) hd
        simp only [frames, hd, List.cons.injEq, true_and]
        exact ih n p.2 (by omega) (by omega)

lemma decodeAll_none {s : List β} (h : F.decode s = none) : F.decodeAll s = [] := by
  cases s with
  | nil => rfl
  | cons b s => simp [decodeAll, frames, h]

@[simp] lemma decodeAll_nil : F.decodeAll [] = [] := rfl

lemma decodeAll_some {s t : List β} {a : α} (h : F.decode s = some (a, t)) :
    F.decodeAll s = a :: F.decodeAll t := by
  have hlt := F.decode_length h
  obtain ⟨n, hn⟩ : ∃ n, s.length = n + 1 := ⟨s.length - 1, by omega⟩
  simp only [decodeAll, hn, frames, h, List.cons.injEq, true_and]
  exact F.frames_enough n t.length t (by omega) le_rfl

lemma decodeAll_encode_append (a : α) (t : List β) :
    F.decodeAll (F.encode a ++ t) = a :: F.decodeAll t :=
  F.decodeAll_some (F.decode_encode a t)

lemma decodeAll_encodeAll_append (as : List α) (t : List β) :
    F.decodeAll (F.encodeAll as ++ t) = as ++ F.decodeAll t := by
  induction as with
  | nil => rfl
  | cons a as ih => rw [encodeAll_cons, List.append_assoc, decodeAll_encode_append, ih, List.cons_append]

@[simp] lemma decodeAll_encodeAll (as : List α) : F.decodeAll (F.encodeAll as) = as := by
  simpa using F.decodeAll_encodeAll_append as []

def whole : List α → ℕ → ℕ
  | [], _ => 0
  | a :: as, k =>
    if (F.encode a).length ≤ k then whole as (k - (F.encode a).length) + 1 else 0

theorem decodeAll_take (as : List α) (k : ℕ) :
    F.decodeAll ((F.encodeAll as).take k) = as.take (F.whole as k) := by
  induction as generalizing k with
  | nil => simp
  | cons a as ih =>
    by_cases hk : (F.encode a).length ≤ k
    · rw [encodeAll_cons, List.take_append, List.take_of_length_le hk, decodeAll_encode_append, ih]
      simp [whole, hk]
    · have hcut := F.decode_cut a k (by omega)
      rw [encodeAll_cons, List.take_append_of_le_length (by omega), F.decodeAll_none hcut]
      simp [whole, hk]

def boundary (as : List α) (k : ℕ) : ℕ := (F.encodeAll (as.take (F.whole as k))).length

lemma drop_boundary (as : List α) (k : ℕ) :
    (F.encodeAll as).drop (F.boundary as k) = F.encodeAll (as.drop (F.whole as k)) := by
  have h : F.encodeAll as =
      F.encodeAll (as.take (F.whole as k)) ++ F.encodeAll (as.drop (F.whole as k)) := by
    rw [← encodeAll_append, List.take_append_drop]
  rw [h, boundary, List.drop_left']
  rfl

end Framing
