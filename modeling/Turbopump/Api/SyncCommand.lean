import Turbopump.Common.VersionString
import Turbopump.Deskew.DigestIndexer
import Turbopump.Deskew.Synchronizer
import Turbopump.Lib.Pieces

/-! The points of a digest tree that a ping carries as text, and what the peer compares when it reads them. -/

namespace Turbopump

open VectorClock (mem_decimal readUnsigned_decimal)

namespace MerklePointSerializer

def toString (point : MerklePoint) : Bytes :=
  decimal point.key.toNat ++ 32 :: (decimal point.keybits ++ 32 :: decimal point.hash.toNat)

/-- `keybits` is read into an unsigned integer of `bits` bits. -/
def fromString (bits : ℕ) (str : Bytes) : Option MerklePoint := do
  let (key, iss) ← readUnsigned (2 ^ 64) str
  let (keybits, iss) ← readUnsigned (2 ^ bits) iss
  let (hash, _) ← readUnsigned (2 ^ 64) iss
  return ⟨UInt64.ofNat key, keybits, UInt64.ofNat hash⟩

variable {bits : ℕ} {point : MerklePoint}

lemma readUnsigned_space (bound : ℕ) (s : Bytes) : readUnsigned bound (32 :: s) = readUnsigned bound s := by
  rw [readUnsigned, readUnsigned, List.dropWhile_cons_of_pos (by decide)]

lemma fromString_toString (h : point.keybits < 2 ^ bits) : fromString bits (toString point) = some point := by
  have hhash := readUnsigned_decimal (s := []) point.hash.toNat_lt (by simp)
  rw [List.append_nil] at hhash
  rw [fromString, toString, readUnsigned_decimal point.key.toNat_lt (by simp [isDigit]), Option.bind_eq_bind,
    Option.bind_some]
  dsimp only
  rw [readUnsigned_space, readUnsigned_decimal h (by simp [isDigit]), Option.bind_some]
  dsimp only
  rw [readUnsigned_space, hhash]
  simp

lemma separators_toString : 124 ∉ toString point ∧ toString point ≠ [] := by
  have hdecimal (n : ℕ) : 124 ∉ decimal n := fun hc => absurd (mem_decimal hc) (by decide)
  constructor
  · simp only [toString, List.mem_append, List.mem_cons, hdecimal, or_false]
    decide
  · simp [toString]

end MerklePointSerializer

/-- The body that `MessageSender::digestPing` writes behind the header. -/
def digestPing : List MerklePoint → Bytes
  -- `front` of an empty deque
  | [] => []
  | point :: points => points.foldl (fun msg it => msg ++ 124 :: MerklePointSerializer.toString it)
    (MerklePointSerializer.toString point)

structure CompareCall where
  peer : Bytes
  treeid : TreeId
  point : MerklePoint
  isSyncResponse : Bool
  deriving DecidableEq

structure SyncCommand where
  peer : Bytes
  params : TreeId := {}

namespace SyncCommand

variable (split : Bytes → UInt8 → List Bytes) (bits : ℕ) (c : SyncCommand)

def compareAll : ℕ → List Bytes → Bool × List CompareCall
  | _, [] => (true, [])
  | i, str :: points => match MerklePointSerializer.fromString bits str with
    | none => (false, [])
    | some point =>
      let (good, calls) := compareAll (i + 1) points
      (good, ⟨c.peer, c.params, point, decide (2 ≤ i)⟩ :: calls)

def run (buff : Bytes) (size : UInt32) : Bool × List CompareCall :=
  if size = 0 then (false, [])
  else c.compareAll bits 0 (split (buff.take size.toNat) 124)

def Compares (points : List MerklePoint) : Prop :=
  c.run split bits (digestPing points) (UInt32.ofNat (digestPing points).length) =
    (true, points.mapIdx fun i point => ⟨c.peer, c.params, point, decide (2 ≤ i)⟩)

end SyncCommand

namespace MerklePointSerializer

lemma foldl_toString (point : MerklePoint) (points : List MerklePoint) (msg : Bytes) :
    points.foldl (fun msg it => msg ++ 124 :: toString it) (msg ++ toString point) =
      msg ++ List.intercalate [124] (toString point :: points.map toString) := by
  induction points generalizing point msg with
  | nil => simp
  | cons it points ih =>
    have hmsg : msg ++ toString point ++ 124 :: toString it = (msg ++ toString point ++ [124]) ++ toString it := by
      simp
    rw [List.foldl_cons, hmsg, ih, List.map_cons, intercalate_cons (List.cons_ne_nil (toString it) _)]
    simp

lemma digestPing_eq (points : List MerklePoint) : digestPing points = List.intercalate [124] (points.map toString) := by
  cases points with
  | nil => rfl
  | cons point points => exact foldl_toString point points []

lemma splitOn_digestPing {points : List MerklePoint} (hpoints : points ≠ []) :
    (digestPing points).splitOn 124 = points.map toString := by
  rw [digestPing_eq]
  refine List.splitOn_intercalate 124 (fun text htext => ?_) fun hnil => hpoints (List.map_eq_nil_iff.1 hnil)
  obtain ⟨point, -, rfl⟩ := List.mem_map.1 htext
  exact separators_toString.1

lemma split_digestPing {split : Bytes → UInt8 → List Bytes} (hsplit : ∀ s d, Pieces d s (split s d))
    {points : List MerklePoint} (hpoints : points ≠ []) : split (digestPing points) 124 = points.map toString := by
  rw [← splitOn_digestPing hpoints]
  refine (hsplit _ _).eq_splitOn fun hnil => ?_
  rw [splitOn_digestPing hpoints] at hnil
  obtain ⟨point, -, hpoint⟩ := List.mem_map.1 hnil
  exact separators_toString.2 hpoint

end MerklePointSerializer

namespace SyncCommand

variable {split : Bytes → UInt8 → List Bytes} {bits : ℕ} {points : List MerklePoint}

lemma compareAll_toString (c : SyncCommand) (h : ∀ point ∈ points, point.keybits < 2 ^ bits) (i : ℕ) :
    c.compareAll bits i (points.map MerklePointSerializer.toString) =
      (true, points.mapIdx fun j point => ⟨c.peer, c.params, point, decide (2 ≤ i + j)⟩) := by
  induction points generalizing i with
  | nil => rfl
  | cons point points ih =>
    obtain ⟨hpoint, hpoints⟩ := List.forall_mem_cons.1 h
    rw [List.map_cons, compareAll, MerklePointSerializer.fromString_toString hpoint, List.mapIdx_cons]
    simp only [ih hpoints, Nat.add_zero, Nat.add_right_comm i 1, Nat.add_assoc]

/-- The bound is that of the `unsigned` in which `run` takes the size of the body. -/
theorem run_digestPing (hsplit : ∀ s d, Pieces d s (split s d)) (c : SyncCommand) (hpoints : points ≠ [])
    (hkeybits : ∀ point ∈ points, point.keybits < 2 ^ bits) (hlength : (digestPing points).length < 2 ^ 32) :
    c.Compares split bits points := by
  have hsize : (UInt32.ofNat (digestPing points).length).toNat = (digestPing points).length :=
    UInt32.toNat_ofNat_of_lt' hlength
  have hsome : UInt32.ofNat (digestPing points).length ≠ 0 := by
    intro hzero
    rw [hzero, eq_comm, UInt32.toNat_zero, List.length_eq_zero_iff] at hsize
    have hnil := MerklePointSerializer.splitOn_digestPing hpoints
    obtain ⟨point, rest, rfl⟩ := List.exists_cons_of_ne_nil hpoints
    rw [hsize, List.splitOn_nil, List.map_cons, List.cons.injEq] at hnil
    exact MerklePointSerializer.separators_toString.2 hnil.1.symm
  rw [Compares, run, if_neg hsome, hsize, List.take_length, MerklePointSerializer.split_digestPing hsplit hpoints,
    compareAll_toString c hkeybits]
  simp only [Nat.zero_add]

theorem run_digestPing_three : Compares (fun s d => s.splitOn d) 32 ⟨ascii "peer", ⟨ascii "oak", 3⟩⟩
    [⟨1, 1, 10⟩, ⟨2, 2, 20⟩, ⟨3, 3, 30⟩] :=
  run_digestPing (fun s d => Pieces.refl d s) _ (List.cons_ne_nil _ _) (by decide) (by decide +kernel)

lemma digestPing_length_replicate (point it : MerklePoint) (n : ℕ) :
    (digestPing (point :: List.replicate n it)).length =
      (MerklePointSerializer.toString point).length + n * ((MerklePointSerializer.toString it).length + 1) := by
  have hfold (msg : Bytes) :
      ((List.replicate n it).foldl (fun msg it => msg ++ 124 :: MerklePointSerializer.toString it) msg).length =
        msg.length + n * ((MerklePointSerializer.toString it).length + 1) := by
    induction n generalizing msg with
    | zero => simp
    | succ n ih =>
      rw [List.replicate_succ, List.foldl_cons, ih, List.length_append, List.length_cons, Nat.succ_mul]
      omega
  exact hfold _

lemma not_compares_of_size {c : SyncCommand} (h : UInt32.ofNat (digestPing points).length = 0) :
    ¬ c.Compares split bits points := by
  rw [Compares, run, if_pos h]
  exact fun heq => Bool.false_ne_true (congrArg Prod.fst heq)

-- a body of 2 ^ 32 bytes has the size 0
theorem not_compares_wrapped : ¬ Compares (fun s d => s.splitOn d) 32 ⟨ascii "peer", ⟨ascii "oak", 3⟩⟩
    (⟨100000, 0, 0⟩ :: List.replicate 715827881 ⟨0, 0, 0⟩) := by
  have hfirst : (MerklePointSerializer.toString ⟨100000, 0, 0⟩).length = 10 := by decide +kernel
  have hrest : (MerklePointSerializer.toString ⟨0, 0, 0⟩).length = 5 := by decide +kernel
  refine not_compares_of_size ?_
  rw [digestPing_length_replicate, hfirst, hrest]
  rfl

end SyncCommand

end Turbopump
