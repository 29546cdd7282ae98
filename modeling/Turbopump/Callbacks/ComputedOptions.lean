import Turbopump.Storage.FileStore

/-! The callbacks that keep the index of keys up to date, in their place among the callbacks of writes and
drops. -/

namespace Turbopump

inductive IndexCall where
  | update (name : Bytes) (value : UInt64) (mirrors : ℕ)
  | remove (name : Bytes) (mirrors : ℕ)
  deriving DecidableEq

structure Callbacks (θ : Type) where
  calls : List IndexCall
  others : θ

structure Hop where
  mirror : ℤ
  source : Bytes
  outstream : Option ℕ

abbrev LaterCallbacks (θ : Type) := WriteInstructions → Readstream → θ → Hop × θ

def digestAddFunct (params : WriteInstructions) (contents : Readstream) : IndexCall :=
  .update params.name (params.digest ^^^ contents.md.digest) (toUnsigned params.copies)

def digestDelFunct (name : Bytes) (copies : ℤ) : IndexCall := .remove name (toUnsigned copies)

def whenWriteFinishes {θ : Type} (later : LaterCallbacks θ) (params : WriteInstructions) (contents : Readstream)
    (s : StoreState (Callbacks θ)) : WriteInstructions × StoreState (Callbacks θ) :=
  let (hop, others) := later params contents s.callbacks.others
  ({ params with mirror := hop.mirror, source := hop.source, outstream := hop.outstream },
    { s with callbacks := ⟨s.callbacks.calls ++ [digestAddFunct params contents], others⟩ })

end Turbopump
