import KeyChain.Error
/-! What selects the key that a passphrase turns into, and the checks that need neither a file nor
   key stretching. They are made in this order: the iteration count, the algorithm's name, and
   the keyfile that a suppressed passphrase calls for. -/
namespace KeyChain

structure KeyParams where
  algorithm : String
  /-- Passes of the stretching function. -/
  iterations : Int
  keyfile : Option Path
  /-- Whether the keyfile alone makes the key. -/
  noPassphrase : Bool
  /-- Memory of the stretching function, in units of 1024 bytes. -/
  memory : UInt32
  parallelism : UInt32
  deriving DecidableEq, Repr

namespace KeyParams

/-- The parameters that apply where nothing is said. -/
def standard : KeyParams := ⟨"aes256-xts", 3, none, false, 65536, 4⟩

/-- Parameters that have passed the checks. -/
structure Checked where
  algorithm : Algorithm
  time : UInt32
  deriving DecidableEq, Repr

/-- The algorithm and the iteration count, or the first fault. -/
def validate (p : KeyParams) : Except KeychainError Checked := do
  if p.iterations ≤ 0 then throw (.usage (.iterationsNotPositive p.iterations))
  if UInt32.size ≤ p.iterations then throw (.usage (.iterationsOutOfRange p.iterations))
  match Algorithm.ofName? p.algorithm with
  | none => throw (.unsupportedAlgorithm p.algorithm Algorithm.supported)
  | some algorithm =>
    if p.noPassphrase && p.keyfile.isNone then throw (.usage .keyfileRequired)
    return ⟨algorithm, UInt32.ofNat p.iterations.toNat⟩

end KeyParams

end KeyChain
