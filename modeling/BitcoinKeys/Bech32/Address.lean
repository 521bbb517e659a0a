import BitcoinKeys.Bech32
import BitcoinKeys.Bech32.Regroup
import BitcoinKeys.Network

namespace BitcoinKeys.Bech32

def programLength : Nat := 20

inductive WitnessNetwork where
  | bitcoin
  | testnet
deriving DecidableEq, Repr

def WitnessNetwork.part : WitnessNetwork → String
  | .bitcoin => "bc"
  | .testnet => "tb"

def witnessNetwork : Network → WitnessNetwork
  | .bitcoin => .bitcoin
  | .testnet => .testnet

structure WitnessProgram where
  version : Symbol
  program : Bytes
  network : WitnessNetwork

def WitnessProgram.toAddress (witness : WitnessProgram) : Except Fault String := do
  let groups ← regroup .byte .symbol true witness.program
  encodeBytes witness.network.part (UInt8.ofNat witness.version.toNat :: groups)

def encodeAddress (program : Bytes) (network : Network) : Except Fault String :=
  if program.length ≠ programLength then .error (.invalidLength program.length)
  else WitnessProgram.toAddress ⟨0, program, witnessNetwork network⟩

def decodeProgram : List Symbol → Except Fault Bytes
  | [] => .error .invalidData
  | version :: groups =>
    if version ≠ 0 then .error (.invalidVersion version.toNat)
    else do
      let program ← regroup .symbol .byte false (bytesOfSymbols groups)
      if program.length = programLength then .ok program
      else .error (.invalidLength program.length)

def decodeAddress (text : String) : Except Fault (Network × Bytes) := do
  let (part, symbols) ← decode text
  match Network.ofHumanReadablePart? part with
  | none => .error (.unknownHumanReadablePart part)
  | some network => (decodeProgram symbols).map (network, ·)

end BitcoinKeys.Bech32
