import BitcoinKeys.RehashSchedule
import BitcoinKeys.Vanity.Parallel
import BitcoinKeys.Vanity.Progress
import BitcoinKeys.Proofs.Bytes
import BitcoinKeys.Proofs.Base58
import BitcoinKeys.Proofs.Base58Check
import BitcoinKeys.Proofs.PrivateKey
import BitcoinKeys.Proofs.Wif
import BitcoinKeys.Proofs.Bech32.Checksum
import BitcoinKeys.Proofs.Bech32.Codec
import BitcoinKeys.Proofs.Bech32.Regroup
import BitcoinKeys.Proofs.Bech32.Address
import BitcoinKeys.Proofs.Address
import BitcoinKeys.Proofs.Decimal
import BitcoinKeys.Proofs.Hex
import BitcoinKeys.Proofs.KeyGuess
import BitcoinKeys.Proofs.KeyGuess.Recovery
import BitcoinKeys.Proofs.Bech32.Canonical
import BitcoinKeys.Proofs.Bech32.ErrorDetection
import BitcoinKeys.Proofs.Address.Mistyping
import BitcoinKeys.Proofs.Curve.Field
import BitcoinKeys.Proofs.Curve.Group
import BitcoinKeys.Proofs.PublicKey
import BitcoinKeys.Proofs.BlockStream
import BitcoinKeys.Proofs.Vanity.Search
import BitcoinKeys.Proofs.Vanity.Accounting
import BitcoinKeys.Proofs.Vanity.Resumption
import BitcoinKeys.Proofs.Vanity.Pattern
import BitcoinKeys.Proofs.Address.Form
import BitcoinKeys.Proofs.Address.Exclusion
import BitcoinKeys.Proofs.Curve.SquareRoot
import BitcoinKeys.Proofs.PublicKey.Serialization
import BitcoinKeys.Proofs.PublicKey.Derivation
import BitcoinKeys.Proofs.PublicKey.Guess
import BitcoinKeys.Proofs.PrivateKey.Operations
import BitcoinKeys.Proofs.Address.Construction
import BitcoinKeys.Proofs.RehashSchedule
import BitcoinKeys.Proofs.RehashSchedule.Walk
import BitcoinKeys.Proofs.Vanity.Parallel
import BitcoinKeys.Proofs.Vanity.Parallel.Invariant
import BitcoinKeys.Proofs.Vanity.Parallel.Accounting
import BitcoinKeys.Proofs.Text.Utf8
import BitcoinKeys.Proofs.Base58.Refusal
import BitcoinKeys.Proofs.Base58.Verification
import BitcoinKeys.Proofs.Base58.Numeral
import BitcoinKeys.Proofs.Base58.Register
import BitcoinKeys.Proofs.Bech32.Register
import BitcoinKeys.Proofs.Bech32.Bits
import BitcoinKeys.Proofs.Decimal.Numeral
import BitcoinKeys.Proofs.Hex.Canonical
import BitcoinKeys.Proofs.PrivateKey.Canonical
import BitcoinKeys.Proofs.Vanity.Satisfiability
import BitcoinKeys.Proofs.BlockStream.Draws
import BitcoinKeys.Proofs.Hex.Refusal
import BitcoinKeys.Proofs.Vanity.Case
