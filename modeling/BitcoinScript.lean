import BitcoinScript.Bytes.Basic
import BitcoinScript.Bytes.Hex
import BitcoinScript.Bytes.Reader
import BitcoinScript.Bytes.Shift
import BitcoinScript.Crypto
import BitcoinScript.Error
import BitcoinScript.Failure
import BitcoinScript.Flag
import BitcoinScript.Hash.Block
import BitcoinScript.Hash.Digest
import BitcoinScript.Hash.Hmac
import BitcoinScript.Hash.Parse
import BitcoinScript.Hash.Ripemd160
import BitcoinScript.Hash.Sha1
import BitcoinScript.Hash.Sha256
import BitcoinScript.Limits
import BitcoinScript.Machine.Checker
import BitcoinScript.Machine.Eval
import BitcoinScript.Machine.Execute
import BitcoinScript.Machine.SigCheck
import BitcoinScript.Machine.State
import BitcoinScript.Machine.Trace
import BitcoinScript.Number
import BitcoinScript.Opcode.Basic
import BitcoinScript.Opcode.Command
import BitcoinScript.Operand
import BitcoinScript.Script.Asm
import BitcoinScript.Script.Basic
import BitcoinScript.Script.Edit
import BitcoinScript.Script.Instr
import BitcoinScript.Secp256k1.Modular
import BitcoinScript.Secp256k1.Point
import BitcoinScript.Secp256k1.Signature
import BitcoinScript.Secp256k1.Signing
import BitcoinScript.Signature.Create
import BitcoinScript.Signature.Encoding
import BitcoinScript.Signature.HashType
import BitcoinScript.Stack
import BitcoinScript.Text.Blank
import BitcoinScript.Text.Quote
import BitcoinScript.Transaction.Basic
import BitcoinScript.Transaction.Checker
import BitcoinScript.Transaction.PubkeyHash
import BitcoinScript.Transaction.SigHash
import BitcoinScript.Transaction.Validate
import BitcoinScript.Proofs.Script.Deletion
import BitcoinScript.Proofs.Machine.Outcome
import BitcoinScript.Proofs.Machine.Values
import BitcoinScript.Proofs.Machine.Safety
import BitcoinScript.Proofs.Machine.Faultless
import BitcoinScript.Proofs.Transaction.Acceptance
import BitcoinScript.Proofs.Transaction.Conservation
import BitcoinScript.Proofs.Machine.Operands
import BitcoinScript.Proofs.Machine.Multisig
import BitcoinScript.Proofs.Machine.Restriction
import BitcoinScript.Proofs.Bytes.Reading
import BitcoinScript.Proofs.Bytes.Delimited
import BitcoinScript.Proofs.Bytes.Shift
import BitcoinScript.Proofs.Bytes.Scaling
import BitcoinScript.Proofs.Text.Words
import BitcoinScript.Proofs.Bytes.Hex
import BitcoinScript.Proofs.Opcode.Naming
import BitcoinScript.Proofs.Transaction.Wire
import BitcoinScript.Proofs.Transaction.Commitment
import BitcoinScript.Proofs.Script.Filtering
import BitcoinScript.Proofs.Transaction.SignedCopy
import BitcoinScript.Proofs.Machine.Branches
import BitcoinScript.Proofs.Machine.Conditionals
import BitcoinScript.Proofs.Machine.Sizes
import BitcoinScript.Proofs.Machine.Keeping
import BitcoinScript.Proofs.Machine.Calls
import BitcoinScript.Proofs.Machine.SignedCode
import BitcoinScript.Proofs.Machine.History
import BitcoinScript.Proofs.Machine.Operations
import BitcoinScript.Proofs.Machine.Resources
import BitcoinScript.Proofs.Machine.CallBudget
import BitcoinScript.Proofs.Machine.WellFormed
import BitcoinScript.Proofs.Signature.Creation
import BitcoinScript.Proofs.Signature.Forms
import BitcoinScript.Proofs.Transaction.Replay
import BitcoinScript.Proofs.Machine.Frame
import BitcoinScript.Proofs.Machine.Stepping
import BitcoinScript.Proofs.Machine.Pushes
import BitcoinScript.Proofs.Machine.MinimalPushes
import BitcoinScript.Proofs.Machine.PushOnly
import BitcoinScript.Proofs.Script.Asm
import BitcoinScript.Proofs.Machine.Building
import BitcoinScript.Proofs.Transaction.PubkeyHash
import BitcoinScript.Proofs.Transaction.Templates
import BitcoinScript.Proofs.Secp256k1.Der
import BitcoinScript.Proofs.Transaction.Signing
import BitcoinScript.Proofs.Script.Items
import BitcoinScript.Proofs.Transaction.Codec
import BitcoinScript.Proofs.Machine.NullFail
import BitcoinScript.Proofs.Bytes.Digits
import BitcoinScript.Proofs.Number.SignMagnitude
import BitcoinScript.Proofs.Number.Word
import BitcoinScript.Proofs.Number.Codec
import BitcoinScript.Proofs.Number.Resize
import BitcoinScript.Proofs.Machine.Arithmetic
import BitcoinScript.Proofs.Machine.Truth
import BitcoinScript.Proofs.Machine.Verifying
import BitcoinScript.Proofs.Machine.Overflow
import BitcoinScript.Proofs.Signature.Grammar
import BitcoinScript.Proofs.Script.Removal
import BitcoinScript.Proofs.Transaction.Separators
import BitcoinScript.Proofs.Stack.Effects
import BitcoinScript.Proofs.Machine.Rearranging
