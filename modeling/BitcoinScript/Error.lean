import BitcoinScript.Bytes.Hex
import BitcoinScript.Failure
import BitcoinScript.Text.Blank

/-!
# Errors of the library

What goes wrong outside of scripts: arguments and data that are not what they should be, texts
that are not hex, and bytes that end too early. An error is its cause; `Error.message` words it, and
`Error.source?` is the text of the error it wraps.
-/

namespace BitcoinScript

inductive ArgumentError where
  | unknownFlag (name : String)
  | digestLength (length : Nat)
  | inputIndex (index : Nat)
  | other (text : String)
  deriving DecidableEq, Repr

def ArgumentError.message : ArgumentError → String
  | .unknownFlag name => "Unknown script flag: " ++ name
  | .digestLength length => "Length " ++ toString length ++ " of decoded bytes"
  | .inputIndex index => "Input index out of range: " ++ toString index
  | .other text => text

inductive DataError where
  | asmToken (token : String)
  | inputsEmpty
  | outputsEmpty
  /-- An output or a spent output with a negative amount. -/
  | amountNegative
  | totalOutOverflow
  | totalOutExceedsMax
  | unexpectedCoinbase
  | utxoNotFound
  | totalInOverflow
  | totalInExceedsMax
  | outputsExceedInputs
  /-- A single output with a negative amount. -/
  | negativeSatoshis
  /-- A single output worth more than all coins. -/
  | satoshisExceedMax
  | tooManyInputs (count : Nat)
  | tooManyOutputs (count : Nat)
  | unlockScriptTooLong (length : Nat)
  | lockScriptTooLong (length : Nat)
  | invalidPrivateKey
  | notPubkeyHashUnlock
  | notPubkeyHashLock
  | other (text : String)
  deriving DecidableEq, Repr

def DataError.message : DataError → String
  | .asmToken token => "Bad asm token: " ++ token
  | .inputsEmpty => "inputs empty"
  | .outputsEmpty => "outputs empty"
  | .amountNegative => "tx_out satoshis negative"
  | .totalOutOverflow => "Total out overflow"
  | .totalOutExceedsMax => "Total out exceeds max satoshis"
  | .unexpectedCoinbase => "Unexpected coinbase"
  | .utxoNotFound => "utxo not found"
  | .totalInOverflow => "Total in overflow"
  | .totalInExceedsMax => "Total in exceeds max satoshis"
  | .outputsExceedInputs => "Output total exceeds input"
  | .negativeSatoshis => "Negative satoshis"
  | .satoshisExceedMax => "Satoshis exceeds max"
  | .tooManyInputs count => "Too many inputs: " ++ toString count
  | .tooManyOutputs count => "Too many outputs: " ++ toString count
  | .unlockScriptTooLong length => "Unlock script too long: " ++ toString length
  | .lockScriptTooLong length => "Lock script too long: " ++ toString length
  | .invalidPrivateKey => "Invalid private key"
  | .notPubkeyHashUnlock => "Not P2PKH unlock"
  | .notPubkeyHashLock => "Not P2PKH lock"
  | .other text => text

inductive InputError where
  | truncated
  | endOfFile
  deriving DecidableEq, Repr

def InputError.message : InputError → String
  | .truncated => "failed to fill whole buffer"
  | .endOfFile => "unexpected end of file"

inductive CurveError where
  | invalidSecretKey
  deriving DecidableEq, Repr

def CurveError.message : CurveError → String
  | .invalidSecretKey => "malformed or out-of-range secret key"

inductive Error where
  | badArgument (cause : ArgumentError)
  | badData (cause : DataError)
  | hex (cause : Hex.Error)
  | illegalState (text : String)
  | input (cause : InputError)
  | script (cause : ScriptError)
  | curve (cause : CurveError)
  deriving DecidableEq, Repr

namespace Error

/-- The text of the error that an error wraps, if it wraps one. -/
def source? : Error → Option String
  | .hex cause => some cause.message
  | .input cause => some cause.message
  | .script cause => some cause.message
  | .curve cause => some cause.message
  | _ => none

def message : Error → String
  | .badArgument cause => "Bad argument: " ++ cause.message
  | .badData cause => "Bad data: " ++ cause.message
  | .hex cause => "Hex decoding error: " ++ cause.message
  | .illegalState text => "Illegal state: " ++ text
  | .input cause => "IO error: " ++ cause.message
  | .script cause => "Script error: " ++ cause.message
  | .curve cause => "Secp256k1 error: " ++ cause.message

end Error

end BitcoinScript
