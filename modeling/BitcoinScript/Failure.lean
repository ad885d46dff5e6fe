/-!
# Reasons for a script to fail

`ScriptError` lists every reason that an evaluation or a verification gives for refusing a script.
Each has a code name and a message. `Stop` adds the *fault*: a step that reaches outside what it is
defined on, such as an item below the bottom of the stack. An evaluation reports a fault as
`ScriptError.unknownError`; the library keeps the two apart so that the absence of faults can be
stated.
-/

namespace BitcoinScript

inductive ScriptError where
  /-- A fault inside the evaluation. -/
  | unknownError
  /-- The final stack is empty or has a false item on top. -/
  | evalFalse
  | opReturn
  | scriptSize
  | pushSize
  | opCount
  | stackSize
  /-- A count of signatures is negative or above the count of keys. -/
  | sigCount
  /-- A count of keys is negative or above the limit. -/
  | pubkeyCount
  | invalidOperandSize
  | invalidNumberRange
  | impossibleEncoding
  | invalidSplitRange
  /-- A numeric operand is longer than the limit. -/
  | numberOverflow
  /-- A numeric operand is not minimally encoded. -/
  | numberMinEncode
  | verify
  | equalVerify
  | checkMultiSigVerify
  | checkSigVerify
  | numEqualVerify
  /-- An opcode without a meaning was executed, or a push is cut off. -/
  | badOpcode
  | disabledOpcode
  | invalidStackOperation
  | invalidAltstackOperation
  | unbalancedConditional
  | divByZero
  | modByZero
  | sigHashType
  | sigDer
  | minimalData
  | sigPushOnly
  /-- The second half of the signature is above half the group order. -/
  | sigHighS
  /-- The extra item of a multiple signature check is not empty. -/
  | sigNullDummy
  | pubkeyType
  | cleanStack
  | minimalIf
  /-- A failed check has a signature that is not empty. -/
  | sigNullFail
  | discourageUpgradableNops
  | nonCompressedPubkey
  | illegalForkId
  | mustUseForkId
  deriving DecidableEq, Repr

namespace ScriptError

def codeName : ScriptError → String
  | .unknownError => "UNKNOWN_ERROR"
  | .evalFalse => "EVAL_FALSE"
  | .opReturn => "OP_RETURN"
  | .scriptSize => "SCRIPT_SIZE"
  | .pushSize => "PUSH_SIZE"
  | .opCount => "OP_COUNT"
  | .stackSize => "STACK_SIZE"
  | .sigCount => "SIG_COUNT"
  | .pubkeyCount => "PUBKEY_COUNT"
  | .invalidOperandSize => "INVALID_OPERAND_SIZE"
  | .invalidNumberRange => "INVALID_NUMBER_RANGE"
  | .impossibleEncoding => "IMPOSSIBLE_ENCODING"
  | .invalidSplitRange => "INVALID_SPLIT_RANGE"
  | .numberOverflow => "SCRIPTNUM_OVERFLOW"
  | .numberMinEncode => "SCRIPTNUM_MINENCODE"
  | .verify => "VERIFY"
  | .equalVerify => "EQUALVERIFY"
  | .checkMultiSigVerify => "CHECKMULTISIGVERIFY"
  | .checkSigVerify => "CHECKSIGVERIFY"
  | .numEqualVerify => "NUMEQUALVERIFY"
  | .badOpcode => "BAD_OPCODE"
  | .disabledOpcode => "DISABLED_OPCODE"
  | .invalidStackOperation => "INVALID_STACK_OPERATION"
  | .invalidAltstackOperation => "INVALID_ALTSTACK_OPERATION"
  | .unbalancedConditional => "UNBALANCED_CONDITIONAL"
  | .divByZero => "DIV_BY_ZERO"
  | .modByZero => "MOD_BY_ZERO"
  | .sigHashType => "SIG_HASHTYPE"
  | .sigDer => "SIG_DER"
  | .minimalData => "MINIMALDATA"
  | .sigPushOnly => "SIG_PUSHONLY"
  | .sigHighS => "SIG_HIGH_S"
  | .sigNullDummy => "SIG_NULLDUMMY"
  | .pubkeyType => "PUBKEYTYPE"
  | .cleanStack => "CLEANSTACK"
  | .minimalIf => "MINIMALIF"
  | .sigNullFail => "SIG_NULLFAIL"
  | .discourageUpgradableNops => "DISCOURAGE_UPGRADABLE_NOPS"
  | .nonCompressedPubkey => "NONCOMPRESSED_PUBKEY"
  | .illegalForkId => "ILLEGAL_FORKID"
  | .mustUseForkId => "MUST_USE_FORKID"

def message : ScriptError → String
  | .unknownError => "unknown error"
  | .evalFalse => "Script evaluated without error but finished with a false/empty top stack element"
  | .opReturn => "OP_RETURN was encountered"
  | .scriptSize => "Script is too big"
  | .pushSize => "Push value size limit exceeded"
  | .opCount => "Operation limit exceeded"
  | .stackSize => "Stack size limit exceeded"
  | .sigCount => "Signature count negative or greater than pubkey count"
  | .pubkeyCount => "Pubkey count negative or limit exceeded"
  | .invalidOperandSize => "Invalid operand size"
  | .invalidNumberRange => "Given operand is not a number within the valid range"
  | .impossibleEncoding => "The requested encoding is impossible to satisfy"
  | .invalidSplitRange => "Invalid OP_SPLIT range"
  | .numberOverflow => "Script number overflow"
  | .numberMinEncode => "Non-minimally encoded script number"
  | .verify => "Script failed an OP_VERIFY operation"
  | .equalVerify => "Script failed an OP_EQUALVERIFY operation"
  | .checkMultiSigVerify => "Script failed an OP_CHECKMULTISIGVERIFY operation"
  | .checkSigVerify => "Script failed an OP_CHECKSIGVERIFY operation"
  | .numEqualVerify => "Script failed an OP_NUMEQUALVERIFY operation"
  | .badOpcode => "Opcode missing or not understood"
  | .disabledOpcode => "Attempted to use a disabled opcode"
  | .invalidStackOperation => "Operation not valid with the current stack size"
  | .invalidAltstackOperation => "Operation not valid with the current altstack size"
  | .unbalancedConditional => "Invalid OP_IF construction"
  | .divByZero => "Division by zero error"
  | .modByZero => "Modulo by zero error"
  | .sigHashType => "Signature hash type missing or not understood"
  | .sigDer => "Non-canonical DER signature"
  | .minimalData => "Data push larger than necessary"
  | .sigPushOnly => "Only non-push operators allowed in signatures"
  | .sigHighS => "Non-canonical signature: S value is unnecessarily high"
  | .sigNullDummy => "Dummy CHECKMULTISIG argument must be zero"
  | .pubkeyType => "Public key is neither compressed or uncompressed"
  | .cleanStack => "Script did not clean its stack"
  | .minimalIf => "OP_IF/NOTIF argument must be minimal"
  | .sigNullFail => "Signature must be zero for failed CHECK(MULTI)SIG operation"
  | .discourageUpgradableNops => "NOPx reserved for soft-fork upgrades"
  | .nonCompressedPubkey => "Using non-compressed public key"
  | .illegalForkId => "Illegal use of SIGHASH_FORKID"
  | .mustUseForkId => "Signature must use SIGHASH_FORKID"

end ScriptError

/-- Why a computation on stack items ends without a result. -/
inductive Stop where
  | error (e : ScriptError)
  /-- A step reached outside what it is defined on. -/
  | fault
  deriving DecidableEq, Repr

def Stop.toError : Stop → ScriptError
  | .error e => e
  | .fault => .unknownError

def Stop.require (p : Prop) [Decidable p] (e : ScriptError) : Except Stop Unit :=
  if p then .ok () else .error (.error e)

end BitcoinScript
