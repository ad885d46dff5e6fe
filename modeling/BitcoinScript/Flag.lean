import BitcoinScript.Error

/-!
# Verification flags

A flag switches on one rule of script verification. A set of flags is its membership test, so that
one set restricting another is said directly by `Flags.Subset`. As text a set is the list of its
flags' names between commas, in the order of `Flag.all`, or `NONE`; as a number each flag is one
bit.
-/

namespace BitcoinScript

inductive Flag where
  /-- Recognised, without an effect. -/
  | p2sh
  /-- Signatures are strict DER with a defined hash type, and keys have a known form. -/
  | strictEnc
  | derSig
  /-- The second half of a signature is at most half the group order. -/
  | lowS
  /-- The extra item of a multiple signature check is empty. -/
  | nullDummy
  | sigPushOnly
  | minimalData
  | discourageUpgradableNops
  | cleanStack
  | checkLockTimeVerify
  | checkSequenceVerify
  /-- The argument of a conditional is empty or one. -/
  | minimalIf
  /-- The signatures of a failed check are empty. -/
  | nullFail
  | compressedPubkeyType
  | enableForkId
  deriving DecidableEq, Repr

namespace Flag

/-- All flags, in the order of their bits. -/
def all : List Flag :=
  [.p2sh, .strictEnc, .derSig, .lowS, .nullDummy, .sigPushOnly, .minimalData,
   .discourageUpgradableNops, .cleanStack, .checkLockTimeVerify, .checkSequenceVerify, .minimalIf,
   .nullFail, .compressedPubkeyType, .enableForkId]

def name : Flag → String
  | .p2sh => "P2SH"
  | .strictEnc => "STRICTENC"
  | .derSig => "DERSIG"
  | .lowS => "LOW_S"
  | .nullDummy => "NULLDUMMY"
  | .sigPushOnly => "SIGPUSHONLY"
  | .minimalData => "MINIMALDATA"
  | .discourageUpgradableNops => "DISCOURAGE_UPGRADABLE_NOPS"
  | .cleanStack => "CLEANSTACK"
  | .checkLockTimeVerify => "CHECKLOCKTIMEVERIFY"
  | .checkSequenceVerify => "CHECKSEQUENCEVERIFY"
  | .minimalIf => "MINIMALIF"
  | .nullFail => "NULLFAIL"
  | .compressedPubkeyType => "COMPRESSED_PUBKEYTYPE"
  | .enableForkId => "ENABLE_SIGHASH_FORKID"

/-- The place of the bit of a flag. Two places before `minimalIf` are free. -/
def bit : Flag → Nat
  | .p2sh => 0
  | .strictEnc => 1
  | .derSig => 2
  | .lowS => 3
  | .nullDummy => 4
  | .sigPushOnly => 5
  | .minimalData => 6
  | .discourageUpgradableNops => 7
  | .cleanStack => 8
  | .checkLockTimeVerify => 9
  | .checkSequenceVerify => 10
  | .minimalIf => 13
  | .nullFail => 14
  | .compressedPubkeyType => 15
  | .enableForkId => 16

def ofName? (s : String) : Option Flag := all.find? (·.name = s)

end Flag

structure Flags where
  contains : Flag → Bool

namespace Flags

def none : Flags := ⟨fun _ => false⟩

def insert (flags : Flags) (f : Flag) : Flags := ⟨fun g => g = f || flags.contains g⟩

def ofList (fs : List Flag) : Flags := ⟨fun g => fs.contains g⟩

def toList (flags : Flags) : List Flag := Flag.all.filter flags.contains

def Subset (flags other : Flags) : Prop := ∀ f, flags.contains f → other.contains f

instance : HasSubset Flags := ⟨Subset⟩

def bits (flags : Flags) : Nat := flags.toList.foldr (fun f n => 1 <<< f.bit ||| n) 0

def display (flags : Flags) : String :=
  match flags.toList with
  | [] => "NONE"
  | fs => String.intercalate "," (fs.map Flag.name)

/-- Reads a set from text. The name `NONE` adds nothing. -/
def parse (s : String) : Except Error Flags :=
  ((Text.commaParts s).filter (· ≠ "NONE")).foldlM (fun flags name =>
    match Flag.ofName? name with
    | some f => .ok (flags.insert f)
    | Option.none => .error (.badArgument (.unknownFlag name))) none

end Flags

end BitcoinScript
