import BitcoinScript.Proofs.Transaction.PubkeyHash

/-!
# Recognising payments to the hash of a public key

A locking script is recognised by the bytes at fixed positions, which leaves just the script that is
built from the hash. An unlocking script is recognised by its instructions, whatever opcodes
announce the signature and the key, so more scripts are recognised than are built. What is taken
from such a script is what an evaluation would leave on top of the signature.

The script that is built from a signature and a key is recognised if these have the lengths that
signatures and keys have. A length field cannot tell lengths from 2^32 on, but a script that is
recognised is much shorter than data of such a length.
-/

namespace BitcoinScript

namespace PubkeyHash

variable {hash : Digest 20} {sig key : Bytes}

/-! ## Locking scripts -/

theorem lockScript_eq_cons (hash : Digest 20) :
    lockScript hash = Opcode.dup.byte :: Opcode.hash160.byte :: 20 ::
      (hash.bytes ++ [Opcode.equalVerify.byte, Opcode.checkSig.byte]) := by
  have hpush : (Instr.pushData hash.bytes).toBytes = 20 :: hash.bytes := by
    rw [pushData_hash, hash.length_bytes]
    rfl
  rw [lockScript_eq, lockInstrs, Script.ofInstrs_cons, Script.ofInstrs_cons, Script.ofInstrs_cons,
    hpush]
  rfl

theorem pubkeyHash?_lockScript (hash : Digest 20) :
    Script.pubkeyHash? (lockScript hash) = some hash := by
  have hsplit : Bytes.splitAt? 20
      (hash.bytes ++ [Opcode.equalVerify.byte, Opcode.checkSig.byte]) =
        some (hash.bytes, [Opcode.equalVerify.byte, Opcode.checkSig.byte]) :=
    Bytes.splitAt?_eq_some_iff.2 ⟨rfl, hash.length_bytes⟩
  rw [lockScript_eq_cons, Script.pubkeyHash?, if_pos ⟨rfl, rfl, rfl⟩, hsplit]
  exact (if_pos ⟨rfl, rfl⟩).trans (Digest.ofBytes?_bytes hash)

theorem eq_lockScript_of_pubkeyHash? {s : Script} (h : Script.pubkeyHash? s = some hash) :
    s = lockScript hash := by
  match s, h with
  | first :: second :: third :: rest, h =>
    rw [Script.pubkeyHash?] at h
    split at h
    · rename_i hfront
      obtain ⟨rfl, rfl, rfl⟩ := hfront
      split at h
      · rename_i bytes fourth fifth hsplit
        split at h
        · rename_i hback
          obtain ⟨rfl, rfl⟩ := hback
          obtain ⟨rfl, hlength⟩ := Bytes.splitAt?_eq_some_iff.1 hsplit
          rw [Digest.ofBytes?, dif_pos hlength] at h
          rw [← Option.some.inj h, lockScript_eq_cons]
        · cases h
      · cases h
    · cases h

theorem extractHash_eq_ok_iff {s : Script} : extractHash s = .ok hash ↔ s = lockScript hash := by
  rw [extractHash]
  constructor
  · intro h
    split at h
    · rename_i hhash
      rw [← Except.ok.inj h]
      exact eq_lockScript_of_pubkeyHash? hhash
    · cases h
  · rintro rfl
    rw [pubkeyHash?_lockScript]

/-! ## Unlocking scripts -/

theorem twoInstrs?_eq_some_iff {s : Script} {first second : Instr} :
    twoInstrs? s = some (first, second) ↔ s.instrs = [first, second] ∧ s.tail = [] := by
  rw [twoInstrs?]
  split
  · rename_i hinstrs htail
    rw [hinstrs, htail]
    simp
  · rename_i hother
    refine ⟨(nomatch ·), fun h => absurd h.2 (hother _ _ h.1)⟩

/-- An unlocking script consists of the push of a signature and the push of the key. -/
structure Unlocking (u : Script) (sig key : Instr) : Prop where
  instrs : u.instrs = [sig, key]
  tail : u.tail = []
  sig : pushesSig sig
  key : pushesKey key

theorem pushesSig_iff {op : Instr} : pushesSig op ↔
    op.code.isPushData ∧ 71 ≤ op.data.length ∧ op.data.length ≤ 73 := by
  simp [pushesSig, and_assoc]

theorem pushesKey_iff {op : Instr} : pushesKey op ↔
    op.code.isPushData ∧ (op.data.length = 33 ∨ op.data.length = 65) := by
  simp [pushesKey]

theorem key?_eq_some_iff {u : Script} :
    key? u = some key ↔ ∃ sigPush keyPush, Unlocking u sigPush keyPush ∧ keyPush.data = key := by
  rw [key?]
  constructor
  · intro h
    split at h
    · rename_i sigPush keyPush htwo
      obtain ⟨hinstrs, htail⟩ := twoInstrs?_eq_some_iff.1 htwo
      split at h
      · rename_i hpushes
        obtain ⟨hsig, hkey⟩ := Bool.and_eq_true_iff.1 hpushes
        exact ⟨sigPush, keyPush, ⟨hinstrs, htail, hsig, hkey⟩, Option.some.inj h⟩
      · cases h
    · cases h
  · rintro ⟨sigPush, keyPush, hu, rfl⟩
    rw [twoInstrs?_eq_some_iff.2 ⟨hu.instrs, hu.tail⟩]
    exact if_pos (Bool.and_eq_true_iff.2 ⟨hu.sig, hu.key⟩)

section

variable {u : Script} {sigPush keyPush : Instr} (h : Unlocking u sigPush keyPush)

include h

theorem Unlocking.extractKey_eq : extractKey u = .ok keyPush.data := by
  rw [extractKey, key?_eq_some_iff.2 ⟨sigPush, keyPush, h, rfl⟩]

/-- Two length fields of four bytes, the longest signature and the longest key. -/
theorem Unlocking.length_le : u.length ≤ 148 := by
  have hsig := sigPush.length_le
  have hkey := keyPush.length_le
  have hsigData := (pushesSig_iff.1 h.sig).2.2
  have hkeyData := (pushesKey_iff.1 h.key).2
  rw [← Script.ofInstrs_instrs_append_tail u, h.instrs, h.tail, List.append_nil,
    Script.ofInstrs_cons, Script.ofInstrs_cons, Script.ofInstrs_nil, List.append_nil,
    List.length_append, Instr.length_toBytes, Instr.length_toBytes]
  omega

theorem Unlocking.eval_eq (checker : Checker) (c : Crypto) (calls : List SigCall) :
    Script.eval ⟨.none, .consensus, checker, c⟩ u ⟨[], calls⟩ =
      .ok () ⟨[keyPush.data, sigPush.data], calls⟩ := by
  obtain ⟨hsigCode, -, hsigData⟩ := pushesSig_iff.1 h.sig
  obtain ⟨hkeyCode, hkeyData⟩ := pushesKey_iff.1 h.key
  have hvalues : u.instrs.map Instr.pushValue? = [sigPush.data, keyPush.data].map some := by
    rw [h.instrs, List.map_cons, List.map_cons, Instr.pushValue?, if_pos hsigCode,
      Instr.pushValue?, if_pos hkeyCode]
    rfl
  have hdata : ∀ op ∈ u.instrs, op.data.length ≤ 520 := by
    rw [h.instrs, List.forall_mem_cons, List.forall_mem_singleton]
    omega
  have hflag : ¬Flags.none.contains .minimalData := by decide
  have hsize : u.length ≤ 10000 := Nat.le_trans h.length_le (by decide)
  exact Script.eval_of_pushValues hvalues h.tail hdata (absurd · hflag) (show 2 ≤ 1000 by decide)
    hsize

end

/-! ## Unlocking scripts that are built -/

/-- Data of two bytes and more are announced by their shortest push, and shorter ones do not get
longer. -/
theorem announces_pushData_iff {P : Nat → Prop} (hP : ∀ n, P n → 2 ≤ n) {data : Bytes} :
    ((Instr.pushData data).code.isPushData ∧ P (Instr.pushData data).data.length) ↔
      P data.length := by
  constructor
  · rintro ⟨-, hlength⟩
    have hle := Nat.le_trans (hP _ hlength) (Instr.length_data_pushData_le data)
    rw [Instr.pushData_of_two_le hle] at hlength
    exact hlength
  · intro hlength
    rw [Instr.pushData_of_two_le (hP _ hlength)]
    exact ⟨Instr.isPushData_opcodeForLength _, hlength⟩

theorem pushesSig_pushData_iff :
    pushesSig (.pushData sig) ↔ 71 ≤ sig.length ∧ sig.length ≤ 73 :=
  pushesSig_iff.trans
    (announces_pushData_iff (P := fun n => 71 ≤ n ∧ n ≤ 73) fun n hn => by omega)

theorem pushesKey_pushData_iff :
    pushesKey (.pushData key) ↔ key.length = 33 ∨ key.length = 65 :=
  pushesKey_iff.trans
    (announces_pushData_iff (P := fun n => n = 33 ∨ n = 65) fun n hn => by omega)

theorem parse_unlockScript (hsig : sig.length < 2 ^ 32) (hkey : key.length < 2 ^ 32) :
    Script.parse (unlockScript sig key) = ([.pushData sig, .pushData key], []) := by
  rw [unlockScript_eq]
  exact Script.parse_pushData (List.forall_mem_cons.2 ⟨hsig, List.forall_mem_singleton.2 hkey⟩)

theorem length_le_length_pushData (data : Bytes) :
    data.length ≤ (Instr.pushData data).length := by
  rw [Instr.length]
  rcases Nat.lt_or_ge data.length 2 with hlt | hle
  · omega
  · rw [Instr.pushData_of_two_le hle]
    exact Nat.le_add_left _ _

theorem length_le_length_unlockScript (sig key : Bytes) :
    sig.length + key.length ≤ (unlockScript sig key).length := by
  rw [unlockScript_eq, List.map_cons, List.map_cons, List.map_nil, Script.ofInstrs_cons,
    Script.ofInstrs_cons, Script.ofInstrs_nil, List.append_nil, List.length_append,
    Instr.length_toBytes, Instr.length_toBytes]
  exact Nat.add_le_add (length_le_length_pushData sig) (length_le_length_pushData key)

theorem unlocking_unlockScript (hsig : 71 ≤ sig.length ∧ sig.length ≤ 73)
    (hkey : key.length = 33 ∨ key.length = 65) :
    Unlocking (unlockScript sig key) (.pushData sig) (.pushData key) := by
  have hparse := parse_unlockScript (show sig.length < 2 ^ 32 by omega)
    (show key.length < 2 ^ 32 by omega)
  exact ⟨congrArg Prod.fst hparse, congrArg Prod.snd hparse, pushesSig_pushData_iff.2 hsig,
    pushesKey_pushData_iff.2 hkey⟩

/-- A script that is built and recognised is too short for data that a length field cannot tell. -/
theorem Unlocking.lengths {sigPush keyPush : Instr}
    (h : Unlocking (unlockScript sig key) sigPush keyPush) :
    (71 ≤ sig.length ∧ sig.length ≤ 73) ∧ (key.length = 33 ∨ key.length = 65) := by
  have hshort := Nat.le_trans (length_le_length_unlockScript sig key) h.length_le
  have hinstrs : (unlockScript sig key).instrs = [.pushData sig, .pushData key] :=
    congrArg Prod.fst (parse_unlockScript (by omega) (by omega))
  rw [h.instrs] at hinstrs
  obtain ⟨rfl, hrest⟩ := List.cons_eq_cons.1 hinstrs
  obtain ⟨rfl, -⟩ := List.cons_eq_cons.1 hrest
  exact ⟨pushesSig_pushData_iff.1 h.sig, pushesKey_pushData_iff.1 h.key⟩

theorem extractKey_unlockScript (sig key : Bytes) :
    extractKey (unlockScript sig key) =
      if (71 ≤ sig.length ∧ sig.length ≤ 73) ∧ (key.length = 33 ∨ key.length = 65) then .ok key
      else .error (.badData .notPubkeyHashUnlock) := by
  split
  · rename_i hlengths
    rw [(unlocking_unlockScript hlengths.1 hlengths.2).extractKey_eq,
      Instr.pushData_of_two_le (by omega)]
  · rename_i hlengths
    rw [extractKey]
    cases hkey : key? (unlockScript sig key) with
    | some found =>
        obtain ⟨sigPush, keyPush, hu, -⟩ := key?_eq_some_iff.1 hkey
        exact absurd hu.lengths hlengths
    | none => rfl

/-- A script pays to a hash if it is the script that is built from the hash. A script that is
recognised as unlocking one leaves the signature and the key on the stack, the key that is taken
from it on top, under any opcodes that announce them. The script that is built from a signature and
a key gives the key back if both have the lengths that such things have, and is refused
otherwise. -/
theorem extract_templates :
    (∀ (s : Script) (hash : Digest 20), extractHash s = .ok hash ↔ s = lockScript hash) ∧
    (∀ u : Script, isUnlockScript u → ∃ sig key : Bytes,
      extractKey u = .ok key ∧
      (71 ≤ sig.length ∧ sig.length ≤ 73) ∧ (key.length = 33 ∨ key.length = 65) ∧
      ∀ (checker : Checker) (c : Crypto) (calls : List SigCall),
        Script.eval ⟨.none, .consensus, checker, c⟩ u ⟨[], calls⟩ = .ok () ⟨[key, sig], calls⟩) ∧
    ∀ sig key : Bytes, extractKey (unlockScript sig key) =
      if (71 ≤ sig.length ∧ sig.length ≤ 73) ∧ (key.length = 33 ∨ key.length = 65) then .ok key
      else .error (.badData .notPubkeyHashUnlock) := by
  refine ⟨fun s hash => extractHash_eq_ok_iff, fun u hu => ?_, extractKey_unlockScript⟩
  obtain ⟨key, hkey⟩ := Option.isSome_iff_exists.1 hu
  obtain ⟨sigPush, keyPush, h, -⟩ := key?_eq_some_iff.1 hkey
  exact ⟨sigPush.data, keyPush.data, h.extractKey_eq, (pushesSig_iff.1 h.sig).2,
    (pushesKey_iff.1 h.key).2, h.eval_eq⟩

/-- A signature behind a length field of one byte and a key behind one of four, where none is
needed. -/
theorem extract_templates_wide :
    let key : Bytes := List.replicate 33 2
    let u : Script := [0x4c, 71] ++ List.replicate 71 1 ++ [0x4e, 33, 0, 0, 0] ++ key
    isUnlockScript u ∧ extractKey u = .ok key ∧ ∃ sig : Bytes,
      (71 ≤ sig.length ∧ sig.length ≤ 73) ∧
        Script.eval ⟨.none, .consensus, .refusing, .standard⟩ u {} = .ok () ⟨[key, sig], []⟩ := by
  intro key u
  have hu : isUnlockScript u := by decide +kernel
  have hkey : extractKey u = .ok key := by decide +kernel
  obtain ⟨sig, found, hfound, hsig, -, heval⟩ := extract_templates.2.1 u hu
  obtain rfl : key = found := Except.ok.inj (hkey.symm.trans hfound)
  exact ⟨hu, hkey, sig, hsig, heval .refusing .standard []⟩

end PubkeyHash

end BitcoinScript
