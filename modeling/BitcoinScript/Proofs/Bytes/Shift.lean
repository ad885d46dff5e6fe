import Mathlib.Algebra.Order.Ring.Int
import Mathlib.Data.List.GetD
import BitcoinScript.Bytes.Shift

/-!
# Shifts byte after byte

A shift that writes at indices never leaves the byte string, and what it writes is the shift of the
whole string. The argument keeps track of every byte of the result while the source bytes are moved
one after the other: those that have received both of their parts, the one that has received only
what its neighbour shifts out, and those that are still zero.
-/

namespace BitcoinScript.Bytes

def tabulate (n : Nat) (f : Nat → UInt8) : Array UInt8 := Array.ofFn fun j : Fin n => f j

section

variable {n : Nat} {f g : Nat → UInt8}

theorem tabulate_congr (h : ∀ j, j < n → f j = g j) : tabulate n f = tabulate n g := by
  have hfun : (fun j : Fin n => f j) = fun j : Fin n => g j := by
    funext j
    exact h j j.isLt
  rw [tabulate, tabulate, hfun]

theorem replicate_zero (n : Nat) : Array.replicate n 0 = tabulate n fun _ => 0 := by
  apply Array.ext
  · simp [tabulate]
  · intro j _ _
    simp [tabulate]

theorem orAt?_tabulate {i : Nat} (h : i < n) (bits : UInt8) :
    orAt? (tabulate n f) i bits =
      some (tabulate n fun j => if j = i then f j ||| bits else f j) := by
  have hi : i < (tabulate n f).size := by
    rw [tabulate, Array.size_ofFn]
    exact h
  rw [orAt?, dif_pos hi]
  congr 1
  apply Array.ext
  · simp [tabulate]
  · intro j hj hj'
    rw [Array.getElem_set]
    by_cases hji : i = j
    · subst hji
      simp [tabulate]
    · simp [tabulate, hji, Ne.symm hji]

theorem orAtIf?_tabulate {p : Prop} [Decidable p] {i : Nat} (h : p → i < n) (bits : UInt8) :
    orAtIf? p (tabulate n f) i bits =
      some (tabulate n fun j => if p ∧ j = i then f j ||| bits else f j) := by
  by_cases hp : p
  · simp only [orAtIf?, orAt?_tabulate (h hp), hp, if_true, true_and]
  · simp only [orAtIf?, hp, if_false, false_and]

end

/-- A byte that is joined from two keeps its places apart. -/
theorem ofNat_shiftLeft_add {a b i : Nat} (h : b < 2 ^ i) :
    UInt8.ofNat (a <<< i + b) = UInt8.ofNat (a <<< i) ||| UInt8.ofNat b := by
  rw [Nat.shiftLeft_add_eq_or_of_lt h, UInt8.ofNat_or]

theorem shiftRight_lt_two_pow (b : UInt8) {i k : Nat} (h : 8 = i + k) : b.toNat >>> i < 2 ^ k := by
  rw [Nat.shiftRight_eq_div_pow]
  apply Nat.div_lt_of_lt_mul
  rw [← Nat.pow_add, ← h]
  exact b.toNat_lt

/-- A mask is there for each number of places that bytes are moved by. -/
theorem getElem?_masks {masks : List UInt8} (h : masks.length = 8) (n : Nat) :
    masks[n % 8]? = some (masks.getD (n % 8) 0) := by
  have hlt : n % 8 < masks.length := by omega
  rw [List.getElem?_eq_getElem hlt, List.getD_eq_getElem _ _ hlt]

theorem toList_tabulate_eq {bs : Bytes} {f : Nat → UInt8}
    (h : ∀ j (hj : j < bs.length), bs[j] = f j) : (tabulate bs.length f).toList = bs := by
  apply List.ext_getElem
  · simp [tabulate]
  · intro j _ hj
    simp [tabulate, h j hj]

/-! ## To the front -/

section

variable {mask : UInt8} {bits whole : Nat} {src : Nat → UInt8}

/-- What a byte keeps. -/
def keptLeft (mask : UInt8) (bits : Nat) (b : UInt8) : UInt8 := (b &&& mask) <<< UInt8.ofNat bits

/-- What a byte shifts out. -/
def carriedLeft (mask : UInt8) (bits : Nat) (b : UInt8) : UInt8 :=
  if 0 < bits then (b &&& ~~~mask) >>> UInt8.ofNat (8 - bits) else 0

@[simp] theorem keptLeft_zero : keptLeft mask bits 0 = 0 := by simp [keptLeft]

@[simp] theorem carriedLeft_zero : carriedLeft mask bits 0 = 0 := by simp [carriedLeft]

/-- The byte of the result at an index when the source bytes from `k` on have been moved. -/
def movedLeft (mask : UInt8) (bits : Nat) (src : Nat → UInt8) (k j : Nat) : UInt8 :=
  if k ≤ j then keptLeft mask bits (src j) ||| carriedLeft mask bits (src (j + 1))
  else if j + 1 = k then carriedLeft mask bits (src k)
  else 0

theorem movedLeft_step (k j : Nat) :
    movedLeft mask bits src k j =
      if j = k then movedLeft mask bits src (k + 1) j ||| keptLeft mask bits (src k)
      else if j + 1 = k then movedLeft mask bits src (k + 1) j ||| carriedLeft mask bits (src k)
      else movedLeft mask bits src (k + 1) j := by
  by_cases hjk : j = k
  · subst hjk
    rw [movedLeft, if_pos (Nat.le_refl j), if_pos rfl, movedLeft, if_neg (by omega), if_pos rfl,
      UInt8.or_comm]
  · rw [if_neg hjk]
    by_cases hnext : j + 1 = k
    · rw [if_pos hnext, movedLeft, if_neg (by omega), if_pos hnext, movedLeft,
        if_neg (by omega), if_neg (by omega), UInt8.zero_or]
    · rw [if_neg hnext, movedLeft]
      by_cases hle : k ≤ j
      · rw [if_pos hle, movedLeft, if_pos (by omega)]
      · rw [if_neg hle, if_neg hnext, movedLeft, if_neg (by omega), if_neg (by omega)]

variable (mask bits) in
theorem moveLeft?_tabulate {bs : Array UInt8} {k : Nat}
    (hsrc : ∀ j, j + whole < bs.size → bs[j + whole]? = some (src j))
    (hk : k ≤ bs.size - whole) :
    moveLeft? bs mask bits whole k (tabulate bs.size (movedLeft mask bits src k)) =
      some (tabulate bs.size (movedLeft mask bits src 0)) := by
  induction k with
  | zero => rfl
  | succ k ih =>
      have hlt : k < bs.size := by omega
      rw [moveLeft?, hsrc k (by omega), Option.bind_eq_bind, Option.bind_some,
        orAt?_tabulate hlt, Option.bind_eq_bind, Option.bind_some,
        orAtIf?_tabulate fun _ => by omega, Option.bind_some, ← ih (by omega)]
      congr 1
      refine tabulate_congr fun j _ => ?_
      rw [movedLeft_step k j, carriedLeft]
      by_cases hjk : j = k
      · rw [if_neg (by omega), if_pos hjk, if_pos hjk, keptLeft]
      · rw [if_neg hjk, if_neg hjk]
        by_cases hnext : j + 1 = k
        · rw [if_pos hnext]
          by_cases hbits : 0 < bits
          · rw [if_pos (by omega), if_pos hbits]
          · rw [if_neg (by omega), if_neg hbits, UInt8.or_zero]
        · rw [if_neg (by omega), if_neg hnext]

theorem keptLeft_eq (hbits : bits < 8) (b : UInt8) :
    keptLeft (leftMasks.getD bits 0) bits b = UInt8.ofNat (b.toNat <<< bits) := by
  have htable : ∀ k < 8, ∀ m < 256,
      keptLeft (leftMasks.getD k 0) k (UInt8.ofNat m) = UInt8.ofNat (m <<< k) := by
    decide +kernel
  simpa using htable bits hbits b.toNat b.toNat_lt

theorem carriedLeft_eq (hbits : bits < 8) (b : UInt8) :
    carriedLeft (leftMasks.getD bits 0) bits b = UInt8.ofNat (b.toNat >>> (8 - bits)) := by
  have htable : ∀ k < 8, ∀ m < 256,
      carriedLeft (leftMasks.getD k 0) k (UInt8.ofNat m) = UInt8.ofNat (m >>> (8 - k)) := by
    decide +kernel
  simpa using htable bits hbits b.toNat b.toNat_lt

theorem joinedLeft_eq (hbits : bits < 8) (b next : UInt8) :
    keptLeft (leftMasks.getD bits 0) bits b ||| carriedLeft (leftMasks.getD bits 0) bits next =
      UInt8.ofNat (b.toNat <<< bits + next.toNat >>> (8 - bits)) := by
  have hlow : next.toNat >>> (8 - bits) < 2 ^ bits := shiftRight_lt_two_pow next (by omega)
  rw [keptLeft_eq hbits, carriedLeft_eq hbits, ofNat_shiftLeft_add hlow]

theorem getElem_carryLeft {bs : Bytes} {j : Nat} (h : j < (carryLeft bits bs).length) :
    (carryLeft bits bs)[j] =
      UInt8.ofNat ((bs.getD j 0).toNat <<< bits + (bs.getD (j + 1) 0).toNat >>> (8 - bits)) := by
  induction bs generalizing j with
  | nil => exact absurd h (Nat.not_lt_zero j)
  | cons b bs ih =>
      cases j with
      | zero =>
          cases bs with
          | nil => simp [carryLeft]
          | cons next bs => rfl
      | succ j => exact ih (by simpa [carryLeft] using h)

theorem getElem_shiftLeft {bs : Bytes} {n j : Nat} (h : j < (shiftLeft bs n).length) :
    (shiftLeft bs n)[j] =
      UInt8.ofNat ((bs.getD (j + n / 8) 0).toNat <<< (n % 8) +
        (bs.getD (j + 1 + n / 8) 0).toNat >>> (8 - n % 8)) := by
  have hdrop (k : Nat) : (bs.drop (n / 8)).getD k 0 = bs.getD (k + n / 8) 0 := by
    rw [List.getD_eq_getElem?_getD, List.getElem?_drop, List.getD_eq_getElem?_getD,
      Nat.add_comm]
  simp only [shiftLeft]
  by_cases hj : j < (carryLeft (n % 8) (bs.drop (n / 8))).length
  · rw [List.getElem_append_left hj, getElem_carryLeft, hdrop, hdrop]
  · have hlen : bs.length ≤ j + n / 8 := by
      rw [length_carryLeft, List.length_drop] at hj
      omega
    rw [List.getElem_append_right (by omega), List.getElem_replicate,
      List.getD_eq_default _ _ hlen, List.getD_eq_default _ _ (by omega)]
    simp

def bytesFrom (bs : Bytes) (whole j : Nat) : UInt8 := bs.getD (j + whole) 0

theorem bytesFrom_of_le {bs : Bytes} {whole j : Nat} (h : bs.length ≤ j + whole) :
    bytesFrom bs whole j = 0 :=
  List.getD_eq_default _ _ h

theorem getElem?_bytesFrom {bs : Bytes} {whole j : Nat} (h : j + whole < bs.toArray.size) :
    bs.toArray[j + whole]? = some (bytesFrom bs whole j) := by
  have hlt : j + whole < bs.length := h
  rw [List.getElem?_toArray, List.getElem?_eq_getElem hlt]
  exact congrArg some (List.getD_eq_getElem _ _ hlt).symm

theorem shiftLeft?_eq (bs : Bytes) (n : Nat) : shiftLeft? bs n = some (shiftLeft bs n) := by
  have hbits : n % 8 < 8 := Nat.mod_lt n (by decide)
  have hjoined := joinedLeft_eq hbits
  rw [shiftLeft?, getElem?_masks rfl, Option.bind_eq_bind, Option.bind_some]
  generalize leftMasks.getD (n % 8) 0 = mask at hjoined ⊢
  -- Nothing is in the result before the last byte has been moved.
  have hstart : Array.replicate bs.length 0 =
      tabulate bs.length
        (movedLeft mask (n % 8) (bytesFrom bs (n / 8)) (bs.length - n / 8)) := by
    rw [replicate_zero]
    refine tabulate_congr fun j _ => ?_
    rw [movedLeft]
    split
    · rw [bytesFrom_of_le (by omega), bytesFrom_of_le (by omega), keptLeft_zero, carriedLeft_zero,
        UInt8.or_zero]
    · rw [bytesFrom_of_le (by omega), carriedLeft_zero, ite_self]
  have hmoved := moveLeft?_tabulate mask (n % 8) (fun _ hj => getElem?_bytesFrom hj)
    (Nat.le_refl (bs.toArray.size - n / 8))
  rw [List.size_toArray] at hmoved
  rw [hstart, hmoved, Option.bind_eq_bind, Option.bind_some]
  have hlength := length_shiftLeft bs n
  rw [← hlength]
  exact congrArg some (toList_tabulate_eq fun j hj => by
    rw [getElem_shiftLeft hj, movedLeft, if_pos (Nat.zero_le j), hjoined, bytesFrom, bytesFrom])

end

/-! ## To the back -/

section

variable {mask : UInt8} {bits whole : Nat} {src : Nat → UInt8}

def keptRight (mask : UInt8) (bits : Nat) (b : UInt8) : UInt8 := (b &&& mask) >>> UInt8.ofNat bits

def carriedRight (mask : UInt8) (bits : Nat) (b : UInt8) : UInt8 :=
  if 0 < bits then (b &&& ~~~mask) <<< UInt8.ofNat (8 - bits) else 0

@[simp] theorem carriedRight_zero : carriedRight mask bits 0 = 0 := by simp [carriedRight]

/-- The byte of the result at an index when the source bytes before `i` have been moved. The source
byte with the index `i` is `src (i + 1)`, and `src 0` stands for the zeros that enter. -/
def movedRight (mask : UInt8) (bits whole : Nat) (src : Nat → UInt8) (i j : Nat) : UInt8 :=
  if j < whole then 0
  else if j < i + whole then
    keptRight mask bits (src (j - whole + 1)) ||| carriedRight mask bits (src (j - whole))
  else if j = i + whole then carriedRight mask bits (src i)
  else 0

theorem movedRight_step (i j : Nat) :
    movedRight mask bits whole src (i + 1) j =
      if j = i + whole then
        movedRight mask bits whole src i j ||| keptRight mask bits (src (i + 1))
      else if j = i + whole + 1 then
        movedRight mask bits whole src i j ||| carriedRight mask bits (src (i + 1))
      else movedRight mask bits whole src i j := by
  by_cases hji : j = i + whole
  · subst hji
    rw [if_pos rfl, movedRight, if_neg (by omega), if_pos (by omega), movedRight,
      if_neg (by omega), if_neg (by omega), if_pos rfl, Nat.add_sub_cancel, UInt8.or_comm]
  · rw [if_neg hji]
    by_cases hnext : j = i + whole + 1
    · rw [if_pos hnext, movedRight, if_neg (by omega), if_neg (by omega), if_pos (by omega),
        movedRight, if_neg (by omega), if_neg (by omega), if_neg hji, UInt8.zero_or]
    · rw [if_neg hnext, movedRight, movedRight]
      by_cases hlow : j < whole
      · rw [if_pos hlow, if_pos hlow]
      · rw [if_neg hlow, if_neg hlow]
        by_cases hle : j < i + whole
        · rw [if_pos hle, if_pos (by omega)]
        · rw [if_neg hle, if_neg (by omega), if_neg hji, if_neg (by omega)]

variable (mask bits whole) in
theorem moveRight?_tabulate {bs : Array UInt8} {count i : Nat}
    (hsrc : ∀ j, j < bs.size → bs[j]? = some (src (j + 1)))
    (hi : i + count ≤ bs.size - whole) :
    moveRight? bs mask bits whole count i
        (tabulate bs.size (movedRight mask bits whole src i)) =
      some (tabulate bs.size (movedRight mask bits whole src (i + count))) := by
  induction count generalizing i with
  | zero => rfl
  | succ count ih =>
      have hlt : i + whole < bs.size := by omega
      rw [moveRight?, hsrc i (by omega), Option.bind_eq_bind, Option.bind_some,
        orAt?_tabulate hlt, Option.bind_eq_bind, Option.bind_some,
        orAtIf?_tabulate fun h => h.2, Option.bind_some, Nat.add_comm count 1, ← Nat.add_assoc,
        ← ih (by omega)]
      congr 1
      refine tabulate_congr fun j hj => ?_
      rw [movedRight_step i j, carriedRight]
      by_cases hji : j = i + whole
      · rw [if_neg (by omega), if_pos hji, if_pos hji, keptRight]
      · rw [if_neg hji, if_neg hji]
        by_cases hnext : j = i + whole + 1
        · rw [if_pos hnext]
          by_cases hbits : 0 < bits
          · rw [if_pos (by omega), if_pos hbits]
          · rw [if_neg (by omega), if_neg hbits, UInt8.or_zero]
        · rw [if_neg (by omega), if_neg hnext]

theorem keptRight_eq (hbits : bits < 8) (b : UInt8) :
    keptRight (rightMasks.getD bits 0) bits b = UInt8.ofNat (b.toNat >>> bits) := by
  have htable : ∀ k < 8, ∀ m < 256,
      keptRight (rightMasks.getD k 0) k (UInt8.ofNat m) = UInt8.ofNat (m >>> k) := by
    decide +kernel
  simpa using htable bits hbits b.toNat b.toNat_lt

theorem carriedRight_eq (hbits : bits < 8) (b : UInt8) :
    carriedRight (rightMasks.getD bits 0) bits b = UInt8.ofNat (b.toNat <<< (8 - bits)) := by
  have htable : ∀ k < 8, ∀ m < 256,
      carriedRight (rightMasks.getD k 0) k (UInt8.ofNat m) = UInt8.ofNat (m <<< (8 - k)) := by
    decide +kernel
  simpa using htable bits hbits b.toNat b.toNat_lt

theorem joinedRight_eq (hbits : bits < 8) (before b : UInt8) :
    keptRight (rightMasks.getD bits 0) bits b |||
        carriedRight (rightMasks.getD bits 0) bits before =
      UInt8.ofNat (before.toNat <<< (8 - bits) + b.toNat >>> bits) := by
  have hlow : b.toNat >>> bits < 2 ^ (8 - bits) :=
    shiftRight_lt_two_pow b (by omega)
  rw [keptRight_eq hbits, carriedRight_eq hbits, ofNat_shiftLeft_add hlow, UInt8.or_comm]

theorem getElem_carryRight {before : UInt8} {bs : Bytes} {j : Nat}
    (h : j < (carryRight bits before bs).length) :
    (carryRight bits before bs)[j] =
      UInt8.ofNat
        (((before :: bs).getD j 0).toNat <<< (8 - bits) + (bs.getD j 0).toNat >>> bits) := by
  induction bs generalizing before j with
  | nil => exact absurd h (Nat.not_lt_zero j)
  | cons b bs ih =>
      cases j with
      | zero => rfl
      | succ j => exact ih (by simpa [carryRight] using h)

theorem getElem_shiftRight {bs : Bytes} {n j : Nat} (h : j < (shiftRight bs n).length) :
    (shiftRight bs n)[j] =
      if j < n / 8 then 0
      else UInt8.ofNat (((0 :: bs : Bytes).getD (j - n / 8) 0).toNat <<< (8 - n % 8) +
        (bs.getD (j - n / 8) 0).toNat >>> (n % 8)) := by
  have hj : j < bs.length := length_shiftRight bs n ▸ h
  have htake {k m : Nat} (ds : Bytes) (hk : k < m) : (ds.take m).getD k 0 = ds.getD k 0 := by
    rw [List.getD_eq_getElem?_getD, List.getElem?_take_of_lt hk, List.getD_eq_getElem?_getD]
  simp only [shiftRight]
  by_cases hlow : j < n / 8
  · rw [List.getElem_append_left (by rw [List.length_replicate]; omega), List.getElem_replicate,
      if_pos hlow]
  · have hmin : min (n / 8) bs.length = n / 8 := by omega
    rw [List.getElem_append_right (by rw [List.length_replicate]; omega), getElem_carryRight,
      List.length_replicate, hmin, htake bs (by omega), ← List.take_succ_cons,
      htake (0 :: bs) (by omega), if_neg hlow]

def bytesBehindZero (bs : Bytes) (j : Nat) : UInt8 := (0 :: bs : Bytes).getD j 0

theorem getElem?_bytesBehindZero {bs : Bytes} {j : Nat} (h : j < bs.toArray.size) :
    bs.toArray[j]? = some (bytesBehindZero bs (j + 1)) := by
  have hlt : j < bs.length := h
  rw [List.getElem?_toArray, List.getElem?_eq_getElem hlt]
  exact congrArg some (List.getD_eq_getElem bs 0 hlt).symm

theorem shiftRight?_eq (bs : Bytes) (n : Nat) : shiftRight? bs n = some (shiftRight bs n) := by
  have hbits : n % 8 < 8 := Nat.mod_lt n (by decide)
  have hjoined := joinedRight_eq hbits
  rw [shiftRight?, getElem?_masks rfl, Option.bind_eq_bind, Option.bind_some]
  generalize rightMasks.getD (n % 8) 0 = mask at hjoined ⊢
  -- Nothing is in the result before the first byte has been moved.
  have hstart : Array.replicate bs.length 0 =
      tabulate bs.length (movedRight mask (n % 8) (n / 8) (bytesBehindZero bs) 0) := by
    rw [replicate_zero]
    refine tabulate_congr fun j _ => ?_
    rw [movedRight]
    split
    · rfl
    · have hfront : bytesBehindZero bs 0 = 0 := rfl
      rw [if_neg (by omega), hfront, carriedRight_zero, ite_self]
  have hmoved := moveRight?_tabulate mask (n % 8) (n / 8)
    (fun _ hj => getElem?_bytesBehindZero hj)
    (Nat.le_of_eq (Nat.zero_add (bs.toArray.size - n / 8)))
  rw [List.size_toArray, Nat.zero_add] at hmoved
  rw [hstart, hmoved, Option.bind_eq_bind, Option.bind_some]
  have hlength := length_shiftRight bs n
  rw [← hlength]
  refine congrArg some (toList_tabulate_eq fun j hj => ?_)
  rw [getElem_shiftRight hj, movedRight]
  by_cases hlow : j < n / 8
  · rw [if_pos hlow, if_pos hlow]
  · rw [if_neg hlow, if_neg hlow, if_pos (by omega), hjoined]
    rfl

end

end BitcoinScript.Bytes
