/-!
# Byte strings

A byte string is a list of bytes. Fixed-width numbers are written into one little-endian by
`Bytes.ofNatLE` and big-endian by `Bytes.ofNatBE`, and read back by `Bytes.toNatLE` and
`Bytes.toNatBE`. A reader takes an exact number of bytes from the front with `Bytes.splitAt?`,
which is the one place where a byte string can turn out to be too short.
-/

namespace BitcoinScript

abbrev Bytes := List UInt8

namespace Bytes

/-- The little-endian form of `n` in `width` bytes. Digits that do not fit are dropped. -/
def ofNatLE : (width n : Nat) → Bytes
  | 0, _ => []
  | width + 1, n => UInt8.ofNat n :: ofNatLE width (n / 256)

@[simp] theorem ofNatLE_zero (n : Nat) : ofNatLE 0 n = [] := rfl

theorem ofNatLE_succ (width n : Nat) :
    ofNatLE (width + 1) n = UInt8.ofNat n :: ofNatLE width (n / 256) := rfl

@[simp] theorem length_ofNatLE (width n : Nat) : (ofNatLE width n).length = width := by
  induction width generalizing n with
  | zero => rfl
  | succ width ih => simp [ofNatLE_succ, ih]

def toNatLE : Bytes → Nat
  | [] => 0
  | b :: bs => b.toNat + 256 * toNatLE bs

@[simp] theorem toNatLE_nil : toNatLE [] = 0 := rfl

theorem toNatLE_cons (b : UInt8) (bs : Bytes) :
    toNatLE (b :: bs) = b.toNat + 256 * toNatLE bs := rfl

/-- The number of byte strings of a length: one more than the largest number that fits. -/
def capacity : (width : Nat) → Nat
  | 0 => 1
  | width + 1 => 256 * capacity width

@[simp] theorem capacity_zero : capacity 0 = 1 := rfl

theorem capacity_succ (width : Nat) : capacity (width + 1) = 256 * capacity width := rfl

/-- Reading what was written gives the number back, less the digits that did not fit. -/
theorem toNatLE_ofNatLE (width n : Nat) : toNatLE (ofNatLE width n) = n % capacity width := by
  induction width generalizing n with
  | zero => rw [ofNatLE_zero, toNatLE_nil, capacity_zero, Nat.mod_one]
  | succ width ih =>
      rw [ofNatLE_succ, toNatLE_cons, ih, capacity_succ, Nat.mod_mul, UInt8.toNat_ofNat']

theorem toNatLE_lt_capacity (bs : Bytes) : toNatLE bs < capacity bs.length := by
  induction bs with
  | nil => exact Nat.one_pos
  | cons b bs ih =>
      have hb := b.toNat_lt
      rw [toNatLE_cons, List.length_cons, capacity_succ]
      omega

@[simp] theorem ofNatLE_toNatLE (bs : Bytes) : ofNatLE bs.length (toNatLE bs) = bs := by
  induction bs with
  | nil => rfl
  | cons b bs ih =>
      have hb := b.toNat_lt
      have hdiv : (b.toNat + 256 * toNatLE bs) / 256 = toNatLE bs := by omega
      have hmod : UInt8.ofNat (b.toNat + 256 * toNatLE bs) = b := by
        apply UInt8.toNat_inj.1
        simp only [UInt8.toNat_ofNat']
        omega
      rw [List.length_cons, toNatLE_cons, ofNatLE_succ, hdiv, hmod, ih]

def ofNatBE (width n : Nat) : Bytes := (ofNatLE width n).reverse

@[simp] theorem length_ofNatBE (width n : Nat) : (ofNatBE width n).length = width := by
  simp [ofNatBE]

def toNatBE (bs : Bytes) : Nat := bs.foldl (fun n b => 256 * n + b.toNat) 0

@[simp] theorem toNatBE_nil : toNatBE [] = 0 := rfl

/-- The first `n` items of a list and the rest, if there are that many. -/
def splitAt? {α : Type} : Nat → List α → Option (List α × List α)
  | 0, xs => some ([], xs)
  | _ + 1, [] => none
  | n + 1, x :: xs => (splitAt? n xs).map fun p => (x :: p.1, p.2)

theorem splitAt?_eq_some_iff {α : Type} {n : Nat} {xs ys zs : List α} :
    splitAt? n xs = some (ys, zs) ↔ xs = ys ++ zs ∧ ys.length = n := by
  induction n generalizing xs ys with
  | zero =>
      simp only [splitAt?, Option.some.injEq, Prod.mk.injEq, List.length_eq_zero_iff]
      constructor
      · rintro ⟨rfl, rfl⟩
        simp
      · rintro ⟨rfl, rfl⟩
        simp
  | succ n ih =>
      cases xs with
      | nil =>
          simp only [splitAt?, reduceCtorEq, false_iff]
          rintro ⟨h, hlen⟩
          have := congrArg List.length h
          simp at this
          omega
      | cons x xs =>
          simp only [splitAt?, Option.map_eq_some_iff, Prod.exists, Prod.mk.injEq]
          constructor
          · rintro ⟨us, vs, h, rfl, rfl⟩
            obtain ⟨rfl, hlen⟩ := ih.1 h
            simp [hlen]
          · rintro ⟨h, hlen⟩
            cases ys with
            | nil => simp at hlen
            | cons y ys =>
                rw [List.cons_append, List.cons.injEq] at h
                obtain ⟨rfl, h⟩ := h
                exact ⟨ys, zs, ih.2 ⟨h, by simpa using hlen⟩, rfl, rfl⟩

/-- The bytes between two positions, which must be in order and inside the byte string. -/
def slice? (s : Bytes) (start stop : Nat) : Option Bytes :=
  if start ≤ stop ∧ stop ≤ s.length then some ((s.drop start).take (stop - start)) else none

theorem splitAt?_eq_none_iff {α : Type} {n : Nat} {xs : List α} :
    splitAt? n xs = none ↔ xs.length < n := by
  induction n generalizing xs with
  | zero => simp [splitAt?]
  | succ n ih =>
      cases xs with
      | nil => simp [splitAt?]
      | cons x xs => simp [splitAt?, ih]

end Bytes

end BitcoinScript
