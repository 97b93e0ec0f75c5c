import CS416.Lib.Memory

/-!
# Integers and records as bytes

The machine that the programs run on stores an integer of `n` bytes least
significant byte first, in two's complement, and an array as its records one
after the other.  What a field holds is read back as the number that was
stored, if the field can hold it.
-/

namespace Bytes

open Memory

/-- An integer as `n` bytes. -/
def ofInt (n : Nat) (v : Int) : Fin n → UInt8 :=
  fun j => UInt8.ofNat ((v % 256 ^ n).toNat / 256 ^ (j : Nat))

/-- The unsigned number in `n` bytes. -/
def toNat {n : Nat} (b : Fin n → UInt8) : Nat := ∑ j : Fin n, (b j).toNat * 256 ^ (j : Nat)

/-- The signed number in `n` bytes. -/
def toInt {n : Nat} (b : Fin n → UInt8) : Int := Int.bmod (toNat b) (256 ^ n)

/-- An object as a buffer; nothing behind it is read. -/
def object {n : Nat} (b : Fin n → UInt8) : Buffer UInt8 := store (fun _ => 0) 0 b

/-- An array of records of `size` bytes. -/
def array (size : Nat) (record : Nat → Buffer UInt8) : Buffer UInt8 :=
  fun j => record (j / size) (j % size)

/-- The record number `i` of an array. -/
def recordAt (size : Nat) (buf : Buffer UInt8) (i : Nat) : Buffer UInt8 :=
  fun k => buf (size * i + k)

section Numbers

variable {n m : Nat} {v : Int}

/-- `n` digits make up the number modulo `256 ^ n`. -/
theorem sum_digits (m n : Nat) :
    ∑ j : Fin n, (m / 256 ^ (j : Nat) % 256) * 256 ^ (j : Nat) = m % 256 ^ n := by
  induction n with
  | zero => simp [Nat.mod_one]
  | succ n ih =>
      rw [Fin.sum_univ_castSucc]
      simp only [Fin.val_castSucc, Fin.val_last]
      rw [ih, pow_succ, Nat.mod_mul, Nat.mul_comm (256 ^ n)]

/-- A number is read back modulo the size of its field. -/
theorem toNat_ofInt (n : Nat) (v : Int) : toNat (ofInt n v) = (v % 256 ^ n).toNat := by
  have hdigits := sum_digits (v % 256 ^ n).toNat n
  have hlt : (v % 256 ^ n).toNat < 256 ^ n := by
    have hpos : (0 : Int) < 256 ^ n := by positivity
    have h₀ := Int.emod_nonneg v hpos.ne'
    have h₁ := Int.emod_lt_of_pos v hpos
    rw [Int.toNat_lt h₀]
    exact_mod_cast h₁
  rw [Nat.mod_eq_of_lt hlt] at hdigits
  rw [toNat, ← hdigits]
  exact Finset.sum_congr rfl fun j _ => by rw [ofInt, UInt8.toNat_ofNat']

/-- `n` bytes hold a number below `256 ^ n`. -/
theorem toNat_lt (b : Fin n → UInt8) : toNat b < 256 ^ n := by
  induction n with
  | zero => simp [toNat]
  | succ n ih =>
      have hrest := ih fun j => b j.castSucc
      have hlast : (b (Fin.last n)).toNat ≤ 255 := Nat.le_of_lt_succ (b (Fin.last n)).toNat_lt
      have htop := Nat.mul_le_mul_right (256 ^ n) hlast
      rw [toNat] at hrest ⊢
      rw [Fin.sum_univ_castSucc, pow_succ]
      simp only [Fin.val_castSucc, Fin.val_last]
      omega

/-- **An unsigned field** reads back as the number stored. -/
theorem toNat_ofInt_of_lt (h₀ : 0 ≤ v) (h₁ : v < 256 ^ n) : (toNat (ofInt n v) : Int) = v := by
  rw [toNat_ofInt, Int.emod_eq_of_lt h₀ h₁, Int.toNat_of_nonneg h₀]

/-- **A signed field** reads back as the number stored. -/
theorem toInt_ofInt (hn : 0 < n) (h₀ : -(256 ^ n / 2 : Int) ≤ v) (h₁ : v < 256 ^ n / 2) :
    toInt (ofInt n v) = v := by
  have hpos : (0 : Int) < 256 ^ n := by positivity
  have hcast : ((v % 256 ^ n).toNat : Int) = v % (256 ^ n : Nat) := by
    rw [Int.toNat_of_nonneg (Int.emod_nonneg v hpos.ne')]
    push_cast
    rfl
  rw [toInt, toNat_ofInt, hcast, Int.emod_bmod]
  have heven : (256 ^ n : Nat) % 2 = 0 := by
    obtain ⟨k, rfl⟩ := Nat.exists_eq_succ_of_ne_zero hn.ne'
    rw [pow_succ]
    omega
  refine Int.bmod_eq_of_le ?_ ?_
  · push_cast
    exact h₀
  · push_cast
    omega

/-- The bytes of a number are its digits. -/
theorem digit_of_toNat {b : Fin 8 → UInt8} (j : Fin 8) :
    (b j).toNat = toNat b / 256 ^ (j : Nat) % 256 := by
  have hlt : ∀ i, (b i).toNat < 256 := fun i => (b i).toNat_lt
  have h0 := hlt 0
  have h1 := hlt 1
  have h2 := hlt 2
  have h3 := hlt 3
  have h4 := hlt 4
  have h5 := hlt 5
  have h6 := hlt 6
  have h7 := hlt 7
  have hsum : toNat b = (b 0).toNat + (b 1).toNat * 256 + (b 2).toNat * 65536 +
      (b 3).toNat * 16777216 + (b 4).toNat * 4294967296 + (b 5).toNat * 1099511627776 +
      (b 6).toNat * 281474976710656 + (b 7).toNat * 72057594037927936 := by
    rw [toNat, Fin.sum_univ_eight]
    norm_num
  rw [hsum]
  fin_cases j <;> simp <;> omega

end Numbers

section Pieces

variable {n m p q : Nat} {buf : Buffer UInt8} {src : Fin n → UInt8}

@[simp] theorem load_object : load (object src) 0 n = src := load_store_self

theorem object_at {i : Nat} (h : i < n) : object src i = src ⟨i, h⟩ := by
  have hinside : store (fun _ => 0) 0 src (0 + i) = src ⟨i, h⟩ := store_inside h
  rwa [Nat.zero_add] at hinside

/-- A piece of an object that was stored. -/
theorem load_store_piece (h : q + m ≤ n) :
    load (store buf p src) (p + q) m = load (object src) q m := by
  funext j
  have hin : q + (j : Nat) < n := by omega
  rw [load, load, Nat.add_assoc, store_inside hin, object_at hin]

end Pieces

section Arrays

variable {size i k : Nat} {record : Nat → Buffer UInt8} {buf buf' : Buffer UInt8}

/-- A byte of an array. -/
theorem array_at (size : Nat) (record : Nat → Buffer UInt8) (i : Nat) (hk : k < size) :
    array size record (size * i + k) = record i k := by
  rw [array, Nat.mul_add_div (by omega), Nat.mul_add_mod, Nat.mod_eq_of_lt hk,
    Nat.div_eq_of_lt hk, Nat.add_zero]

/-- A byte of a record of an object that holds an array. -/
theorem recordAt_object {n : Nat} (record : Nat → Buffer UInt8) (hk : k < size)
    (hi : size * i + size ≤ n) :
    recordAt size (object fun j : Fin n => array size record j) i k = record i k := by
  have hin : size * i + k < n := by omega
  rw [recordAt, object_at hin]
  exact array_at size record i hk

/-- A field of such a record. -/
theorem load_recordAt_object {n p m : Nat} (record : Nat → Buffer UInt8) (h : p + m ≤ size)
    (hi : size * i + size ≤ n) :
    load (recordAt size (object fun j : Fin n => array size record j) i) p m =
      load (record i) p m :=
  load_congr fun _ _ hj => recordAt_object record (by omega) hi

end Arrays

end Bytes
