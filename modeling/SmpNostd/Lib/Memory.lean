import Mathlib.Algebra.Order.Group.Nat
import Mathlib.Tactic.Common
import Mathlib.Tactic.Ring

/-!
Memory as bytes, with words stored in little-endian order.

A number is read from consecutive bytes as a natural number, so that reading
across the border of two fields, or only a part of one, is arithmetic: a range of
bytes is split by `readNat_add`, and what its parts hold are the remainder and
the quotient by a power of 256.
-/

namespace SmpNostd.Memory

abbrev Byte := BitVec 8

/-- What is at each address. -/
abbrev Mem := ℕ → Byte

/-! ### Writing -/

/-- Replace the `n` bytes from an address on. -/
def overlay (mem : Mem) (a n : ℕ) (bytes : ℕ → Byte) : Mem :=
  fun x => if a ≤ x ∧ x < a + n then bytes (x - a) else mem x

/-- Copy a list of bytes to an address. -/
def copy (mem : Mem) (a : ℕ) (bytes : List Byte) : Mem :=
  overlay mem a bytes.length fun k => bytes.getD k 0

/-- Set `n` bytes to the same value. -/
def fill (mem : Mem) (a n : ℕ) (byte : Byte) : Mem := overlay mem a n fun _ => byte

/-- Store a word of `w` bits. -/
def store {w : ℕ} (mem : Mem) (a : ℕ) (v : BitVec w) : Mem :=
  overlay mem a (w / 8) fun k => BitVec.ofNat 8 (v.toNat / 256 ^ k)

/-! ### Reading -/

/-- The number in the `n` bytes from an address on. -/
def readNat (mem : Mem) (a : ℕ) : ℕ → ℕ
  | 0 => 0
  | n + 1 => (mem a).toNat + 256 * readNat mem (a + 1) n

/-- Load a word of `w` bits. -/
def load (w : ℕ) (mem : Mem) (a : ℕ) : BitVec w := BitVec.ofNat w (readNat mem a (w / 8))

variable {mem mem' : Mem} {a b n k x : ℕ} {bytes : ℕ → Byte}

theorem overlay_inside (hk : k < n) : overlay mem a n bytes (a + k) = bytes k := by
  rw [overlay, if_pos (by omega), Nat.add_sub_cancel_left]

theorem overlay_outside (h : x < a ∨ a + n ≤ x) : overlay mem a n bytes x = mem x :=
  if_neg (by omega)

theorem readNat_congr (h : ∀ k < n, mem (a + k) = mem' (b + k)) :
    readNat mem a n = readNat mem' b n := by
  induction n generalizing a b with
  | zero => rfl
  | succ n ih =>
      have hfirst : mem a = mem' b := h 0 (Nat.succ_pos n)
      have hrest : readNat mem (a + 1) n = readNat mem' (b + 1) n := by
        apply ih
        intro k hk
        have hnext := h (k + 1) (Nat.succ_lt_succ hk)
        rwa [Nat.add_right_comm a 1 k, Nat.add_right_comm b 1 k]
      rw [readNat, readNat, hfirst, hrest]

theorem readNat_overlay_disjoint (h : b + k ≤ a ∨ a + n ≤ b) :
    readNat (overlay mem a n bytes) b k = readNat mem b k :=
  readNat_congr fun _ _ => overlay_outside (by omega)

/-- A range of bytes is split in two. -/
theorem readNat_add (mem : Mem) (a n k : ℕ) :
    readNat mem a (n + k) = readNat mem a n + 256 ^ n * readNat mem (a + n) k := by
  induction n generalizing a with
  | zero => simp [readNat]
  | succ n ih =>
      rw [Nat.add_right_comm, readNat, readNat, ih, Nat.add_assoc a 1 n, Nat.add_comm 1 n,
        Nat.pow_succ]
      ring

theorem readNat_lt (mem : Mem) (a n : ℕ) : readNat mem a n < 256 ^ n := by
  induction n generalizing a with
  | zero => exact Nat.one_pos
  | succ n ih =>
      have hbyte := (mem a).isLt
      have hrest := ih (a + 1)
      rw [readNat, Nat.pow_succ]
      omega

/-- What has the bytes of a number reads as the number. -/
theorem readNat_of_bytes {v : ℕ} (h : ∀ k < n, mem (a + k) = BitVec.ofNat 8 (v / 256 ^ k)) :
    readNat mem a n = v % 256 ^ n := by
  induction n generalizing a v with
  | zero => simp [readNat, Nat.mod_one]
  | succ n ih =>
      have hfirst : (mem a).toNat = v % 256 := by
        have hbyte := h 0 (Nat.succ_pos n)
        rw [Nat.add_zero, Nat.pow_zero, Nat.div_one] at hbyte
        rw [hbyte, BitVec.toNat_ofNat]
      have hrest : readNat mem (a + 1) n = v / 256 % 256 ^ n := by
        apply ih
        intro k hk
        rw [Nat.add_assoc, Nat.add_comm 1 k, h (k + 1) (Nat.succ_lt_succ hk), Nat.pow_succ',
          Nat.div_div_eq_div_mul]
      rw [readNat, hfirst, hrest, Nat.pow_succ', Nat.mod_mul]

section

variable {w : ℕ}

/-- A word that has just been stored, as a number. -/
theorem readNat_store_self (hw : 8 ∣ w) (v : BitVec w) :
    readNat (store mem a v) a (w / 8) = v.toNat := by
  obtain ⟨n, rfl⟩ := hw
  have hlt : v.toNat < 256 ^ n := by
    have hv := v.isLt
    rwa [Nat.pow_mul] at hv
  have hbytes : ∀ k < 8 * n / 8, store mem a v (a + k) = BitVec.ofNat 8 (v.toNat / 256 ^ k) :=
    fun k hk => overlay_inside hk
  rw [readNat_of_bytes hbytes, Nat.mul_div_cancel_left n (by decide), Nat.mod_eq_of_lt hlt]

theorem readNat_store_disjoint {v : BitVec w} (h : b + k ≤ a ∨ a + w / 8 ≤ b) :
    readNat (store mem a v) b k = readNat mem b k :=
  readNat_overlay_disjoint h

theorem toNat_load (hw : 8 ∣ w) (mem : Mem) (a : ℕ) :
    (load w mem a).toNat = readNat mem a (w / 8) := by
  obtain ⟨n, rfl⟩ := hw
  have hlt := readNat_lt mem a (8 * n / 8)
  rw [Nat.mul_div_cancel_left n (by decide)] at hlt ⊢
  rw [load, Nat.mul_div_cancel_left n (by decide), BitVec.toNat_ofNat, Nat.pow_mul,
    Nat.mod_eq_of_lt hlt]

theorem load_congr {w : ℕ} (h : ∀ k < w / 8, mem (a + k) = mem' (b + k)) :
    load w mem a = load w mem' b := by
  rw [load, load, readNat_congr h]

theorem load_store_self (hw : 8 ∣ w) (v : BitVec w) : load w (store mem a v) a = v := by
  rw [load, readNat_store_self hw, BitVec.ofNat_toNat, BitVec.setWidth_eq]

theorem load_store_disjoint {w' : ℕ} {v : BitVec w'} (h : b + w / 8 ≤ a ∨ a + w' / 8 ≤ b) :
    load w (store mem a v) b = load w mem b := by
  rw [load, load, readNat_store_disjoint h]

theorem store_outside {v : BitVec w} (h : x < a ∨ a + w / 8 ≤ x) : store mem a v x = mem x :=
  overlay_outside h

end

/-! ### Regions with known content -/

/-- The bytes are at the address. -/
def Holds (mem : Mem) (a : ℕ) (bytes : List Byte) : Prop :=
  ∀ k < bytes.length, mem (a + k) = bytes.getD k 0

section

variable {bytes : List Byte}

theorem holds_copy (mem : Mem) (a : ℕ) (bytes : List Byte) : Holds (copy mem a bytes) a bytes :=
  fun _ hk => overlay_inside hk

/-- A number in the region can be read from the list. -/
theorem Holds.readNat_eq (h : Holds mem a bytes) (hfits : k + n ≤ bytes.length) :
    readNat mem (a + k) n = readNat (fun i => bytes.getD i 0) k n := by
  apply readNat_congr
  intro i hi
  rw [Nat.add_assoc]
  exact h (k + i) (by omega)

end

end SmpNostd.Memory
