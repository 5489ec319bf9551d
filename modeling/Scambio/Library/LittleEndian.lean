import Mathlib.Data.List.Basic
import Mathlib.Tactic.Linarith

/-!
# LittleEndian — integers stored as bytes

`leBytes k n` is the `k`-byte little-endian image of `n`; `leNat` reads such an image back.
-/

namespace Scambio
namespace Library

/-- The low `k` bytes of `n`, least significant first. -/
def leBytes : Nat → Nat → List UInt8
  | 0, _ => []
  | k + 1, n => n.toUInt8 :: leBytes k (n / 256)

/-- The number whose little-endian image is given. -/
def leNat : List UInt8 → Nat
  | [] => 0
  | b :: bs => b.toNat + 256 * leNat bs

@[simp] theorem length_leBytes (k n : Nat) : (leBytes k n).length = k := by
  induction k generalizing n with
  | zero => rfl
  | succ k ih => simp [leBytes, ih]

theorem leNat_leBytes (k n : Nat) : leNat (leBytes k n) = n % 256 ^ k := by
  induction k generalizing n with
  | zero => simp [leBytes, leNat, Nat.mod_one]
  | succ k ih =>
      have hlow : (n.toUInt8).toNat = n % 256 := by
        simp
      rw [leBytes, leNat, ih, hlow, Nat.pow_succ', Nat.mod_mul]

theorem leNat_leBytes_of_lt {k n : Nat} (h : n < 256 ^ k) : leNat (leBytes k n) = n := by
  rw [leNat_leBytes, Nat.mod_eq_of_lt h]

theorem leNat_lt (bs : List UInt8) : leNat bs < 256 ^ bs.length := by
  induction bs with
  | nil => simp [leNat]
  | cons b bs ih =>
      have hb := b.toNat_lt
      rw [leNat, List.length_cons, Nat.pow_succ']
      omega

/-- Every list of bytes is the image of the number it stands for. -/
theorem leBytes_leNat (bs : List UInt8) : leBytes bs.length (leNat bs) = bs := by
  induction bs with
  | nil => rfl
  | cons b bs ih =>
      have hb := b.toNat_lt
      have hdiv : (b.toNat + 256 * leNat bs) / 256 = leNat bs := by omega
      have hlow : (b.toNat + 256 * leNat bs).toUInt8 = b := by
        refine UInt8.toNat_inj.1 ?_
        simp
      rw [List.length_cons, leBytes, leNat, hdiv, ih, hlow]

end Library
end Scambio
