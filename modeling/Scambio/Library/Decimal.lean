import Mathlib.Data.List.Basic
import Mathlib.Data.List.Induction
import Mathlib.Tactic.Linarith

/-!
# Decimal — numbers as ASCII digits

`decimal n` prints a natural number without leading zeros, `digitsVal` reads a list of digit
bytes back, leading zeros allowed (`digitsVal_zeros_append`).
-/

namespace Scambio
namespace Library

/-- The byte of an ASCII character. -/
def charByte (c : Char) : UInt8 :=
  c.toNat.toUInt8

def isDigit (c : UInt8) : Bool :=
  48 ≤ c && c ≤ 57

/-- The decimal digits of `n`, most significant first. -/
def decimal (n : Nat) : List UInt8 :=
  (Nat.toDigits 10 n).map charByte

/-- The value of a list of digits, read from left to right. -/
def digitsVal (ds : List UInt8) : Nat :=
  ds.foldl (fun acc d => 10 * acc + (d.toNat - 48)) 0

theorem charByte_toNat_of_isDigit {c : Char} (h : c.isDigit = true) :
    (charByte c).toNat = c.toNat := by
  have hle : c.toNat ≤ 57 := by
    have h57 : c.val ≤ 57 := by
      simp only [Char.isDigit, Bool.and_eq_true, decide_eq_true_eq] at h
      exact h.2
    exact UInt32.le_iff_toNat_le.mp h57
  have hlt : c.toNat < 256 := by omega
  simp only [charByte, Nat.toUInt8, UInt8.toNat_ofNat']
  exact Nat.mod_eq_of_lt hlt

theorem isDigit_charByte {c : Char} (h : c.isDigit = true) : isDigit (charByte c) = true := by
  have hval := charByte_toNat_of_isDigit h
  simp only [Char.isDigit, Bool.and_eq_true, decide_eq_true_eq, ge_iff_le,
    UInt32.le_iff_toNat_le] at h
  simp only [isDigit, Bool.and_eq_true, decide_eq_true_eq, UInt8.le_iff_toNat_le, hval]
  exact h

theorem isDigit_of_mem_decimal {n : Nat} {d : UInt8} (h : d ∈ decimal n) : isDigit d = true := by
  rcases List.mem_map.1 h with ⟨c, hc, rfl⟩
  exact isDigit_charByte (Nat.isDigit_of_mem_toDigits (by decide) (by decide) hc)

theorem decimal_ne_nil (n : Nat) : decimal n ≠ [] := by
  simp [decimal, Nat.toDigits_ne_nil]

theorem length_decimal_le {n k : Nat} (hk : 0 < k) (hn : n < 10 ^ k) : (decimal n).length ≤ k := by
  rw [decimal, List.length_map]
  exact (Nat.length_toDigits_le_iff (by decide) hk).2 hn

theorem foldl_digits_map (cs : List Char) (hcs : ∀ c ∈ cs, c.isDigit = true) (acc : Nat) :
    (cs.map charByte).foldl (fun acc d => 10 * acc + (d.toNat - 48)) acc =
      Nat.ofDigitChars 10 cs acc := by
  induction cs generalizing acc with
  | nil => simp
  | cons c cs ih =>
      have hc : c.isDigit = true := hcs c List.mem_cons_self
      have htail : ∀ c ∈ cs, c.isDigit = true := fun d hd => hcs d (List.mem_cons_of_mem _ hd)
      simp only [List.map_cons, List.foldl_cons, Nat.ofDigitChars_cons,
        charByte_toNat_of_isDigit hc, ih htail]
      rfl

theorem digitsVal_decimal (n : Nat) : digitsVal (decimal n) = n := by
  have hdig : ∀ c ∈ Nat.toDigits 10 n, c.isDigit = true := fun c hc =>
    Nat.isDigit_of_mem_toDigits (by decide) (by decide) hc
  rw [digitsVal, decimal, foldl_digits_map _ hdig, Nat.ofDigitChars_ten_toDigits]

theorem digitsVal_zeros_append (k : Nat) (ds : List UInt8) :
    digitsVal (List.replicate k 48 ++ ds) = digitsVal ds := by
  induction k with
  | zero => simp
  | succ k ih => simpa [digitsVal, List.replicate_succ] using ih

/-- A list of digits is a number below the power of ten of its length. -/
theorem digitsVal_lt {ds : List UInt8} (hds : ∀ d ∈ ds, isDigit d = true) :
    digitsVal ds < 10 ^ ds.length := by
  induction ds using List.reverseRecOn with
  | nil => decide
  | append_singleton ds d ih =>
      have hd : isDigit d = true := hds d (by simp)
      simp only [isDigit, Bool.and_eq_true, decide_eq_true_eq, UInt8.le_iff_toNat_le] at hd
      have hd57 : d.toNat ≤ 57 := hd.2
      have hlt := ih fun c hc => hds c (by simp [hc])
      have hval : digitsVal (ds ++ [d]) = 10 * digitsVal ds + (d.toNat - 48) := by
        simp [digitsVal]
      rw [hval, List.length_append, List.length_singleton, pow_succ]
      omega

/-- No number but zero starts with a zero. -/
theorem head?_decimal_ne {n : Nat} (hn : 0 < n) : (decimal n).head? ≠ some 48 := by
  intro h
  cases hds : decimal n with
  | nil => exact decimal_ne_nil n hds
  | cons d ds =>
      rw [hds, List.head?_cons, Option.some.injEq] at h
      subst h
      have hall : ∀ c ∈ ds, isDigit c = true := by
        intro c hc
        exact isDigit_of_mem_decimal (hds ▸ List.mem_cons_of_mem _ hc)
      have hval : digitsVal ds = n := by
        have h0 := digitsVal_zeros_append 1 ds
        rw [List.replicate_one, List.singleton_append, ← hds, digitsVal_decimal] at h0
        exact h0.symm
      have hlt := digitsVal_lt hall
      rw [hval] at hlt
      -- the digits behind the zero would be enough
      have hpos : 0 < ds.length := by
        by_contra h0
        have hnil : ds.length = 0 := by omega
        rw [hnil, pow_zero] at hlt
        omega
      have hlen := length_decimal_le hpos hlt
      rw [hds, List.length_cons] at hlen
      omega

end Library
end Scambio
