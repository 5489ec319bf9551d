import Mathlib.Data.List.Count
import Mathlib.Tactic.Ring

/-!
# Base64 — bytes by groups of three, as digits of base 64

A character of an encoding is a digit or padding, whatever it is written with.  Four of them make a group.

* `encodeQuads`, `decodeQuads` : bytes to groups, and back (`decodeQuads_encodeQuads`);
* `WellPadded`                 : padding comes last, twice at most;
* `soundPart`                  : the longest beginning that is well padded.
-/

namespace Scambio
namespace Library

/-- A digit, or padding. -/
abbrev Sextet := Option (Fin 64)

/-- Padding counts as zero. -/
def sextetValue : Sextet → Nat
  | none => 0
  | some d => d.val

/-- A group as a number. -/
def quadValue (w x y z : Sextet) : Nat :=
  ((sextetValue w * 64 + sextetValue x) * 64 + sextetValue y) * 64 + sextetValue z

/-- The bytes of a group: one less for each padding. -/
def decodeQuad (w x y z : Sextet) : List UInt8 :=
  let n := quadValue w x y z
  [UInt8.ofNat (n / 65536), UInt8.ofNat (n / 256), UInt8.ofNat n].take (3 - [w, x, y, z].count none)

/-- The bytes of the complete groups. -/
def decodeQuads : List Sextet → List UInt8
  | w :: x :: y :: z :: l => decodeQuad w x y z ++ decodeQuads l
  | _ => []

/-- A digit of a number. -/
def sextet (n : Nat) : Sextet :=
  some (Fin.ofNat 64 n)

def encodeQuads : List UInt8 → List Sextet
  | a :: b :: c :: l =>
      let n := (a.toNat * 256 + b.toNat) * 256 + c.toNat
      sextet (n / 262144) :: sextet (n / 4096) :: sextet (n / 64) :: sextet n :: encodeQuads l
  | [a, b] =>
      let n := (a.toNat * 256 + b.toNat) * 256
      [sextet (n / 262144), sextet (n / 4096), sextet (n / 64), none]
  | [a] =>
      let n := a.toNat * 65536
      [sextet (n / 262144), sextet (n / 4096), none, none]
  | [] => []

/-- Padding comes last, and twice at most. -/
structure WellPadded (l : List Sextet) : Prop where
  last : l.Pairwise fun x y => x = none → y = none
  few : l.count none ≤ 2

/-- What is well padded behind some padding. -/
def soundPart : Nat → List Sextet → List Sextet
  | _, [] => []
  | pads, none :: l => if 2 ≤ pads then [] else none :: soundPart (pads + 1) l
  | 0, some d :: l => some d :: soundPart 0 l
  | _ + 1, some _ :: _ => []

/-! ## Bits -/

/-- Bits that do not meet are added. -/
theorem toNat_or_of_lt {x y : UInt8} {a k : Nat} (hx : x.toNat = 2 ^ k * a) (hy : y.toNat < 2 ^ k) :
    (x ||| y).toNat = x.toNat + y.toNat := by
  rw [UInt8.toNat_or, hx, Nat.two_pow_add_eq_or_of_lt hy]

theorem toNat_shiftLeft {k : UInt8} (hk : k.toNat < 8) (x : UInt8) :
    (x <<< k).toNat = x.toNat * 2 ^ k.toNat % 256 := by
  rw [UInt8.toNat_shiftLeft, Nat.mod_eq_of_lt hk, Nat.shiftLeft_eq]

theorem toNat_shiftRight {k : UInt8} (hk : k.toNat < 8) (x : UInt8) : (x >>> k).toNat = x.toNat / 2 ^ k.toNat := by
  rw [UInt8.toNat_shiftRight, Nat.mod_eq_of_lt hk, Nat.shiftRight_eq_div_pow]

/-- The end of one digit and the beginning of the next one. -/
theorem toNat_joined {k l : UInt8} (hk : k.toNat < 8) (hl : l.toNat < 8) {x y : UInt8}
    (hlow : y.toNat / 2 ^ l.toNat < 2 ^ k.toNat) :
    ((x <<< k) ||| (y >>> l)).toNat = x.toNat * 2 ^ k.toNat % 256 + y.toNat / 2 ^ l.toNat := by
  have hdvd : 2 ^ k.toNat ∣ x.toNat * 2 ^ k.toNat % 256 := by
    have hbase : (256 : Nat) = 2 ^ k.toNat * 2 ^ (8 - k.toNat) := by
      rw [← Nat.pow_add, Nat.add_sub_cancel' (Nat.le_of_lt hk)]
    rw [Nat.mul_comm, hbase, Nat.mul_mod_mul_left]
    exact Nat.dvd_mul_right _ _
  obtain ⟨a, ha⟩ := hdvd
  have hx : (x <<< k).toNat = 2 ^ k.toNat * a := (toNat_shiftLeft hk x).trans ha
  rw [toNat_or_of_lt hx ((toNat_shiftRight hl y).symm ▸ hlow), toNat_shiftLeft hk, toNat_shiftRight hl]

/-! ## Groups -/

theorem ofNat_eq_of_mod {n : Nat} {a : UInt8} (h : n % 256 = a.toNat) : UInt8.ofNat n = a := by
  apply UInt8.toNat_inj.1
  rw [UInt8.toNat_ofNat', h]

@[simp] theorem sextetValue_sextet (n : Nat) : sextetValue (sextet n) = n % 64 := rfl

@[simp] theorem sextetValue_none : sextetValue none = 0 := rfl

theorem sextet_ne_none (n : Nat) : sextet n ≠ none := nofun

/-- A group of digits is a number again. -/
theorem decodeQuad_sextets {n : Nat} {a b c : UInt8} (h : n = (a.toNat * 256 + b.toNat) * 256 + c.toNat) :
    decodeQuad (sextet (n / 262144)) (sextet (n / 4096)) (sextet (n / 64)) (sextet n) = [a, b, c] := by
  have ha := a.toNat_lt
  have hb := b.toNat_lt
  have hc := c.toNat_lt
  have hvalue : quadValue (sextet (n / 262144)) (sextet (n / 4096)) (sextet (n / 64)) (sextet n) = n := by
    simp only [quadValue, sextetValue_sextet]
    omega
  have hpads : [sextet (n / 262144), sextet (n / 4096), sextet (n / 64), sextet n].count none = 0 := rfl
  rw [decodeQuad, hvalue, hpads]
  have hfirst : UInt8.ofNat (n / 65536) = a := ofNat_eq_of_mod (by omega)
  have hsecond : UInt8.ofNat (n / 256) = b := ofNat_eq_of_mod (by omega)
  have hthird : UInt8.ofNat n = c := ofNat_eq_of_mod (by omega)
  rw [hfirst, hsecond, hthird]
  rfl

theorem decodeQuad_two {n : Nat} {a b : UInt8} (h : n = (a.toNat * 256 + b.toNat) * 256) :
    decodeQuad (sextet (n / 262144)) (sextet (n / 4096)) (sextet (n / 64)) none = [a, b] := by
  have ha := a.toNat_lt
  have hb := b.toNat_lt
  have hvalue : quadValue (sextet (n / 262144)) (sextet (n / 4096)) (sextet (n / 64)) none = n := by
    simp only [quadValue, sextetValue_sextet, sextetValue_none]
    omega
  have hpads : [sextet (n / 262144), sextet (n / 4096), sextet (n / 64), none].count none = 1 := rfl
  rw [decodeQuad, hvalue, hpads]
  have hfirst : UInt8.ofNat (n / 65536) = a := ofNat_eq_of_mod (by omega)
  have hsecond : UInt8.ofNat (n / 256) = b := ofNat_eq_of_mod (by omega)
  rw [hfirst, hsecond]
  rfl

theorem decodeQuad_one {n : Nat} {a : UInt8} (h : n = a.toNat * 65536) :
    decodeQuad (sextet (n / 262144)) (sextet (n / 4096)) none none = [a] := by
  have ha := a.toNat_lt
  have hvalue : quadValue (sextet (n / 262144)) (sextet (n / 4096)) none none = n := by
    simp only [quadValue, sextetValue_sextet, sextetValue_none]
    omega
  have hpads : [sextet (n / 262144), sextet (n / 4096), none, none].count none = 2 := rfl
  rw [decodeQuad, hvalue, hpads]
  have hfirst : UInt8.ofNat (n / 65536) = a := ofNat_eq_of_mod (by omega)
  rw [hfirst]
  rfl

/-- The round trip. -/
theorem decodeQuads_encodeQuads (b : List UInt8) : decodeQuads (encodeQuads b) = b := by
  fun_induction encodeQuads b with
  | case1 a b c l n ih =>
      rw [decodeQuads, decodeQuad_sextets rfl, ih]
      rfl
  | case2 a b n =>
      rw [decodeQuads, decodeQuad_two rfl]
      rfl
  | case3 a n =>
      rw [decodeQuads, decodeQuad_one rfl]
      rfl
  | case4 => rfl

/-- Less than a group. -/
theorem decodeQuads_of_lt {l : List Sextet} (h : l.length < 4) : decodeQuads l = [] := by
  unfold decodeQuads
  split
  · simp only [List.length_cons] at h
    omega
  · rfl

theorem decodeQuads_append {g : List Sextet} (h : g.length = 4) (l : List Sextet) :
    decodeQuads (g ++ l) = decodeQuads g ++ decodeQuads l := by
  match g, h with
  | [w, x, y, z], _ => simp [decodeQuads]

/-! ## Padding -/

theorem wellPadded_encodeQuads (b : List UInt8) : WellPadded (encodeQuads b) := by
  fun_induction encodeQuads b with
  | case1 a b c l n ih =>
      refine ⟨?_, ?_⟩
      · simp only [List.pairwise_cons]
        exact ⟨fun _ _ h => absurd h (sextet_ne_none _), fun _ _ h => absurd h (sextet_ne_none _),
          fun _ _ h => absurd h (sextet_ne_none _), fun _ _ h => absurd h (sextet_ne_none _), ih.last⟩
      · simpa [List.count_cons, sextet] using ih.few
  | case2 a b n => exact ⟨by simp [sextet], by simp [sextet]⟩
  | case3 a n => exact ⟨by simp [sextet], by simp [sextet]⟩
  | case4 => exact ⟨.nil, by simp⟩

/-- Behind padding there is only room for more of it. -/
theorem length_soundPart (pads : Nat) (l : List Sextet) : (soundPart (pads + 1) l).length ≤ 1 - pads := by
  induction l generalizing pads with
  | nil => exact Nat.zero_le _
  | cons x l ih =>
      cases x with
      | none =>
          rw [soundPart]
          split
          · exact Nat.zero_le _
          next hlt =>
            have hle := ih (pads + 1)
            rw [List.length_cons]
            omega
      | some d => exact Nat.zero_le _

theorem soundPart_succ_eq_iff {pads : Nat} (h : pads ≤ 1) {l : List Sextet} :
    soundPart (pads + 1) l = l ↔ (∀ x ∈ l, x = none) ∧ pads + 1 + l.length ≤ 2 := by
  induction l generalizing pads with
  | nil => simp [soundPart, h]
  | cons x l ih =>
      rw [List.forall_mem_cons, List.length_cons]
      cases x with
      | none =>
          rw [soundPart]
          split
          next hle =>
            constructor
            · intro heq
              cases heq
            · rintro ⟨-, hlen⟩
              omega
          next hlt =>
            rw [List.cons.injEq, ih (by omega)]
            have hlen : pads + 1 + 1 + l.length ≤ 2 ↔ pads + 1 + (l.length + 1) ≤ 2 := by omega
            simp [hlen]
      | some d =>
          rw [soundPart]
          constructor
          · intro heq
            cases heq
          · rintro ⟨⟨hnone, -⟩, -⟩
            cases hnone

theorem wellPadded_cons_none {l : List Sextet} :
    WellPadded (none :: l) ↔ (∀ x ∈ l, x = none) ∧ 1 + l.length ≤ 2 := by
  constructor
  · rintro ⟨hlast, hfew⟩
    have hall : ∀ x ∈ l, x = none := fun x hx => (List.pairwise_cons.1 hlast).1 x hx rfl
    rw [List.count_cons_self, List.count_eq_length.2 fun x hx => (hall x hx).symm] at hfew
    exact ⟨hall, by omega⟩
  · rintro ⟨hall, hlen⟩
    refine ⟨List.pairwise_cons.2 ⟨fun x hx _ => hall x hx, ?_⟩, ?_⟩
    · exact List.pairwise_of_forall_mem_list fun _ _ y hy _ => hall y hy
    · rw [List.count_cons_self, List.count_eq_length.2 fun x hx => (hall x hx).symm]
      omega

theorem wellPadded_cons_some {d : Fin 64} {l : List Sextet} : WellPadded (some d :: l) ↔ WellPadded l := by
  have hcount : (some d :: l : List Sextet).count none = l.count none := by simp
  constructor
  · rintro ⟨hlast, hfew⟩
    exact ⟨(List.pairwise_cons.1 hlast).2, hcount ▸ hfew⟩
  · rintro ⟨hlast, hfew⟩
    exact ⟨List.pairwise_cons.2 ⟨fun _ _ h => absurd h nofun, hlast⟩, hcount.symm ▸ hfew⟩

/-- All of a list is the sound part when it is well padded. -/
theorem soundPart_eq_iff {l : List Sextet} : soundPart 0 l = l ↔ WellPadded l := by
  induction l with
  | nil => exact ⟨fun _ => ⟨.nil, Nat.zero_le _⟩, fun _ => rfl⟩
  | cons x l ih =>
      cases x with
      | none =>
          rw [soundPart, if_neg (by decide), List.cons.injEq, eq_self, true_and,
            soundPart_succ_eq_iff (Nat.zero_le 1), wellPadded_cons_none]
      | some d => rw [soundPart, List.cons.injEq, eq_self, true_and, ih, wellPadded_cons_some]

/-- What comes behind bad padding does not count. -/
theorem soundPart_append {pads : Nat} {l : List Sextet} (h : soundPart pads l ≠ l) (r : List Sextet) :
    soundPart pads (l ++ r) = soundPart pads l := by
  induction l generalizing pads with
  | nil => exact absurd rfl h
  | cons x l ih =>
      rw [List.cons_append]
      cases x with
      | none =>
          rw [soundPart, soundPart]
          split
          · rfl
          next hlt =>
            rw [soundPart, if_neg hlt] at h
            rw [ih fun heq => h (congrArg _ heq)]
      | some d =>
          cases pads with
          | zero => rw [soundPart, soundPart, ih fun heq => h (congrArg _ heq)]
          | succ pads => rfl

theorem WellPadded.of_append {l r : List Sextet} (h : WellPadded (l ++ r)) : WellPadded l := by
  refine ⟨(List.pairwise_append.1 h.last).1, ?_⟩
  have hfew := h.few
  rw [List.count_append] at hfew
  omega

end Library
end Scambio
