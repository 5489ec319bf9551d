import Scambio.Library.Decimal

/-!
# CString — the parts of the C library the journals and headers rest on

A C string is the list of its bytes, the terminating NUL left out.  Character classes are those of
the C locale, in which the daemons run; bytes above 127 belong to no class.
-/

namespace Scambio

open Library

abbrev Bytes := List UInt8

/-- The bytes of an ASCII literal. -/
def ascii (s : String) : Bytes :=
  s.toList.map charByte

def PATH_MAX : Nat := 4096

/-- What `snprintf(buf, size, "%s", s)` leaves in `buf`. -/
def snprintf (size : Nat) (s : Bytes) : Bytes :=
  s.take (size - 1)

/-- `snprintf(path, sizeof(path), ...)`. -/
def snprintfPath (s : Bytes) : Bytes :=
  s.take (PATH_MAX - 1)

/-! ## Character classes -/

def isspace (c : UInt8) : Bool :=
  c == 32 || (9 ≤ c && c ≤ 13)

def isblank (c : UInt8) : Bool :=
  c == 32 || c == 9

def tolower (c : UInt8) : UInt8 :=
  if 65 ≤ c && c ≤ 90 then c + 32 else c

/-- `0 == strcasecmp(a, b)`. -/
def strcaseeq (a b : Bytes) : Bool :=
  a.map tolower == b.map tolower

/-- A property of bytes is a property of the 256 of them. -/
theorem forall_byte {p : UInt8 → Prop} (h : ∀ n : Fin 256, p (UInt8.ofFin n)) (c : UInt8) : p c :=
  h c.toFin

theorem tolower_tolower (c : UInt8) : tolower (tolower c) = tolower c :=
  forall_byte (p := fun c => tolower (tolower c) = tolower c) (by decide +kernel) c

theorem isspace_tolower (c : UInt8) : isspace (tolower c) = isspace c :=
  forall_byte (p := fun c => isspace (tolower c) = isspace c) (by decide +kernel) c

/-! ## Numbers -/

/-- `%d` of a signed integer. -/
def printInt (v : Int) : Bytes :=
  if v < 0 then 45 :: decimal v.natAbs else decimal v.natAbs

/-- A 64-bit integer takes at most twenty characters. -/
theorem length_printInt {v : Int} (hlow : -2 ^ 63 ≤ v) (hhigh : v < 2 ^ 63) :
    (printInt v).length ≤ 20 := by
  have habs : v.natAbs < 10 ^ 19 := by omega
  have hlen := length_decimal_le (by decide) habs
  unfold printInt
  split
  · rw [List.length_cons]
    omega
  · omega

/-- `%020d` of a signed integer: zero padded to twenty characters, sign included. -/
def printPadded (v : Int) : Bytes :=
  let digits := decimal v.natAbs
  if v < 0 then 45 :: (List.replicate (19 - digits.length) 48 ++ digits)
  else List.replicate (20 - digits.length) 48 ++ digits

/-- The sign and the rest of a number, past the white space that `strtoull` and `sscanf` skip. -/
def readSign (s : Bytes) : Bool × Bytes :=
  match s.dropWhile isspace with
  | 45 :: rest => (true, rest)
  | 43 :: rest => (false, rest)
  | rest => (false, rest)

/-- `strtoull(s, &end, 10)`: the value and the text at `end`.  Out of range values are clamped and a
minus sign negates modulo 2^64. -/
def strtoull (s : Bytes) : Nat × Bytes :=
  let (neg, body) := readSign s
  let digits := body.takeWhile isDigit
  if digits = [] then (0, s)
  else
    let n := digitsVal digits
    let v := if 2 ^ 64 ≤ n then 2 ^ 64 - 1 else if neg then (2 ^ 64 - n) % 2 ^ 64 else n
    (v, body.dropWhile isDigit)

def isOctal (c : UInt8) : Bool :=
  48 ≤ c && c ≤ 55

def isxdigit (c : UInt8) : Bool :=
  isDigit c || (65 ≤ c && c ≤ 70) || (97 ≤ c && c ≤ 102)

/-- The value of a list of digits in the given base. -/
def digitsValIn (base : Nat) (ds : Bytes) : Nat :=
  ds.foldl
    (fun acc d => base * acc + if isDigit d then d.toNat - 48 else (tolower d).toNat - 87) 0

/-- The number at the head of a text and what follows it: hexadecimal behind 0x, octal behind another
0, decimal otherwise. -/
def scanNumber (body : Bytes) : Option (Nat × Bytes) :=
  match body with
  | 48 :: rest =>
      -- "0x" alone is the number 0 followed by an x
      if (rest.head? == some 120 || rest.head? == some 88) && rest.tail.head?.any isxdigit then
        some (digitsValIn 16 (rest.tail.takeWhile isxdigit), rest.tail.dropWhile isxdigit)
      else some (digitsValIn 8 (body.takeWhile isOctal), body.dropWhile isOctal)
  | _ =>
      let digits := body.takeWhile isDigit
      if digits = [] then none else some (digitsVal digits, body.dropWhile isDigit)

/-- `strtoll(s, &end, 0)`: the value, clamped to 64 bits, and the text at `end`. -/
def strtoll (s : Bytes) : Int × Bytes :=
  let (neg, body) := readSign s
  match scanNumber body with
  | none => (0, s)
  | some (n, rest) => (if neg then max (-(n : Int)) (-2 ^ 63) else min (n : Int) (2 ^ 63 - 1), rest)

/-! ## Machine integers -/

/-- `n + 1` and `n - 1` on an `unsigned`. -/
def unsignedSucc (n : Nat) : Nat :=
  if n = 2 ^ 32 - 1 then 0 else n + 1

@[inherit_doc unsignedSucc]
def unsignedPred (n : Nat) : Nat :=
  if n = 0 then 2 ^ 32 - 1 else n - 1

/-- A 64-bit value read as an `int64_t`. -/
def toInt64 (n : Nat) : Int :=
  Int.bmod n (2 ^ 64)

/-- `sscanf(s, "%" PRId64, &v)`: the value stored when one item was converted. -/
def sscanfInt64 (s : Bytes) : Option Int :=
  let (neg, body) := readSign s
  let digits := body.takeWhile isDigit
  if digits = [] then none
  else
    let n : Int := digitsVal digits
    some (if neg then max (-n) (-2 ^ 63) else min n (2 ^ 63 - 1))

theorem sscanfInt64_range {s : Bytes} {v : Int} (h : sscanfInt64 s = some v) : -2 ^ 63 ≤ v ∧ v < 2 ^ 63 := by
  unfold sscanfInt64 at h
  simp only at h
  split_ifs at h
  · cases h
    omega
  · cases h
    omega

/-! ## Reading back what was printed -/

theorem isDigit_not_isspace {d : UInt8} (h : isDigit d = true) : isspace d = false :=
  forall_byte (p := fun d => isDigit d = true → isspace d = false) (by decide +kernel) d h

theorem isDigit_ne_sign {d : UInt8} (h : isDigit d = true) : d ≠ 45 ∧ d ≠ 43 :=
  forall_byte (p := fun d => isDigit d = true → d ≠ 45 ∧ d ≠ 43) (by decide +kernel) d h

theorem readSign_digits {ds rest : Bytes} (hne : ds ≠ []) (hds : ∀ d ∈ ds, isDigit d = true) :
    readSign (ds ++ rest) = (false, ds ++ rest) := by
  cases ds with
  | nil => exact absurd rfl hne
  | cons d ds =>
      have hd : isDigit d = true := hds d List.mem_cons_self
      have hsp : isspace d = false := isDigit_not_isspace hd
      have hsign := isDigit_ne_sign hd
      simp only [readSign, List.cons_append, List.dropWhile_cons, hsp, Bool.false_eq_true, if_false]
      split <;> simp_all

theorem takeWhile_digits {ds rest : Bytes} (hds : ∀ d ∈ ds, isDigit d = true)
    (hrest : ∀ c ∈ rest.head?, isDigit c = false) :
    (ds ++ rest).takeWhile isDigit = ds ∧ (ds ++ rest).dropWhile isDigit = rest := by
  rw [List.takeWhile_append_of_pos hds, List.dropWhile_append_of_pos hds]
  cases rest with
  | nil => simp
  | cons c cs =>
      have hc : isDigit c = false := hrest c (by simp)
      simp [hc]

/-- `strtoull` reads a padded number back and stops right after it. -/
theorem strtoull_printPadded {v : Nat} (hv : v < 2 ^ 64) {rest : Bytes}
    (hrest : ∀ c ∈ rest.head?, isDigit c = false) :
    strtoull (printPadded v ++ rest) = (v, rest) := by
  have hneg : ¬ ((v : Int) < 0) := by omega
  have hprint : printPadded v =
      List.replicate (20 - (decimal v).length) 48 ++ decimal v := by
    simp [printPadded, hneg]
  have hds : ∀ d ∈ printPadded v, isDigit d = true := by
    intro d hd
    rw [hprint] at hd
    rcases List.mem_append.1 hd with h | h
    · rw [(List.mem_replicate.1 h).2]
      decide
    · exact isDigit_of_mem_decimal h
  have hne : printPadded v ≠ [] := by
    rw [hprint]
    simp [decimal_ne_nil]
  have hval : digitsVal (printPadded v) = v := by
    rw [hprint, digitsVal_zeros_append, digitsVal_decimal]
  have hscan := takeWhile_digits hds hrest
  simp only [strtoull, readSign_digits hne hds, hscan.1, hscan.2, hne, if_false, hval,
    Nat.not_le.2 hv]
  simp

/-- A number that does not start with a zero is decimal. -/
theorem scanNumber_digits {ds : Bytes} (hne : ds ≠ []) (hds : ∀ d ∈ ds, isDigit d = true)
    (hhead : ds.head? ≠ some 48) : scanNumber ds = some (digitsVal ds, []) := by
  have hscan := takeWhile_digits hds (show ∀ c ∈ ([] : Bytes).head?, isDigit c = false by simp)
  rw [List.append_nil] at hscan
  unfold scanNumber
  split
  · simp at hhead
  · simp only [hscan.1, hscan.2, hne, if_false]

theorem strtoll_digits {ds : Bytes} (hne : ds ≠ []) (hds : ∀ d ∈ ds, isDigit d = true)
    (hhead : ds.head? ≠ some 48) (hval : digitsVal ds < 2 ^ 63) :
    strtoll ds = ((digitsVal ds : Int), []) := by
  have hsign := @readSign_digits ds [] hne hds
  rw [List.append_nil] at hsign
  simp only [strtoll, hsign, scanNumber_digits hne hds hhead, Bool.false_eq_true, if_false]
  congr 1
  omega

theorem strtoll_neg_digits {ds : Bytes} (hne : ds ≠ []) (hds : ∀ d ∈ ds, isDigit d = true)
    (hhead : ds.head? ≠ some 48) (hval : digitsVal ds ≤ 2 ^ 63) :
    strtoll (45 :: ds) = (-(digitsVal ds : Int), []) := by
  have hsign : readSign (45 :: ds) = (true, ds) := rfl
  simp only [strtoll, hsign, scanNumber_digits hne hds hhead, if_true]
  congr 1
  omega

/-- `strtoll` reads back what `%lld` prints. -/
theorem strtoll_printInt {v : Int} (hlow : -2 ^ 63 ≤ v) (hhigh : v < 2 ^ 63) :
    strtoll (printInt v) = (v, []) := by
  have hds : ∀ d ∈ decimal v.natAbs, isDigit d = true := fun d hd => isDigit_of_mem_decimal hd
  have hne := decimal_ne_nil v.natAbs
  have hval := digitsVal_decimal v.natAbs
  unfold printInt
  split
  · rw [strtoll_neg_digits hne hds (head?_decimal_ne (by omega)) (by omega), hval]
    congr 1
    omega
  · by_cases hzero : v = 0
    · subst hzero
      decide
    · rw [strtoll_digits hne hds (head?_decimal_ne (by omega)) (by omega), hval]
      congr 1
      omega

theorem sscanfInt64_decimal {n : Nat} (h : n < 2 ^ 63) : sscanfInt64 (decimal n) = some (n : Int) := by
  have hne := decimal_ne_nil n
  have hds : ∀ d ∈ decimal n, isDigit d = true := fun d hd => isDigit_of_mem_decimal hd
  have hsign := @readSign_digits (decimal n) [] hne hds
  have hscan := takeWhile_digits hds (show ∀ c ∈ ([] : Bytes).head?, isDigit c = false by simp)
  rw [List.append_nil] at hsign hscan
  simp only [sscanfInt64, hsign, hscan.1, hne, if_false, digitsVal_decimal, Bool.false_eq_true]
  congr 1
  omega

/-- `sscanf` reads back what `%lld` prints. -/
theorem sscanfInt64_printInt {v : Int} (hlow : -2 ^ 63 ≤ v) (hhigh : v < 2 ^ 63) :
    sscanfInt64 (printInt v) = some v := by
  unfold printInt
  split
  · have hds : ∀ d ∈ decimal v.natAbs, isDigit d = true := fun d hd => isDigit_of_mem_decimal hd
    have hsign : readSign (45 :: decimal v.natAbs) = (true, decimal v.natAbs) := rfl
    have hscan := takeWhile_digits hds (show ∀ c ∈ ([] : Bytes).head?, isDigit c = false by simp)
    rw [List.append_nil] at hscan
    simp only [sscanfInt64, hsign, hscan.1, decimal_ne_nil, if_false, digitsVal_decimal, if_true]
    congr 1
    omega
  · rw [sscanfInt64_decimal (by omega)]
    congr 1
    omega

theorem printPadded_injective {m n : Nat} (h : printPadded m = printPadded n) : m = n := by
  have hval : ∀ k : Nat, digitsVal (printPadded k) = k := by
    intro k
    have hneg : ¬ ((k : Int) < 0) := by omega
    simp [printPadded, hneg, digitsVal_zeros_append, digitsVal_decimal]
  rw [← hval m, ← hval n, h]

theorem toInt64_of_lt {n : Nat} (h : n < 2 ^ 63) : toInt64 n = n := by
  unfold toInt64
  rw [Int.bmod_eq_of_le] <;> omega

theorem unsignedSucc_of_lt {n : Nat} (h : n + 1 < 2 ^ 32) : unsignedSucc n = n + 1 := by
  exact if_neg (by omega)

theorem unsignedPred_of_pos {n : Nat} (hpos : 0 < n) (h : n < 2 ^ 32) : unsignedPred n = n - 1 := by
  exact if_neg (by omega)

end Scambio
