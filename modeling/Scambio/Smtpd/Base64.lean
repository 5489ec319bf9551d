import Scambio.Library.Base64
import Scambio.Smtpd.MailSafe

/-!
# Base64 — what `decode_base64` makes of any text (`smtpd/parse.c`)

The characters of the alphabet and the padding are the ones of `Library.Base64`; the others are skipped, but for
the brace, for which the table is read behind its end.

* `base64Trace`      : the decoder, with what it appends before it raises an error;
* `base64Trace_eq`   : what it makes of a text without a brace;
* `base64Lawful_iff` : the texts that are decoded as they should be.
-/

namespace Scambio

open Library

/-- `decode_base64`: what it appends, and the error that it leaves. -/
def base64Trace : Base64State → Bytes → Except MailFault (Bytes × Option Err)
  | _, [] => .ok ([], none)
  | s, c :: msg =>
      match base64Step s c with
      | .error fault => .error fault
      | .ok (.error e) => .ok ([], some e)
      | .ok (.ok (s, output)) => (base64Trace s msg).map fun r => (output ++ r.1, r.2)

/-- What is appended before an error is lost with the mail. -/
theorem decodeBase64Loop_eq (s : Base64State) (msg : Bytes) :
    decodeBase64Loop s msg = (base64Trace s msg).map fun r =>
      match r.2 with
      | none => .ok r.1
      | some e => .error e := by
  induction msg generalizing s with
  | nil => rfl
  | cons c msg ih =>
      rw [decodeBase64Loop, base64Trace]
      cases base64Step s c with
      | error fault => rfl
      | ok r =>
          cases r with
          | error e => rfl
          | ok next =>
              simp only [ih]
              cases base64Trace next.1 msg with
              | error fault => rfl
              | ok r => rcases r with ⟨data, _ | e⟩ <;> rfl

/-! ## Characters -/

def base64Alphabet : Bytes :=
  ascii "ABCDEFGHIJKLMNOPQRSTUVWXYZabcdefghijklmnopqrstuvwxyz0123456789+/"

/-- What a character stands for. -/
def base64Sextet (c : UInt8) : Option Sextet :=
  if c = 61 then some none else if c ∈ base64Alphabet then some (sextet (base64Alphabet.idxOf c)) else none

def isBase64 (c : UInt8) : Bool :=
  (base64Sextet c).isSome

def base64Sextets (s : Bytes) : List Sextet :=
  s.filterMap base64Sextet

/-- How the tests of `decode_base64` class a character. -/
def Base64Class (c : UInt8) : Option Sextet → Prop
  | some none => c = 61
  | some (some d) => c ≠ 61 ∧ c.toNat < B64_SIZE ∧ ¬ (b64 c = 0 ∧ c ≠ 65) ∧ b64 c = UInt8.ofNat d.val
  | none => c ≠ 61 ∧ (B64_SIZE < c.toNat ∨ c.toNat ≠ B64_SIZE ∧ b64 c = 0 ∧ c ≠ 65)

instance (c : UInt8) (x : Option Sextet) : Decidable (Base64Class c x) :=
  match x with
  | some none => inferInstanceAs (Decidable (_ = _))
  | some (some _) => inferInstanceAs (Decidable (_ ∧ _))
  | none => inferInstanceAs (Decidable (_ ∧ _))

theorem base64Class_sextet {c : UInt8} (hc : c ≠ 123) : Base64Class c (base64Sextet c) :=
  forall_byte (p := fun c => c ≠ 123 → Base64Class c (base64Sextet c)) (by decide +kernel) c hc

theorem isBase64_brace : base64Sextet 123 = none := by decide +kernel

/-! ## Steps -/

/-- The digits that wait for their group, and the padding that was met: less than a group. -/
structure Waiting where
  digits : List (Fin 64)
  pads : Nat
  few : digits.length + pads < 4
  pads_le : pads ≤ 2

namespace Waiting

def start : Waiting where
  digits := []
  pads := 0
  few := by decide
  pads_le := by decide

/-- Once a group is complete. -/
def flushed (pads : Nat) (h : pads ≤ 2) : Waiting where
  digits := []
  pads := pads
  few := by
    rw [List.length_nil]
    omega
  pads_le := h

def state (w : Waiting) : Base64State :=
  ⟨w.digits.map fun d => UInt8.ofNat d.val, w.pads⟩

/-- What waits, as characters. -/
def sextets (w : Waiting) : List Sextet :=
  w.digits.map some ++ List.replicate w.pads none

theorem length_sextets (w : Waiting) : w.sextets.length = w.digits.length + w.pads := by
  simp [sextets]

end Waiting

/-- The three bytes of `decode_base64` are the ones of the number that four digits make. -/
theorem base64Output_digits (v w : Fin 64) :
    (UInt8.ofNat v.val <<< 2) ||| (UInt8.ofNat w.val >>> 4) = UInt8.ofNat (v.val * 4 + w.val / 16) ∧
    (UInt8.ofNat v.val <<< 4) ||| (UInt8.ofNat w.val >>> 2) = UInt8.ofNat (v.val * 16 + w.val / 4) ∧
    (UInt8.ofNat v.val <<< 6) ||| UInt8.ofNat w.val = UInt8.ofNat (v.val * 64 + w.val) := by
  have hv : (UInt8.ofNat v.val).toNat = v.val := UInt8.toNat_ofNat_of_lt' (Nat.lt_trans v.isLt (by decide))
  have hw : (UInt8.ofNat w.val).toNat = w.val := UInt8.toNat_ofNat_of_lt' (Nat.lt_trans w.isLt (by decide))
  have hlt := w.isLt
  refine ⟨UInt8.toNat_inj.1 ?_, UInt8.toNat_inj.1 ?_, UInt8.toNat_inj.1 ?_⟩
  · rw [toNat_joined (by decide) (by decide), hv, hw, UInt8.toNat_ofNat']
    · simp only [UInt8.reduceToNat]
      omega
    · rw [hw]
      simp only [UInt8.reduceToNat]
      omega
  · rw [toNat_joined (by decide) (by decide), hv, hw, UInt8.toNat_ofNat']
    · simp only [UInt8.reduceToNat]
      omega
    · rw [hw]
      simp only [UInt8.reduceToNat]
      omega
  · have hzero : UInt8.ofNat w.val = UInt8.ofNat w.val >>> 0 := by simp
    rw [hzero, toNat_joined (by decide) (by decide), hv, hw, UInt8.toNat_ofNat']
    · simp only [UInt8.reduceToNat]
      omega
    · rw [hw]
      simp only [UInt8.reduceToNat]
      omega

/-- The same as bytes of the number. -/
theorem quad_bytes {v w x y : Nat} (hx : x < 64) (hy : y < 64) :
    UInt8.ofNat (v * 4 + w / 16) = UInt8.ofNat ((((v * 64 + w) * 64 + x) * 64 + y) / 65536) ∧
    UInt8.ofNat (w * 16 + x / 4) = UInt8.ofNat ((((v * 64 + w) * 64 + x) * 64 + y) / 256) ∧
    UInt8.ofNat (x * 64 + y) = UInt8.ofNat (((v * 64 + w) * 64 + x) * 64 + y) := by
  have hmod : ∀ {m n : Nat}, m % 256 = n % 256 → UInt8.ofNat m = UInt8.ofNat n := by
    intro m n h
    apply ofNat_eq_of_mod
    rw [UInt8.toNat_ofNat', h]
  refine ⟨hmod ?_, hmod ?_, hmod ?_⟩
  · omega
  · omega
  · omega

/-- The output of a complete group. -/
theorem base64Output_group {digits : List (Fin 64)} {pads : Nat} (hlen : digits.length + pads = 4)
    (hpads : pads ≤ 2) :
    (base64Output (digits.map fun d => UInt8.ofNat d.val)).take (3 - pads) =
      decodeQuads (digits.map some ++ List.replicate pads none) := by
  have hzero : 0 < 64 := by decide
  -- what is missing is taken for zero, and the bytes that it is part of are dropped
  obtain h | h | h : pads = 0 ∨ pads = 1 ∨ pads = 2 := by omega
  · subst h
    obtain ⟨v, w, x, y, rfl⟩ : ∃ v w x y, digits = [v, w, x, y] := List.length_eq_four.1 hlen
    have hbytes := quad_bytes (v := v.val) (w := w.val) x.isLt y.isLt
    have hfirst := (base64Output_digits v w).1.trans hbytes.1
    have hsecond := (base64Output_digits w x).2.1.trans hbytes.2.1
    have hthird := (base64Output_digits x y).2.2.trans hbytes.2.2
    simp [base64Output, decodeQuads, decodeQuad, quadValue, sextetValue, hfirst, hsecond, hthird]
  · subst h
    obtain ⟨v, w, x, rfl⟩ : ∃ v w x, digits = [v, w, x] := List.length_eq_three.1 (by omega)
    have hbytes := quad_bytes (v := v.val) (w := w.val) x.isLt hzero
    have hfirst := (base64Output_digits v w).1.trans hbytes.1
    have hsecond := (base64Output_digits w x).2.1.trans hbytes.2.1
    simp [base64Output, decodeQuads, decodeQuad, quadValue, sextetValue, hfirst, hsecond]
  · subst h
    obtain ⟨v, w, rfl⟩ : ∃ v w, digits = [v, w] := List.length_eq_two.1 (by omega)
    have hbytes := quad_bytes (v := v.val) (w := w.val) hzero hzero
    have hfirst := (base64Output_digits v w).1.trans hbytes.1
    simp [base64Output, decodeQuads, decodeQuad, quadValue, sextetValue, hfirst]

/-- The end of the loop: a complete group is put out. -/
def base64Flush (s : Base64State) : Base64State × Bytes :=
  if 4 ≤ s.vals.length + s.nbPads then ({ s with vals := [] }, (base64Output s.vals).take (3 - s.nbPads)) else (s, [])

theorem base64Flush_waiting (w : Waiting) : base64Flush w.state = (w.state, []) := by
  have hfew := w.few
  rw [base64Flush, if_neg]
  simp only [Waiting.state, List.length_map]
  omega

/-- What is put out and what waits then, together with what may come, make the same bytes. -/
theorem base64Flush_spec {digits : List (Fin 64)} {pads : Nat} (hle : digits.length + pads ≤ 4) (hpads : pads ≤ 2) :
    ∃ (w : Waiting) (output : Bytes),
      base64Flush ⟨digits.map fun d => UInt8.ofNat d.val, pads⟩ = (w.state, output) ∧ w.pads = pads ∧
        ∀ l, (pads = 0 ∨ l.length + pads ≤ 2) →
          decodeQuads (digits.map some ++ List.replicate pads none ++ l) = output ++ decodeQuads (w.sextets ++ l) := by
  by_cases hlt : digits.length + pads < 4
  · let w : Waiting := ⟨digits, pads, hlt, hpads⟩
    exact ⟨w, [], base64Flush_waiting w, rfl, fun _ _ => rfl⟩
  · have hlen : digits.length + pads = 4 := by omega
    refine ⟨.flushed pads hpads, (base64Output (digits.map fun d => UInt8.ofNat d.val)).take (3 - pads), ?_, rfl, ?_⟩
    · rw [base64Flush, if_pos]
      · rfl
      · simp only [List.length_map]
        omega
    · intro l hl
      have hgroup : (digits.map some ++ List.replicate pads (none : Sextet)).length = 4 := by simp [hlen]
      rw [decodeQuads_append hgroup, base64Output_group hlen hpads]
      rcases hl with rfl | hl
      · rfl
      · -- there is no room for another group
        have hshort : ((Waiting.flushed pads hpads).sextets ++ l).length < 4 := by
          rw [List.length_append, Waiting.length_sextets]
          simp only [Waiting.flushed, List.length_nil]
          omega
        have hrest : l.length < 4 := by omega
        rw [decodeQuads_of_lt hshort, decodeQuads_of_lt hrest]

theorem base64Step_foreign {c : UInt8} (hc : c ≠ 123) (hforeign : base64Sextet c = none) (s : Base64State) :
    base64Step s c = .ok (.ok (base64Flush s)) := by
  have hclass := base64Class_sextet hc
  rw [hforeign] at hclass
  rcases hclass with ⟨hpad, hbig | ⟨hne, hzero⟩⟩
  · rw [base64Step]
    simp only [if_neg hpad, if_pos hbig]
    rfl
  · rw [base64Step]
    simp only [if_neg hpad, if_neg hne, if_pos hzero]
    split <;> rfl

theorem base64Step_pad (s : Base64State) :
    base64Step s 61 =
      if 2 < s.nbPads + 1 then .ok (.error (.push 0 (ascii "Invalid base64 encoding : too many padding")))
      else .ok (.ok (base64Flush { s with nbPads := s.nbPads + 1 })) :=
  rfl

theorem base64Step_digit {c : UInt8} (hc : c ≠ 123) {d : Fin 64} (hdigit : base64Sextet c = some (some d))
    (s : Base64State) :
    base64Step s c =
      if 0 < s.nbPads then .ok (.error (.push 0 (ascii "Invalid base64 encoding : padding chars within body")))
      else .ok (.ok (base64Flush { s with vals := s.vals ++ [UInt8.ofNat d.val] })) := by
  have hclass := base64Class_sextet hc
  rw [hdigit] at hclass
  rcases hclass with ⟨hpad, hlt, hnot, hvalue⟩
  rw [hvalue] at hnot
  rw [base64Step]
  simp only [if_neg hpad, if_neg (Nat.not_lt_of_lt hlt), if_neg (Nat.ne_of_lt hlt), if_neg hnot, hvalue]
  rfl

/-! ## Texts without a brace -/

/-- The error of a list that is not well padded. -/
def paddingError : Nat → List Sextet → Option Err
  | _, [] => none
  | pads, none :: l =>
      if 2 ≤ pads then some (.push 0 (ascii "Invalid base64 encoding : too many padding")) else paddingError (pads + 1) l
  | 0, some _ :: l => paddingError 0 l
  | _ + 1, some _ :: _ => some (.push 0 (ascii "Invalid base64 encoding : padding chars within body"))

theorem paddingError_eq_none {pads : Nat} {l : List Sextet} : paddingError pads l = none ↔ soundPart pads l = l := by
  induction l generalizing pads with
  | nil => simp [paddingError, soundPart]
  | cons x l ih =>
      cases x with
      | none =>
          rw [paddingError, soundPart]
          split
          · simp
          · rw [ih, List.cons.injEq, eq_self, true_and]
      | some d =>
          cases pads with
          | zero => rw [paddingError, soundPart, ih, List.cons.injEq, eq_self, true_and]
          | succ pads => simp [paddingError, soundPart]

theorem paddingError_append {pads : Nat} {l : List Sextet} (h : paddingError pads l ≠ none) (r : List Sextet) :
    paddingError pads (l ++ r) = paddingError pads l := by
  induction l generalizing pads with
  | nil => exact absurd rfl h
  | cons x l ih =>
      rw [List.cons_append]
      cases x with
      | none =>
          rw [paddingError, paddingError]
          split
          · rfl
          next hlt =>
            rw [paddingError, if_neg hlt] at h
            exact ih h
      | some d =>
          cases pads with
          | zero => exact ih h
          | succ pads => rfl

/-- The groups of the sound part are decoded, and an error is raised when there is something else. -/
theorem base64Trace_eq {msg : Bytes} (hbrace : (123 : UInt8) ∉ msg) (w : Waiting) :
    base64Trace w.state msg =
      .ok (decodeQuads (w.sextets ++ soundPart w.pads (base64Sextets msg)),
        paddingError w.pads (base64Sextets msg)) := by
  induction msg generalizing w with
  | nil =>
      have hshort : (w.sextets ++ []).length < 4 := by
        rw [List.append_nil, Waiting.length_sextets]
        exact w.few
      rw [base64Trace]
      simp only [base64Sextets, List.filterMap_nil, soundPart, paddingError, decodeQuads_of_lt hshort]
  | cons c msg ih =>
      rw [List.mem_cons, not_or] at hbrace
      have hc : c ≠ 123 := Ne.symm hbrace.1
      have hshort : decodeQuads (w.sextets ++ []) = [] := by
        apply decodeQuads_of_lt
        rw [List.append_nil, Waiting.length_sextets]
        exact w.few
      rw [base64Trace]
      cases hsextet : base64Sextet c with
      | none =>
          -- a foreign character is passed over
          have hskip : base64Sextets (c :: msg) = base64Sextets msg := List.filterMap_cons_none hsextet
          rw [base64Step_foreign hc hsextet, base64Flush_waiting, hskip]
          simp only [ih hbrace.2 w]
          rfl
      | some x =>
          have hcons : base64Sextets (c :: msg) = x :: base64Sextets msg := List.filterMap_cons_some hsextet
          rw [hcons]
          cases x with
          | none =>
              -- a padding: the third one in a row is an error, else it may complete the group
              have hpad : c = 61 := by
                have hclass := base64Class_sextet hc
                rw [hsextet] at hclass
                exact hclass
              subst hpad
              rw [base64Step_pad, soundPart, paddingError]
              by_cases hfull : 2 ≤ w.pads
              · have hfull' : 2 < w.state.nbPads + 1 := Nat.lt_succ_of_le hfull
                rw [if_pos hfull', if_pos hfull, if_pos hfull, hshort]
              · have hfull' : ¬ 2 < w.state.nbPads + 1 := fun h => hfull (Nat.le_of_lt_succ h)
                have hfew := w.few
                have hle : w.digits.length + (w.pads + 1) ≤ 4 := by omega
                rw [if_neg hfull', if_neg hfull, if_neg hfull]
                rcases base64Flush_spec hle (by omega) with ⟨w', output, hflush, hpads, hbytes⟩
                have hroom := length_soundPart w.pads (base64Sextets msg)
                have hwait := hbytes (soundPart (w.pads + 1) (base64Sextets msg)) (.inr (by omega))
                have hlist : w.sextets ++ none :: soundPart (w.pads + 1) (base64Sextets msg) =
                    w.digits.map some ++ List.replicate (w.pads + 1) none ++
                      soundPart (w.pads + 1) (base64Sextets msg) := by
                  simp [Waiting.sextets, List.replicate_succ']
                have hstate : ({ w.state with nbPads := w.state.nbPads + 1 } : Base64State) =
                    ⟨w.digits.map fun d => UInt8.ofNat d.val, w.pads + 1⟩ := rfl
                rw [hlist, hwait, hstate, hflush]
                simp only [ih hbrace.2 w', hpads, Except.map]
          | some d =>
              rw [base64Step_digit hc hsextet]
              cases hpads : w.pads with
              -- a digit after a padding is an error
              | succ pads =>
                  have hpos : 0 < w.state.nbPads := Nat.lt_of_lt_of_eq (Nat.succ_pos pads) hpads.symm
                  rw [if_pos hpos, soundPart, paddingError, hshort]
              -- a digit after digits may complete the group
              | zero =>
                  have hnot : ¬ 0 < w.state.nbPads := Nat.not_lt_of_ge (Nat.le_of_eq hpads)
                  have hfew := w.few
                  have hle : (w.digits ++ [d]).length + 0 ≤ 4 := by
                    rw [List.length_append, List.length_singleton]
                    omega
                  rw [if_neg hnot, soundPart, paddingError]
                  rcases base64Flush_spec hle (Nat.zero_le 2) with ⟨w', output, hflush, hpads', hbytes⟩
                  have hwait := hbytes (soundPart 0 (base64Sextets msg)) (.inl rfl)
                  have hlist : w.sextets ++ some d :: soundPart 0 (base64Sextets msg) =
                      (w.digits ++ [d]).map some ++ List.replicate 0 none ++ soundPart 0 (base64Sextets msg) := by
                    simp [Waiting.sextets, hpads]
                  have hstate : ({ w.state with vals := w.state.vals ++ [UInt8.ofNat d.val] } : Base64State) =
                      ⟨(w.digits ++ [d]).map fun d => UInt8.ofNat d.val, 0⟩ := by
                    simp [Waiting.state, hpads]
                  rw [hlist, hwait, hstate, hflush]
                  simp only [ih hbrace.2 w', hpads', Except.map]

/-! ## All texts -/

/-- Once an error is raised, nothing more is read. -/
theorem base64Trace_append {s : Base64State} {msg output : Bytes} {e : Err}
    (h : base64Trace s msg = .ok (output, some e)) (rest : Bytes) :
    base64Trace s (msg ++ rest) = .ok (output, some e) := by
  induction msg generalizing s output with
  | nil => cases h
  | cons c msg ih =>
      rw [List.cons_append, base64Trace]
      rw [base64Trace] at h
      cases hstep : base64Step s c with
      | error fault =>
          rw [hstep] at h
          cases h
      | ok r =>
          rw [hstep] at h
          cases r with
          | error e' => exact h
          | ok next =>
              simp only at h ⊢
              cases htrace : base64Trace next.1 msg with
              | error fault =>
                  rw [htrace] at h
                  cases h
              | ok r =>
                  rw [htrace] at h
                  rcases r with ⟨data, _ | e'⟩
                  · cases h
                  · cases h
                    rw [ih htrace]
                    rfl

/-- Each brace is behind bad padding. -/
def BracesLate (s : Bytes) : Prop :=
  ∀ u v, s = u ++ 123 :: v → ¬ WellPadded (base64Sextets u)

theorem bracesLate_of_not_mem {s : Bytes} (h : (123 : UInt8) ∉ s) : BracesLate s := by
  rintro u v rfl
  exact absurd (List.mem_append_right u List.mem_cons_self) h

theorem paddingError_ne_none {l : List Sextet} : paddingError 0 l ≠ none ↔ ¬ WellPadded l := by
  rw [Ne, paddingError_eq_none, soundPart_eq_iff]

theorem base64Trace_late {s : Bytes} (h : BracesLate s) :
    base64Trace ⟨[], 0⟩ s = .ok (decodeQuads (soundPart 0 (base64Sextets s)), paddingError 0 (base64Sextets s)) := by
  by_cases hmem : (123 : UInt8) ∈ s
  · obtain ⟨a, b, rfl, ha⟩ := List.eq_append_cons_of_mem hmem
    have herr := paddingError_ne_none.2 (h a b rfl)
    have hsound : soundPart 0 (base64Sextets a) ≠ base64Sextets a := fun heq => herr (paddingError_eq_none.2 heq)
    obtain ⟨e, he⟩ := Option.ne_none_iff_exists'.1 herr
    have htrace := base64Trace_eq ha .start
    have hsplit : base64Sextets (a ++ 123 :: b) = base64Sextets a ++ base64Sextets (123 :: b) := List.filterMap_append
    rw [hsplit, soundPart_append hsound, paddingError_append herr, he]
    exact base64Trace_append (htrace.trans (by rw [show Waiting.start.pads = 0 from rfl, he]; rfl)) _
  · exact base64Trace_eq hmem .start

/-- The table is read within its bounds. -/
theorem base64Trace_returns {s : Bytes} : (∃ r, base64Trace ⟨[], 0⟩ s = .ok r) ↔ BracesLate s := by
  constructor
  · rintro ⟨r, hr⟩ u v hs hpadded
    have hreturns : ∃ t, decodeBase64Loop ⟨[], 0⟩ s = .ok t := by
      rw [decodeBase64Loop_eq, hr]
      exact ⟨_, rfl⟩
    obtain ⟨a, b, hcut, ha⟩ := List.eq_append_cons_of_mem (List.mem_append_right u (List.mem_singleton_self (123 : UInt8)))
    have hfirst : s = a ++ 123 :: (b ++ v) := by
      have happ : s = (u ++ [123]) ++ v := by rw [hs, List.append_assoc]; rfl
      rw [happ, hcut, List.append_assoc]
      rfl
    rcases (decodeBase64Loop_returns _ _).1 hreturns a (b ++ v) hfirst ha with ⟨e, he⟩
    have htrace : base64Trace ⟨[], 0⟩ a = _ := base64Trace_eq ha .start
    rw [decodeBase64Loop_eq, htrace] at he
    -- the bad padding in front of the first brace is in front of the others
    have hgood : WellPadded (base64Sextets a) := by
      have hbrace : base64Sextets [123] = [] := List.filterMap_cons_none isBase64_brace
      have hlonger : base64Sextets u = base64Sextets a ++ base64Sextets (123 :: b) := by
        calc
          base64Sextets u = base64Sextets u ++ base64Sextets [123] := by rw [hbrace, List.append_nil]
          _ = base64Sextets (u ++ [123]) := List.filterMap_append.symm
          _ = base64Sextets (a ++ 123 :: b) := by rw [hcut]
          _ = base64Sextets a ++ base64Sextets (123 :: b) := List.filterMap_append
      exact (hlonger ▸ hpadded).of_append
    have hnone : paddingError 0 (base64Sextets a) = none := paddingError_eq_none.2 (soundPart_eq_iff.2 hgood)
    simp only [Waiting.start, hnone, Except.map] at he
    cases he
  · exact fun h => ⟨_, base64Trace_late h⟩

/-- The state in which a character is read, behind the ones that were. -/
inductive Base64Reaches : Base64State → Bytes → Base64State → Prop
  | refl (s : Base64State) : Base64Reaches s [] s
  | step {s s' s'' : Base64State} {c : UInt8} {msg output : Bytes} (h : base64Step s c = .ok (.ok (s', output))) :
      Base64Reaches s' msg s'' → Base64Reaches s (c :: msg) s''

/-- Less than a group waits. -/
def Base64State.Few (s : Base64State) : Prop :=
  s.vals.length + s.nbPads < 4 ∧ s.nbPads ≤ 2

theorem few_base64Flush {s : Base64State} (h : s.nbPads ≤ 2) : (base64Flush s).1.Few := by
  unfold base64Flush
  split
  · have hlt : 0 + s.nbPads < 4 := by omega
    exact ⟨hlt, h⟩
  next hlt => exact ⟨Nat.lt_of_not_le hlt, h⟩

theorem Base64State.Few.step {s s' : Base64State} {c : UInt8} {output : Bytes} (hs : s.Few)
    (h : base64Step s c = .ok (.ok (s', output))) : s'.Few := by
  have hc : c ≠ 123 := (base64Step_returns s c).1 ⟨_, h⟩
  have hflush : ∀ {t : Base64State}, t.nbPads ≤ 2 →
      (.ok (.ok (base64Flush t)) : Except MailFault (Except Err (Base64State × Bytes))) = .ok (.ok (s', output)) →
        s'.Few := by
    intro t ht heq
    rw [Except.ok.injEq, Except.ok.injEq] at heq
    have hfew := few_base64Flush ht
    rwa [heq] at hfew
  cases hsextet : base64Sextet c with
  | none =>
      rw [base64Step_foreign hc hsextet] at h
      exact hflush hs.2 h
  | some x =>
      cases x with
      | none =>
          have hpad : c = 61 := by
            have hclass := base64Class_sextet hc
            rw [hsextet] at hclass
            exact hclass
          subst hpad
          rw [base64Step_pad] at h
          split at h
          · cases h
          next hle => exact hflush (Nat.le_of_not_lt hle) h
      | some d =>
          rw [base64Step_digit hc hsextet] at h
          split at h
          · cases h
          · exact hflush (t := { s with vals := s.vals ++ [UInt8.ofNat d.val] }) hs.2 h

theorem Base64Reaches.few {s s' : Base64State} {msg : Bytes} (h : Base64Reaches s msg s') (hs : s.Few) : s'.Few := by
  induction h with
  | refl s => exact hs
  | step hstep _ ih => exact ih (hs.step hstep)

/-- A text is decoded as it should be. -/
structure Base64Lawful (s : Bytes) : Prop where
  /-- The table is read within its bounds. -/
  table : ∃ r, base64Trace ⟨[], 0⟩ s = .ok r
  /-- `vals[nb_vals]` is in the array. -/
  vals : ∀ u v s', s = u ++ v → Base64Reaches ⟨[], 0⟩ u s' → s'.vals.length < 4
  others : base64Trace ⟨[], 0⟩ s = base64Trace ⟨[], 0⟩ (s.filter isBase64)
  standard : ∃ e, base64Trace ⟨[], 0⟩ (s.filter isBase64) =
      .ok (decodeQuads (soundPart 0 (base64Sextets (s.filter isBase64))), e) ∧
    (e ≠ none ↔ ¬ WellPadded (base64Sextets (s.filter isBase64)))

/-- What stands for nothing can be left out. -/
theorem base64Sextets_filter {p : UInt8 → Bool} (hp : ∀ c, p c = false → base64Sextet c = none) (s : Bytes) :
    base64Sextets (s.filter p) = base64Sextets s := by
  rw [base64Sextets, List.filterMap_filter]
  apply List.filterMap_congr
  intro c _
  cases hc : p c with
  | true => rfl
  | false => exact (hp c hc).symm

theorem base64Sextets_filter_isBase64 (s : Bytes) : base64Sextets (s.filter isBase64) = base64Sextets s := by
  apply base64Sextets_filter
  intro c hc
  unfold isBase64 at hc
  exact Option.not_isSome_iff_eq_none.1 (hc ▸ Bool.false_ne_true)

theorem brace_not_mem_filter (s : Bytes) : (123 : UInt8) ∉ s.filter isBase64 := by
  intro hmem
  have hbase := (List.mem_filter.1 hmem).2
  rw [isBase64, isBase64_brace] at hbase
  cases hbase

/-- The texts that are decoded as they should be: no brace comes before bad padding. -/
theorem base64Lawful_iff (s : Bytes) : Base64Lawful s ↔ BracesLate s := by
  constructor
  · exact fun h => base64Trace_returns.1 h.table
  · intro hlate
    have hfiltered := base64Trace_late (bracesLate_of_not_mem (brace_not_mem_filter s))
    refine ⟨base64Trace_returns.2 hlate, ?_, ?_, ?_⟩
    · intro u v s' _ hreach
      have hfew := (hreach.few ⟨by decide, by decide⟩).1
      omega
    · rw [hfiltered, base64Sextets_filter_isBase64]
      exact base64Trace_late hlate
    · exact ⟨_, hfiltered, paddingError_ne_none⟩

/-- A brace in the text of a mail. -/
theorem not_base64Lawful : ¬ Base64Lawful (ascii "Zm9v\x7b") := by
  intro h
  refine base64Trace_returns.1 h.table (ascii "Zm9v") [] (by decide) ?_
  exact soundPart_eq_iff.1 (by decide +kernel)

/-- All that is decoded was written. -/
theorem base64Written_of_ok {s : Base64State} {msg data : Bytes} (h : decodeBase64Loop s msg = .ok (.ok data)) :
    base64Written s msg = data.length := by
  induction msg generalizing s data with
  | nil =>
      cases h
      rfl
  | cons c msg ih =>
      rw [decodeBase64Loop] at h
      rw [base64Written]
      rcases hstep : base64Step s c with fault | e | ⟨s', output⟩
      · rw [hstep] at h
        cases h
      · rw [hstep] at h
        cases h
      · rw [hstep] at h
        rcases hrest : decodeBase64Loop s' msg with fault | e | data'
        · simp only [hrest] at h
          cases h
        · simp only [hrest] at h
          cases h
        · simp only [hrest] at h
          cases h
          simp only [ih hrest, List.length_append]

end Scambio
