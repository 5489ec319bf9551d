import Scambio.Commons.VarbufMemory

/-!
# ReadLines — lines read one after the other (`commons/varbuf.c`)

`varbuf_read_line` holds a CR back until it knows what follows it.  A CR that follows another takes its place, so that
of several only one is passed on; and a CR that is passed on with the byte behind it may be one byte too many for the
length that was asked for.

- `readLineLoop_crlf`: what a call makes of the bytes that it consumes.
- `readLines_crlf`: over any number of calls on one stream CR LF becomes LF and nothing else changes, if no CR is
  followed by another or comes last in a full line, and the lines fit in the room that the buffer has.
-/

namespace Scambio

open Library

/-! ## Lines of text -/

/-- LF for CR LF. -/
def crlfToLf : Bytes → Bytes
  | [] => []
  | [c] => [c]
  | c :: d :: rest => if c = 13 ∧ d = 10 then 10 :: crlfToLf rest else c :: crlfToLf (d :: rest)

theorem crlfToLf_cons {c : UInt8} (h : c ≠ 13) (rest : Bytes) : crlfToLf (c :: rest) = c :: crlfToLf rest := by
  cases rest with
  | nil => rfl
  | cons d rest => rw [crlfToLf, if_neg fun hcr => h hcr.1]

theorem crlfToLf_cr {d : UInt8} (h : d ≠ 10) (rest : Bytes) :
    crlfToLf (13 :: d :: rest) = 13 :: crlfToLf (d :: rest) := by
  rw [crlfToLf, if_neg fun hcr => h hcr.2]

/-- Text that does not end with a CR is converted on its own. -/
theorem crlfToLf_append {a : Bytes} (h : a.getLast? ≠ some 13) (b : Bytes) :
    crlfToLf (a ++ b) = crlfToLf a ++ crlfToLf b := by
  induction a using crlfToLf.induct with
  | case1 => rfl
  | case2 c => exact crlfToLf_cons (fun hc => h (congrArg some hc)) b
  | case3 c d rest hcr ih =>
      have hlast : rest.getLast? ≠ some 13 := by
        intro hrest
        rw [List.getLast?_cons_cons] at h
        cases rest with
        | nil => cases hrest
        | cons e rest => exact h (by rw [List.getLast?_cons_cons]; exact hrest)
      rw [List.cons_append, List.cons_append, crlfToLf, if_pos hcr, ih hlast, crlfToLf, if_pos hcr, List.cons_append]
  | case4 c d rest hcr ih =>
      rw [List.getLast?_cons_cons] at h
      rw [List.cons_append, List.cons_append, crlfToLf, if_neg hcr, ← List.cons_append, ih h, crlfToLf, if_neg hcr,
        List.cons_append]

/-! ## One call -/

/-- The CR that is held back. -/
def held (wasCR : Bool) : Bytes :=
  if wasCR then [13] else []

/-- In what is read for `left` more bytes no CR follows another, and one that is passed on has room for the byte behind
it. -/
def PlainCRs : Nat → Bool → Bytes → Prop
  | _, _, [] => True
  | left, wasCR, c :: rest =>
      left = 0 ∨
        if c = 13 then wasCR = false ∧ PlainCRs left true rest
        else c = 10 ∨
          (VbState.passed wasCR c).length ≤ left ∧ PlainCRs (left - (VbState.passed wasCR c).length) false rest

/-- A byte that is passed on with the CR before it. -/
theorem crlfToLf_passed {c : UInt8} (hcr : c ≠ 13) (hlf : c ≠ 10) (wasCR : Bool) (rest : Bytes) :
    crlfToLf (held wasCR ++ c :: rest) = VbState.passed wasCR c ++ crlfToLf (held false ++ rest) := by
  cases wasCR with
  | false =>
      rw [VbState.passed, if_neg fun h => Bool.false_ne_true h.2]
      exact crlfToLf_cons hcr rest
  | true =>
      rw [VbState.passed, if_pos ⟨hlf, rfl⟩]
      calc crlfToLf (13 :: c :: rest) = 13 :: crlfToLf (c :: rest) := crlfToLf_cr hlf rest
        _ = 13 :: c :: crlfToLf rest := by rw [crlfToLf_cons hcr]

theorem getLast?_held_cons {c : UInt8} {consumed : Bytes} {wasCR : Bool} (hcr : c ≠ 13)
    (h : (held false ++ consumed).getLast? ≠ some 13) : (held wasCR ++ c :: consumed).getLast? ≠ some 13 := by
  have hlast : (c :: consumed).getLast? ≠ some 13 := by
    cases consumed with
    | nil => exact fun hc => hcr (Option.some.inj hc)
    | cons d consumed =>
        rw [List.getLast?_cons_cons]
        exact h
  cases wasCR with
  | false => exact hlast
  | true =>
      have hcons : (13 :: c :: consumed).getLast? = (c :: consumed).getLast? := List.getLast?_cons_cons
      exact hcons.trans_ne hlast

theorem readLineLoop_crlf {maxlen n : Nat} {wasCR : Bool} {bytes : Bytes} (hn : n ≤ maxlen)
    (hheld : wasCR = true → n < maxlen) (hplain : PlainCRs (maxlen - n) wasCR bytes)
    (heof : (readLineLoop maxlen n wasCR bytes).eof = false) :
    ∃ consumed, bytes = consumed ++ (readLineLoop maxlen n wasCR bytes).rest ∧
      (readLineLoop maxlen n wasCR bytes).line = crlfToLf (held wasCR ++ consumed) ∧
      n + (readLineLoop maxlen n wasCR bytes).line.length ≤ maxlen ∧
      (held wasCR ++ consumed).getLast? ≠ some 13 := by
  -- a full line holds no CR back
  have hfull : ¬ n < maxlen → wasCR = false := fun h => Bool.eq_false_iff.2 fun hcr => h (hheld hcr)
  induction bytes generalizing n wasCR with
  | nil =>
      rw [readLineLoop] at heof ⊢
      rw [hfull (of_decide_eq_false heof)]
      exact ⟨[], rfl, rfl, hn, by simp [held]⟩
  | cons c rest ih =>
      by_cases hlt : n < maxlen
      · have hleft : ¬ maxlen - n = 0 := by omega
        simp only [PlainCRs, hleft, false_or] at hplain
        rw [readLineLoop, if_pos hlt] at heof ⊢
        by_cases hcr : c = 13
        -- no CR was held back, and this one is now
        · rw [if_pos hcr] at hplain heof ⊢
          rcases ih hn (fun _ => hlt) hplain.2 heof (fun h => absurd hlt h) with ⟨consumed, hrest, hline, hlen, hlast⟩
          rw [hplain.1]
          refine ⟨c :: consumed, ?_, ?_, hlen, ?_⟩
          · rw [List.cons_append, ← hrest]
          · rw [hline, hcr]
            rfl
          · rw [hcr]
            exact hlast
        · rw [if_neg hcr] at hplain heof ⊢
          by_cases hlf : c = 10
          · subst hlf
            refine ⟨[10], rfl, ?_, hlt, ?_⟩
            · cases wasCR with
              | true => rfl
              | false => rfl
            · cases wasCR with
              | true => decide
              | false => decide
          -- the byte is passed on, with the CR before it
          · simp only [hlf, if_false, false_or] at hplain heof ⊢
            have hpassed : (VbState.passed wasCR c).length ≤ maxlen - n := hplain.1
            have hmore : maxlen - (n + (VbState.passed wasCR c).length) =
                maxlen - n - (VbState.passed wasCR c).length := Nat.sub_add_eq _ _ _
            rcases @ih (n + (VbState.passed wasCR c).length) false (by omega) (fun h => absurd h Bool.false_ne_true)
              (hmore ▸ hplain.2) heof (fun _ => rfl) with ⟨consumed, hrest, hline, hlen, hlast⟩
            refine ⟨c :: consumed, ?_, ?_, ?_, ?_⟩
            · exact congrArg (c :: ·) hrest
            · exact (congrArg (VbState.passed wasCR c ++ ·) hline).trans (crlfToLf_passed hcr hlf wasCR consumed).symm
            · have hsum : (VbState.passed wasCR c ++
                  (readLineLoop maxlen (n + (VbState.passed wasCR c).length) false rest).line).length + n ≤ maxlen := by
                rw [List.length_append]
                omega
              exact (Nat.add_comm n _).trans_le hsum
            · exact getLast?_held_cons hcr hlast
      · rw [VbState.readLineLoop_full (Nat.not_lt.1 hlt)] at heof ⊢
        rw [hfull hlt]
        exact ⟨[], rfl, rfl, hn, by simp [held]⟩

/-! ## Several calls -/

section Calls

variable (heap : Nat → Block)

/-- A call that returned without an error. -/
def VbState.LineResult.complete (r : VbState.LineResult) : Bool :=
  r.returned && r.s.error.isNone

/-- A call that was complete: the limit that it was given, and the buffer before and after it. -/
structure LineCall where
  maxlen : Nat
  before : Varbuf
  result : VbState.LineResult

/-- Calls on one stream, up to the last complete one, and what is left of the stream. -/
def readLines : VbState → List ReadAnswer → List Nat → Except VarbufFault (List LineCall × VbState × List ReadAnswer)
  | s, answers, [] => .ok ([], s, answers)
  | s, answers, maxlen :: maxlens =>
      match s.readLine heap maxlen answers with
      | .error f => .error f
      | .ok r =>
          if r.complete then
            match readLines r.s r.left maxlens with
            | .error f => .error f
            | .ok (calls, s', left) => .ok (⟨maxlen, s.vb, r⟩ :: calls, s', left)
          else .ok ([], s, answers)

/-- For every call there is room in the buffer, and the CRs are such that none is lost. -/
def LinesFit : VbState → List ReadAnswer → List Nat → Prop
  | _, _, [] => True
  | s, answers, maxlen :: maxlens =>
      VbState.RoomForLine (s.vb.actual - 1 - s.vb.used) maxlen false (VbState.streamOf answers) ∧
        PlainCRs maxlen false (VbState.streamOf answers) ∧
        ∀ r, s.readLine heap maxlen answers = .ok r → LinesFit r.s r.left maxlens

/-- The call appended no more than it may, and `*new` is the address of the first byte that it appended. -/
structure LineCall.Fine (call : LineCall) : Prop where
  length : call.result.s.vb.used ≤ call.before.used + call.maxlen
  new : call.result.new = call.result.s.vb.buf + call.before.used
  kept : call.result.s.vb.mem.take call.before.used = call.before.content

variable {heap}

/-- One complete call. -/
theorem readLine_crlf {s : VbState} {answers : List ReadAnswer} {maxlen : Nat} (hrep : s.vb.Rep)
    (herror : s.error = none)
    (hroom : VbState.RoomForLine (s.vb.actual - 1 - s.vb.used) maxlen false (VbState.streamOf answers))
    (hplain : PlainCRs maxlen false (VbState.streamOf answers)) :
    ∃ r, s.readLine heap maxlen answers = .ok r ∧ (r.complete = true →
      r.s.vb.Rep ∧ r.s.error = none ∧ (⟨maxlen, s.vb, r⟩ : LineCall).Fine ∧
      ∃ consumed, VbState.streamOf answers = consumed ++ VbState.streamOf r.left ∧ consumed.getLast? ≠ some 13 ∧
        r.s.vb.content = s.vb.content ++ crlfToLf consumed) := by
  have hzero : s.vb.used - s.vb.used = 0 := Nat.sub_self _
  rcases @VbState.readLineLoop_spec heap s maxlen s.vb.used (s.vb.buf + s.vb.used) false answers hrep herror
    (Nat.le_refl _) (by rw [hzero]; exact hroom) with ⟨r, hr, hnew, happended, hend⟩
  rw [hzero] at happended hend
  refine ⟨r, hr, fun hcomplete => ?_⟩
  unfold VbState.LineResult.complete at hcomplete
  rw [Bool.and_eq_true, Option.isNone_iff_eq_none] at hcomplete
  rcases hend hcomplete.1 hcomplete.2 with ⟨heof, hleft⟩
  rcases readLineLoop_crlf (Nat.zero_le maxlen) (fun h => absurd h Bool.false_ne_true) hplain heof
    with ⟨consumed, hrest, hline, hlen, hlast⟩
  refine ⟨happended.rep, hcomplete.2, ⟨?_, ?_, ?_⟩, consumed, ?_, hlast, ?_⟩
  · have hused := happended.used
    simp only
    omega
  · rw [hnew, happended.buf]
  · have hcontent := congrArg (List.take s.vb.used) happended.content
    rw [Varbuf.content, List.take_take, happended.used, Nat.min_eq_left (Nat.le_add_right _ _)] at hcontent
    have hlen := VbState.length_content hrep.toSized
    rw [List.take_append_of_le_length hlen.ge, List.take_of_length_le hlen.le] at hcontent
    exact hcontent
  · rw [← hleft]
    exact hrest
  · rw [happended.content, hline]
    rfl

end Calls

/-- What the calls append is what they consumed, with LF for CR LF; none appends too much, and each tells where its
line begins. -/
theorem readLines_crlf (heap : Nat → Block) (s : VbState) (answers : List ReadAnswer) (maxlens : List Nat)
    (hrep : s.vb.Rep) (herror : s.error = none) (hfits : LinesFit heap s answers maxlens) :
    ∃ calls s' left, readLines heap s answers maxlens = .ok (calls, s', left) ∧ (∀ call ∈ calls, call.Fine) ∧
      ∃ consumed, VbState.streamOf answers = consumed ++ VbState.streamOf left ∧
        s'.vb.content = s.vb.content ++ crlfToLf consumed := by
  induction maxlens generalizing s answers with
  | nil =>
      refine ⟨[], s, answers, rfl, fun _ hmem => absurd hmem List.not_mem_nil, [], rfl, ?_⟩
      exact (List.append_nil _).symm
  | cons maxlen maxlens ih =>
      rcases hfits with ⟨hroom, hplain, hmore⟩
      rcases readLine_crlf hrep herror hroom hplain with ⟨r, hr, hcall⟩
      rw [readLines, hr]
      by_cases hcomplete : r.complete = true
      · rcases hcall hcomplete with ⟨hrep', herror', hfine, consumed, hstream, hlast, hcontent⟩
        rcases ih r.s r.left hrep' herror' (hmore r hr) with ⟨calls, s', left, hcalls, hall, consumed', hstream', hcontent'⟩
        simp only [hcomplete, if_true, hcalls]
        refine ⟨_, s', left, rfl, ?_, consumed ++ consumed', ?_, ?_⟩
        · intro call hmem
          rcases List.mem_cons.1 hmem with rfl | hmem
          · exact hfine
          · exact hall call hmem
        · rw [hstream, hstream', List.append_assoc]
        · -- no call stops between CR and LF
          rw [hcontent', hcontent, List.append_assoc, crlfToLf_append hlast]
      -- the calls end with one that fails or waits
      · simp only [hcomplete]
        refine ⟨[], s, answers, rfl, fun _ hmem => absurd hmem List.not_mem_nil, [], rfl, ?_⟩
        exact (List.append_nil _).symm

/-- A line that is interrupted before its end. -/
theorem readLines_crlf_interrupted :
    ∃ calls s' left, readLines (fun _ => zeros) (varbufCtor zeros 80 true)
        [.byte 97, .byte 13, .failed EINTR, .byte 10, .byte 98] [80] = .ok (calls, s', left) ∧
      (∀ call ∈ calls, call.Fine) ∧
      ∃ consumed, [97, 13, 10, 98] = consumed ++ VbState.streamOf left ∧
        s'.vb.content = (varbufCtor zeros 80 true).vb.content ++ crlfToLf consumed := by
  have hroom : VbState.RoomForLine 80 80 false [97, 13, 10, 98] := by
    simp [VbState.RoomForLine, VbState.passed]
  have hplain : PlainCRs 80 false [97, 13, 10, 98] := by
    simp [PlainCRs, VbState.passed]
  exact readLines_crlf (fun _ => zeros) (varbufCtor zeros 80 true)
    [.byte 97, .byte 13, .failed EINTR, .byte 10, .byte 98] [80]
    ((rep_ctor_iff zeros (by decide) true).2 ⟨by decide, rfl⟩) rfl ⟨hroom, hplain, fun _ _ => trivial⟩

/-- One of two CRs is lost; a CR before the last byte of a full line makes it too long; and a line that fills the
buffer has its NUL behind it. -/
theorem not_readLines_crlf :
    (∃ calls s' left, readLines (fun _ => zeros) (varbufCtor zeros 80 true) [.byte 13, .byte 13, .byte 10] [80] =
        .ok (calls, s', left) ∧ s'.vb.content = [10] ∧ left = [] ∧ crlfToLf [13, 13, 10] = [13, 10]) ∧
      (∃ calls s' left, readLines (fun _ => zeros) (varbufCtor zeros 80 true) [.byte 13, .byte 97] [1] =
        .ok (calls, s', left) ∧ s'.vb.used = 2 ∧ ¬ ∀ call ∈ calls, call.Fine) ∧
      readLines (fun _ => zeros) (varbufCtor zeros 0 true) [.byte 97] [1] = .error .outOfBounds := by
  refine ⟨⟨_, _, _, rfl, by decide, by decide, by decide⟩, ⟨_, _, _, rfl, by decide, fun hall => ?_⟩, rfl⟩
  have hlen := (hall _ List.mem_cons_self).length
  revert hlen
  decide

end Scambio
