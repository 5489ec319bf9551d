import Scambio.Smtpd.Parse

/-!
# QuotedPrintable — what `decode_quoted` makes of an encoding (`smtpd/parse.c`)

An encoder may write a byte as it is or as two digits, and end a line wherever it likes.  Whatever it chooses, the
automaton of `decode_quoted` is in its first state again behind each item, with the bytes written so far.  They are
appended one by one, so that the 1025th fills the buffer of the file to its last byte and its NUL goes behind it.
-/

namespace Scambio

open Library

/-- An uppercase hexadecimal digit. -/
def hexDigit (n : UInt8) : UInt8 :=
  if n < 10 then 48 + n else 55 + n

/-- `e` is an encoding of `b`. -/
inductive QuotedEncoding : Bytes → Bytes → Prop
  | nil : QuotedEncoding [] []
  | literal {c : UInt8} {b e : Bytes} (hc : c ≠ 61) : QuotedEncoding b e → QuotedEncoding (c :: b) (c :: e)
  | quoted (c : UInt8) {b e : Bytes} :
      QuotedEncoding b e → QuotedEncoding (c :: b) (61 :: hexDigit (c / 16) :: hexDigit (c % 16) :: e)
  | softBreak {b e : Bytes} : QuotedEncoding b e → QuotedEncoding b (61 :: 10 :: e)

/-- The two digits of a byte are digits of `decode_quoted`, which has the byte back from them. -/
theorem quotedDigit_hexDigit (c : UInt8) :
    quotedDigit (hexDigit (c / 16)) = some (c / 16) ∧ quotedDigit (hexDigit (c % 16)) = some (c % 16) ∧
      (0 * 16 + c / 16) * 16 + c % 16 = c :=
  forall_byte (p := fun c => quotedDigit (hexDigit (c / 16)) = some (c / 16) ∧
    quotedDigit (hexDigit (c % 16)) = some (c % 16) ∧ (0 * 16 + c / 16) * 16 + c % 16 = c) (by decide +kernel) c

theorem decodeQuotedLoop_literal {c : UInt8} (hc : c ≠ 61) (quoted : UInt8) (e : Bytes) :
    decodeQuotedLoop .unquoted quoted (c :: e) = c :: decodeQuotedLoop .unquoted quoted e := by
  rw [decodeQuotedLoop, if_neg hc]

theorem decodeQuotedLoop_quoted (c quoted : UInt8) (e : Bytes) :
    decodeQuotedLoop .unquoted quoted (61 :: hexDigit (c / 16) :: hexDigit (c % 16) :: e) =
      c :: decodeQuotedLoop .unquoted c e := by
  rcases quotedDigit_hexDigit c with ⟨hfirst, hsecond, hbyte⟩
  rw [decodeQuotedLoop, if_pos rfl, decodeQuotedLoop, hfirst]
  simp only
  rw [decodeQuotedLoop, hsecond]
  simp only
  rw [hbyte]

theorem decodeQuotedLoop_softBreak (quoted : UInt8) (e : Bytes) :
    decodeQuotedLoop .unquoted quoted (61 :: 10 :: e) = decodeQuotedLoop .unquoted 0 e := by
  rw [decodeQuotedLoop, if_pos rfl, decodeQuotedLoop]
  -- a newline is no digit
  rfl

/-- Between two items the byte that is left in `quoted` does not count. -/
theorem QuotedEncoding.decodeQuotedLoop {b e : Bytes} (h : QuotedEncoding b e) (quoted : UInt8) :
    decodeQuotedLoop .unquoted quoted e = b := by
  induction h generalizing quoted with
  | nil => rfl
  | literal hc _ ih => rw [decodeQuotedLoop_literal hc, ih]
  | quoted c _ ih => rw [decodeQuotedLoop_quoted, ih]
  | softBreak _ ih => rw [decodeQuotedLoop_softBreak, ih]

theorem QuotedEncoding.decodeQuoted {b e : Bytes} (h : QuotedEncoding b e) :
    decodeQuoted e = if FILE_ROOM < b.length then .error .overrun else .ok b := by
  rw [decodeQuoted_eq, quotedText, h.decodeQuotedLoop 0]

/-- Every encoding of a text that has room in the buffer is decoded, and no other one. -/
theorem decodeQuoted_of_encoding_iff {b e : Bytes} (h : QuotedEncoding b e) :
    decodeQuoted e = .ok b ↔ b.length ≤ FILE_ROOM := by
  rw [h.decodeQuoted]
  split
  · next hover => exact iff_of_false (fun h => nomatch h) (Nat.not_le.2 hover)
  · next hroom => exact iff_of_true rfl (Nat.not_lt.1 hroom)

theorem decodeQuoted_of_encoding_iff_sample :
    decodeQuoted (ascii "a=3Db=\n=\n") = .ok (ascii "a=b") ↔ (ascii "a=b").length ≤ FILE_ROOM :=
  decodeQuoted_of_encoding_iff
    (.literal (by decide) (.quoted 61 (.literal (by decide) (.softBreak (.softBreak .nil)))))

/-- A text without '=' encodes itself. -/
theorem quotedEncoding_self {b : Bytes} (h : (61 : UInt8) ∉ b) : QuotedEncoding b b := by
  induction b with
  | nil => exact .nil
  | cons c b ih =>
      rw [List.mem_cons, not_or] at h
      exact .literal (Ne.symm h.1) (ih h.2)

/-- A letter that is repeated 1025 times is written behind the buffer. -/
theorem not_decodeQuoted_of_encoding : ¬ ∀ b e : Bytes, QuotedEncoding b e → decodeQuoted e = .ok b := by
  intro h
  let text : Bytes := List.replicate 1025 97
  have htext : QuotedEncoding text text :=
    quotedEncoding_self fun hmem => absurd (List.eq_of_mem_replicate hmem) (by decide)
  have hdecoded := h text text htext
  rw [htext.decodeQuoted, if_pos (by rw [List.length_replicate]; decide)] at hdecoded
  cases hdecoded

end Scambio
