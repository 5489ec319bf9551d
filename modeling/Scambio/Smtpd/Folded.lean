import Scambio.Smtpd.Multipart

/-!
# Folded — mails with folded lines and encoded parts (`smtpd/parse.c`)

A field may go on for several lines, as long as the next ones start with a blank, and a part may be encoded.

* `FoldedField`           : a field as it stands in a text, and `compactField` what is read of it;
* `headerParse_lines`     : the header is made of these;
* `parseMailRec_file`     : a part with such a header and an encoded body;
* `parseMailRec_chunks`   : a multipart message made of any texts that the parser takes one by one.
-/

namespace Scambio

open Library

/-! ## Fields on several lines -/

/-- Every end of line is followed by a blank, and the last character is none. -/
def folded : Bytes → Bool
  | [] => true
  | [c] => !iseol c
  | c :: d :: s => (!iseol c || isblank d) && folded (d :: s)

/-- A field as it stands in a text. -/
structure FoldedField (hf : HeaderField) : Prop where
  name_clean : CleanText hf.name
  name_no_colon : (58 : UInt8) ∉ hf.name
  value_folded : folded hf.value = true
  value_last : ∃ c ∈ hf.value.getLast?, isspace c = false
  value_no_nul : (0 : UInt8) ∉ hf.value

instance (hf : HeaderField) : Decidable (FoldedField hf) :=
  decidable_of_iff
    (CleanText hf.name ∧ (58 : UInt8) ∉ hf.name ∧ folded hf.value = true ∧
      (∃ c ∈ hf.value.getLast?, isspace c = false) ∧ (0 : UInt8) ∉ hf.value)
    ⟨fun h => ⟨h.1, h.2.1, h.2.2.1, h.2.2.2.1, h.2.2.2.2⟩,
      fun h => ⟨h.name_clean, h.name_no_colon, h.value_folded, h.value_last, h.value_no_nul⟩⟩

/-- What is read of it. -/
def compactField (hf : HeaderField) : HeaderField :=
  ⟨hf.name.map tolower, trimEnd isspace (squeeze isspace 32 true hf.value)⟩

theorem FoldedField.value_eq {hf : HeaderField} (h : FoldedField hf) : ∃ w c, hf.value = w ++ [c] ∧ isspace c = false := by
  rcases h.value_last with ⟨c, hc, hsp⟩
  rcases List.getLast?_eq_some_iff.1 hc with ⟨w, hw⟩
  exact ⟨w, c, hw, hsp⟩

/-- No blank of its end is put in the buffer. -/
theorem FoldedField.squeeze_eq {hf : HeaderField} (h : FoldedField hf) :
    squeeze isspace 32 true hf.value = (compactField hf).value := by
  rcases h.value_eq with ⟨w, c, hw, hsp⟩
  have hend : squeeze isspace 32 true (w ++ [c]) = squeeze isspace 32 true w ++ [c] := squeeze_append_word hsp w []
  rw [compactField, hw, hend, trimEnd_append_word hsp]

theorem folded_of_line {s : Bytes} (h : ∀ c ∈ s, iseol c = false) : folded s = true := by
  fun_induction folded s with
  | case1 => rfl
  | case2 c => simp [h c List.mem_cons_self]
  | case3 c d s ih =>
      have hc := h c List.mem_cons_self
      have hrest := ih fun x hx => h x (List.mem_cons_of_mem _ hx)
      simp [hc, hrest]

/-- A line that goes on with a blank. -/
theorem folded_append {s t : Bytes} (hs : folded s = true) {c d : UInt8} (hd : isblank d = true)
    (ht : folded (d :: t) = true) : folded (s ++ c :: d :: t) = true := by
  fun_induction folded s with
  | case1 => simp [folded, hd, ht]
  | case2 x =>
      simp only [List.cons_append, List.nil_append, folded, hs, hd, ht, Bool.true_or, Bool.or_true, Bool.and_self]
  | case3 x y s ih =>
      rw [Bool.and_eq_true] at hs
      simp only [List.cons_append, folded, Bool.and_eq_true]
      exact ⟨hs.1, ih hs.2⟩

/-- Behind an end of line there is a blank. -/
theorem blank_of_folded {a b : Bytes} {c : UInt8} (h : folded (a ++ c :: b) = true) (hc : iseol c = true) :
    ∃ d b', b = d :: b' ∧ isblank d = true := by
  induction a with
  | nil =>
      cases b with
      | nil => simp [folded, hc] at h
      | cons d b =>
          simp only [List.nil_append, folded, hc, Bool.not_true, Bool.false_or, Bool.and_eq_true] at h
          exact ⟨d, b, rfl, h.1⟩
  | cons x a ih =>
      apply ih
      cases hrest : a ++ c :: b with
      | nil => exact absurd hrest (List.append_ne_nil_of_right_ne_nil _ (List.cons_ne_nil _ _))
      | cons y s =>
          rw [List.cons_append, hrest, folded, Bool.and_eq_true] at h
          exact h.2

section Header

variable [Host]

/-- A value is read to the end of its last line. -/
theorem parse_foldedValue {value : Bytes} (hfold : folded value = true) (hword : ∃ c ∈ value, isspace c = false)
    {rest : Bytes} (hrest : NoBlankHead rest) :
    parse (32 :: (value ++ 10 :: rest)) isEndOfValue =
      if 1000 < (squeeze isspace 32 true value).length then .error overrun
      else .ok (trimEnd isspace (squeeze isspace 32 true value), 1 + value.length) := by
  have hend : isEndOfValue (10 :: rest) = true := by
    cases rest with
    | nil => rfl
    | cons c cs =>
        have hc : isblank c = false := hrest c (by simp)
        simp [isEndOfValue, iseol, hc]
  have hin : ∀ a c b, 32 :: value = a ++ c :: b → isEndOfValue (c :: (b ++ 10 :: rest)) = false := by
    intro a c b hab
    have hab' : folded (a ++ c :: b) = true := by
      rw [← hab]
      cases value with
      | nil => rfl
      | cons v value => simpa [folded, iseol] using hfold
    -- an end of line is not the end of the value, since a blank follows
    by_cases heol : iseol c = true
    · rcases blank_of_folded hab' heol with ⟨d, b', rfl, hd⟩
      simp [isEndOfValue, hd]
    · cases hb : b ++ 10 :: rest <;> simp [isEndOfValue, heol]
  have hsq : squeeze isspace 32 true (32 :: value) = squeeze isspace 32 true value := rfl
  have hne : squeeze isspace 32 true value ≠ [] := by
    intro hnil
    rcases hword with ⟨c, hc, hsp⟩
    rw [(squeeze_eq_nil_iff value).1 hnil c hc] at hsp
    cases hsp
  have h := parse_append (d := isEndOfValue) (32 :: value) (10 :: rest) hin (by simp) hend
  rw [hsq, if_neg hne] at h
  simpa [Nat.add_comm] using h

theorem parseField_folded {hf : HeaderField} (h : FoldedField hf) (hs : ShortField (compactField hf)) {rest : Bytes}
    (hrest : NoBlankHead rest) :
    parseField (fieldDump hf ++ rest) =
      .ok (some (hf.name, (compactField hf).value, (fieldDump hf).length)) := by
  have hfirst : fieldDump hf ++ rest = hf.name ++ (58 :: 32 :: (hf.value ++ 10 :: rest)) := by
    simp [fieldDump, ascii, charByte]
  have hsecond : (fieldDump hf ++ rest).drop (hf.name.length + 1) = 32 :: (hf.value ++ 10 :: rest) := by
    rw [hfirst, ← List.drop_drop, List.drop_left]
    simp
  have hfield : parse (fieldDump hf ++ rest) isEndOfName = .ok (hf.name, hf.name.length) := by
    have hname : hf.name.length ≤ 1000 := List.length_map tolower ▸ hs.name
    rw [hfirst, parse_name h.name_clean h.name_no_colon, if_neg (Nat.not_lt.2 hname)]
  have hword : ∃ c ∈ hf.value, isspace c = false := by
    rcases h.value_eq with ⟨w, c, hw, hsp⟩
    exact ⟨c, by simp [hw], hsp⟩
  have hvalue := parse_foldedValue h.value_folded hword hrest
  rw [if_neg (Nat.not_lt.2 (h.squeeze_eq ▸ hs.value))] at hvalue
  obtain ⟨n, hn⟩ : ∃ n, hf.name.length = n + 1 := by
    have hpos : 0 < hf.name.length := List.length_pos_of_ne_nil (Clean.ne_nil h.name_clean.1)
    exact ⟨hf.name.length - 1, by omega⟩
  have hlen : (fieldDump hf).length = hf.name.length + 2 + hf.value.length + 1 := by
    simp [fieldDump, ascii]
    omega
  rw [← hsecond, hn, Nat.add_comm 1] at hvalue
  rw [hn] at hfield
  simp only [parseField, hfield, hvalue, hlen, hn, compactField]
  congr 4
  omega

theorem headerParse_folded {hf : HeaderField} (h : FoldedField hf) (hs : ShortField (compactField hf)) {tail : Bytes}
    (htail : NoBlankHead tail) {fs : Header} {n : Nat} (hp : headerParse tail = .ok (fs, n)) :
    headerParse (fieldDump hf ++ tail) = .ok (compactField hf :: fs, (fieldDump hf).length + n) := by
  have hne : fieldDump hf ++ tail ≠ [] := by simp [fieldDump_ne_nil]
  rw [headerParse_step hne, parseField_folded h hs htail]
  simp only [List.drop_left, hp]
  rfl

omit [Host] in
/-- No line of such a text goes on the one before. -/
theorem noBlankHead_folded {h : Header} (hh : ∀ hf ∈ h, FoldedField hf) {tail : Bytes} (htail : NoBlankHead tail) :
    NoBlankHead (h.flatMap fieldDump ++ tail) := by
  cases h with
  | nil => exact htail
  | cons hf h =>
      have hname := (hh hf List.mem_cons_self).name_clean
      cases hn : hf.name with
      | nil => exact absurd hn (Clean.ne_nil hname.1)
      | cons c cs =>
          intro d hd
          have hdc : d = c := by simpa [fieldDump, hn, eq_comm] using hd
          have hsp : isspace d = false := by
            rw [hn] at hname
            exact hdc ▸ hname.head_not_isspace
          by_contra hb
          rw [isspace_of_isblank (by simpa using hb)] at hsp
          cases hsp

/-- The lines are read as their fields, up to the empty line. -/
theorem headerParse_lines {h : Header} (hh : ∀ hf ∈ h, FoldedField hf) (hs : ShortHeader (h.map compactField))
    (tail : Bytes) :
    headerParse (h.flatMap fieldDump ++ 10 :: tail) = .ok (h.map compactField, (h.flatMap fieldDump).length) := by
  have hblank : NoBlankHead (10 :: tail) := by
    intro c hc
    rw [← Option.some.inj hc]
    rfl
  induction h with
  | nil => exact headerParse_blank tail
  | cons hf h ih =>
      have hrest : ∀ hf ∈ h, FoldedField hf := fun x hx => hh x (List.mem_cons_of_mem _ hx)
      rw [List.map_cons] at hs
      have hfield : ShortField (compactField hf) := hs _ List.mem_cons_self
      have hshort : ShortHeader (h.map compactField) := fun x hx => hs x (List.mem_cons_of_mem _ hx)
      rw [List.flatMap_cons, List.append_assoc,
        headerParse_folded (hh hf List.mem_cons_self) hfield (noBlankHead_folded hrest hblank) (ih hrest hshort),
        List.length_append, List.map_cons]

omit [Host] in
theorem zero_not_mem_fields {h : Header} (hh : ∀ hf ∈ h, FoldedField hf) : (0 : UInt8) ∉ h.flatMap fieldDump := by
  intro hmem
  rcases List.mem_flatMap.1 hmem with ⟨hf, hhf, h0⟩
  have hc := hh hf hhf
  simp [fieldDump, hc.name_clean.2, hc.value_no_nul, ascii, charByte] at h0

theorem headerParse_cstr {h : Header} (hh : ∀ hf ∈ h, FoldedField hf) (hs : ShortHeader (h.map compactField))
    (tail : Bytes) :
    headerParse (cstr (h.flatMap fieldDump ++ 10 :: tail)) = .ok (h.map compactField, (h.flatMap fieldDump).length) := by
  have hcstr : cstr (10 :: tail) = 10 :: cstr tail := rfl
  rw [cstr_append (zero_not_mem_fields hh), hcstr]
  exact headerParse_lines hh hs _

end Header

/-! ## Parts -/

section Parts

variable [Host] {mimeType2ext : Bytes → Option Bytes}

/-- A part with a body, whatever follows. -/
theorem parseMailRec_file (fuel : Nat) {h : Header} (hh : ∀ hf ∈ h, FoldedField hf)
    (hs : ShortHeader (h.map compactField)) (hsingle : boundaryOf (h.map compactField) = none) {body data : Bytes}
    (hdecode : decodeInVarbuf (h.map compactField) body = .ok (.ok data)) (rest : Bytes) :
    (parseMailRec mimeType2ext (fuel + 1) (h.flatMap fieldDump ++ 10 :: body ++ rest)
        (h.flatMap fieldDump ++ 10 :: body).length).result =
      .ok (.ok (.file (h.map compactField) (buildParams mimeType2ext (h.map compactField)) data)) := by
  have htext : h.flatMap fieldDump ++ 10 :: body ++ rest = h.flatMap fieldDump ++ 10 :: (body ++ rest) := by
    rw [List.append_assoc, List.cons_append]
  have hlen : (h.flatMap fieldDump ++ 10 :: body).length = (h.flatMap fieldDump).length + (body.length + 1) := by
    rw [List.length_append, List.length_cons]
  have hblank : skipBlankLine (h.flatMap fieldDump ++ 10 :: (body ++ rest)) (h.flatMap fieldDump).length =
      (h.flatMap fieldDump).length + 1 := by
    have hget : (h.flatMap fieldDump ++ 10 :: (body ++ rest))[(h.flatMap fieldDump).length]? = some 10 := by
      rw [List.getElem?_append_right le_rfl, Nat.sub_self]
      rfl
    rw [skipBlankLine, if_pos hget]
  have hbody : ((h.flatMap fieldDump ++ 10 :: (body ++ rest)).drop ((h.flatMap fieldDump).length + 1)).take
      ((h.flatMap fieldDump).length + (body.length + 1) - ((h.flatMap fieldDump).length + 1)) = body := by
    have hsize : (h.flatMap fieldDump).length + (body.length + 1) - ((h.flatMap fieldDump).length + 1) =
        body.length := by omega
    rw [hsize, ← List.drop_drop, List.drop_left]
    exact List.take_left
  rw [htext, hlen, parseMailRec, headerParse_cstr hh hs]
  simp only [hsingle, hblank]
  rw [if_neg (by omega), if_neg (by omega)]
  simp only [hbody, hdecode]
  rfl

/-- A text without the delimiter, and what it is parsed to. -/
structure MailChunk (parse : Bytes → Nat → MailRun MsgTree) (b : Bytes) (c : Bytes × MsgTree) : Prop where
  free : ¬ delimiterOf b <:+: c.1
  parsed : ∀ rest, (parse (c.1 ++ rest) c.1.length).result = .ok (.ok c.2)

omit [Host] in
/-- The texts, each after its delimiter line, and the last line. -/
def chunksText (b epilogue : Bytes) : List (Bytes × MsgTree) → Bytes
  | [] => delimiterOf b ++ (ascii "--\n" ++ epilogue)
  | c :: cs => delimiterOf b ++ (ascii "\n" ++ (c.1 ++ chunksText b epilogue cs))

omit [Host] in
theorem length_chunks_le (b epilogue : Bytes) (cs : List (Bytes × MsgTree)) :
    cs.length ≤ (chunksText b epilogue cs).length := by
  induction cs with
  | nil => exact Nat.zero_le _
  | cons c cs ih =>
      have hpos : 0 < (delimiterOf b).length := Nat.succ_pos _
      simp only [chunksText, List.length_append, List.length_cons]
      omega

omit [Host] in
/-- From a delimiter to the last one, the trees are put in front one after the other. -/
theorem multipartLoop_chunks {parse : Bytes → Nat → MailRun MsgTree} {b epilogue : Bytes} (hb : (10 : UInt8) ∉ b)
    (cs : List (Bytes × MsgTree)) (hcs : ∀ c ∈ cs, MailChunk parse b c) {x : Bytes} {first : Bool}
    {acc acc' : List MsgTree} (fuel : Nat) (hfuel : cs.length < fuel) (hx : ¬ delimiterOf b <:+: x)
    (hnul : (0 : UInt8) ∉ x ++ chunksText b epilogue cs)
    (hbefore : (partBefore parse first (x ++ chunksText b epilogue cs) x.length acc).result = .ok (.ok acc')) :
    (multipartLoop parse (delimiterOf b) fuel first (x ++ chunksText b epilogue cs)
        (x ++ chunksText b epilogue cs).length acc).result =
      .ok (.ok ((cs.map Prod.snd).reverse ++ acc')) := by
  -- `x` is what stands before the next delimiter: the header at first, then a text
  induction cs generalizing x first acc acc' fuel with
  | nil =>
      obtain ⟨fuel, rfl⟩ := Nat.exists_eq_succ_of_ne_zero (Nat.ne_of_gt hfuel)
      have hlast : lineAfterBoundary (ascii "--\n" ++ epilogue) = (true, some epilogue) := rfl
      rw [chunksText] at hnul hbefore ⊢
      rw [multipartLoop_step fuel hb hx hnul hbefore, hlast]
      simp
  | cons c cs ih =>
      obtain ⟨fuel, rfl⟩ := Nat.exists_eq_succ_of_ne_zero (Nat.ne_of_gt (Nat.lt_of_le_of_lt (Nat.zero_le _) hfuel))
      have hc : MailChunk parse b c := hcs c List.mem_cons_self
      have hline : ∀ next, lineAfterBoundary (ascii "\n" ++ next) = (false, some next) := fun _ => rfl
      have hne : c.1 ++ chunksText b epilogue cs ≠ [] := by
        cases cs <;> simp [chunksText, delimiterOf, ascii]
      rw [chunksText] at hnul hbefore ⊢
      rw [multipartLoop_step fuel hb hx hnul hbefore, hline]
      simp only [hne, ne_eq, not_false_eq_true, and_self, if_true]
      have hpart : (partBefore parse false (c.1 ++ chunksText b epilogue cs) c.1.length acc').result =
          .ok (.ok (c.2 :: acc')) := by
        simp only [partBefore, MailRun.join, Bool.false_eq_true, if_false, hc.parsed]
        rfl
      have hnul' : (0 : UInt8) ∉ c.1 ++ chunksText b epilogue cs := by
        intro h0
        exact hnul (List.mem_append_right _ (List.mem_append_right _ (List.mem_append_right _ h0)))
      have hrest := ih (fun d hd => hcs d (List.mem_cons_of_mem _ hd)) fuel (Nat.lt_of_succ_lt_succ hfuel) hc.free hnul'
        hpart
      rw [hrest, List.map_cons, List.reverse_cons, List.append_assoc]
      rfl

/-- A multipart message made of texts that the parser takes one by one: their trees come in the reverse order. -/
theorem parseMailRec_chunks (fuel : Nat) {h : Header} (hh : ∀ hf ∈ h, FoldedField hf)
    (hs : ShortHeader (h.map compactField)) {b epilogue : Bytes} (hb : (10 : UInt8) ∉ b)
    (hboundary : boundaryOf (h.map compactField) = some (delimiterOf b))
    (hfree : ¬ delimiterOf b <:+: h.flatMap fieldDump) {cs : List (Bytes × MsgTree)}
    (hcs : ∀ c ∈ cs, MailChunk (parseMailRec mimeType2ext fuel) b c)
    (hnul : (0 : UInt8) ∉ h.flatMap fieldDump ++ chunksText b epilogue cs) :
    (parseMailRec mimeType2ext (fuel + 1) (h.flatMap fieldDump ++ chunksText b epilogue cs)
        (h.flatMap fieldDump ++ chunksText b epilogue cs).length).result =
      .ok (.ok (.multipart (h.map compactField) (cs.map Prod.snd).reverse)) := by
  -- the empty line behind the header is the start of the first delimiter
  have hfirst : ∃ rest, chunksText b epilogue cs = 10 :: rest := by
    cases cs with
    | nil => exact ⟨_, rfl⟩
    | cons c cs => exact ⟨_, rfl⟩
  have hcount := length_chunks_le b epilogue cs
  have hlen : (h.flatMap fieldDump ++ chunksText b epilogue cs).length =
      (h.flatMap fieldDump).length + (chunksText b epilogue cs).length := List.length_append
  have hparse : headerParse (cstr (h.flatMap fieldDump ++ chunksText b epilogue cs)) =
      .ok (h.map compactField, (h.flatMap fieldDump).length) := by
    rcases hfirst with ⟨rest, hrest⟩
    rw [hrest]
    exact headerParse_cstr hh hs rest
  have hloop : (multipartLoop (parseMailRec mimeType2ext fuel) (delimiterOf b)
      ((h.flatMap fieldDump ++ chunksText b epilogue cs).length + 1) true (h.flatMap fieldDump ++ chunksText b epilogue cs)
      (h.flatMap fieldDump ++ chunksText b epilogue cs).length []).result =
        .ok (.ok ((cs.map Prod.snd).reverse ++ [])) :=
    multipartLoop_chunks hb cs hcs _ (by omega) hfree hnul rfl
  rw [List.append_nil] at hloop
  rw [parseMailRec, hparse]
  simp only [hboundary, if_neg (show ¬ (h.flatMap fieldDump ++ chunksText b epilogue cs).length <
    (h.flatMap fieldDump).length by omega), hloop]
  rfl

end Parts

end Scambio
