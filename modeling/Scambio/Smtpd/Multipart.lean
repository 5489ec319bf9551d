import Scambio.Lib.HeaderText
import Scambio.Smtpd.MailSafe
import Scambio.Smtpd.Parameters

/-!
# Multipart — the parts of a multipart message (`smtpd/parse.c`)

`MultipartMail` is a message built as RFC 2046 says: a header with a quoted boundary, a preamble, the parts
between delimiter lines, and an epilogue.  `parseMailRec_mail` is what the parser makes of it: the parts in
the reverse order.  A field that has no room in the buffer of `parse`, or a body that fills the one of its file to the
last byte, ends the process.
-/

namespace Scambio

open Library

/-! ## Messages -/

/-- The characters of a boundary, as RFC 2046 has them. -/
def isBchar (c : UInt8) : Bool :=
  isDigit c || (97 ≤ c && c ≤ 122) || (65 ≤ c && c ≤ 90) || (ascii "'()+_,-./:=? ").contains c

/-- `boundary := 0*69<bchars> bcharsnospace` -/
structure IsBoundary (b : Bytes) : Prop where
  chars : ∀ c ∈ b, isBchar c = true
  length_le : b.length ≤ MAX_BOUNDARY_LENGTH
  last : ∃ b' c, b = b' ++ [c] ∧ c ≠ 32

/-- What stands before a part, its end of line taken from what precedes it. -/
def delimiterOf (b : Bytes) : Bytes :=
  ascii "\n--" ++ b

/-- A part with no encoding and no part in it. -/
structure MailPart where
  header : Header
  body : Bytes
  canonical : CanonicalHeader header
  plain : headerFind header (ascii "content-transfer-encoding") = none
  single : ∀ hf, headerFind header (ascii "content-type") = some hf →
    startsWithCase (ascii "multipart/") hf.value = false

def MailPart.text (p : MailPart) : Bytes :=
  headerDump p.header ++ p.body

/-- The fields and the body of the part do not overrun their buffers. -/
structure MailPart.Fits (p : MailPart) : Prop where
  short : ShortHeader p.header
  room : p.body.length ≠ FILE_ROOM + 1

/-- The characters of a subtype. -/
def isSubtypeChar (c : UInt8) : Bool :=
  !isspace c && c != 34 && c != 59 && c != 0

/-- A message of type multipart. -/
structure MultipartMail where
  /-- The fields before the one of the type, and after it. -/
  before : Header
  after : Header
  subtype : Bytes
  boundary : Bytes
  preamble : Option Bytes
  parts : List MailPart
  epilogue : Bytes
  before_canonical : CanonicalHeader before
  after_canonical : CanonicalHeader after
  before_type : headerFind before (ascii "content-type") = none
  subtype_chars : ∀ c ∈ subtype, isSubtypeChar c = true
  isBoundary : IsBoundary boundary
  free : ∀ p ∈ parts, ¬ delimiterOf boundary <:+: p.text

namespace MultipartMail

variable (m : MultipartMail)

/-- The value of the type, as it is written. -/
def typeText : Bytes :=
  ascii "multipart/" ++ m.subtype ++ ascii "; boundary=\"" ++ m.boundary ++ ascii "\""

/-- The value of the type, as a header holds it: blanks are compacted. -/
def typeValue : Bytes :=
  ascii "multipart/" ++ m.subtype ++ ascii "; boundary=\"" ++ squeeze isspace 32 false m.boundary ++ ascii "\""

/-- The header once parsed. -/
def header : Header :=
  m.before ++ ⟨ascii "content-type", m.typeValue⟩ :: m.after

/-- The fields, the empty line and the preamble, up to the end of line of the first delimiter. -/
def lead : Bytes :=
  m.before.flatMap fieldDump ++ (fieldDump ⟨ascii "content-type", m.typeText⟩ ++ (m.after.flatMap fieldDump ++
    match m.preamble with
    | none => []
    | some text => 10 :: text))

/-- The parts, each after its delimiter line, and the last line. -/
def partsText (b epilogue : Bytes) : List MailPart → Bytes
  | [] => delimiterOf b ++ (ascii "--\n" ++ epilogue)
  | p :: ps => delimiterOf b ++ (ascii "\n" ++ (p.text ++ partsText b epilogue ps))

def text : Bytes :=
  m.lead ++ partsText m.boundary m.epilogue m.parts

/-- The parser finds these parts, in this order. -/
def Faithful : Prop :=
  ∀ (host : Host) (mimeType2ext : Bytes → Option Bytes),
    (@parseMailRec host mimeType2ext (m.text.length + 1) m.text m.text.length).result =
      .ok (.ok (.multipart m.header
        (m.parts.map fun p => .file p.header (buildParams mimeType2ext p.header) p.body)))

/-- The delimiter that the parser looks for. -/
def readDelimiter : Bytes :=
  ascii "\n--" ++ (squeeze isspace 32 false m.boundary).take (MAX_BOUNDARY_LENGTH - 1)

/-- All buffers have room, the boundary has no two blanks in a row, the delimiter is not found before the first
part, there is no NUL, and the parts read the same backwards. -/
structure Splits : Prop where
  header_short : ShortHeader m.header
  parts_fit : ∀ p ∈ m.parts, p.Fits
  short : m.boundary.length < MAX_BOUNDARY_LENGTH
  single : ¬ [32, 32] <:+: m.boundary
  lead_free : ¬ delimiterOf m.boundary <:+: m.lead
  no_nul : (0 : UInt8) ∉ m.text
  palindrome : m.parts.reverse = m.parts

/-- The delimiter that the parser looks for is not found by accident out of the delimiter lines. -/
structure NoStray : Prop where
  lead_free : ¬ m.readDelimiter <:+: m.lead
  parts_free : ∀ p ∈ m.parts, ¬ m.readDelimiter <:+: 10 :: p.text
  epilogue_free : ¬ m.readDelimiter <:+: 10 :: m.epilogue

/-! ## The header -/

theorem isBchar_spec (c : UInt8) :
    isBchar c = true → (isspace c = true → c = 32) ∧ iseol c = false ∧ c ≠ 34 ∧ c ≠ 0 ∧ c ≠ 10 :=
  forall_byte (p := fun c => isBchar c = true →
    (isspace c = true → c = 32) ∧ iseol c = false ∧ c ≠ 34 ∧ c ≠ 0 ∧ c ≠ 10) (by decide +kernel) c

theorem isSubtypeChar_spec (c : UInt8) :
    isSubtypeChar c = true → isspace c = false ∧ iseol c = false ∧ c ≠ 34 ∧ c ≠ 59 ∧ c ≠ 0 :=
  forall_byte (p := fun c => isSubtypeChar c = true →
    isspace c = false ∧ iseol c = false ∧ c ≠ 34 ∧ c ≠ 59 ∧ c ≠ 0) (by decide +kernel) c

theorem isBchar_of_mem_squeeze {c : UInt8} (h : c ∈ squeeze isspace 32 false m.boundary) : isBchar c = true := by
  rcases mem_squeeze h with h | rfl
  · exact m.isBoundary.chars c h
  · decide

/-- The value of the type is compacted in the boundary only. -/
theorem squeeze_typeText : squeeze isspace 32 true m.typeText = m.typeValue := by
  have hsub : ∀ c ∈ ascii "multipart/" ++ m.subtype, isspace c = false := by
    have hmultipart : ∀ c ∈ ascii "multipart/", isspace c = false := by decide +kernel
    intro c hc
    rcases List.mem_append.1 hc with hc | hc
    · exact hmultipart c hc
    · exact (isSubtypeChar_spec c (m.subtype_chars c hc)).1
  have htext : m.typeText =
      (ascii "multipart/" ++ m.subtype) ++ 59 :: 32 :: (ascii "boundary=" ++ 34 :: (m.boundary ++ 34 :: [])) := by
    simp [typeText, ascii, charByte]
  have hblank : ∀ w, squeeze isspace 32 false (32 :: w) = 32 :: squeeze isspace 32 true w := fun _ => rfl
  have hboundary : squeeze isspace 32 true (ascii "boundary=") = ascii "boundary=" := squeeze_word (by decide +kernel)
  rw [htext, squeeze_append_word (by decide), squeeze_word hsub, hblank, squeeze_append_word (by decide), hboundary,
    squeeze_append_word (by decide)]
  simp [typeValue, ascii, charByte, squeeze]

theorem typeText_line : ∀ c ∈ m.typeText, iseol c = false ∧ c ≠ 0 := by
  have hmultipart : ∀ c ∈ ascii "multipart/", iseol c = false ∧ c ≠ 0 := by decide +kernel
  have hparam : ∀ c ∈ ascii "; boundary=\"", iseol c = false ∧ c ≠ 0 := by decide +kernel
  have hquote : ∀ c ∈ ascii "\"", iseol c = false ∧ c ≠ 0 := by decide +kernel
  have hsub : ∀ c ∈ m.subtype, iseol c = false ∧ c ≠ 0 := by
    intro c hc
    have hspec := isSubtypeChar_spec c (m.subtype_chars c hc)
    exact ⟨hspec.2.1, hspec.2.2.2.2⟩
  have hbound : ∀ c ∈ m.boundary, iseol c = false ∧ c ≠ 0 := by
    intro c hc
    have hspec := isBchar_spec c (m.isBoundary.chars c hc)
    exact ⟨hspec.2.1, hspec.2.2.2.1⟩
  simp only [typeText, List.forall_mem_append]
  exact ⟨⟨⟨⟨hmultipart, hsub⟩, hparam⟩, hbound⟩, hquote⟩

/-- The field of the type is read with its value compacted. -/
theorem parseField_type [Host] {rest : Bytes} (hrest : NoBlankHead rest) :
    parseField (fieldDump ⟨ascii "content-type", m.typeText⟩ ++ rest) =
      if ShortField ⟨ascii "content-type", m.typeValue⟩ then
        .ok (some (ascii "content-type", m.typeValue, (fieldDump ⟨ascii "content-type", m.typeText⟩).length))
      else .error overrun := by
  have hsqueeze := m.squeeze_typeText
  have hvalue : m.typeValue = (ascii "multipart/" ++ m.subtype ++ ascii "; boundary=\"" ++
      squeeze isspace 32 false m.boundary) ++ [34] := rfl
  have htrim : trimEnd isspace m.typeValue = m.typeValue := by
    rw [hvalue, trimEnd_append_word (by decide)]
  have hne : squeeze isspace 32 true m.typeText ≠ [] := by
    rw [hsqueeze, hvalue]
    exact List.concat_ne_nil _ _
  have hname : CleanText (ascii "content-type") :=
    cleanText_of_words (by decide +kernel) (by decide +kernel) (by decide +kernel)
  have hline := parseField_line hname (by decide) (fun c hc => (m.typeText_line c hc).1) hne hrest
  rw [hsqueeze, htrim] at hline
  exact hline.trans (if_congr ⟨fun hs => ⟨hs.1, hs.2⟩, fun hs => ⟨hs.name, hs.value⟩⟩ rfl rfl)

/-- The lines of the header. -/
def headerLines : Bytes :=
  m.before.flatMap fieldDump ++ (fieldDump ⟨ascii "content-type", m.typeText⟩ ++ m.after.flatMap fieldDump)

theorem shortHeader_iff : ShortHeader m.header ↔
    ShortHeader m.before ∧ ShortField ⟨ascii "content-type", m.typeValue⟩ ∧ ShortHeader m.after := by
  simp only [ShortHeader, header, List.forall_mem_append, List.forall_mem_cons]

/-- The line of the type and the ones after it. -/
theorem noBlankHead_typeLine (rest : Bytes) :
    NoBlankHead (fieldDump ⟨ascii "content-type", m.typeText⟩ ++ (m.after.flatMap fieldDump ++ 10 :: rest)) := by
  intro c hc
  rw [← Option.some.inj hc]
  decide

theorem headerLines_append (rest : Bytes) :
    m.headerLines ++ 10 :: rest = m.before.flatMap fieldDump ++
      (fieldDump ⟨ascii "content-type", m.typeText⟩ ++ (m.after.flatMap fieldDump ++ 10 :: rest)) := by
  simp only [headerLines, List.append_assoc]

theorem headerParse_headerLines [Host] (hshort : ShortHeader m.header) (rest : Bytes) :
    headerParse (m.headerLines ++ 10 :: rest) = .ok (m.header, m.headerLines.length) := by
  rcases m.shortHeader_iff.1 hshort with ⟨hbefore, htype, hafter⟩
  have hblank := noBlankHead_newline rest
  have hlast := headerParse_fields_append m.after_canonical hafter hblank (headerParse_blank rest)
  have hfield := m.parseField_type (noBlankHead_fields m.after_canonical hblank)
  have hlower : (ascii "content-type").map tolower = ascii "content-type" := by decide
  rw [if_pos htype] at hfield
  have hline := @headerParse_line_append _ _ ⟨ascii "content-type", m.typeValue⟩ (fieldDump_ne_nil _) _
    hfield hlower _ _ hlast
  rw [headerLines_append, headerParse_fields_append m.before_canonical hbefore (m.noBlankHead_typeLine rest) hline]
  simp [headerLines, header]

/-- One field that is too long ends the process, wherever it stands. -/
theorem headerParse_headerLines_overrun [Host] (hlong : ¬ ShortHeader m.header) (rest : Bytes) :
    headerParse (m.headerLines ++ 10 :: rest) = .error overrun := by
  have hblank := noBlankHead_newline rest
  have hfield := m.parseField_type (noBlankHead_fields m.after_canonical hblank)
  have hne : fieldDump ⟨ascii "content-type", m.typeText⟩ ++ (m.after.flatMap fieldDump ++ 10 :: rest) ≠ [] := by
    simp [fieldDump_ne_nil]
  rw [headerLines_append]
  by_cases hbefore : ShortHeader m.before
  · refine headerParse_append_overrun m.before_canonical (m.noBlankHead_typeLine rest) ?_
    by_cases htype : ShortField ⟨ascii "content-type", m.typeValue⟩
    · have hafter : ¬ ShortHeader m.after := fun hafter => hlong (m.shortHeader_iff.2 ⟨hbefore, htype, hafter⟩)
      rw [if_pos htype] at hfield
      simp only [headerParse_step hne, hfield, List.drop_left,
        headerParse_fields_overrun m.after_canonical hafter hblank]
    · rw [if_neg htype] at hfield
      simp only [headerParse_step hne, hfield]
  · exact headerParse_fields_overrun m.before_canonical hbefore (m.noBlankHead_typeLine rest)

/-- The header ends at an empty line, which is part of the first delimiter if there is no preamble. -/
theorem text_eq : ∃ rest, m.text = m.headerLines ++ 10 :: rest := by
  have hparts : ∃ rest, partsText m.boundary m.epilogue m.parts = 10 :: rest := by
    cases m.parts with
    | nil => exact ⟨_, rfl⟩
    | cons p ps => exact ⟨_, rfl⟩
  rcases hparts with ⟨rest, hrest⟩
  rw [text, lead, hrest]
  cases m.preamble with
  | none => exact ⟨rest, by simp [headerLines]⟩
  | some preamble => exact ⟨preamble ++ 10 :: rest, by simp [headerLines]⟩

theorem zero_not_mem_headerLines : (0 : UInt8) ∉ m.headerLines := by
  have hcanonical : ∀ h : Header, CanonicalHeader h → (0 : UInt8) ∉ h.flatMap fieldDump :=
    fun h hh h0 => zero_not_mem_headerDump hh (List.mem_append_left _ h0)
  have htype : (0 : UInt8) ∉ fieldDump ⟨ascii "content-type", m.typeText⟩ := by
    have hname : (0 : UInt8) ∉ ascii "content-type" := by decide
    have hcolon : (0 : UInt8) ∉ ascii ": " := by decide
    have hnewline : (0 : UInt8) ∉ ascii "\n" := by decide
    have hvalue : (0 : UInt8) ∉ m.typeText := fun h0 => (m.typeText_line 0 h0).2 rfl
    simp only [fieldDump, List.mem_append, not_or]
    exact ⟨⟨⟨hname, hcolon⟩, hvalue⟩, hnewline⟩
  simp only [headerLines, List.mem_append, not_or]
  exact ⟨hcanonical _ m.before_canonical, htype, hcanonical _ m.after_canonical⟩

theorem cstr_text : ∃ rest, cstr m.text = m.headerLines ++ 10 :: rest := by
  rcases m.text_eq with ⟨rest, hrest⟩
  have hcstr : cstr (10 :: rest) = 10 :: cstr rest := rfl
  exact ⟨cstr rest, by rw [hrest, cstr_append m.zero_not_mem_headerLines, hcstr]⟩

theorem length_headerLines_le : m.headerLines.length ≤ m.text.length := by
  rcases m.text_eq with ⟨rest, hrest⟩
  rw [hrest, List.length_append]
  omega

theorem headerParse_text [Host] (hshort : ShortHeader m.header) :
    headerParse (cstr m.text) = .ok (m.header, m.headerLines.length) := by
  rcases m.cstr_text with ⟨rest, hrest⟩
  rw [hrest, m.headerParse_headerLines hshort]

theorem headerParse_text_overrun [Host] (hlong : ¬ ShortHeader m.header) :
    headerParse (cstr m.text) = .error overrun := by
  rcases m.cstr_text with ⟨rest, hrest⟩
  rw [hrest, m.headerParse_headerLines_overrun hlong]

/-! ## The boundary -/

theorem findNextParamDelim_append {a rest : Bytes} (ha : ∀ c ∈ a, c ≠ 34 ∧ c ≠ 59) :
    findNextParamDelim false (a ++ 59 :: rest) = 59 :: rest := by
  rw [skipped_of_plain ha]
  rfl

theorem parameterFind_boundary :
    parameterFind m.typeValue (ascii "boundary") = some (squeeze isspace 32 false m.boundary) := by
  have hvalue : m.typeValue = (ascii "multipart/" ++ m.subtype) ++
      59 :: (ascii " boundary=\"" ++ (squeeze isspace 32 false m.boundary ++ [34])) := by
    simp [typeValue, ascii, charByte]
  have hsub : ∀ c ∈ ascii "multipart/" ++ m.subtype, c ≠ 34 ∧ c ≠ 59 := by
    have hmultipart : ∀ c ∈ ascii "multipart/", c ≠ 34 ∧ c ≠ 59 := by decide +kernel
    intro c hc
    rcases List.mem_append.1 hc with hc | hc
    · exact hmultipart c hc
    · have hspec := isSubtypeChar_spec c (m.subtype_chars c hc)
      exact ⟨hspec.2.2.1, hspec.2.2.2.1⟩
  have hquote : ∀ c ∈ squeeze isspace 32 false m.boundary, (c != 34) = true := by
    intro c hc
    have hspec := isBchar_spec c (m.isBchar_of_mem_squeeze hc)
    simpa using hspec.2.2.1
  have hparam : ∀ x : Bytes, (ascii " boundary=\"" ++ x).dropWhile (· == 32) = ascii "boundary" ++ 61 :: 34 :: x :=
    fun x => rfl
  have hstart : ∀ x : Bytes, startsWithCase (ascii "boundary") (ascii "boundary" ++ x) = true := fun x => rfl
  have hend : ∀ x : Bytes, ((ascii "boundary" ++ 61 :: x).drop (ascii "boundary").length).dropWhile (· == 32) = 61 :: x :=
    fun x => rfl
  have hopen : ∀ x : Bytes, (34 :: x).dropWhile (· == 32) = 34 :: x := fun x => rfl
  rw [parameterFind, parameterFindLoop]
  simp only [hvalue, findNextParamDelim_append hsub, hparam, hstart, if_true, hend, hopen]
  rw [List.takeWhile_append_of_pos hquote]
  simp

theorem cstr_squeeze_boundary :
    cstr (squeeze isspace 32 false m.boundary) = squeeze isspace 32 false m.boundary := by
  refine cstr_of_not_mem fun h0 => ?_
  have hspec := isBchar_spec 0 (m.isBchar_of_mem_squeeze h0)
  exact hspec.2.2.2.1 rfl

/-- The parser takes the message for a multipart. -/
theorem boundaryOf_header : boundaryOf m.header = some m.readDelimiter := by
  have htype : headerFind m.header (ascii "content-type") = some ⟨ascii "content-type", m.typeValue⟩ := by
    have hbefore := m.before_type
    rw [headerFind] at hbefore ⊢
    rw [header, List.find?_append, hbefore]
    rfl
  have hmultipart : startsWithCase (ascii "multipart/") m.typeValue = true := by
    rw [typeValue, List.append_assoc, List.append_assoc, List.append_assoc]
    rfl
  rw [boundaryOf, htype]
  simp only [hmultipart, if_true, m.parameterFind_boundary, Option.map_some, m.cstr_squeeze_boundary]
  rfl

/-- The parts begin with a delimiter. -/
theorem partsText_eq (b epilogue : Bytes) (ps : List MailPart) :
    ∃ y, partsText b epilogue ps = delimiterOf b ++ y := by
  cases ps with
  | nil => exact ⟨_, rfl⟩
  | cons p ps => exact ⟨_, rfl⟩

end MultipartMail

/-! ## The loop -/

section Loop

variable [Host] {mimeType2ext : Bytes → Option Bytes}

/-- What a part is parsed to. -/
def MailPart.tree (mimeType2ext : Bytes → Option Bytes) (p : MailPart) : MsgTree :=
  .file p.header (buildParams mimeType2ext p.header) p.body

/-- A part is parsed to its fields and its body, whatever follows, if these have room. -/
theorem parseMailRec_part_of_short (fuel : Nat) {p : MailPart} (hshort : ShortHeader p.header) (rest : Bytes) :
    (parseMailRec mimeType2ext (fuel + 1) (p.text ++ rest) p.text.length).result =
      if p.body.length = FILE_ROOM + 1 then .error .overrun else .ok (.ok (p.tree mimeType2ext)) := by
  have hparse : headerParse (cstr (p.text ++ rest)) = .ok (p.header, (headerDump p.header).length - 1) := by
    rw [MailPart.text, List.append_assoc, cstr_append (zero_not_mem_headerDump p.canonical)]
    exact headerParse_dump_append p.canonical hshort _
  have hlen : (headerDump p.header).length = (p.header.flatMap fieldDump).length + 1 := by
    simp [headerDump, ascii]
  have htext : p.text.length = (headerDump p.header).length + p.body.length := by
    rw [MailPart.text, List.length_append]
  have hboundary : boundaryOf p.header = none := by
    unfold boundaryOf
    cases htype : headerFind p.header (ascii "content-type") with
    | none => rfl
    | some hf => simp [p.single hf htype]
  -- header_parse stops in front of the blank line
  have hblank : skipBlankLine (p.text ++ rest) ((headerDump p.header).length - 1) = (headerDump p.header).length := by
    have hget : (p.text ++ rest)[(headerDump p.header).length - 1]? = some 10 := by
      have hdump : p.text ++ rest = p.header.flatMap fieldDump ++ 10 :: (p.body ++ rest) := by
        simp [MailPart.text, headerDump, ascii, charByte]
      rw [hdump, hlen, Nat.add_sub_cancel, List.getElem?_append_right le_rfl, Nat.sub_self]
      rfl
    rw [skipBlankLine, if_pos hget]
    omega
  have hbody : ((p.text ++ rest).drop (headerDump p.header).length).take
      (p.text.length - (headerDump p.header).length) = p.body := by
    rw [htext, Nat.add_sub_cancel_left, MailPart.text, List.append_assoc, List.drop_left, List.take_left]
  have hdecode : decodeInVarbuf p.header p.body = copyInVarbuf p.body := by
    rw [decodeInVarbuf, p.plain]
  rw [parseMailRec, hparse]
  simp only [hboundary, hblank]
  rw [if_neg (by omega), if_neg (by omega)]
  simp only [hbody, hdecode, copyInVarbuf_eq]
  split <;> rfl

theorem parseMailRec_part (fuel : Nat) {p : MailPart} (hfits : p.Fits) (rest : Bytes) :
    (parseMailRec mimeType2ext (fuel + 1) (p.text ++ rest) p.text.length).result =
      .ok (.ok (p.tree mimeType2ext)) := by
  rw [parseMailRec_part_of_short fuel hfits.short, if_neg hfits.room]

theorem parseMailRec_part_overrun (fuel : Nat) {p : MailPart} (hover : ¬ p.Fits) (rest : Bytes) :
    (parseMailRec mimeType2ext (fuel + 1) (p.text ++ rest) p.text.length).result = .error .overrun := by
  by_cases hshort : ShortHeader p.header
  · have hroom : p.body.length = FILE_ROOM + 1 := by
      by_contra hroom
      exact hover ⟨hshort, hroom⟩
    rw [parseMailRec_part_of_short fuel hshort, if_pos hroom]
  · have hparse : headerParse (cstr (p.text ++ rest)) = .error overrun := by
      rw [MailPart.text, List.append_assoc, cstr_append (zero_not_mem_headerDump p.canonical)]
      exact headerParse_dump_overrun p.canonical hshort _
    rw [parseMailRec, hparse]
    rfl

omit [Host] in
/-- The first delimiter is the one behind `x`. -/
theorem strnstr_delimiter {b x y : Bytes} (hb : (10 : UInt8) ∉ b) (hx : ¬ delimiterOf b <:+: x)
    (hnul : (0 : UInt8) ∉ x ++ (delimiterOf b ++ y)) :
    strnstr (x ++ (delimiterOf b ++ y)) (delimiterOf b) (x ++ (delimiterOf b ++ y)).length = .ok (some x.length) := by
  have hdelim : (10 : UInt8) ∉ 45 :: 45 :: b := by simpa using hb
  rw [strnstr, if_pos (by rw [cstr_of_not_mem hnul]), List.take_length]
  exact congrArg Except.ok (findInfix_append hdelim hx y)

omit [Host] in
/-- A part that stops the process is the last one. -/
theorem multipartLoop_fault {parse : Bytes → Nat → MailRun MsgTree} {b x y : Bytes} {first : Bool}
    {acc : List MsgTree} {fault : MailFault} (fuel : Nat) (hb : (10 : UInt8) ∉ b) (hx : ¬ delimiterOf b <:+: x)
    (hnul : (0 : UInt8) ∉ x ++ (delimiterOf b ++ y))
    (hbefore : (partBefore parse first (x ++ (delimiterOf b ++ y)) x.length acc).result = .error fault) :
    (multipartLoop parse (delimiterOf b) (fuel + 1) first (x ++ (delimiterOf b ++ y))
        (x ++ (delimiterOf b ++ y)).length acc).result = .error fault := by
  have hpos : 0 < (delimiterOf b).length := Nat.succ_pos _
  rw [multipartLoop, strnstr_delimiter hb hx hnul]
  simp only [if_neg (show ¬ (x ++ (delimiterOf b ++ y)).length ≤ x.length by
    simp only [List.length_append]; omega)]
  rw [MailRun.andThen, hbefore]

omit [Host] in
/-- A round of the loop, up to a delimiter. -/
theorem multipartLoop_step {parse : Bytes → Nat → MailRun MsgTree} {b x y : Bytes} {first : Bool}
    {acc acc' : List MsgTree} (fuel : Nat) (hb : (10 : UInt8) ∉ b) (hx : ¬ delimiterOf b <:+: x)
    (hnul : (0 : UInt8) ∉ x ++ (delimiterOf b ++ y))
    (hbefore : (partBefore parse first (x ++ (delimiterOf b ++ y)) x.length acc).result = .ok (.ok acc')) :
    (multipartLoop parse (delimiterOf b) (fuel + 1) first (x ++ (delimiterOf b ++ y))
        (x ++ (delimiterOf b ++ y)).length acc).result =
      match lineAfterBoundary y with
      | (_, none) =>
          .ok (.error (.push 0
            (ascii "Badly formated multipart message : boundary not followed by new line (" ++
              delimiterOf b ++ ascii ")")))
      | (last, some next) =>
          if next ≠ [] ∧ last = false then
            (multipartLoop parse (delimiterOf b) fuel false next next.length acc').result
          else .ok (.ok acc') := by
  have hlen : (x ++ (delimiterOf b ++ y)).length = x.length + (delimiterOf b).length + y.length := by
    simp only [List.length_append]
    omega
  have hpos : 0 < (delimiterOf b).length := Nat.succ_pos _
  have hdrop : (x ++ (delimiterOf b ++ y)).drop (x.length + (delimiterOf b).length) = y := by
    rw [← List.drop_drop, List.drop_left, List.drop_left]
  rw [multipartLoop, strnstr_delimiter hb hx hnul]
  simp only [hdrop, if_neg (show ¬ (x ++ (delimiterOf b ++ y)).length ≤ x.length by omega)]
  rw [MailRun.andThen, hbefore]
  rcases hline : lineAfterBoundary y with ⟨last, _ | next⟩
  · rfl
  · rcases lineAfterBoundary_some (congrArg Prod.snd hline) with ⟨w, hw⟩
    have hnext : next.length < y.length := by
      rw [hw]
      simp only [List.length_append, List.length_cons]
      omega
    simp only
    by_cases hmore : next ≠ [] ∧ last = false
    · have hlt := List.length_pos_iff.2 hmore.1
      rw [if_pos hmore, if_pos ⟨by omega, hmore.2⟩]
      have hrest : (x ++ (delimiterOf b ++ y)).length - ((x ++ (delimiterOf b ++ y)).length - next.length) =
          next.length := by omega
      rw [hrest]
    -- the loop ends on the last boundary, or where nothing is left
    · have hend : ¬ ((x ++ (delimiterOf b ++ y)).length - next.length < (x ++ (delimiterOf b ++ y)).length ∧
          last = false) := by
        rintro ⟨hlt, hlast⟩
        refine hmore ⟨?_, hlast⟩
        rintro rfl
        simp at hlt
      rw [if_neg hmore, if_neg hend]

/-- The rounds of the loop, from a delimiter to the last one: the parts are put in front one after the other. -/
theorem multipartLoop_parts {b epilogue : Bytes} (hb : (10 : UInt8) ∉ b) (ps : List MailPart)
    (hfree : ∀ p ∈ ps, ¬ delimiterOf b <:+: p.text) (hfits : ∀ p ∈ ps, p.Fits) {x : Bytes} {first : Bool}
    {acc acc' : List MsgTree} (fuel k : Nat) (hfuel : ps.length < fuel) (hx : ¬ delimiterOf b <:+: x)
    (hnul : (0 : UInt8) ∉ x ++ MultipartMail.partsText b epilogue ps)
    (hbefore : (partBefore (parseMailRec mimeType2ext (k + 1)) first
      (x ++ MultipartMail.partsText b epilogue ps) x.length acc).result = .ok (.ok acc')) :
    (multipartLoop (parseMailRec mimeType2ext (k + 1)) (delimiterOf b) fuel first
        (x ++ MultipartMail.partsText b epilogue ps) (x ++ MultipartMail.partsText b epilogue ps).length acc).result =
      .ok (.ok ((ps.map (MailPart.tree mimeType2ext)).reverse ++ acc')) := by
  induction ps generalizing x first acc acc' fuel with
  | nil =>
      obtain ⟨fuel, rfl⟩ : ∃ f, fuel = f + 1 := ⟨fuel - 1, by omega⟩
      have hlast : lineAfterBoundary (ascii "--\n" ++ epilogue) = (true, some epilogue) := rfl
      rw [MultipartMail.partsText] at hnul hbefore ⊢
      rw [multipartLoop_step fuel hb hx hnul hbefore, hlast]
      simp
  | cons p ps ih =>
      obtain ⟨fuel, rfl⟩ : ∃ f, fuel = f + 1 := ⟨fuel - 1, by omega⟩
      have hline : ∀ next, lineAfterBoundary (ascii "\n" ++ next) = (false, some next) := fun _ => rfl
      have hne : p.text ++ MultipartMail.partsText b epilogue ps ≠ [] := by
        simp [MailPart.text, headerDump, ascii]
      rw [MultipartMail.partsText] at hnul hbefore ⊢
      rw [multipartLoop_step fuel hb hx hnul hbefore, hline]
      simp only [hne, ne_eq, not_false_eq_true, and_self, if_true]
      -- the part that was found comes before the next delimiter
      have hpart : (partBefore (parseMailRec mimeType2ext (k + 1)) false
          (p.text ++ MultipartMail.partsText b epilogue ps) p.text.length acc').result =
          .ok (.ok (p.tree mimeType2ext :: acc')) := by
        simp only [partBefore, MailRun.join, Bool.false_eq_true, if_false,
          parseMailRec_part k (hfits p List.mem_cons_self)]
        rfl
      have hnul' : (0 : UInt8) ∉ p.text ++ MultipartMail.partsText b epilogue ps := by
        intro h0
        exact hnul (List.mem_append_right _ (List.mem_append_right _ (List.mem_append_right _ h0)))
      have hrest := ih (fun q hq => hfree q (List.mem_cons_of_mem _ hq))
        (fun q hq => hfits q (List.mem_cons_of_mem _ hq)) fuel
        (by simpa using hfuel) (hfree p List.mem_cons_self) hnul' hpart
      rw [hrest]
      simp

/-- A part that overruns a buffer ends the rounds. -/
theorem multipartLoop_overrun {b epilogue : Bytes} (hb : (10 : UInt8) ∉ b) (ps : List MailPart)
    (hfree : ∀ p ∈ ps, ¬ delimiterOf b <:+: p.text) (hover : ¬ ∀ p ∈ ps, p.Fits) {x : Bytes} {first : Bool}
    {acc acc' : List MsgTree} (fuel k : Nat) (hfuel : ps.length < fuel) (hx : ¬ delimiterOf b <:+: x)
    (hnul : (0 : UInt8) ∉ x ++ MultipartMail.partsText b epilogue ps)
    (hbefore : (partBefore (parseMailRec mimeType2ext (k + 1)) first
      (x ++ MultipartMail.partsText b epilogue ps) x.length acc).result = .ok (.ok acc')) :
    (multipartLoop (parseMailRec mimeType2ext (k + 1)) (delimiterOf b) fuel first
        (x ++ MultipartMail.partsText b epilogue ps) (x ++ MultipartMail.partsText b epilogue ps).length acc).result =
      .error .overrun := by
  induction ps generalizing x first acc acc' fuel with
  | nil => exact absurd (fun p hp => absurd hp List.not_mem_nil) hover
  | cons p ps ih =>
      obtain ⟨fuel, rfl⟩ : ∃ f, fuel = f + 1 := ⟨fuel - 1, by omega⟩
      have hline : ∀ next, lineAfterBoundary (ascii "\n" ++ next) = (false, some next) := fun _ => rfl
      have hne : p.text ++ MultipartMail.partsText b epilogue ps ≠ [] := by
        simp [MailPart.text, headerDump, ascii]
      rw [MultipartMail.partsText] at hnul hbefore ⊢
      rw [multipartLoop_step fuel hb hx hnul hbefore, hline]
      simp only [hne, ne_eq, not_false_eq_true, and_self, if_true]
      have hnul' : (0 : UInt8) ∉ p.text ++ MultipartMail.partsText b epilogue ps := by
        intro h0
        exact hnul (List.mem_append_right _ (List.mem_append_right _ (List.mem_append_right _ h0)))
      have hfuel' : ps.length < fuel := by simpa using hfuel
      by_cases hfits : p.Fits
      · have hpart : (partBefore (parseMailRec mimeType2ext (k + 1)) false
            (p.text ++ MultipartMail.partsText b epilogue ps) p.text.length acc').result =
            .ok (.ok (p.tree mimeType2ext :: acc')) := by
          simp only [partBefore, MailRun.join, Bool.false_eq_true, if_false, parseMailRec_part k hfits]
          rfl
        have hlater : ¬ ∀ q ∈ ps, q.Fits := fun hall => hover (List.forall_mem_cons.2 ⟨hfits, hall⟩)
        exact ih (fun q hq => hfree q (List.mem_cons_of_mem _ hq)) hlater fuel hfuel'
          (hfree p List.mem_cons_self) hnul' hpart
      · -- it is parsed at the delimiter behind it
        have hpart : (partBefore (parseMailRec mimeType2ext (k + 1)) false
            (p.text ++ MultipartMail.partsText b epilogue ps) p.text.length acc').result = .error .overrun := by
          simp only [partBefore, MailRun.join, Bool.false_eq_true, if_false, parseMailRec_part_overrun k hfits]
          rfl
        obtain ⟨fuel, rfl⟩ : ∃ f, fuel = f + 1 := ⟨fuel - 1, by omega⟩
        rcases MultipartMail.partsText_eq b epilogue ps with ⟨y, hy⟩
        rw [hy] at hnul' hpart ⊢
        exact multipartLoop_fault fuel hb (hfree p List.mem_cons_self) hnul' hpart

end Loop

/-! ## The message -/

namespace MultipartMail

variable {m : MultipartMail}

theorem newline_not_mem_boundary (m : MultipartMail) : (10 : UInt8) ∉ m.boundary := fun h =>
  (isBchar_spec 10 (m.isBoundary.chars 10 h)).2.2.2.2 rfl

/-- A boundary without two blanks in a row is read as it is, up to its 69th character. -/
theorem readDelimiter_of_single (hsingle : ¬ [32, 32] <:+: m.boundary) :
    m.readDelimiter = delimiterOf (m.boundary.take (MAX_BOUNDARY_LENGTH - 1)) := by
  have hsp : ∀ c ∈ m.boundary, isspace c = true → c = 32 := fun c hc => (isBchar_spec c (m.isBoundary.chars c hc)).1
  rw [readDelimiter, squeeze_of_single hsp hsingle, delimiterOf]

theorem length_parts_le (b epilogue : Bytes) (ps : List MailPart) : ps.length ≤ (partsText b epilogue ps).length := by
  induction ps with
  | nil => exact Nat.zero_le _
  | cons p ps ih =>
      simp only [partsText, List.length_append, List.length_cons]
      have hpos : 0 < (delimiterOf b).length := Nat.succ_pos _
      omega

section Parse

variable [Host] {mimeType2ext : Bytes → Option Bytes}

/-- The message is taken for a multipart. -/
theorem parseMailRec_text (m : MultipartMail) (hheader : ShortHeader m.header) :
    (parseMailRec mimeType2ext (m.text.length + 1) m.text m.text.length).result =
      (multipartLoop (parseMailRec mimeType2ext m.text.length) m.readDelimiter (m.text.length + 1) true m.text
        m.text.length []).result.map fun parts => parts.map (MsgTree.multipart m.header) := by
  rw [parseMailRec, m.headerParse_text hheader]
  simp only [m.boundaryOf_header, if_neg (Nat.not_lt.2 m.length_headerLines_le)]

/-- A field of the message that is too long ends the process. -/
theorem parseMailRec_long (hheader : ¬ ShortHeader m.header) :
    (parseMailRec mimeType2ext (m.text.length + 1) m.text m.text.length).result = .error .overrun := by
  rw [parseMailRec, m.headerParse_text_overrun hheader]
  rfl

/-- The rounds of `parse_multipart` on the message, where the delimiter is read as it is. -/
theorem parseMailRec_loop (hheader : ShortHeader m.header) (hshort : m.boundary.length < MAX_BOUNDARY_LENGTH)
    (hsingle : ¬ [32, 32] <:+: m.boundary) :
    ∃ k fuel, m.parts.length < fuel ∧
      (parseMailRec mimeType2ext (m.text.length + 1) m.text m.text.length).result =
        (multipartLoop (parseMailRec mimeType2ext (k + 1)) (delimiterOf m.boundary) fuel true m.text
          m.text.length []).result.map fun parts => parts.map (MsgTree.multipart m.header) := by
  have hread : m.readDelimiter = delimiterOf m.boundary := by
    rw [readDelimiter_of_single hsingle, List.take_of_length_le (by omega)]
  obtain ⟨k, hk⟩ : ∃ k, m.text.length = k + 1 := by
    rcases m.text_eq with ⟨rest, hrest⟩
    exact ⟨m.headerLines.length + rest.length, by rw [hrest, List.length_append, List.length_cons]; omega⟩
  have hcount := length_parts_le m.boundary m.epilogue m.parts
  have hlen : (partsText m.boundary m.epilogue m.parts).length ≤ m.text.length := by
    rw [text, List.length_append]
    omega
  refine ⟨k, m.text.length + 1, by omega, ?_⟩
  rw [parseMailRec_text m hheader, hread, ← hk]

/-- The parts are found, the last one first. -/
theorem parseMailRec_mail (hheader : ShortHeader m.header) (hfits : ∀ p ∈ m.parts, p.Fits)
    (hshort : m.boundary.length < MAX_BOUNDARY_LENGTH)
    (hsingle : ¬ [32, 32] <:+: m.boundary) (hlead : ¬ delimiterOf m.boundary <:+: m.lead)
    (hnul : (0 : UInt8) ∉ m.text) :
    (parseMailRec mimeType2ext (m.text.length + 1) m.text m.text.length).result =
      .ok (.ok (.multipart m.header (m.parts.map (MailPart.tree mimeType2ext)).reverse)) := by
  rcases @parseMailRec_loop m _ mimeType2ext hheader hshort hsingle with ⟨k, fuel, hfuel, hloop⟩
  have hparts : (multipartLoop (parseMailRec mimeType2ext (k + 1)) (delimiterOf m.boundary) fuel true
      m.text m.text.length []).result = .ok (.ok ((m.parts.map (MailPart.tree mimeType2ext)).reverse ++ [])) :=
    multipartLoop_parts m.newline_not_mem_boundary m.parts m.free hfits fuel k hfuel hlead hnul rfl
  rw [hloop, hparts, List.append_nil]
  rfl

/-- A part that overruns a buffer ends the process. -/
theorem parseMailRec_overrun (hheader : ShortHeader m.header) (hover : ¬ ∀ p ∈ m.parts, p.Fits)
    (hshort : m.boundary.length < MAX_BOUNDARY_LENGTH)
    (hsingle : ¬ [32, 32] <:+: m.boundary) (hlead : ¬ delimiterOf m.boundary <:+: m.lead)
    (hnul : (0 : UInt8) ∉ m.text) :
    (parseMailRec mimeType2ext (m.text.length + 1) m.text m.text.length).result = .error .overrun := by
  rcases @parseMailRec_loop m _ mimeType2ext hheader hshort hsingle with ⟨k, fuel, hfuel, hloop⟩
  have hparts : (multipartLoop (parseMailRec mimeType2ext (k + 1)) (delimiterOf m.boundary) fuel true
      m.text m.text.length []).result = .error .overrun :=
    multipartLoop_overrun m.newline_not_mem_boundary m.parts m.free hover fuel k hfuel hlead hnul rfl
  rw [hloop, hparts]
  rfl

/-- A NUL stops the search. -/
theorem parseMailRec_nul (hheader : ShortHeader m.header) (hnul : (0 : UInt8) ∈ m.text) :
    (parseMailRec mimeType2ext (m.text.length + 1) m.text m.text.length).result = .error .strnstr := by
  have hlen := length_cstr_lt hnul
  have hstop : strnstr m.text m.readDelimiter m.text.length = .error .strnstr := by
    rw [strnstr, if_neg (by omega)]
  rw [parseMailRec_text m hheader, multipartLoop, hstop]
  rfl

/-- Without its delimiter, the message is an error. -/
theorem parseMailRec_none (hheader : ShortHeader m.header) (hnul : (0 : UInt8) ∉ m.text)
    (hnone : ¬ m.readDelimiter <:+: m.text) :
    ∃ e, (parseMailRec mimeType2ext (m.text.length + 1) m.text m.text.length).result = .ok (.error e) := by
  have hne : m.readDelimiter ≠ [] := by
    intro h
    cases h
  have hstop : strnstr m.text m.readDelimiter m.text.length = .ok none := by
    rw [strnstr, cstr_of_not_mem hnul, if_pos le_rfl, List.take_length, findInfix_eq_none hne hnone]
  rw [parseMailRec_text m hheader, multipartLoop, hstop]
  exact ⟨_, rfl⟩

end Parse

/-- The delimiter of a boundary with two blanks in a row is not the one that is read. -/
theorem not_readDelimiter_prefix (hdouble : [32, 32] <:+: m.boundary) (z : Bytes) :
    ¬ m.readDelimiter <+: delimiterOf m.boundary ++ z := by
  have hsp : ∀ c ∈ m.boundary, isspace c = true → c = 32 := fun c hc => (isBchar_spec c (m.isBoundary.chars c hc)).1
  have hlast : ∃ b' c, m.boundary = b' ++ [c] ∧ isspace c = false := by
    rcases m.isBoundary.last with ⟨b', c, hb, hc⟩
    refine ⟨b', c, hb, ?_⟩
    by_contra hspace
    exact hc (hsp c (by simp [hb]) (by simpa using hspace))
  rcases squeeze_of_double (by decide) hsp hlast hdouble with ⟨w, c, u, v, hc, hu, hb, hsq⟩
  have hlen := m.isBoundary.length_le
  have hpos := List.length_pos_iff.2 hu
  have hmax : MAX_BOUNDARY_LENGTH = 70 := rfl
  rw [hb] at hlen
  simp only [List.length_append, List.length_cons] at hlen
  -- the characters that differ are among those that fit
  have htake : (squeeze isspace 32 false m.boundary).take (MAX_BOUNDARY_LENGTH - 1) =
      w ++ 32 :: c :: v.take (MAX_BOUNDARY_LENGTH - 1 - (w.length + 2)) := by
    have hsplit : w ++ 32 :: c :: v = (w ++ [32, c]) ++ v := by simp
    rw [hsq, hsplit, List.take_append, List.take_of_length_le (by simp; omega)]
    simp
  intro hpfx
  rw [readDelimiter, htake, delimiterOf, hb, List.append_assoc, List.prefix_append_right_inj, List.append_assoc,
    List.prefix_append_right_inj] at hpfx
  have hc32 := (List.cons_prefix_cons.1 (List.cons_prefix_cons.1 hpfx).2).1
  rw [hc32] at hc
  cases hc

/-- Its end of line is its first character only. -/
theorem readDelimiter_eq (m : MultipartMail) : ∃ w, m.readDelimiter = 10 :: w ∧ (10 : UInt8) ∉ w := by
  refine ⟨_, rfl, fun h => ?_⟩
  rcases List.mem_cons.1 h with h | h
  · cases h
  · rcases List.mem_cons.1 h with h | h
    · cases h
    · exact (isBchar_spec 10 (m.isBchar_of_mem_squeeze (List.mem_of_mem_take h))).2.2.2.2 rfl

/-- A text with an end of line, where the delimiter is neither before it nor in the line that starts there. -/
theorem not_infix_line {line x y : Bytes} (hline : (10 : UInt8) ∉ line) (hx : ¬ m.readDelimiter <:+: x)
    (hpfx : ¬ m.readDelimiter <+: 10 :: (line ++ 10 :: y)) (hy : ¬ m.readDelimiter <:+: 10 :: y) :
    ¬ m.readDelimiter <:+: x ++ 10 :: (line ++ 10 :: y) := by
  rcases m.readDelimiter_eq with ⟨w, hw, hnew⟩
  rw [hw] at hx hpfx hy ⊢
  intro hinfix
  rcases infix_append_of_head hnew hinfix with h | h
  · exact hx h
  · rcases List.infix_cons_iff.1 h with h | h
    · exact hpfx h
    · rcases infix_append_of_head hnew h with h | h
      · exact hline (h.subset List.mem_cons_self)
      · exact hy h

/-- It is not in the message at all, unless by accident. -/
theorem not_readDelimiter_infix (hdouble : [32, 32] <:+: m.boundary) {epilogue : Bytes}
    (hepilogue : ¬ m.readDelimiter <:+: 10 :: epilogue) (ps : List MailPart)
    (hparts : ∀ p ∈ ps, ¬ m.readDelimiter <:+: 10 :: p.text) {x : Bytes} (hx : ¬ m.readDelimiter <:+: x) :
    ¬ m.readDelimiter <:+: x ++ partsText m.boundary epilogue ps := by
  have hline : (10 : UInt8) ∉ 45 :: 45 :: m.boundary := by simpa using m.newline_not_mem_boundary
  induction ps generalizing x with
  | nil =>
      have hlast : (10 : UInt8) ∉ 45 :: 45 :: (m.boundary ++ [45, 45]) := by simpa using m.newline_not_mem_boundary
      have htext : partsText m.boundary epilogue [] = 10 :: ((45 :: 45 :: (m.boundary ++ [45, 45])) ++ 10 :: epilogue) := by
        simp [partsText, delimiterOf, ascii, charByte]
      have hpfx := not_readDelimiter_prefix hdouble (ascii "--\n" ++ epilogue)
      rw [htext]
      refine not_infix_line hlast hx ?_ hepilogue
      rw [← htext]
      exact hpfx
  | cons p ps ih =>
      have htext : partsText m.boundary epilogue (p :: ps) =
          10 :: ((45 :: 45 :: m.boundary) ++ 10 :: (p.text ++ partsText m.boundary epilogue ps)) := by
        simp [partsText, delimiterOf, ascii, charByte]
      have hpfx := not_readDelimiter_prefix hdouble
        (ascii "\n" ++ (p.text ++ partsText m.boundary epilogue ps))
      rw [htext]
      refine not_infix_line hline hx ?_ ?_
      · rw [← htext]
        exact hpfx
      · exact ih (fun q hq => hparts q (List.mem_cons_of_mem _ hq)) (hparts p List.mem_cons_self)

/-- A character of a boundary, between the delimiter and the end of its line. -/
theorem lineAfterBoundary_char {c : UInt8} (hc : isBchar c = true) (hspace : c ≠ 32) (rest : Bytes) :
    (lineAfterBoundary (c :: 10 :: rest)).2 = none ∧ (lineAfterBoundary (c :: 45 :: 45 :: 10 :: rest)).2 = none := by
  have hspec := isBchar_spec c hc
  have hblank : isblank c = false := by
    by_contra hblank
    exact hspace (hspec.1 (isspace_of_isblank (by simpa using hblank)))
  have hstop : ∀ s, skipNewline ((c :: s).dropWhile isblank) = none := by
    intro s
    rw [List.dropWhile_cons_of_neg (by simp [hblank]), skipNewline, if_neg hspec.2.2.2.2]
  by_cases hdash : c = 45
  · subst hdash
    exact ⟨rfl, rfl⟩
  · have hpfx : ∀ s, (ascii "--").isPrefixOf (c :: s) = false := by
      intro s
      have hne : ((45 : UInt8) == c) = false := by simpa using Ne.symm hdash
      simp [ascii, charByte, List.isPrefixOf, hne]
    constructor <;> simp only [lineAfterBoundary, hpfx, Bool.false_eq_true, if_false, hstop]

section Parse

variable [Host] {mimeType2ext : Bytes → Option Bytes}

/-- A boundary of 70 characters is cut, and its delimiter line is badly formatted. -/
theorem parseMailRec_cut (hheader : ShortHeader m.header) (hlong : m.boundary.length = MAX_BOUNDARY_LENGTH)
    (hsingle : ¬ [32, 32] <:+: m.boundary) (hnul : (0 : UInt8) ∉ m.text) (hlead : ¬ m.readDelimiter <:+: m.lead) :
    ∃ e, (parseMailRec mimeType2ext (m.text.length + 1) m.text m.text.length).result = .ok (.error e) := by
  rcases m.isBoundary.last with ⟨b, c, hb, hspace⟩
  have hc : isBchar c = true := m.isBoundary.chars c (by simp [hb])
  have hblen : b.length = MAX_BOUNDARY_LENGTH - 1 := by
    rw [hb, List.length_append, List.length_singleton] at hlong
    omega
  have hread : m.readDelimiter = delimiterOf b := by
    rw [readDelimiter_of_single hsingle, hb, List.take_append_of_le_length hblen.ge, List.take_of_length_le hblen.le]
  have hnew : (10 : UInt8) ∉ b := fun h => m.newline_not_mem_boundary (by simp [hb, h])
  -- the text after the delimiter that is read
  have hrest : ∃ y, m.text = m.lead ++ (delimiterOf b ++ y) ∧ (lineAfterBoundary y).2 = none := by
    rw [text]
    cases m.parts with
    | nil =>
        refine ⟨c :: 45 :: 45 :: 10 :: m.epilogue, ?_, (lineAfterBoundary_char hc hspace _).2⟩
        simp [partsText, delimiterOf, hb, ascii, charByte]
    | cons p ps =>
        refine ⟨c :: 10 :: (p.text ++ partsText m.boundary m.epilogue ps), ?_, (lineAfterBoundary_char hc hspace _).1⟩
        simp [partsText, delimiterOf, hb, ascii, charByte]
  rcases hrest with ⟨y, hy, hline⟩
  have hbefore : (partBefore (parseMailRec mimeType2ext m.text.length) true m.text m.lead.length []).result =
      .ok (.ok []) := rfl
  rw [parseMailRec_text m hheader, hread]
  rw [hread] at hlead
  rw [hy] at hnul hbefore ⊢
  rw [multipartLoop_step _ hnew hlead hnul hbefore]
  rcases hafter : lineAfterBoundary y with ⟨last, rest⟩
  rw [hafter] at hline
  cases hline
  exact ⟨_, rfl⟩

end Parse

/-! ## Faithful splitting -/

theorem tree_injective (mimeType2ext : Bytes → Option Bytes) : Function.Injective (MailPart.tree mimeType2ext) := by
  intro p q h
  cases p
  cases q
  simp only [MailPart.tree, MsgTree.file.injEq] at h
  rcases h with ⟨rfl, -, rfl⟩
  rfl

/-- The parts are found in their order, if and only if they read the same backwards. -/
theorem faithful_iff_palindrome (hheader : ShortHeader m.header) (hfits : ∀ p ∈ m.parts, p.Fits)
    (hshort : m.boundary.length < MAX_BOUNDARY_LENGTH)
    (hsingle : ¬ [32, 32] <:+: m.boundary) (hlead : ¬ delimiterOf m.boundary <:+: m.lead)
    (hnul : (0 : UInt8) ∉ m.text) : m.Faithful ↔ m.parts.reverse = m.parts := by
  have hmail : ∀ (host : Host) (mimeType2ext : Bytes → Option Bytes), _ := fun host mimeType2ext =>
    @parseMailRec_mail m host mimeType2ext hheader hfits hshort hsingle hlead hnul
  constructor
  · intro hfaithful
    have hresult := (hmail plainHost fun _ => none).symm.trans (hfaithful plainHost fun _ => none)
    simp only [Except.ok.injEq, MsgTree.multipart.injEq, true_and] at hresult
    rw [← List.map_reverse] at hresult
    exact (List.map_injective_iff.2 (tree_injective _)) hresult
  · intro hreverse host mimeType2ext
    rw [hmail, ← List.map_reverse, hreverse]
    rfl

/-- The messages of which the parts are found. -/
theorem multipart_split_iff (m : MultipartMail) :
    (m.Splits → m.Faithful) ∧ (m.NoStray → (m.Faithful ↔ m.Splits)) := by
  have hsplits : m.Splits → m.Faithful := fun h =>
    (faithful_iff_palindrome h.header_short h.parts_fit h.short h.single h.lead_free h.no_nul).2 h.palindrome
  refine ⟨hsplits, fun hstray => ⟨fun hfaithful => ?_, hsplits⟩⟩
  have hresult := hfaithful plainHost fun _ => none
  -- where one of the conditions fails, another tree is read or none: one lemma for each
  have hheader : ShortHeader m.header := by
    by_contra hlong
    rw [@parseMailRec_long m plainHost _ hlong] at hresult
    cases hresult
  have hnul : (0 : UInt8) ∉ m.text := by
    intro h0
    rw [@parseMailRec_nul m plainHost _ hheader h0] at hresult
    cases hresult
  have hsingle : ¬ [32, 32] <:+: m.boundary := by
    intro hdouble
    have hnone : ¬ m.readDelimiter <:+: m.text :=
      not_readDelimiter_infix hdouble hstray.epilogue_free m.parts hstray.parts_free hstray.lead_free
    rcases @parseMailRec_none m plainHost (fun _ => none) hheader hnul hnone with ⟨e, he⟩
    rw [he] at hresult
    cases hresult
  have hshort : m.boundary.length < MAX_BOUNDARY_LENGTH := by
    refine Nat.lt_of_le_of_ne m.isBoundary.length_le fun hlong => ?_
    rcases @parseMailRec_cut m plainHost (fun _ => none) hheader hlong hsingle hnul hstray.lead_free with ⟨e, he⟩
    rw [he] at hresult
    cases hresult
  have hlead : ¬ delimiterOf m.boundary <:+: m.lead := by
    have hread : m.readDelimiter = delimiterOf m.boundary := by
      rw [readDelimiter_of_single hsingle, List.take_of_length_le (by omega)]
    rw [← hread]
    exact hstray.lead_free
  have hfits : ∀ p ∈ m.parts, p.Fits := by
    by_contra hover
    rw [@parseMailRec_overrun m plainHost _ hheader hover hshort hsingle hlead hnul] at hresult
    cases hresult
  have hpalindrome := (faithful_iff_palindrome hheader hfits hshort hsingle hlead hnul).1 hfaithful
  exact ⟨hheader, hfits, hshort, hsingle, hlead, hnul, hpalindrome⟩

/-- A part with a subject. -/
def subjectPart (subject body : Bytes) (hsubject : CleanText subject) : MailPart where
  header := [⟨ascii "subject", subject⟩]
  body := body
  canonical := by
    have hname : CleanText (ascii "subject") ∧ (ascii "subject").map tolower = ascii "subject" ∧
        (58 : UInt8) ∉ ascii "subject" := by decide
    intro hf hhf
    rw [List.mem_singleton.1 hhf]
    exact ⟨hname.1, hname.2.1, hname.2.2, hsubject⟩
  plain := rfl
  single := fun _ h => nomatch h

/-- A message with some parts, in the boundary of the example of the repository. -/
def subjectMail (parts : List MailPart) (hfree : ∀ p ∈ parts, ¬ delimiterOf (ascii "gKMricLos+KVdGMg") <:+: p.text) :
    MultipartMail where
  before := [⟨ascii "from", ascii "a@b"⟩]
  after := []
  subtype := ascii "mixed"
  boundary := ascii "gKMricLos+KVdGMg"
  preamble := some (ascii "preamble")
  parts := parts
  epilogue := []
  before_canonical := by
    intro hf hhf
    rw [List.mem_singleton.1 hhf]
    exact ⟨by decide, by decide, by decide, by decide⟩
  after_canonical := fun _ h => nomatch h
  before_type := rfl
  subtype_chars := by decide +kernel
  isBoundary := ⟨by decide +kernel, by decide +kernel, ascii "gKMricLos+KVdGM", 103, by decide +kernel, by decide +kernel⟩
  free := hfree

theorem multipart_split_iff_sample :
    let p := subjectPart (ascii "one") (ascii "body\n") (by decide)
    let m := subjectMail [p] (by decide)
    m.NoStray ∧ m.Splits ∧ m.Faithful := by
  intro p m
  have hstray : m.NoStray := ⟨by decide +kernel, by decide +kernel, by decide +kernel⟩
  have hfits : p.Fits := ⟨by decide +kernel, by decide⟩
  have hsplits : m.Splits := ⟨by decide +kernel, List.forall_mem_singleton.2 hfits, by decide +kernel,
    by decide +kernel, by decide +kernel, by decide +kernel, rfl⟩
  exact ⟨hstray, hsplits, ((multipart_split_iff m).2 hstray).2 hsplits⟩

/-- The body of the part that comes first. -/
def firstBody (run : MailRun MsgTree) : Bytes :=
  match run.result with
  | .ok (.ok (.multipart _ (.file _ _ body :: _))) => body
  | _ => []

/-- Two parts come out in the other order. -/
theorem not_multipart_split : ¬ ∀ m : MultipartMail, m.Faithful := by
  intro h
  let p := subjectPart (ascii "one") (ascii "1") (by decide)
  let q := subjectPart (ascii "two") (ascii "2") (by decide)
  let m := subjectMail [p, q] (by decide)
  have hfirst : firstBody (@parseMailRec plainHost (fun _ => none) (m.text.length + 1) m.text m.text.length) =
      ascii "2" := by decide +kernel
  rw [firstBody, h m plainHost fun _ => none] at hfirst
  exact absurd hfirst (by decide)

end MultipartMail

end Scambio
