import Scambio.Sendmail.Forwarder
import Scambio.Smtpd.Base64
import Scambio.Smtpd.MailLines

/-!
# SendFile — a file in base64, from the forwarder to smtpd (`sendmail/forwarder.c`, `smtpd/parse.c`)

* `sendFile`              : what `send_file` writes, with its ends of line;
* `sendFile_lines`        : what is written is lines that smtpd can read;
* `decodeBase64_sendFile` : the file is decoded from them.
-/

namespace Scambio

open Library

/-- The table `b64` of `send_file`. -/
def sendB64 : Bytes :=
  ascii "ABCDEFGHIJKLMNOPQRSTUVWXYZabcdefghijklmnopqrstuvwxyz0123456789+/"

def sendChar (i : UInt8) : UInt8 :=
  sendB64.getD i.toNat 0

/-- `outbuf`, when `len` bytes of `inbuf` were read; the others are zero. -/
def outbuf (inbuf₀ inbuf₁ inbuf₂ : UInt8) (len : Nat) : Bytes :=
  [sendChar (inbuf₀ >>> 2),
    sendChar (((inbuf₀ &&& 3) <<< 4) ||| (inbuf₁ >>> 4)),
    if 1 < len then sendChar (((inbuf₁ &&& 15) <<< 2) ||| (inbuf₂ >>> 6)) else 61,
    if len = 3 then sendChar (inbuf₂ &&& 63) else 61]

/-- What is written for a group: an end of line, if the line is full, and four characters. -/
def sendGroup (width : Nat) (group : Bytes) : Bytes :=
  (if 76 ≤ width + 4 then ascii "\r\n" else []) ++ group

def nextWidth (width : Nat) : Nat :=
  if 76 ≤ width + 4 then 0 else width + 4

/-- The loop of `send_file`, on what remains of the file. -/
def sendFileLoop : Nat → Bytes → Bytes
  | width, a :: b :: c :: rest => sendGroup width (outbuf a b c 3) ++ sendFileLoop (nextWidth width) rest
  -- the last bytes of the file
  | width, [a, b] => sendGroup width (outbuf a b 0 2)
  | width, [a] => sendGroup width (outbuf a 0 0 1)
  | _, [] => []

def sendFile (content : Bytes) : Bytes :=
  sendFileLoop 0 content

/-! ## Characters -/

theorem base64Sextet_sendB64 : ∀ k : Fin 64, base64Sextet (sendB64.getD k.val 0) = some (some k) := by
  decide +kernel

theorem base64Sextet_sendChar {i : UInt8} {n : Nat} (h : n % 64 = i.toNat) :
    base64Sextet (sendChar i) = some (sextet n) := by
  rw [sendChar, ← h]
  exact base64Sextet_sendB64 (Fin.ofNat 64 n)

theorem toNat_low (x : UInt8) : (x &&& 3).toNat = x.toNat % 4 ∧ (x &&& 15).toNat = x.toNat % 16 ∧
    (x &&& 63).toNat = x.toNat % 64 := by
  rw [UInt8.toNat_and, UInt8.toNat_and, UInt8.toNat_and]
  exact ⟨Nat.and_two_pow_sub_one_eq_mod x.toNat 2, Nat.and_two_pow_sub_one_eq_mod x.toNat 4,
    Nat.and_two_pow_sub_one_eq_mod x.toNat 6⟩

/-- The four indexes of a group are the digits of the number that its bytes make. -/
theorem outbuf_indexes (a b c : UInt8) :
    (((a.toNat * 256 + b.toNat) * 256 + c.toNat) / 262144) % 64 = (a >>> 2).toNat ∧
    (((a.toNat * 256 + b.toNat) * 256 + c.toNat) / 4096) % 64 = (((a &&& 3) <<< 4) ||| (b >>> 4)).toNat ∧
    (((a.toNat * 256 + b.toNat) * 256 + c.toNat) / 64) % 64 = (((b &&& 15) <<< 2) ||| (c >>> 6)).toNat ∧
    ((a.toNat * 256 + b.toNat) * 256 + c.toNat) % 64 = (c &&& 63).toNat := by
  have ha := a.toNat_lt
  have hb := b.toNat_lt
  have hc := c.toNat_lt
  refine ⟨?_, ?_, ?_, ?_⟩
  · rw [toNat_shiftRight (by decide)]
    simp only [UInt8.reduceToNat]
    omega
  · rw [toNat_joined (by decide) (by decide), (toNat_low a).1]
    · simp only [UInt8.reduceToNat]
      omega
    · simp only [UInt8.reduceToNat]
      omega
  · rw [toNat_joined (by decide) (by decide), (toNat_low b).2.1]
    · simp only [UInt8.reduceToNat]
      omega
    · simp only [UInt8.reduceToNat]
      omega
  · rw [(toNat_low c).2.2]
    omega

/-- The characters of a group. -/
theorem outbuf_map (a b c : UInt8) (len : Nat) :
    (outbuf a b c len).map base64Sextet =
      let n := (a.toNat * 256 + b.toNat) * 256 + c.toNat
      List.map some [sextet (n / 262144), sextet (n / 4096), if 1 < len then sextet (n / 64) else none,
        if len = 3 then sextet n else none] := by
  rcases outbuf_indexes a b c with ⟨hfirst, hsecond, hthird, hfourth⟩
  simp only [outbuf, List.map_cons, List.map_nil, base64Sextet_sendChar hfirst, base64Sextet_sendChar hsecond]
  congr 3
  · split
    · exact base64Sextet_sendChar hthird
    · rfl
  · congr 1
    split
    · exact base64Sextet_sendChar hfourth
    · rfl

theorem base64Sextets_append (s t : Bytes) : base64Sextets (s ++ t) = base64Sextets s ++ base64Sextets t :=
  List.filterMap_append

theorem base64Sextets_of_map {s : Bytes} {l : List Sextet} (h : s.map base64Sextet = l.map some) :
    base64Sextets s = l := by
  calc
    base64Sextets s = (s.map base64Sextet).filterMap id := by
      rw [List.filterMap_map]
      rfl
    _ = l := by
      rw [h, List.filterMap_map]
      exact List.filterMap_some

theorem isBase64_of_map {s : Bytes} {l : List Sextet} (h : s.map base64Sextet = l.map some) {c : UInt8}
    (hc : c ∈ s) : isBase64 c = true := by
  have hmem : base64Sextet c ∈ l.map some := h ▸ List.mem_map_of_mem hc
  obtain ⟨x, _, hx⟩ := List.mem_map.1 hmem
  rw [isBase64, ← hx]
  rfl

/-- Ends of line are skipped. -/
theorem base64Sextets_sendGroup (width : Nat) (group : Bytes) :
    base64Sextets (sendGroup width group) = base64Sextets group := by
  rw [sendGroup]
  split
  · rw [base64Sextets_append, show base64Sextets (ascii "\r\n") = [] by decide, List.nil_append]
  · rw [List.nil_append]

/-- The characters of the whole are the groups of the file. -/
theorem base64Sextets_sendFileLoop (width : Nat) (content : Bytes) :
    base64Sextets (sendFileLoop width content) = encodeQuads content := by
  fun_induction sendFileLoop width content with
  | case1 width a b c rest ih =>
      rw [base64Sextets_append, base64Sextets_sendGroup, ih, base64Sextets_of_map (outbuf_map a b c 3)]
      rfl
  | case2 width a b =>
      have hzero : (a.toNat * 256 + b.toNat) * 256 + (0 : UInt8).toNat = (a.toNat * 256 + b.toNat) * 256 :=
        Nat.add_zero _
      rw [base64Sextets_sendGroup, base64Sextets_of_map (outbuf_map a b 0 2), hzero]
      simp [encodeQuads]
  | case3 width a =>
      have hzero : (a.toNat * 256 + (0 : UInt8).toNat) * 256 + (0 : UInt8).toNat = a.toNat * 65536 := by
        simp only [UInt8.reduceToNat]
        omega
      rw [base64Sextets_sendGroup, base64Sextets_of_map (outbuf_map a 0 0 1), hzero]
      simp [encodeQuads]
  | case4 => rfl

/-! ## Lines -/

/-- A line of an encoding: it is not full yet, and nothing in it stands for something else. -/
structure Base64Line (l : Bytes) : Prop where
  chars : ∀ c ∈ l, isBase64 c = true
  fits : l.length + 1 < MAX_MAILLINE_LENGTH

theorem ne_of_isBase64 {c d : UInt8} (h : isBase64 c = true) (hd : isBase64 d = false) : c ≠ d := by
  rintro rfl
  rw [h] at hd
  cases hd

theorem Base64Line.not_mem {l : Bytes} (h : Base64Line l) {d : UInt8} (hd : isBase64 d = false) : d ∉ l :=
  fun hmem => ne_of_isBase64 (h.chars d hmem) hd rfl

theorem Base64Line.textLine {l : Bytes} (h : Base64Line l) : TextLine l := by
  have hhead : ∀ d, isBase64 d = false → l.head? ≠ some d := by
    intro d hd heq
    exact h.not_mem hd (List.mem_of_mem_head? heq)
  have heol : ∀ c, isBase64 c = true → iseol c = false ∧ c ≠ 0 := forall_byte (by decide +kernel)
  have hfits := h.fits
  exact ⟨⟨fun c hc => heol c (h.chars c hc), hhead 46 (by decide), by omega⟩, hhead 45 (by decide)⟩

theorem isBase64_outbuf (a b c : UInt8) (len : Nat) : ∀ x ∈ outbuf a b c len, isBase64 x = true :=
  fun _ hx => isBase64_of_map (outbuf_map a b c len) hx

/-- A group goes on with the line, or begins one. -/
theorem sendGroup_lines {width : Nat} (hwidth : width ≤ 76) {group l : Bytes} {lines : List Bytes}
    (hlen : group.length = 4) (hgroup : ∀ x ∈ group, isBase64 x = true)
    (hl : l.length + nextWidth width ≤ 76) (hlines : ∀ x ∈ l :: lines, Base64Line x) :
    ∃ l' lines', sendGroup width group ++ crlfLines (l :: lines) =
        crlfLines (l' :: lines') ∧
      l'.length + width ≤ 76 ∧ ∀ x ∈ l' :: lines', Base64Line x := by
  have hline : Base64Line (group ++ l) := by
    constructor
    · intro c hc
      exact (List.mem_append.1 hc).elim (hgroup c) ((hlines l List.mem_cons_self).chars c)
    · rw [List.length_append, MAX_MAILLINE_LENGTH]
      omega
  have hothers : ∀ x ∈ lines, Base64Line x := fun x hx => hlines x (List.mem_cons_of_mem _ hx)
  unfold nextWidth at hl
  unfold sendGroup
  split
  · -- the line before ends here
    refine ⟨[], (group ++ l) :: lines, ?_, ?_, ?_⟩
    · simp
    · simpa using hwidth
    · intro x hx
      rcases List.mem_cons.1 hx with rfl | hx
      · exact ⟨nofun, by decide⟩
      · exact (List.mem_cons.1 hx).elim (· ▸ hline) (hothers x)
  next hroom =>
    rw [if_neg hroom] at hl
    refine ⟨group ++ l, lines, ?_, ?_, ?_⟩
    · simp
    · rw [List.length_append]
      omega
    · intro x hx
      exact (List.mem_cons.1 hx).elim (· ▸ hline) (hothers x)

/-- What is written makes lines, the first of which goes on behind `width` characters. -/
theorem sendFileLoop_lines {width : Nat} (hwidth : width ≤ 76) (content : Bytes) :
    ∃ l lines, sendFileLoop width content ++ ascii "\r\n" = crlfLines (l :: lines) ∧
      l.length + width ≤ 76 ∧ ∀ x ∈ l :: lines, Base64Line x := by
  have hnext : ∀ width, nextWidth width ≤ 76 := by
    intro width
    unfold nextWidth
    split
    · exact Nat.zero_le _
    · omega
  -- the last group ends its line
  have hlast : ∀ width ≤ 76, ∃ l lines, ascii "\r\n" = crlfLines (l :: lines) ∧
      l.length + width ≤ 76 ∧ ∀ x ∈ l :: lines, Base64Line x := by
    intro width hwidth
    refine ⟨[], [], rfl, by simpa using hwidth, ?_⟩
    intro x hx
    rw [List.mem_singleton.1 hx]
    exact ⟨nofun, by decide⟩
  fun_induction sendFileLoop width content with
  | case1 width a b c rest ih =>
      rcases ih (hnext width) with ⟨l, lines, htext, hl, hlines⟩
      rw [List.append_assoc, htext]
      exact sendGroup_lines hwidth rfl (isBase64_outbuf a b c 3) hl hlines
  | case2 width a b =>
      rcases hlast (nextWidth width) (hnext width) with ⟨l, lines, htext, hl, hlines⟩
      rw [htext]
      exact sendGroup_lines hwidth rfl (isBase64_outbuf a b 0 2) hl hlines
  | case3 width a =>
      rcases hlast (nextWidth width) (hnext width) with ⟨l, lines, htext, hl, hlines⟩
      rw [htext]
      exact sendGroup_lines hwidth rfl (isBase64_outbuf a 0 0 1) hl hlines
  | case4 width => exact hlast width hwidth

/-! ## Round trip -/

/-- A text without braces that holds the groups of a file is decoded to it. -/
theorem decodeBase64_eq {s content : Bytes} (hbrace : (123 : UInt8) ∉ s) (h : base64Sextets s = encodeQuads content) :
    decodeBase64 s = .ok (.ok content) := by
  have hpadded := wellPadded_encodeQuads content
  rw [← soundPart_eq_iff] at hpadded
  have htrace := base64Trace_eq hbrace .start
  rw [h] at htrace
  have hnone : paddingError Waiting.start.pads (encodeQuads content) = none := paddingError_eq_none.2 hpadded
  have hstart : Waiting.start.sextets ++ soundPart Waiting.start.pads (encodeQuads content) = encodeQuads content :=
    hpadded
  rw [hnone, hstart, decodeQuads_encodeQuads] at htrace
  rw [decodeBase64, decodeBase64Loop_eq, show (⟨[], 0⟩ : Base64State) = Waiting.start.state from rfl, htrace]
  rfl

/-- A file is sent in lines. -/
theorem sendFile_lines (content : Bytes) :
    ∃ lines, (∀ l ∈ lines, Base64Line l) ∧ sendFile content ++ ascii "\r\n" = crlfLines lines ∧
      (sendFile content).filter (· != 13) ++ [10] = lfLines lines := by
  rcases sendFileLoop_lines (Nat.zero_le 76) content with ⟨l, lines, htext, -, hlines⟩
  refine ⟨l :: lines, hlines, htext, ?_⟩
  calc
    (sendFile content).filter (· != 13) ++ [10] = (sendFile content ++ ascii "\r\n").filter (· != 13) := by
      rw [List.filter_append]
      rfl
    _ = lfLines (l :: lines) := by
      rw [sendFile, htext]
      exact filter_crlfLines fun x hx => (hlines x hx).textLine.toMailLine

/-- A line has digits only, and no brace to read behind the table. -/
theorem brace_not_mem_sendFile (content : Bytes) : (123 : UInt8) ∉ (sendFile content).filter (· != 13) ++ [10] := by
  rcases sendFile_lines content with ⟨lines, hlines, -, htext⟩
  rw [htext]
  intro hmem
  rcases List.mem_flatten.1 hmem with ⟨x, hx, hmem⟩
  rcases List.mem_map.1 hx with ⟨l, hl, rfl⟩
  rcases List.mem_append.1 hmem with hmem | hmem
  · exact (hlines l hl).not_mem (by decide) hmem
  · exact absurd hmem (by decide)

theorem base64Sextets_sendFile (content : Bytes) :
    base64Sextets ((sendFile content).filter (· != 13)) = encodeQuads content := by
  have hreturn : ∀ c : UInt8, (c != 13) = false → base64Sextet c = none := by
    intro c hc
    rw [bne_eq_false_iff_eq.1 hc]
    rfl
  rw [base64Sextets_filter hreturn, sendFile, base64Sextets_sendFileLoop]

/-- The text that is sent for a file is decoded to it. -/
theorem decodeBase64_sent (content : Bytes) :
    decodeBase64 ((sendFile content).filter (· != 13)) = .ok (.ok content) :=
  decodeBase64_eq (fun hmem => brace_not_mem_sendFile content (List.mem_append_left _ hmem))
    (base64Sextets_sendFile content)

end Scambio
