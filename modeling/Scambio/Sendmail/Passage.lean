import Scambio.Sendmail.SendFile
import Scambio.Sendmail.Wire
import Scambio.Smtpd.Folded

/-!
# Passage — a mail from the forwarder to the mail server (`sendmail/forwarder.c`, `smtpd/parse.c`)

A forward is written line by line and its files in base64, and the server makes a tree of what it reads.

* `forwardHeader`, `Part.header` : the headers as the server has them;
* `Mailable`                    : the forwards that are written as they are;
* `mail_passage`                : the tree of such a forward, with the contents of all its files.
-/

namespace Scambio

open Library

/-! ## Headers -/

/-- The fields of a part, as they stand in the message. -/
def Part.rawHeader (part : Part) : Header :=
  ⟨ascii "Content-Transfer-Encoding", ascii "base64"⟩ ::
    match part.type with
    | none => []
    | some type =>
        [⟨ascii "Content-Type", type ++ 59 ::
          part.name.elim [] fun name => 10 :: 9 :: (ascii "name=" ++ 34 :: (name ++ [34]))⟩]

/-- The fields of a part once they are read. -/
def Part.header (part : Part) : Header :=
  ⟨ascii "content-transfer-encoding", ascii "base64"⟩ ::
    match part.type with
    | none => []
    | some type =>
        [⟨ascii "content-type", type ++ 59 ::
          part.name.elim [] fun name => 32 :: (ascii "name=" ++ 34 :: (name ++ [34]))⟩]

def messageId (hostname : Bytes) (fwd : Forward) : Bytes :=
  ascii "<" ++ mdirVersion2str fwd.version ++ ascii "@" ++ hostname ++ ascii ">"

/-- The fields of the message, given their names and what stands between two recipients. -/
def headerWith (name : String → Bytes) (sep hostname : Bytes) (fwd : Forward) : Header :=
  ⟨name "From", fwd.sender⟩ ::
    ((if fwd.dests = [] then [] else [⟨name "To", sep.intercalate fwd.dests⟩]) ++
      ([⟨name "Subject", fwd.descr⟩, ⟨name "Message-Id", messageId hostname fwd⟩] ++
        ((fwd.extid.map fun extid => (⟨name "In-Reply-To", extid⟩ : HeaderField)).toList ++
          [⟨name "Mime-Version", ascii "1.0"⟩,
            ⟨name "Content-Type", ascii "multipart/mixed; boundary=" ++ mimeBoundary⟩])))

def rawForwardHeader (hostname : Bytes) (fwd : Forward) : Header :=
  headerWith ascii (ascii "\n , ") hostname fwd

def forwardHeader (hostname : Bytes) (fwd : Forward) : Header :=
  headerWith (fun name => (ascii name).map tolower) (ascii " , ") hostname fwd

/-- The lone dot, which is sent as a command. -/
def dot : Sending := .command .dot [ascii "."]

/-- What becomes of a part. -/
def Part.tree (mimeType2ext contentOf : Bytes → Option Bytes) (part : Part) : MsgTree :=
  .file part.header (buildParams mimeType2ext part.header) ((contentOf part.filename).getD [])

/-! ## Forwards that are written as they are -/

/-- What the server puts in its buffer: the lines without their returns, and the dot. -/
def mailText (contentOf : Bytes → Option Bytes) (hostname : Bytes) (fwd : Forward) : Bytes :=
  ((messageText hostname fwd ++ [dot]).flatMap (Sending.text contentOf)).filter (· != 13)

/-- A part with a compacted type and a compacted name, that is not a multipart itself; its fields have room, and its
file does not fill the last bytes of its buffer. -/
structure MailablePart (contentOf : Bytes → Option Bytes) (part : Part) : Prop where
  short : ShortHeader part.header
  room : ¬ (FILE_ROOM < ((contentOf part.filename).getD []).length ∧
    ((contentOf part.filename).getD []).length % 3 = 2)
  type : ∀ type, part.type = some type → squeeze isspace 32 true type = type ∧ (0 : UInt8) ∉ type
  name : ∀ name, part.name = some name → squeeze isspace 32 false name = name ∧ (0 : UInt8) ∉ name
  single : boundaryOf part.header = none

/-- A forward made from a header that was parsed, the lines of which can be sent, and which has room in the buffers of
the server. -/
structure Mailable (hostname : Bytes) (contentOf : Bytes → Option Bytes) (fwd : Forward) : Prop where
  sender : CleanText fwd.sender
  dests : ∀ dest ∈ fwd.dests, CleanText dest
  descr : CleanText fwd.descr
  extid : ∀ extid, fwd.extid = some extid → CleanText extid
  host : ∀ c ∈ hostname, isspace c = false ∧ c ≠ 0
  parts : ∀ part ∈ fwd.parts, MailablePart contentOf part
  writable : ∀ s ∈ messageText hostname fwd, s.Writable contentOf
  short : ShortHeader (forwardHeader hostname fwd)
  room : (mailText contentOf hostname fwd).length ≤ MAIL_ROOM

/-! ## Compaction of values -/

theorem clean_last {t : Bytes} (h : CleanText t) : ∃ w c, t = w ++ [c] ∧ isspace c = false :=
  ⟨t.dropLast, t.getLast (Clean.ne_nil h.1), (List.dropLast_append_getLast _).symm, Clean.getLast h.1 _⟩

/-- Nothing changes in a clean text, and its last character ends a word. -/
theorem squeeze_clean_append {t : Bytes} (h : CleanText t) (rest : Bytes) :
    squeeze isspace 32 true (t ++ rest) = t ++ squeeze isspace 32 false rest := by
  rcases clean_last h with ⟨w, c, rfl, hc⟩
  have hself : squeeze isspace 32 true w ++ [c] = w ++ [c] := by
    calc
      squeeze isspace 32 true w ++ [c] = squeeze isspace 32 true (w ++ [c]) := (squeeze_append_word hc w []).symm
      _ = trimEnd isspace (squeeze isspace 32 true (w ++ [c])) := by
        rw [squeeze_append_word hc w []]
        exact (trimEnd_append_word hc _).symm
      _ = w ++ [c] := compact_of_clean true _ h.1
  rw [List.append_assoc, List.singleton_append, squeeze_append_word hc, List.append_cons, hself, List.append_cons]

theorem compactField_clean {name value : Bytes} (h : CleanText value) :
    compactField ⟨name, value⟩ = ⟨name.map tolower, value⟩ := by
  rw [compactField, compact_of_clean true value h.1]

theorem intercalate_cons (sep d : Bytes) (ds : List Bytes) :
    sep.intercalate (d :: ds) = d ++ ds.flatMap (sep ++ ·) := by
  induction ds generalizing d with
  | nil => simp
  | cons e ds ih => rw [List.intercalate_cons_cons, ih, List.flatMap_cons, List.append_assoc, List.append_assoc]

/-- The recipients are put on one line. -/
theorem squeeze_dests {ds : List Bytes} (h : ∀ d ∈ ds, CleanText d) :
    squeeze isspace 32 false (ds.flatMap (ascii "\n , " ++ ·)) = ds.flatMap (ascii " , " ++ ·) := by
  induction ds with
  | nil => rfl
  | cons d ds ih =>
      have hfold : ∀ x, squeeze isspace 32 false (ascii "\n , " ++ x) = ascii " , " ++ squeeze isspace 32 true x :=
        fun x => rfl
      rw [List.flatMap_cons, List.append_assoc, hfold, squeeze_clean_append (h d List.mem_cons_self),
        ih fun e he => h e (List.mem_cons_of_mem _ he), List.flatMap_cons, List.append_assoc]

/-- The line ends with the last recipient. -/
theorem intercalate_last (sep : Bytes) {d : Bytes} {ds : List Bytes} (h : ∀ x ∈ d :: ds, CleanText x) :
    ∃ w c, sep.intercalate (d :: ds) = w ++ [c] ∧ isspace c = false := by
  rw [intercalate_cons]
  rcases List.eq_nil_or_concat ds with rfl | ⟨ds', e, rfl⟩
  · rcases clean_last (h d List.mem_cons_self) with ⟨w, c, hd, hc⟩
    exact ⟨w, c, by simpa using hd, hc⟩
  · rcases clean_last (h e (by simp)) with ⟨w, c, he, hc⟩
    refine ⟨d ++ (ds'.flatMap (sep ++ ·) ++ (sep ++ w)), c, ?_, hc⟩
    simp [he]

theorem compactField_dests {name d : Bytes} {ds : List Bytes} (h : ∀ x ∈ d :: ds, CleanText x) :
    compactField ⟨name, (ascii "\n , ").intercalate (d :: ds)⟩ =
      ⟨name.map tolower, (ascii " , ").intercalate (d :: ds)⟩ := by
  have hrest : ∀ x ∈ ds, CleanText x := fun x hx => h x (List.mem_cons_of_mem _ hx)
  have hsqueeze : squeeze isspace 32 true ((ascii "\n , ").intercalate (d :: ds)) = (ascii " , ").intercalate (d :: ds) := by
    rw [intercalate_cons, squeeze_clean_append (h d List.mem_cons_self), squeeze_dests hrest, intercalate_cons]
  rcases intercalate_last (ascii " , ") h with ⟨w, c, hw, hc⟩
  rw [compactField, hsqueeze, hw, trimEnd_append_word hc]

/-- The name of a part goes on the line of its type. -/
theorem compactField_type {name type : Bytes} (htype : squeeze isspace 32 true type = type) (filename : Option Bytes)
    (hfilename : ∀ x, filename = some x → squeeze isspace 32 false x = x) :
    compactField ⟨name, type ++ 59 :: filename.elim [] fun x => 10 :: 9 :: (ascii "name=" ++ 34 :: (x ++ [34]))⟩ =
      ⟨name.map tolower, type ++ 59 :: filename.elim [] fun x => 32 :: (ascii "name=" ++ 34 :: (x ++ [34]))⟩ := by
  rw [compactField, squeeze_append_word (by decide), htype]
  cases filename with
  | none => exact congrArg (HeaderField.mk _) (trimEnd_append_word (by decide) _)
  | some x =>
      have hblanks : ∀ w, squeeze isspace 32 false (10 :: 9 :: w) = 32 :: squeeze isspace 32 true w := fun _ => rfl
      have hparam : squeeze isspace 32 true (ascii "name=") = ascii "name=" := squeeze_word (by decide +kernel)
      have hvalue : type ++ 59 :: 32 :: (ascii "name=" ++ 34 :: (x ++ [34])) =
          (type ++ 59 :: 32 :: (ascii "name=" ++ 34 :: x)) ++ [34] := by simp
      have hquote : squeeze isspace 32 false [34] = [34] := rfl
      simp only [Option.elim_some]
      rw [hblanks, squeeze_append_word (by decide), hparam, squeeze_append_word (by decide), hfilename x rfl,
        show squeeze isspace 32 false [] = [] from rfl, hvalue, trimEnd_append_word (by decide)]

/-- The blanks that are left are separators. -/
theorem eq_sep_of_mem_squeeze {rem : Bool} {t : Bytes} {c : UInt8} (h : c ∈ squeeze isspace 32 rem t)
    (hc : isspace c = true) : c = 32 := by
  induction t generalizing rem with
  | nil => exact absurd h (by simp [squeeze])
  | cons d t ih =>
      by_cases hd : isspace d = true
      · cases rem with
        | true =>
            simp only [squeeze, hd, if_true] at h
            exact ih h
        | false =>
            simp only [squeeze, hd, if_true, Bool.false_eq_true, if_false, List.mem_cons] at h
            exact h.elim id ih
      · simp only [squeeze, hd, Bool.false_eq_true, if_false, List.mem_cons] at h
        rcases h with rfl | h
        · exact absurd hc hd
        · exact ih h

/-- Characters that may stand in a line. -/
def InLine (t : Bytes) : Prop :=
  ∀ c ∈ t, iseol c = false ∧ c ≠ 0

theorem CleanText.inLine {t : Bytes} (h : CleanText t) : InLine t :=
  fun _ hc => ⟨h.not_iseol hc, fun heq => h.2 (heq ▸ hc)⟩

theorem inLine_of_squeeze {rem : Bool} {t : Bytes} (h : squeeze isspace 32 rem t = t) (hnul : (0 : UInt8) ∉ t) :
    InLine t := by
  intro c hc
  refine ⟨?_, fun heq => hnul (heq ▸ hc)⟩
  by_contra heol
  have heol' : iseol c = true := by simpa using heol
  rw [eq_sep_of_mem_squeeze (h.symm ▸ hc) (isspace_of_iseol heol')] at heol'
  cases heol'

/-! ## Lines of the message -/

/-- The sendings of the header. -/
def headSendings (hostname : Bytes) (fwd : Forward) : List Sending :=
  .line [ascii "From: ", fwd.sender] ::
    (destLines fwd.dests ++
      ([.line [ascii "Subject: ", fwd.descr],
          .line [ascii "Message-Id: <", mdirVersion2str fwd.version, ascii "@", hostname, ascii ">"]] ++
        (extidLines fwd.extid ++
          [.line [ascii "Mime-Version: 1.0"],
            .line [ascii "Content-Type: multipart/mixed; boundary=", mimeBoundary]])))

/-- The sendings of the header of a part. -/
def partSendings (part : Part) : List Sending :=
  .line [ascii "Content-Transfer-Encoding: base64"] ::
    match part.type with
    | none => []
    | some type =>
        .line [ascii "Content-Type: ", type, ascii ";"] ::
          (part.name.map fun name => Sending.line [ascii "\tname=\"", name, ascii "\""]).toList

def lastSendings : List Sending :=
  [.line [[]], .line [ascii "--", mimeBoundary, ascii "--"]]

theorem messageText_eq (hostname : Bytes) (fwd : Forward) :
    messageText hostname fwd = headSendings hostname fwd ++ (fwd.parts.flatMap partLines ++ lastSendings) := by
  simp [messageText, headSendings, lastSendings]

theorem sendPart_eq (part : Part) : sendPart part = partSendings part ++ [.line [[]], .file part.filename] := rfl

/-- The line of a sending. -/
def Sending.lineText : Sending → Bytes
  | .command _ strs | .line strs => strs.flatten
  | .file _ => []

/-- A sending that makes one line of a text. -/
def Sending.MakesLine (s : Sending) : Prop :=
  ∃ strs, s = .line strs ∧ InLine strs.flatten ∧ strs.flatten.head? ≠ some 46 ∧ strs.flatten.head? ≠ some 45

theorem textLine_of_makesLine {contentOf : Bytes → Option Bytes} {s : Sending} (h : s.MakesLine)
    (hw : s.Writable contentOf) : TextLine s.lineText := by
  rcases h with ⟨strs, rfl, hchars, hdot, hdash⟩
  have hfits : (smtpLine strs).length < MAX_SMTP_LINE := hw.2
  have hlen : (smtpLine strs).length = strs.flatten.length + 2 := List.length_append
  have hmax : MAX_SMTP_LINE ≤ MAX_MAILLINE_LENGTH := by decide
  have hshort : strs.flatten.length < MAX_MAILLINE_LENGTH := by omega
  exact ⟨⟨hchars, hdot, hshort⟩, hdash⟩

theorem flatMap_text {contentOf : Bytes → Option Bytes} {l : List Sending} (h : ∀ s ∈ l, s.MakesLine) :
    l.flatMap (Sending.text contentOf) = crlfLines (l.map Sending.lineText) := by
  induction l with
  | nil => rfl
  | cons s l ih =>
      rcases h s List.mem_cons_self with ⟨strs, rfl, -⟩
      rw [List.flatMap_cons, ih fun t ht => h t (List.mem_cons_of_mem _ ht)]
      rfl

theorem InLine.append {s t : Bytes} (hs : InLine s) (ht : InLine t) : InLine (s ++ t) := fun c hc =>
  (List.mem_append.1 hc).elim (hs c) (ht c)

instance (t : Bytes) : Decidable (InLine t) :=
  List.decidableBAll _ t

/-- A line that starts with a name, or a blank. -/
theorem makesLine_of {name : Bytes} {strs : List Bytes} (hname : InLine name)
    (hhead : ∃ c ∈ name.head?, c ≠ 46 ∧ c ≠ 45) (hstrs : ∀ t ∈ strs, InLine t) :
    (Sending.line (name :: strs)).MakesLine := by
  rcases hhead with ⟨c, hc, hdot, hdash⟩
  have hfirst : (name :: strs).flatten.head? = some c := by
    rw [List.flatten_cons, List.head?_append, hc, Option.some_or]
  refine ⟨name :: strs, rfl, ?_, ?_, ?_⟩
  · intro c hc
    rw [List.flatten_cons] at hc
    rcases List.mem_append.1 hc with hc | hc
    · exact hname c hc
    · rcases List.mem_flatten.1 hc with ⟨t, ht, hc⟩
      exact hstrs t ht c hc
  · rw [hfirst]
    exact fun h => hdot (Option.some.inj h)
  · rw [hfirst]
    exact fun h => hdash (Option.some.inj h)

theorem inLine_singleton {t : Bytes} (h : InLine t) : ∀ x ∈ [t], InLine x :=
  fun _ hx => List.mem_singleton.1 hx ▸ h

theorem destLines_cons (dest : Bytes) (dests : List Bytes) :
    destLines (dest :: dests) = .line [ascii "To: ", dest] :: dests.map fun dest => .line [ascii " , ", dest] := by
  have hrest : dests.mapIdx (fun i dest => Sending.line [if i + 1 = 0 then ascii "To: " else ascii " , ", dest]) =
      dests.map fun dest => .line [ascii " , ", dest] := by
    rw [List.mapIdx_eq_iff]
    intro i
    simp
  rw [destLines, List.mapIdx_cons, hrest]
  rfl

theorem destLines_makesLine {dests : List Bytes} (h : ∀ dest ∈ dests, InLine dest) :
    ∀ s ∈ destLines dests, s.MakesLine := by
  cases dests with
  | nil => exact nofun
  | cons d ds =>
      rw [destLines_cons]
      intro s hs
      rcases List.mem_cons.1 hs with rfl | hs
      · exact makesLine_of (by decide) (by decide) (inLine_singleton (h d List.mem_cons_self))
      · rcases List.mem_map.1 hs with ⟨x, hx, rfl⟩
        exact makesLine_of (by decide) (by decide) (inLine_singleton (h x (List.mem_cons_of_mem _ hx)))

theorem headSendings_makesLine {hostname : Bytes} {contentOf : Bytes → Option Bytes} {fwd : Forward}
    (h : Mailable hostname contentOf fwd) : ∀ s ∈ headSendings hostname fwd, s.MakesLine := by
  have hhost : InLine hostname := by
    intro c hc
    refine ⟨?_, (h.host c hc).2⟩
    by_contra heol
    have hspace := isspace_of_iseol (c := c) (by simpa using heol)
    rw [(h.host c hc).1] at hspace
    cases hspace
  have hversion : InLine (mdirVersion2str fwd.version) := (cleanText_printInt fwd.version).inLine
  have hid : ∀ x ∈ [mdirVersion2str fwd.version, ascii "@", hostname, ascii ">"], InLine x := by
    simp only [List.forall_mem_cons]
    exact ⟨hversion, by decide, hhost, by decide, nofun⟩
  intro s hs
  simp only [headSendings, List.mem_cons, List.mem_append, List.not_mem_nil, or_false] at hs
  rcases hs with rfl | hs | (rfl | rfl) | hs | rfl | rfl
  · exact makesLine_of (by decide) (by decide) (inLine_singleton h.sender.inLine)
  · exact destLines_makesLine (fun d hd => (h.dests d hd).inLine) s hs
  · exact makesLine_of (by decide) (by decide) (inLine_singleton h.descr.inLine)
  · exact makesLine_of (by decide) (by decide) hid
  · rcases hext : fwd.extid with _ | extid
    · simp [extidLines, hext] at hs
    · simp only [extidLines, hext, Option.map_some, Option.toList_some, List.mem_singleton] at hs
      rw [hs]
      exact makesLine_of (by decide) (by decide) (inLine_singleton (h.extid extid hext).inLine)
  · exact makesLine_of (by decide) (by decide) nofun
  · exact makesLine_of (by decide) (by decide) (inLine_singleton (by decide))

theorem partSendings_makesLine {contentOf : Bytes → Option Bytes} {part : Part} (h : MailablePart contentOf part) :
    ∀ s ∈ partSendings part, s.MakesLine := by
  intro s hs
  rcases List.mem_cons.1 hs with rfl | hs
  · exact makesLine_of (by decide) (by decide) nofun
  rcases htype : part.type with _ | type
  · simp [htype] at hs
  have hline : ∀ x ∈ [type, ascii ";"], InLine x := by
    simp only [List.forall_mem_cons]
    exact ⟨inLine_of_squeeze (h.type type htype).1 (h.type type htype).2, by decide, nofun⟩
  rw [htype] at hs
  rcases List.mem_cons.1 hs with rfl | hs
  · exact makesLine_of (by decide) (by decide) hline
  rcases hname : part.name with _ | name
  · simp [hname] at hs
  · have hparam : ∀ x ∈ [name, ascii "\""], InLine x := by
      simp only [List.forall_mem_cons]
      exact ⟨inLine_of_squeeze (h.name name hname).1 (h.name name hname).2, by decide, nofun⟩
    rw [hname, Option.map_some, Option.toList_some, List.mem_singleton] at hs
    rw [hs]
    exact makesLine_of (by decide) (by decide) hparam

/-- The lines of the recipients, from the second on. -/
theorem lfLines_dests (dests : List Bytes) :
    10 :: lfLines (dests.map (ascii " , " ++ ·)) = dests.flatMap (ascii "\n , " ++ ·) ++ [10] := by
  induction dests with
  | nil => rfl
  | cons d ds ih =>
      have hline : ∀ x : Bytes, 10 :: (ascii " , " ++ d ++ x) = ascii "\n , " ++ d ++ x := fun _ => rfl
      rw [List.map_cons, lfLines_cons, hline, ih, List.flatMap_cons, List.append_assoc, List.append_assoc, List.append_assoc]

theorem lfLines_destLines (d : Bytes) (ds : List Bytes) :
    lfLines ((destLines (d :: ds)).map Sending.lineText) =
      fieldDump ⟨ascii "To", (ascii "\n , ").intercalate (d :: ds)⟩ := by
  have hlines : (destLines (d :: ds)).map Sending.lineText = (ascii "To: " ++ d) :: ds.map (ascii " , " ++ ·) := by
    rw [destLines_cons, List.map_cons, List.map_map]
    simp [Sending.lineText, Function.comp_def]
  have hname : ascii "To: " = ascii "To" ++ ascii ": " := rfl
  rw [hlines, lfLines_cons, lfLines_dests, fieldDump, intercalate_cons, hname]
  simp [ascii, charByte]

theorem lfLines_headSendings (hostname : Bytes) (fwd : Forward) :
    lfLines ((headSendings hostname fwd).map Sending.lineText) = (rawForwardHeader hostname fwd).flatMap fieldDump := by
  have hdests : lfLines ((destLines fwd.dests).map Sending.lineText) =
      (if fwd.dests = [] then [] else [(⟨ascii "To", (ascii "\n , ").intercalate fwd.dests⟩ : HeaderField)]).flatMap
        fieldDump := by
    cases fwd.dests with
    | nil => rfl
    | cons d ds => rw [lfLines_destLines, if_neg (List.cons_ne_nil _ _), List.flatMap_singleton]
  have hextid : lfLines ((extidLines fwd.extid).map Sending.lineText) =
      ((fwd.extid.map fun extid => (⟨ascii "In-Reply-To", extid⟩ : HeaderField)).toList).flatMap fieldDump := by
    cases fwd.extid with
    | none => rfl
    | some extid => simp [extidLines, Sending.lineText, fieldDump, ascii, charByte]
  have hfrom : lfLines ([Sending.line [ascii "From: ", fwd.sender]].map Sending.lineText) =
      fieldDump ⟨ascii "From", fwd.sender⟩ := by
    simp [Sending.lineText, fieldDump, ascii, charByte]
  have hsubject : lfLines ([Sending.line [ascii "Subject: ", fwd.descr],
      .line [ascii "Message-Id: <", mdirVersion2str fwd.version, ascii "@", hostname, ascii ">"]].map Sending.lineText) =
      [⟨ascii "Subject", fwd.descr⟩, ⟨ascii "Message-Id", messageId hostname fwd⟩].flatMap fieldDump := by
    simp [Sending.lineText, fieldDump, messageId, ascii, charByte]
  have hmime : lfLines ([Sending.line [ascii "Mime-Version: 1.0"],
      .line [ascii "Content-Type: multipart/mixed; boundary=", mimeBoundary]].map Sending.lineText) =
      [⟨ascii "Mime-Version", ascii "1.0"⟩,
        ⟨ascii "Content-Type", ascii "multipart/mixed; boundary=" ++ mimeBoundary⟩].flatMap fieldDump := by
    simp [Sending.lineText, fieldDump, ascii, charByte]
  rw [headSendings, ← List.singleton_append]
  simp only [List.map_append, lfLines_append]
  rw [hfrom, hdests, hsubject, hextid, hmime]
  simp only [rawForwardHeader, headerWith, List.flatMap_cons, List.flatMap_append, List.append_assoc]

theorem lfLines_partSendings (part : Part) :
    lfLines ((partSendings part).map Sending.lineText) = part.rawHeader.flatMap fieldDump := by
  rw [partSendings, Part.rawHeader]
  cases part.type with
  | none => simp [Sending.lineText, fieldDump, ascii, charByte]
  | some type =>
      cases part.name with
      | none => simp [Sending.lineText, fieldDump, ascii, charByte]
      | some name => simp [Sending.lineText, fieldDump, ascii, charByte]

/-! ## Headers once they are read -/

theorem foldedField_clean {name value : Bytes} (hname : CleanText name ∧ (58 : UInt8) ∉ name) (h : CleanText value) :
    FoldedField ⟨name, value⟩ := by
  refine ⟨hname.1, hname.2, folded_of_line fun c hc => h.not_iseol hc, ?_, h.2⟩
  rcases clean_last h with ⟨w, c, rfl, hc⟩
  exact ⟨c, List.getLast?_concat, hc⟩

theorem folded_dests {ds : List Bytes} (h : ∀ d ∈ ds, InLine d) {d : Bytes} (hd : InLine d) :
    folded (d ++ ds.flatMap (ascii "\n , " ++ ·)) = true := by
  -- each recipient goes on with the line that the blank begins
  induction ds generalizing d with
  | nil =>
      rw [List.flatMap_nil, List.append_nil]
      exact folded_of_line fun c hc => (hd c hc).1
  | cons e ds ih =>
      have hnext : InLine (ascii " , " ++ e) := InLine.append (by decide) (h e List.mem_cons_self)
      have hrest := ih (fun x hx => h x (List.mem_cons_of_mem _ hx)) hnext
      rw [List.flatMap_cons]
      exact folded_append (folded_of_line fun c hc => (hd c hc).1) (by decide) hrest

theorem foldedField_dests {d : Bytes} {ds : List Bytes} (h : ∀ x ∈ d :: ds, CleanText x) :
    FoldedField ⟨ascii "To", (ascii "\n , ").intercalate (d :: ds)⟩ := by
  have hd := h d List.mem_cons_self
  have hnul : ∀ x ∈ ds, (0 : UInt8) ∉ ascii "\n , " ++ x := by
    intro x hx h0
    rcases List.mem_append.1 h0 with h0 | h0
    · exact absurd h0 (by decide)
    · exact (h x (List.mem_cons_of_mem _ hx)).2 h0
  have hname : CleanText (ascii "To") ∧ (58 : UInt8) ∉ ascii "To" := by decide
  refine ⟨hname.1, hname.2, ?_, ?_, ?_⟩
  · rw [intercalate_cons]
    exact folded_dests (fun x hx => (h x (List.mem_cons_of_mem _ hx)).inLine) hd.inLine
  · rcases intercalate_last (ascii "\n , ") h with ⟨w, c, hw, hc⟩
    exact ⟨c, by rw [hw]; exact List.getLast?_concat, hc⟩
  · intro h0
    rw [intercalate_cons] at h0
    rcases List.mem_append.1 h0 with h0 | h0
    · exact hd.2 h0
    · rcases List.mem_flatMap.1 h0 with ⟨x, hx, h0⟩
      exact hnul x hx h0

theorem cleanText_messageId {hostname : Bytes} (h : ∀ c ∈ hostname, isspace c = false ∧ c ≠ 0) (fwd : Forward) :
    CleanText (messageId hostname fwd) := by
  have hversion : ∀ c ∈ mdirVersion2str fwd.version, isspace c = false ∧ c ≠ 0 := by
    have hdigit : ∀ c, isDigit c = true → isspace c = false ∧ c ≠ 0 := forall_byte (by decide +kernel)
    intro c hc
    unfold mdirVersion2str printInt at hc
    split at hc
    · rcases List.mem_cons.1 hc with rfl | hc
      · decide
      · exact hdigit c (isDigit_of_mem_decimal hc)
    · exact hdigit c (isDigit_of_mem_decimal hc)
  have hword : ∀ t : Bytes, t.all (fun c => !isspace c && c != 0) = true → ∀ c ∈ t, isspace c = false ∧ c ≠ 0 := by
    intro t ht c hc
    simpa using List.all_eq_true.1 ht c hc
  have hall : ∀ c ∈ messageId hostname fwd, isspace c = false ∧ c ≠ 0 := by
    simp only [messageId, List.forall_mem_append]
    exact ⟨⟨⟨⟨hword _ (by decide), hversion⟩, hword _ (by decide)⟩, h⟩, hword _ (by decide)⟩
  exact cleanText_of_words (by simp [messageId, ascii]) (fun c hc => (hall c hc).1) fun h0 => (hall 0 h0).2 rfl

section Passage

variable {hostname : Bytes} {contentOf mimeType2ext : Bytes → Option Bytes} {fwd : Forward}

theorem foldedField_forward (h : Mailable hostname contentOf fwd) :
    ∀ hf ∈ rawForwardHeader hostname fwd, FoldedField hf := by
  intro hf hhf
  simp only [rawForwardHeader, headerWith, List.mem_cons, List.mem_append, List.not_mem_nil, or_false] at hhf
  rcases hhf with rfl | hhf | (rfl | rfl) | hhf | rfl | rfl
  · exact foldedField_clean (by decide) h.sender
  · cases hds : fwd.dests with
    | nil => simp [hds] at hhf
    | cons d ds =>
        rw [hds, if_neg (List.cons_ne_nil _ _), List.mem_singleton] at hhf
        rw [hhf]
        exact foldedField_dests fun x hx => h.dests x (hds ▸ hx)
  · exact foldedField_clean (by decide) h.descr
  · exact foldedField_clean (by decide) (cleanText_messageId h.host fwd)
  · cases hext : fwd.extid with
    | none => simp [hext] at hhf
    | some extid =>
        rw [hext, Option.map_some, Option.toList_some, List.mem_singleton] at hhf
        rw [hhf]
        exact foldedField_clean (by decide) (h.extid extid hext)
  · decide
  · decide

theorem compact_forward (h : Mailable hostname contentOf fwd) :
    (rawForwardHeader hostname fwd).map compactField = forwardHeader hostname fwd := by
  have hdests : (if fwd.dests = [] then [] else
      [(⟨ascii "To", (ascii "\n , ").intercalate fwd.dests⟩ : HeaderField)]).map compactField =
      if fwd.dests = [] then [] else [⟨(ascii "To").map tolower, (ascii " , ").intercalate fwd.dests⟩] := by
    cases hds : fwd.dests with
    | nil => rfl
    | cons d ds =>
        rw [if_neg (List.cons_ne_nil _ _), if_neg (List.cons_ne_nil _ _), List.map_singleton,
          compactField_dests fun x hx => h.dests x (hds ▸ hx)]
  have hextid : ((fwd.extid.map fun extid => (⟨ascii "In-Reply-To", extid⟩ : HeaderField)).toList).map compactField =
      (fwd.extid.map fun extid => (⟨(ascii "In-Reply-To").map tolower, extid⟩ : HeaderField)).toList := by
    cases hext : fwd.extid with
    | none => rfl
    | some extid =>
        exact congrArg ([·]) (compactField_clean (h.extid extid hext))
  have hversion : compactField ⟨ascii "Mime-Version", ascii "1.0"⟩ =
      ⟨(ascii "Mime-Version").map tolower, ascii "1.0"⟩ := compactField_clean (by decide)
  have htype : compactField ⟨ascii "Content-Type", ascii "multipart/mixed; boundary=" ++ mimeBoundary⟩ =
      ⟨(ascii "Content-Type").map tolower, ascii "multipart/mixed; boundary=" ++ mimeBoundary⟩ :=
    compactField_clean (by decide)
  simp only [rawForwardHeader, forwardHeader, headerWith, List.map_cons, List.map_append, List.map_nil, hdests, hextid,
    compactField_clean h.sender, compactField_clean h.descr, compactField_clean (cleanText_messageId h.host fwd), hversion,
    htype]

/-- The message is taken for a multipart with the boundary of the forwarder. -/
theorem boundaryOf_forwardHeader (hostname : Bytes) (fwd : Forward) :
    boundaryOf (forwardHeader hostname fwd) = some (delimiterOf mimeBoundary) := by
  have hfind : headerFind (forwardHeader hostname fwd) (ascii "content-type") =
      some ⟨(ascii "Content-Type").map tolower, ascii "multipart/mixed; boundary=" ++ mimeBoundary⟩ := by
    unfold forwardHeader headerWith
    cases fwd.extid with
    | none => split <;> rfl
    | some extid => split <;> rfl
  rw [boundaryOf, hfind]
  decide +kernel

theorem foldedField_part {part : Part} (h : MailablePart contentOf part) : ∀ hf ∈ part.rawHeader, FoldedField hf := by
  intro hf hhf
  rcases List.mem_cons.1 hhf with rfl | hhf
  · decide
  cases htype : part.type with
  | none => simp [htype] at hhf
  | some type =>
      have hline := inLine_of_squeeze (h.type type htype).1 (h.type type htype).2
      have hname : CleanText (ascii "Content-Type") ∧ (58 : UInt8) ∉ ascii "Content-Type" := by decide
      have htypeLine : ∀ c ∈ type ++ [59], iseol c = false := by
        intro c hc
        rcases List.mem_append.1 hc with hc | hc
        · exact (hline c hc).1
        · rw [List.mem_singleton.1 hc]
          rfl
      rw [htype, List.mem_singleton] at hhf
      rw [hhf]
      cases hfilename : part.name with
      | none =>
          refine ⟨hname.1, hname.2, folded_of_line htypeLine, ⟨59, by simp, rfl⟩, ?_⟩
          simp [(h.type type htype).2]
      | some name =>
          -- the parameter is folded under the type, behind a tabulation
          have hparam : ∀ c ∈ 9 :: (ascii "name=" ++ 34 :: (name ++ [34])), iseol c = false := by
            have hname := inLine_of_squeeze (h.name name hfilename).1 (h.name name hfilename).2
            intro c hc
            simp only [List.mem_cons, List.mem_append, List.not_mem_nil, or_false] at hc
            rcases hc with rfl | hc | rfl | hc | rfl
            · rfl
            · exact (by decide +kernel : ∀ c ∈ ascii "name=", iseol c = false) c hc
            · rfl
            · exact (hname c hc).1
            · rfl
          have hfold := folded_append (c := 10) (folded_of_line htypeLine) (by decide) (folded_of_line hparam)
          have hlast : type ++ 59 :: 10 :: 9 :: (ascii "name=" ++ 34 :: (name ++ [34])) =
              (type ++ 59 :: 10 :: 9 :: (ascii "name=" ++ 34 :: name)) ++ [34] := by simp
          refine ⟨hname.1, hname.2, ?_, ⟨34, (congrArg List.getLast? hlast).trans List.getLast?_concat, rfl⟩, ?_⟩
          · simpa using hfold
          · simp [(h.type type htype).2, (h.name name hfilename).2, ascii, charByte]

theorem compact_part {part : Part} (h : MailablePart contentOf part) : part.rawHeader.map compactField = part.header := by
  have hencoding : compactField ⟨ascii "Content-Transfer-Encoding", ascii "base64"⟩ =
      ⟨ascii "content-transfer-encoding", ascii "base64"⟩ := by decide
  have hlower : (ascii "Content-Type").map tolower = ascii "content-type" := by decide
  rw [Part.rawHeader, Part.header, List.map_cons, hencoding]
  cases htype : part.type with
  | none => rfl
  | some type =>
      rw [List.map_singleton, compactField_type (h.type type htype).1 part.name fun x hx => (h.name x hx).1, hlower]

/-! ## Parts -/

/-- The text of a part once it is read, without its last end of line. -/
def Part.text (contentOf : Bytes → Option Bytes) (part : Part) : Bytes :=
  part.rawHeader.flatMap fieldDump ++ 10 :: (sendFile ((contentOf part.filename).getD [])).filter (· != 13)

/-- The lines of a part, the end of the last one being sent with what comes next. -/
theorem part_lines {part : Part} (h : MailablePart contentOf part) (hw : ∀ s ∈ partSendings part, s.Writable contentOf) :
    ∃ lines, (∀ l ∈ lines, TextLine l) ∧
      (sendPart part).flatMap (Sending.text contentOf) ++ ascii "\r\n" = crlfLines lines ∧
      lfLines lines = part.text contentOf ++ [10] := by
  rcases sendFile_lines ((contentOf part.filename).getD []) with ⟨lines, hbase64, hfile, hread⟩
  have htext := partSendings_makesLine h
  have hhead : ∀ x ∈ (partSendings part).map Sending.lineText, TextLine x := by
    intro x hx
    rcases List.mem_map.1 hx with ⟨s, hs, rfl⟩
    exact textLine_of_makesLine (htext s hs) (hw s hs)
  have hbody : ∀ x ∈ lines, TextLine x := fun x hx => (hbase64 x hx).textLine
  refine ⟨(partSendings part).map Sending.lineText ++ [] :: lines, ?_, ?_, ?_⟩
  · intro x hx
    rcases List.mem_append.1 hx with hx | hx
    · exact hhead x hx
    · rcases List.mem_cons.1 hx with rfl | hx
      · exact ⟨⟨nofun, nofun, by decide⟩, nofun⟩
      · exact hbody x hx
  · have hlast : ([.line [[]], .file part.filename] : List Sending).flatMap (Sending.text contentOf) =
        ascii "\r\n" ++ sendFile ((contentOf part.filename).getD []) := by
      simp [Sending.text, smtpLine]
    rw [sendPart_eq, List.flatMap_append, flatMap_text htext, hlast, crlfLines_append, List.append_assoc, List.append_assoc,
      hfile]
    rfl
  · rw [lfLines_append, lfLines_partSendings, lfLines_cons, ← hread, Part.text]
    simp

/-- A part is parsed to its tree, and has no delimiter in it. -/
theorem part_chunk [Host] (fuel : Nat) {part : Part} (h : MailablePart contentOf part)
    (hw : ∀ s ∈ partSendings part, s.Writable contentOf) :
    MailChunk (parseMailRec mimeType2ext (fuel + 1)) mimeBoundary (part.text contentOf, part.tree mimeType2ext contentOf) := by
  constructor
  · rcases part_lines h hw with ⟨lines, hlines, -, htext⟩
    intro hin
    have hdash : [10, 45] <:+: delimiterOf mimeBoundary := ⟨[], 45 :: mimeBoundary, rfl⟩
    refine not_dash_infix hlines (hdash.trans (hin.trans ?_))
    rw [htext]
    exact (List.prefix_append _ _).isInfix
  · have hencoding : headerFind part.header (ascii "content-transfer-encoding") =
        some ⟨ascii "content-transfer-encoding", ascii "base64"⟩ := rfl
    have hdecode : decodeInVarbuf (part.rawHeader.map compactField)
        ((sendFile ((contentOf part.filename).getD [])).filter (· != 13)) =
          .ok (.ok ((contentOf part.filename).getD [])) := by
      have hdecoded := decodeBase64_sent ((contentOf part.filename).getD [])
      have hroom : ¬ base64Fills ((sendFile ((contentOf part.filename).getD [])).filter (· != 13)) := by
        rw [base64Fills, base64Written_of_ok hdecoded]
        exact h.room
      rw [compact_part h, decodeInVarbuf, hencoding]
      exact (if_neg hroom).trans hdecoded
    have hsingle : boundaryOf (part.rawHeader.map compactField) = none := by
      rw [compact_part h]
      exact h.single
    have hparse : ∀ rest, (parseMailRec mimeType2ext (fuel + 1) (part.text contentOf ++ rest)
        (part.text contentOf).length).result =
          .ok (.ok (.file (part.rawHeader.map compactField)
            (buildParams mimeType2ext (part.rawHeader.map compactField)) ((contentOf part.filename).getD []))) :=
      parseMailRec_file fuel (foldedField_part h) (compact_part h ▸ h.short) hsingle hdecode
    rw [compact_part h] at hparse
    exact hparse

/-- The parts of a message, from the end of line before the first delimiter on. -/
theorem parts_lines {parts : List Part} (h : ∀ part ∈ parts, MailablePart contentOf part)
    (hw : ∀ part ∈ parts, ∀ s ∈ partSendings part, s.Writable contentOf) (mimeType2ext : Bytes → Option Bytes) :
    ∃ lines, (∀ l ∈ lines, MailLine l) ∧
      (parts.flatMap partLines ++ lastSendings).flatMap (Sending.text contentOf) = ascii "\r\n" ++ crlfLines lines ∧
      10 :: lfLines lines = chunksText mimeBoundary []
        (parts.map fun part => (part.text contentOf, part.tree mimeType2ext contentOf)) := by
  have hdelimiter : MailLine (ascii "--" ++ mimeBoundary) :=
    ⟨(by decide : InLine (ascii "--" ++ mimeBoundary)), by decide, by decide⟩
  induction parts with
  | nil =>
      refine ⟨[ascii "--" ++ mimeBoundary ++ ascii "--"], ?_, rfl, rfl⟩
      intro l hl
      rw [List.mem_singleton.1 hl]
      exact ⟨(by decide : InLine (ascii "--" ++ mimeBoundary ++ ascii "--")), by decide, by decide⟩
  | cons part parts ih =>
      rcases ih (fun p hp => h p (List.mem_cons_of_mem _ hp)) (fun p hp => hw p (List.mem_cons_of_mem _ hp)) with
        ⟨lines, hlines, hwire, hread⟩
      rcases part_lines (h part List.mem_cons_self) (hw part List.mem_cons_self) with ⟨own, hown, hpart, htext⟩
      refine ⟨(ascii "--" ++ mimeBoundary) :: (own ++ lines), ?_, ?_, ?_⟩
      · intro l hl
        rcases List.mem_cons.1 hl with rfl | hl
        · exact hdelimiter
        · exact (List.mem_append.1 hl).elim (fun hl => (hown l hl).toMailLine) (hlines l)
      · -- the end of line in front of the next delimiter ends the lines of this part
        calc
          ((part :: parts).flatMap partLines ++ lastSendings).flatMap (Sending.text contentOf) =
              (partLines part).flatMap (Sending.text contentOf) ++
                (parts.flatMap partLines ++ lastSendings).flatMap (Sending.text contentOf) := by
            rw [List.flatMap_cons, List.append_assoc, List.flatMap_append]
          _ = ascii "\r\n" ++ (ascii "--" ++ mimeBoundary ++ ascii "\r\n" ++
                ((sendPart part).flatMap (Sending.text contentOf) ++ ascii "\r\n" ++ crlfLines lines)) := by
            rw [hwire]
            simp [partLines, Sending.text, smtpLine]
          _ = ascii "\r\n" ++ crlfLines ((ascii "--" ++ mimeBoundary) :: (own ++ lines)) := by
            rw [hpart, crlfLines_cons, crlfLines_append]
      · rw [lfLines_cons, lfLines_append, htext, List.map_cons, chunksText, ← hread]
        simp [delimiterOf, ascii, charByte]

/-! ## The whole message -/

theorem Mailable.part_writable (h : Mailable hostname contentOf fwd) {part : Part} (hpart : part ∈ fwd.parts) :
    ∀ s ∈ partSendings part, s.Writable contentOf := by
  intro s hs
  refine h.writable s ?_
  rw [messageText_eq]
  refine List.mem_append_right _ (List.mem_append_left _ (List.mem_flatMap.2 ⟨part, hpart, ?_⟩))
  exact List.mem_cons_of_mem _ (List.mem_cons_of_mem _ (List.mem_append_left _ hs))

theorem Mailable.head_lines (h : Mailable hostname contentOf fwd) :
    ∀ x ∈ (headSendings hostname fwd).map Sending.lineText, TextLine x := by
  intro x hx
  rcases List.mem_map.1 hx with ⟨s, hs, rfl⟩
  refine textLine_of_makesLine (headSendings_makesLine h s hs) (h.writable s ?_)
  rw [messageText_eq]
  exact List.mem_append_left _ hs

/-- The lines of a message, and the text that the server makes of them. -/
theorem message_lines (h : Mailable hostname contentOf fwd) (mimeType2ext : Bytes → Option Bytes) :
    ∃ lines, (∀ l ∈ lines, MailLine l) ∧
      (messageText hostname fwd).flatMap (Sending.text contentOf) = crlfLines lines ∧
      lfLines lines = (rawForwardHeader hostname fwd).flatMap fieldDump ++ chunksText mimeBoundary []
        (fwd.parts.map fun part => (part.text contentOf, part.tree mimeType2ext contentOf)) := by
  rcases parts_lines h.parts (fun _ => h.part_writable) mimeType2ext with ⟨lines, hlines, hwire, hread⟩
  refine ⟨(headSendings hostname fwd).map Sending.lineText ++ [] :: lines, ?_, ?_, ?_⟩
  · intro l hl
    rcases List.mem_append.1 hl with hl | hl
    · exact (h.head_lines l hl).toMailLine
    · rcases List.mem_cons.1 hl with rfl | hl
      · exact ⟨nofun, nofun, by decide⟩
      · exact hlines l hl
  · rw [messageText_eq, List.flatMap_append, flatMap_text (headSendings_makesLine h), hwire, crlfLines_append]
    rfl
  · rw [lfLines_append, lfLines_headSendings, ← hread, lfLines_cons, List.nil_append]

/-- What the forwarder writes is read as the fields of the forward and the contents of its files, the last part
first, whatever comes behind the dot. -/
theorem mail_passage [Host] (h : Mailable hostname contentOf fwd) (rest : Bytes) :
    ∃ wire, writeAll contentOf (messageText hostname fwd ++ [dot]) = .ok (.ok wire) ∧
      (msgTreeRead mimeType2ext (wire ++ rest)).result =
        .ok (.ok (.multipart (forwardHeader hostname fwd) (fwd.parts.map (Part.tree mimeType2ext contentOf)).reverse)) := by
  rcases message_lines h mimeType2ext with ⟨lines, hlines, hwire, hread⟩
  have hwritable : ∀ s ∈ messageText hostname fwd ++ [dot], s.Writable contentOf := by
    intro s hs
    rcases List.mem_append.1 hs with hs | hs
    · exact h.writable s hs
    · rw [List.mem_singleton.1 hs]
      exact ⟨by decide, by decide⟩
  have hbytes : (messageText hostname fwd ++ [dot]).flatMap (Sending.text contentOf) =
      crlfLines lines ++ ascii ".\r\n" := by
    rw [List.flatMap_append, hwire]
    rfl
  refine ⟨crlfLines lines ++ ascii ".\r\n", hbytes ▸ writeAll_eq hwritable, ?_⟩
  have hpos : 0 < (lfLines lines).length := by
    rw [hread, List.length_append]
    have hfrom : 0 < ((rawForwardHeader hostname fwd).flatMap fieldDump).length :=
      List.length_pos_of_ne_nil (by simp [rawForwardHeader, headerWith, fieldDump, ascii])
    omega
  obtain ⟨k, hk⟩ := Nat.exists_eq_succ_of_ne_zero (Nat.ne_of_gt hpos)
  have hchunks : ∀ c ∈ fwd.parts.map (fun part => (part.text contentOf, part.tree mimeType2ext contentOf)),
      MailChunk (parseMailRec mimeType2ext (k + 1)) mimeBoundary c := by
    intro c hc
    rcases List.mem_map.1 hc with ⟨part, hpart, rfl⟩
    exact part_chunk k (h.parts part hpart) (h.part_writable hpart)
  have hboundary : boundaryOf ((rawForwardHeader hostname fwd).map compactField) = some (delimiterOf mimeBoundary) := by
    rw [compact_forward h]
    exact boundaryOf_forwardHeader hostname fwd
  have hfree : ¬ delimiterOf mimeBoundary <:+: (rawForwardHeader hostname fwd).flatMap fieldDump := by
    have hdash : [10, 45] <:+: delimiterOf mimeBoundary := ⟨[], 45 :: mimeBoundary, rfl⟩
    rw [← lfLines_headSendings]
    exact fun hinfix => not_dash_infix h.head_lines (hdash.trans hinfix)
  have hnul := zero_not_mem_lfLines hlines
  rw [hread] at hnul hk
  have hshort : ShortHeader ((rawForwardHeader hostname fwd).map compactField) := compact_forward h ▸ h.short
  have hparse := parseMailRec_chunks (k + 1) (foldedField_forward h) hshort (by decide) hboundary hfree hchunks hnul
  rw [compact_forward h, List.map_map] at hparse
  -- the returns are left out, and the dot takes two bytes
  have hroom : (lfLines lines).length + 2 ≤ MAIL_ROOM := by
    have hmail := h.room
    rw [mailText, hbytes, List.filter_append, filter_crlfLines hlines, List.length_append] at hmail
    exact hmail
  rw [List.append_assoc, msgTreeRead, readWholeMail_lines hlines, if_neg (Nat.not_lt.2 hroom), hread]
  simp only [hk]
  rw [hk] at hparse
  exact hparse

end Passage

end Scambio
