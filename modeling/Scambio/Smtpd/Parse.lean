import Scambio.Library.Infix
import Scambio.Smtpd.Queries

/-!
# Parse — from the text of a mail to a tree (`smtpd/parse.c`)

The mail is read as a whole into one buffer, and each part is a pointer into it with a size.  A pointer is
the list of the bytes from there to the end of the buffer, which a NUL follows: whatever is handed to
`header_parse` or `strstr` may be read past the size of the part, up to that NUL.

What the code takes for granted is made explicit: `MailFault` tells which assertion aborts the process, or
which arithmetic, table or block it runs out of.  `MailRun` also keeps the parts that were visited.

A buffer that is filled to its last byte exactly gets its NUL behind the block (`Commons.VarbufMemory`).  What is
appended byte by byte never jumps over that place; what is appended at once, or three bytes at a time, can.
-/

namespace Scambio

open Library

def MAX_MAILLINE_LENGTH : Nat := 1000
def MAX_BOUNDARY_LENGTH : Nat := 70

/-- `sizeof(node->content.file.params)`. -/
def PARAMS_SIZE : Nat := 128

/-- The room in the buffer of a file. -/
def FILE_ROOM : Nat := 1024

/-- The room in the buffer of a mail. -/
def MAIL_ROOM : Nat := 10240

/-- What stops the parser, other than an error. -/
inductive MailFault
  /-- `assert(max_len <= strlen(big))` -/
  | strnstr
  /-- `assert(delim_pos < msg_end)` -/
  | delimiter
  /-- `assert(header_size <= size)` -/
  | headerSize
  /-- `size - header_size` is negative. -/
  | wrap
  /-- `b64` is read past its end. -/
  | table
  /-- A byte is written behind the end of a block. -/
  | overrun
  /-- More rounds than bytes. -/
  | stuck
  deriving DecidableEq, Repr

/-- `struct msg_tree`; the last part comes first. -/
inductive MsgTree
  | file (header : Header) (params data : Bytes)
  | multipart (header : Header) (parts : List MsgTree)

/-- The parts that were visited, and the outcome. -/
structure MailRun (α : Type) where
  visits : List (Bytes × Nat)
  result : Except MailFault (Except Err α)

/-! ## Parameters of a field -/

/-- `find_next_param_delim`: the next semicolon out of quotes. -/
def findNextParamDelim : Bool → Bytes → Bytes
  | _, [] => []
  | quoted, c :: str =>
      if c = 34 then findNextParamDelim (!quoted) str
      else if quoted = false ∧ c = 59 then c :: str
      else findNextParamDelim quoted str

/-- The value that `parameter_find` finds, if any.  Each round takes a semicolon at least. -/
def parameterFindLoop (paramName : Bytes) : Nat → Bytes → Option Bytes
  | 0, _ => none
  | fuel + 1, str =>
      match findNextParamDelim false str with
      | [] => none
      | _ :: str =>
          let str := str.dropWhile (· == 32)
          if startsWithCase paramName str then
            match (str.drop paramName.length).dropWhile (· == 32) with
            | 61 :: str =>
                match str.dropWhile (· == 32) with
                | 34 :: str => some (str.takeWhile (· != 34))
                | str => some (str.takeWhile (· != 59))
            -- a longer name that starts with this one
            | str => if str = [] then none else parameterFindLoop paramName fuel str
          else if str = [] then none
          else parameterFindLoop paramName fuel str

/-- `parameter_find` and `parameter_extract`. -/
def parameterFind (str paramName : Bytes) : Option Bytes :=
  parameterFindLoop paramName (str.length + 1) str

/-- `build_params`.  `mimeType2ext` is the table of `commons/mime.c`. -/
def buildParams (mimeType2ext : Bytes → Option Bytes) (h : Header) : Bytes :=
  let type := headerFind h (ascii "content-type")
  let disp := headerFind h (ascii "content-disposition")
  let filename :=
    -- the name of the disposition, else that of the type, else one made from the type
    match disp.bind fun hf => parameterFind hf.value (ascii "filename") with
    | some filename => filename
    | none =>
        match type with
        | none => ascii "noname"
        | some hf =>
            match parameterFind hf.value (ascii "name") with
            | some filename => filename
            | none => ascii "noname." ++ (mimeType2ext hf.value).getD (ascii "bin")
  let name := ascii "name=\"" ++ filename ++ ascii "\""
  let params :=
    match type with
    | none => name
    | some hf => name ++ ascii "; type=\"" ++ hf.value ++ ascii "\""
  params.take (PARAMS_SIZE - 1)

/-- The boundary of a multipart header, with its prefix. -/
def boundaryOf (h : Header) : Option Bytes :=
  match headerFind h (ascii "content-type") with
  | none => none
  | some hf =>
      if startsWithCase (ascii "multipart/") hf.value then
        (parameterFind hf.value (ascii "boundary")).map fun b =>
          ascii "\n--" ++ (cstr b).take (MAX_BOUNDARY_LENGTH - 1)
      else none

/-! ## Content of a file -/

inductive QuotedState
  | unquoted
  | quote1
  | quote2
  deriving DecidableEq, Repr

/-- The digit of `decode_quoted`. -/
def quotedDigit (c : UInt8) : Option UInt8 :=
  if 48 ≤ c ∧ c ≤ 57 then some (c - 48) else if 65 ≤ c ∧ c ≤ 70 then some (c - 55) else none

def decodeQuotedLoop : QuotedState → UInt8 → Bytes → Bytes
  | _, _, [] => []
  | .unquoted, quoted, c :: msg =>
      if c = 61 then decodeQuotedLoop .quote1 0 msg else c :: decodeQuotedLoop .unquoted quoted msg
  | .quote1, quoted, c :: msg =>
      match quotedDigit c with
      | some d => decodeQuotedLoop .quote2 (quoted * 16 + d) msg
      -- a soft break or an error, both ignored
      | none => decodeQuotedLoop .unquoted quoted msg
  | .quote2, quoted, c :: msg =>
      match quotedDigit c with
      | some d => (quoted * 16 + d) :: decodeQuotedLoop .unquoted (quoted * 16 + d) msg
      | none => decodeQuotedLoop .unquoted quoted msg

/-- The bytes that `decode_quoted` appends, one by one. -/
def quotedText (msg : Bytes) : Bytes :=
  decodeQuotedLoop .unquoted 0 msg

/-- `decode_quoted` on the buffer of a file. -/
def decodeQuoted (msg : Bytes) : Except MailFault Bytes :=
  if fillsBlock (FILE_ROOM + 1) 0 (List.replicate (quotedText msg).length 1) then .error .overrun
  else .ok (quotedText msg)

theorem decodeQuoted_eq (msg : Bytes) :
    decodeQuoted msg = if FILE_ROOM < (quotedText msg).length then .error .overrun else .ok (quotedText msg) := by
  rw [decodeQuoted, fillsBlock_bytes (Nat.succ_pos _), Nat.zero_add]
  exact if_congr decide_eq_true_iff rfl rfl

/-- The table `b64`, 0 for what is not in it. -/
def b64 (c : UInt8) : UInt8 :=
  if 65 ≤ c ∧ c ≤ 90 then c - 65
  else if 97 ≤ c ∧ c ≤ 122 then c - 71
  else if 48 ≤ c ∧ c ≤ 57 then c + 4
  else if c = 43 then 62
  else if c = 47 then 63
  else 0

/-- `sizeof_array(b64)`: its last entry is the one of 'z'. -/
def B64_SIZE : Nat := 123

/-- What four characters make. -/
def base64Output (vals : List UInt8) : Bytes :=
  let v := fun i => vals.getD i 0
  [(v 0 <<< 2) ||| (v 1 >>> 4), (v 1 <<< 4) ||| (v 2 >>> 2), (v 2 <<< 6) ||| v 3]

/-- Where `decode_base64` is: the values that wait for their group, and the padding met. -/
structure Base64State where
  vals : List UInt8
  nbPads : Nat
  deriving DecidableEq, Repr

/-- One character of `decode_base64`: the state after it and what it outputs. -/
def base64Step (s : Base64State) (c : UInt8) : Except MailFault (Except Err (Base64State × Bytes)) :=
  let flush := fun (s : Base64State) =>
    if 4 ≤ s.vals.length + s.nbPads then ({ s with vals := [] }, (base64Output s.vals).take (3 - s.nbPads))
    else (s, [])
  if c = 61 then
    if 2 < s.nbPads + 1 then .ok (.error (.push 0 (ascii "Invalid base64 encoding : too many padding")))
    else .ok (.ok (flush { s with nbPads := s.nbPads + 1 }))
  else if B64_SIZE < c.toNat then .ok (.ok (flush s))
  -- the comparison lets this one pass
  else if c.toNat = B64_SIZE then .error .table
  else if b64 c = 0 ∧ c ≠ 65 then .ok (.ok (flush s))
  else if 0 < s.nbPads then
    .ok (.error (.push 0 (ascii "Invalid base64 encoding : padding chars within body")))
  else .ok (.ok (flush { s with vals := s.vals ++ [b64 c] }))

def decodeBase64Loop : Base64State → Bytes → Except MailFault (Except Err Bytes)
  | _, [] => .ok (.ok [])
  | s, c :: msg =>
      match base64Step s c with
      | .error fault => .error fault
      | .ok (.error e) => .ok (.error e)
      | .ok (.ok (s, output)) =>
          match decodeBase64Loop s msg with
          | .error fault => .error fault
          | .ok (.error e) => .ok (.error e)
          | .ok (.ok data) => .ok (.ok (output ++ data))

def decodeBase64 (msg : Bytes) : Except MailFault (Except Err Bytes) :=
  decodeBase64Loop ⟨[], 0⟩ msg

/-- How many bytes `decode_base64` has appended where it stops. -/
def base64Written : Base64State → Bytes → Nat
  | _, [] => 0
  | s, c :: msg =>
      match base64Step s c with
      | .ok (.ok (s, output)) => output.length + base64Written s msg
      | _ => 0

/-- The last bytes of base64 fill the block exactly.  The groups of three never do: the block has 2 bytes more than
a multiple of 3 at first, and after each `realloc`. -/
def base64Fills (msg : Bytes) : Prop :=
  FILE_ROOM < base64Written ⟨[], 0⟩ msg ∧ base64Written ⟨[], 0⟩ msg % 3 = 2

instance (msg : Bytes) : Decidable (base64Fills msg) :=
  inferInstanceAs (Decidable (_ ∧ _))

/-- The text is appended at once. -/
def copyInVarbuf (msg : Bytes) : Except MailFault (Except Err Bytes) :=
  if fillsBlock (FILE_ROOM + 1) 0 [msg.length] then .error .overrun else .ok (.ok msg)

theorem copyInVarbuf_eq (msg : Bytes) :
    copyInVarbuf msg = if msg.length = FILE_ROOM + 1 then .error .overrun else .ok (.ok msg) := by
  rw [copyInVarbuf, fillsBlock_once]
  exact if_congr decide_eq_true_iff rfl rfl

/-- `decode_in_varbuf` on the buffer of a file. -/
def decodeInVarbuf (h : Header) (msg : Bytes) : Except MailFault (Except Err Bytes) :=
  match headerFind h (ascii "content-transfer-encoding") with
  | none => copyInVarbuf msg
  | some encoding =>
      if strcaseeq encoding.value (ascii "quoted-printable") then (decodeQuoted msg).map .ok
      else if strcaseeq encoding.value (ascii "base64") then
        if base64Fills msg then .error .overrun else decodeBase64 msg
      else copyInVarbuf msg

/-! ## Parts -/

/-- `strnstr`; the index of what it finds. -/
def strnstr (big little : Bytes) (maxLen : Nat) : Except MailFault (Option Nat) :=
  if maxLen ≤ (cstr big).length then .ok (findInfix little (big.take maxLen)) else .error .strnstr

/-- `next` after `r` has returned a value. -/
def MailRun.andThen {α β : Type} (r : MailRun α) (next : α → MailRun β) : MailRun β :=
  match r.result with
  | .error fault => ⟨r.visits, .error fault⟩
  | .ok (.error e) => ⟨r.visits, .ok (.error e)⟩
  | .ok (.ok a) => ⟨r.visits ++ (next a).visits, (next a).result⟩

/-- A part joins the ones before it; its errors are cleared. -/
def MailRun.join (r : MailRun MsgTree) (parts : List MsgTree) : MailRun (List MsgTree) :=
  ⟨r.visits, r.result.map fun
    | .error _ => .ok parts
    | .ok part => .ok (part :: parts)⟩

/-- Before a delimiter: nothing the first time, then one part. -/
def partBefore (parse : Bytes → Nat → MailRun MsgTree) (firstBoundary : Bool) (msg : Bytes) (delim : Nat)
    (parts : List MsgTree) : MailRun (List MsgTree) :=
  if firstBoundary then ⟨[], .ok (.ok parts)⟩ else (parse msg delim).join parts

/-- What comes after the end of line, if it is here. -/
def skipNewline : Bytes → Option Bytes
  | [] => none
  | c :: msg => if c = 10 then some msg else none

/-- The end of a boundary line: whether it is the last one, and what comes after it if there are only blanks
up to the end of line. -/
def lineAfterBoundary (msg : Bytes) : Bool × Option Bytes :=
  let lastBoundary := (ascii "--").isPrefixOf msg
  (lastBoundary, skipNewline ((if lastBoundary then msg.drop 2 else msg).dropWhile isblank))

/-- The loop of `parse_multipart`, with `len` bytes from `msg` to `msg_end`; `parse` is `parse_mail_rec`. -/
def multipartLoop (parse : Bytes → Nat → MailRun MsgTree) (boundary : Bytes) :
    Nat → Bool → Bytes → Nat → List MsgTree → MailRun (List MsgTree)
  | 0, _, _, _, _ => ⟨[], .error .stuck⟩
  | fuel + 1, firstBoundary, msg, len, parts =>
      match strnstr msg boundary len with
      | .error fault => ⟨[], .error fault⟩
      | .ok none =>
          ⟨[], .ok (.error (.push 0 (ascii "multipart boundary not found (" ++ boundary ++ ascii ")")))⟩
      | .ok (some delim) =>
          if len ≤ delim then ⟨[], .error .delimiter⟩
          else
            (partBefore parse firstBoundary msg delim parts).andThen fun parts =>
              -- what comes before the boundary is a part, unless it is the first one
              match lineAfterBoundary (msg.drop (delim + boundary.length)) with
              | (_, none) =>
                  ⟨[], .ok (.error (.push 0
                    (ascii "Badly formated multipart message : boundary not followed by new line (" ++
                      boundary ++ ascii ")")))⟩
              | (lastBoundary, some next) =>
                  let skipped := msg.length - next.length
                  if skipped < len ∧ lastBoundary = false then
                    multipartLoop parse boundary fuel false next (len - skipped) parts
                  else ⟨[], .ok (.ok parts)⟩

/-- Where the body of a file starts: the empty line is not wanted. -/
def skipBlankLine (msg : Bytes) (headerSize : Nat) : Nat :=
  if msg[headerSize]? = some 10 then headerSize + 1 else headerSize

section Parse

variable [Host] (mimeType2ext : Bytes → Option Bytes)

/-- `parse_mail_rec` with `parse_mail_node`. -/
def parseMailRec : Nat → Bytes → Nat → MailRun MsgTree
  | 0, msg, size => ⟨[(msg, size)], .error .stuck⟩
  | fuel + 1, msg, size =>
      match headerParse (cstr msg) with
      | .error (.abort _) => ⟨[(msg, size)], .error .overrun⟩
      | .error (.push code str) => ⟨[(msg, size)], .ok (.error (.push code str))⟩
      | .ok (h, headerSize) =>
          -- `header_parse` reads on to the NUL and may go past the end of the part
          if size < headerSize then ⟨[(msg, size)], .error .headerSize⟩
          else
            match boundaryOf h with
            | some boundary =>
                let r := multipartLoop (parseMailRec fuel) boundary (size + 1) true msg size []
                ⟨(msg, size) :: r.visits, r.result.map fun parts => parts.map (MsgTree.multipart h)⟩
            | none =>
                let start := skipBlankLine msg headerSize
                -- the size of what is left is unsigned
                if size < start then ⟨[(msg, size)], .error .wrap⟩
                else
                  let data := decodeInVarbuf h ((msg.drop start).take (size - start))
                  ⟨[(msg, size)], data.map fun data => data.map (MsgTree.file h (buildParams mimeType2ext h))⟩

omit [Host] in
/-- `line_match(line, ".")`. -/
def lineMatchDot (line : Bytes) : Bool :=
  line.head? == some 46 && (cstr (line.drop 1)).all isspace

omit [Host] in
/-- The loop of `read_whole_mail`; each line takes a byte at least. -/
def readWholeMailLoop : Nat → Bytes → Bytes → Except MailFault (Except Err Bytes)
  | 0, _, _ => .error .stuck
  | fuel + 1, vb, fd =>
      let r := varbufReadLine MAX_MAILLINE_LENGTH fd
      if MAIL_ROOM < vb.length + r.line.length then .error .overrun
      else if r.eof then .ok (.error (.push ENOENT (ascii "End of file")))
      else if lineMatchDot r.line then .ok (.ok vb)
      else readWholeMailLoop fuel (vb ++ r.line) r.rest

omit [Host] in
def readWholeMail (fd : Bytes) : Except MailFault (Except Err Bytes) :=
  readWholeMailLoop (fd.length + 1) [] fd

def msgTreeRead (fd : Bytes) : MailRun MsgTree :=
  match readWholeMail fd with
  | .error fault => ⟨[], .error fault⟩
  | .ok (.error e) => ⟨[], .ok (.error e)⟩
  | .ok (.ok vb) => parseMailRec mimeType2ext (vb.length + 1) vb vb.length

end Parse

end Scambio
