import Scambio.Commons.Host
import Scambio.Commons.Varbuf
import Scambio.Lib.Error
import Scambio.Library.Words

/-!
# Header — fields, text form and parser (`lib/header.c`)

A header is the list of its fields in order; reference counts are left out.  `headerDump` is the
text that `header_dump` and `header_write` both produce.
-/

namespace Scambio

open Library

/-! ## Fields -/

structure HeaderField where
  name : Bytes
  value : Bytes
  deriving DecidableEq, Repr

abbrev Header := List HeaderField

/-- `header_field_new`: names are put to lowercase, new fields go to the tail. -/
def headerFieldNew (h : Header) (name value : Bytes) : Header :=
  h ++ [{ name := name.map tolower, value := value }]

/-- `header_find(h, name, NULL)`. -/
def headerFind (h : Header) (name : Bytes) : Option HeaderField :=
  h.find? fun hf => strcaseeq hf.name name

def SC_TYPE_FIELD : Bytes := ascii "sc-type"
def SC_TARGET_FIELD : Bytes := ascii "sc-target"
def SC_DIRID_FIELD : Bytes := ascii "sc-dirId"
def SC_NAME_FIELD : Bytes := ascii "sc-name"
def SC_LOCALID_FIELD : Bytes := ascii "sc-localid"
def SC_STATUS_FIELD : Bytes := ascii "sc-status"
def SC_USER_FIELD : Bytes := ascii "sc-user"
def SC_RESOURCE_FIELD : Bytes := ascii "sc-resource"

def SC_DIR_TYPE : Bytes := ascii "dir"
def SC_MARK_TYPE : Bytes := ascii "mark"
def SC_PERM_TYPE : Bytes := ascii "perms"

def headerHasType (h : Header) (type : Bytes) : Bool :=
  match headerFind h SC_TYPE_FIELD with
  | some hf => hf.value == type
  | none => false

def headerIsDirectory (h : Header) : Bool :=
  headerHasType h SC_DIR_TYPE

def mdirStr2version (str : Bytes) : Except Err Int :=
  match sscanfInt64 str with
  | some version => .ok version
  | none => .error (.push 0 (ascii "sscanf(" ++ str ++ ascii ")"))

def mdirVersion2str (version : Int) : Bytes :=
  printInt version

def headerTarget (h : Header) : Except Err Int :=
  match headerFind h SC_TARGET_FIELD with
  | some hf => mdirStr2version hf.value
  | none => .error (.push 0 (ascii "Header lacks a target"))

/-! ## Text form -/

def fieldDump (hf : HeaderField) : Bytes :=
  hf.name ++ ascii ": " ++ hf.value ++ ascii "\n"

def headerDump (h : Header) : Bytes :=
  h.flatMap fieldDump ++ ascii "\n"

def fieldWrite (hf : HeaderField) : Bytes :=
  hf.name ++ ascii ": " ++ hf.value ++ ascii "\n"

/-- The sizes of the strings that `header_dump` appends. -/
def dumpSizes (h : Header) : List Nat :=
  (h.flatMap fun hf => [hf.name.length, (ascii ": ").length, hf.value.length, (ascii "\n").length]) ++
    [(ascii "\n").length]

/-- `header_dump` fills a buffer with room for `room` bytes to the last one. -/
def dumpFills (room : Nat) (h : Header) : Bool :=
  fillsBlock (room + 1) 0 (dumpSizes h)

/-- `header_write`: the bytes sent to the descriptor. -/
def headerWrite (h : Header) : Bytes :=
  h.flatMap fieldWrite ++ ascii "\n"

/-- A header is written as it is dumped. -/
theorem headerWrite_eq_headerDump (h : Header) : headerWrite h = headerDump h := rfl

/-! ## Parser -/

def iseol (c : UInt8) : Bool :=
  c == 10 || c == 13

def isEndOfName : Bytes → Bool
  | [] => false
  | c :: _ => c == 58 || iseol c

/-- An end of line that no blank follows: folded lines go on. -/
def isEndOfValue : Bytes → Bool
  | [] => false
  | [c] => iseol c
  | c :: d :: _ => iseol c && !isblank d

/-- The first place where the predicate holds. -/
def firstDelimiter (isDelimiter : Bytes → Bool) (msg : Bytes) : Option Nat :=
  msg.tails.findIdx? isDelimiter

/-- The text before it; all of the message where there is none. -/
def beforeDelimiter (isDelimiter : Bytes → Bool) (msg : Bytes) : Bytes :=
  msg.take ((firstDelimiter isDelimiter msg).getD msg.length)

/-- The characters that the loop of `parse` appends to its buffer, with or without a delimiter. -/
def collected (isDelimiter : Bytes → Bool) (msg : Bytes) : Bytes :=
  squeeze isspace 32 true (beforeDelimiter isDelimiter msg)

/-- The loop of `parse`, up to the delimiter: the compacted text and the number of characters read;
`none` if the message ends first. -/
def parseLoop (isDelimiter : Bytes → Bool) : Bool → Bytes → Option (Bytes × Nat)
  | _, [] => none
  | remSpace, c :: src =>
      if isDelimiter (c :: src) then some ([], 0)
      else if isspace c then
        if remSpace then (parseLoop isDelimiter true src).map fun r => (r.1, r.2 + 1)
        else (parseLoop isDelimiter true src).map fun r => (32 :: r.1, r.2 + 1)
      else (parseLoop isDelimiter false src).map fun r => (c :: r.1, r.2 + 1)

variable [Host]

/-- `parse`: a buffer to which nothing was appended is handed over as `malloc` left it, since only
appending terminates it.  `varbuf_ctor` makes it for 1000 characters and a NUL; the character after
these fills it, and the NUL of that one is written behind its end. -/
def parse (msg : Bytes) (isDelimiter : Bytes → Bool) : Except Err (Bytes × Nat) :=
  if 1000 < (collected isDelimiter msg).length then .error overrun
  else
    match parseLoop isDelimiter true msg with
    | none => .error (.push 0 (ascii "Unterminated string in header : '" ++ msg ++ ascii "'"))
    | some (vb, n) => .ok (if vb = [] then Host.freshBuf msg else trimEnd isspace vb, n)

/-- `parse_field`: name, value and number of characters parsed; `none` at the end of the header. -/
def parseField (msg : Bytes) : Except Err (Option (Bytes × Bytes × Nat)) :=
  match parse msg isEndOfName with
  | .error e => .error e
  | .ok (_, 0) => .ok none
  | .ok (name, parsedN + 1) =>
      match parse (msg.drop (parsedN + 2)) isEndOfValue with
      | .error e => .error e
      | .ok (_, 0) => .error (.push 0 (ascii "Field '" ++ name ++ ascii "' has no value"))
      | .ok (value, parsedV + 1) => .ok (some (name, value, (parsedN + 2) + (parsedV + 2)))

/-- The loop of `header_parse`.  Every field takes at least one character, so the length of the
message bounds the number of rounds. -/
def headerParseLoop : Nat → Bytes → Except Err (Header × Nat)
  | 0, _ => .ok ([], 0)
  | _ + 1, [] => .ok ([], 0)
  | fuel + 1, msg =>
      match parseField msg with
      | .error e => .error e
      | .ok none => .ok ([], 0)
      | .ok (some (name, value, parsed)) =>
          match headerParseLoop fuel (msg.drop parsed) with
          | .error e => .error e
          | .ok (h, n) => .ok ({ name := name.map tolower, value := value } :: h, parsed + n)

/-- `header_parse` on a fresh header: its fields and the number of characters consumed. -/
def headerParse (msg : Bytes) : Except Err (Header × Nat) :=
  headerParseLoop msg.length msg

/-! ## Reading from a descriptor -/

/-- Why the line loop of `header_read` stopped. -/
inductive EndOfLines
  | blankLine
  | eof
  | tooManyLines
  deriving DecidableEq, Repr

/-- What the line loop of `header_read` leaves: the buffer, the unread bytes, the number of complete
lines and why it stopped; and how many characters it has appended, those of the blank line included. -/
structure LinesRead where
  vb : Bytes
  appended : Nat
  rest : Bytes
  nbLines : Nat
  stop : EndOfLines
  deriving DecidableEq, Repr

omit [Host] in
/-- The line loop of `header_read`, with `left` lines before MAX_HEADER_LINES is passed. -/
def headerReadLoop : Nat → Bytes → LinesRead
  | left, fd =>
      let r := varbufReadLine MAX_HEADLINE_LENGTH fd
      if r.eof then { vb := r.line, appended := r.line.length, rest := r.rest, nbLines := 0, stop := .eof }
      else
        match left with
        | 0 => { vb := r.line, appended := r.line.length, rest := r.rest, nbLines := 1, stop := .tooManyLines }
        | left + 1 =>
            if lineMatchEmpty r.line then
              { vb := [], appended := r.line.length, rest := r.rest, nbLines := 1, stop := .blankLine }
            else
              let next := headerReadLoop left r.rest
              { next with
                vb := r.line ++ next.vb
                appended := r.line.length + next.appended
                nbLines := next.nbLines + 1 }

/-- `header_read` on a fresh header: its fields, and the bytes left on the descriptor.  The lines are
appended, one character after the other, to a buffer for 10240 of them. -/
def headerRead (fd : Bytes) : Except Err Header × Bytes :=
  let r := headerReadLoop MAX_HEADER_LINES fd
  if 10240 < r.appended then (.error overrun, r.rest)
  else if r.nbLines = 0 then (.error (.push 0 (ascii "No lines in header")), r.rest)
  else if r.stop = .tooManyLines then
    (.error (.push 0 (ascii "End of file before end of header")), r.rest)
  else
    match headerParse (cstr r.vb) with
    | .error e => (.error e, r.rest)
    | .ok (h, _) => (.ok h, r.rest)

end Scambio
