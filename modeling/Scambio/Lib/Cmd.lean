import Scambio.Commons.Varbuf
import Scambio.Lib.Folder

/-!
# Cmd — reading a command (`lib/cmd.c`, `scambio/cmd.h`)

A line is read into a buffer and cut in place: a token is a pointer into the buffer, and the
delimiter that ends it becomes a NUL.  Pointers are modelled by offsets.  Arrays are accessed with an
explicit check, so that an access out of what was filled shows as a `fault` and not as a value.
-/

namespace Scambio

open Library

def CMD_MAX_ARGS : Nat := 64
def MAX_CMD_LINE : Nat := PATH_MAX + 256
def E2BIG : Nat := 7
def EDOM : Nat := 33

/-! ## Definitions and commands -/

/-- `enum mdir_cmd_arg_type`. -/
inductive ArgType
  | string
  | integer
  deriving DecidableEq, Repr

/-- `struct mdir_cmd_def`.  `types` holds the types that the definition writes down, the rest of the
array is CMD_STRING. -/
structure CmdDef where
  keyword : Bytes
  nbArgMin : Nat
  nbArgMax : Nat
  nbTypes : Nat
  types : List ArgType
  negseq : Bool := false
  deriving DecidableEq, Repr

/-- `struct mdir_syntax`, the last definition registered first. -/
structure CmdSyntax where
  defs : List CmdDef
  noAnswerIfNoSeqnum : Bool
  deriving DecidableEq, Repr

/-- `mdir_syntax_register`. -/
def CmdSyntax.register (stx : CmdSyntax) (d : CmdDef) : CmdSyntax :=
  { stx with defs := d :: stx.defs }

/-- `union mdir_cmd_arg`, of a command. -/
inductive CmdArg
  | string (s : Bytes)
  | integer (v : Int)
  deriving DecidableEq, Repr

/-- `struct mdir_cmd`, as the callback gets it. -/
structure Cmd where
  cmdDef : CmdDef
  seq : Int
  args : List CmdArg
  deriving DecidableEq, Repr

/-- An access that is not to a token of the line, to `def->types`, to `cmd->args` or to a byte of the
line. -/
inductive Access
  | tokens (i : Nat)
  | types (i : Nat)
  | args (i : Nat)
  | line (i : Int)
  deriving DecidableEq, Repr

inductive CmdErr
  | raised (e : Err)
  | fault (a : Access)
  deriving DecidableEq, Repr

/-- `with_error(code, ...)`. -/
def raise {α : Type} (code : Nat) (str : Bytes) : Except CmdErr α :=
  .error (.raised (.push code str))

/-- `def->types[i]`. -/
def CmdDef.typeAt (d : CmdDef) (i : Nat) : Except CmdErr ArgType :=
  if i < CMD_MAX_ARGS then .ok (d.types.getD i .string) else .error (.fault (.types i))

/-! ## Tokens -/

def isDelimiter (c : UInt8) : Bool :=
  c == 32 || c == 9 || c == 10 || c == 13 || c == 0

/-- The buffer as `tokenize` leaves it, the entries of `tokens` that it filled and counted, and what
it returns. -/
structure Tokens where
  buf : Bytes
  offsets : List Nat
  nbTokens : Int
  deriving DecidableEq, Repr

/-- `while (c < vb->used && is_delimiter(vb->buf[c])) c++`. -/
def trimLeft (buf : Bytes) (c : Nat) : Nat :=
  c + ((buf.drop c).takeWhile isDelimiter).length

/-- `while (c < vb->used && !is_delimiter(vb->buf[c])) c++`. -/
def endOfToken (buf : Bytes) (c : Nat) : Nat :=
  c + ((buf.drop c).takeWhile (fun x => !isDelimiter x)).length

/-- The loop of `tokenize`, with room for `left` more tokens. -/
def tokenizeLoop : Nat → Bytes → Nat → List Nat → Tokens
  | 0, buf, _, offsets => { buf := buf, offsets := offsets, nbTokens := -E2BIG }
  | left + 1, buf, c, offsets =>
      let start := trimLeft buf c
      if buf.length ≤ start then { buf := buf, offsets := offsets, nbTokens := offsets.length }
      else
        let stop := endOfToken buf start
        -- a token that nothing ends is not counted
        if buf.length ≤ stop then { buf := buf, offsets := offsets, nbTokens := offsets.length }
        else tokenizeLoop left (buf.set stop 0) stop (offsets ++ [start])

def tokenize (line : Bytes) : Tokens :=
  tokenizeLoop CMD_MAX_ARGS line 0 []

/-- `tokens[i].string`. -/
def Tokens.string (tk : Tokens) (i : Nat) : Except CmdErr Bytes :=
  match tk.offsets[i]? with
  | none => .error (.fault (.tokens i))
  | some off => .ok (cstr (tk.buf.drop off))

/-! ## Arguments -/

/-- `cmd->nb_args > cmd->def->nb_arg_max && (...)` of `build_cmd`: the last argument takes what is in
excess. -/
def swallows (d : CmdDef) (nbArgs : Nat) : Except CmdErr Bool :=
  if d.nbArgMax < nbArgs then
    if d.nbTypes < d.nbArgMax then .ok true
    else (d.typeAt (unsignedPred d.nbArgMax)).map (· == .string)
  else .ok false

/-- The `n` last turns of the loop `args[--cmd->nb_args].string[-1] = ' '`, where `args` is
`tokens + skip`. -/
def glue (skip nbArgMax : Nat) : Nat → Tokens → Except CmdErr Tokens
  | 0, tk => .ok tk
  | n + 1, tk =>
      match tk.offsets[skip + (nbArgMax + n)]? with
      | none => .error (.fault (.tokens (skip + (nbArgMax + n))))
      | some off =>
          if 0 < off ∧ off ≤ tk.buf.length then
            glue skip nbArgMax n { tk with buf := tk.buf.set (off - 1) 32 }
          else .error (.fault (.line ((off : Int) - 1)))

/-- One turn of the loop that copies the arguments, for an argument of text `s`. -/
def transcodeArg (integer : Bool) (s : Bytes) : Except CmdErr CmdArg :=
  if integer then
    let (v, stop) := strtoll s
    if stop = [] then .ok (.integer v)
    else raise EINVAL ([39] ++ s ++ [39] ++ ascii " is not integer")
  else .ok (.string s)

/-- `a < cmd->def->nb_types && cmd->def->types[a] == CMD_INTEGER`. -/
def CmdDef.isInteger (d : CmdDef) (a : Nat) : Except CmdErr Bool :=
  if a < d.nbTypes then (d.typeAt a).map (· == .integer) else .ok false

/-- The loop that copies the arguments: `n` of them, from `a` on. -/
def transcode (d : CmdDef) (skip : Nat) (tk : Tokens) : Nat → Nat → Except CmdErr (List CmdArg)
  | 0, _ => .ok []
  | n + 1, a => do
      let integer ← d.isInteger a
      let s ← tk.string (skip + a)
      if CMD_MAX_ARGS ≤ a then .error (.fault (.args a))
      else do
        let arg ← transcodeArg integer s
        let args ← transcode d skip tk n (a + 1)
        .ok (arg :: args)

def buildCmd (d : CmdDef) (skip nbArgs : Nat) (tk : Tokens) : Except CmdErr (List CmdArg) :=
  if nbArgs < d.nbArgMin then raise EDOM (ascii "Bad nb args (" ++ decimal nbArgs ++ ascii ")")
  else do
    if ← swallows d nbArgs then
      let tk ← glue skip d.nbArgMax (nbArgs - d.nbArgMax) tk
      transcode d skip tk d.nbArgMax 0
    else transcode d skip tk nbArgs 0

/-! ## Lines -/

def readSeq (str : Bytes) : Except CmdErr Int :=
  let (seq, stop) := strtoll str
  if stop = [] then .ok seq
  else raise EINVAL (ascii "Cannot read token " ++ [39] ++ str ++ [39])

def isSeq (str : Bytes) : Bool :=
  str.head?.any isDigit || (str.head? == some 45 && str.tail.head?.any isDigit)

/-- Does `LIST_FOREACH(cmd->def, &syntax->defs, entry)` stop at this definition? -/
def CmdDef.selects (seq : Int) (keyword : Bytes) (d : CmdDef) : Bool :=
  !(decide (seq < 0) && !d.negseq) && !(decide (seq > 0) && d.negseq) && strcaseeq d.keyword keyword

/-- `-cmd->seq` on a `long long`. -/
def negateSeq (seq : Int) : Int :=
  Int.bmod (-seq) (2 ^ 64)

/-- What `parse_line` leaves in `cmd->nb_args`, once set, and how it ends. -/
structure Parse where
  nbArgs : Option Nat
  result : Except CmdErr Cmd
  deriving DecidableEq

/-- The search of the definition and the call of `build_cmd`. -/
def dispatch (defs : List CmdDef) (seq : Int) (keyword : Bytes)
    (build : CmdDef → Except CmdErr (List CmdArg)) : Except CmdErr Cmd :=
  match defs.find? (CmdDef.selects seq keyword) with
  | none => raise ENOENT (ascii "No such keyword " ++ [39] ++ keyword ++ [39])
  | some d => do
      let args ← build d
      .ok { cmdDef := d, seq := if seq < 0 then negateSeq seq else seq, args := args }

/-- `parse_line`, once the line was cut. -/
def parseTokens (defs : List CmdDef) (tk : Tokens) : Parse :=
  if tk.nbTokens = 0 then { nbArgs := none, result := raise EINVAL (ascii "No token found on line") }
  else
    match tk.string 0 with
    | .error e => { nbArgs := none, result := .error e }
    | .ok first =>
        let withSeq := isSeq first
        if withSeq = true ∧ tk.nbTokens < 2 then
          { nbArgs := none
            result := raise EINVAL (ascii "Bad number of tokens (" ++ printInt tk.nbTokens ++ ascii ")") }
        else
          let skip := if withSeq then 2 else 1
          -- `nb_args` is unsigned: the error code of `tokenize` makes it huge
          let nbArgs := ((tk.nbTokens - skip) % 2 ^ 32).toNat
          { nbArgs := some nbArgs
            result := do
              let keyword ← tk.string (skip - 1)
              let seq ← if withSeq then readSeq first else .ok 0
              dispatch defs seq keyword (fun d => buildCmd d skip nbArgs tk) }

/-- What one call of `mdir_cmd_read` does: the bytes it leaves on the connection, the command it
dispatches, and whether reading the line stays in the block of the buffer. -/
structure CmdRead where
  rest : Bytes
  inBlock : Bool
  parse : Parse
  deriving DecidableEq

/-- The line is appended one byte after the other to a buffer for 1024 bytes and a NUL: `varbuf_put` lets one
more byte in, and writes the NUL behind the block. -/
def parseLine (defs : List CmdDef) (fd : Bytes) : CmdRead :=
  let r := varbufReadLine MAX_CMD_LINE fd
  { rest := r.rest
    inBlock := decide (r.line.length ≤ 1024)
    parse :=
      if r.eof then { nbArgs := none, result := raise ENOENT (ascii "End of file") }
      else parseTokens defs (tokenize r.line) }

/-- `mdir_cmd_read`: without error `parse_line` has selected a definition, so that its loop runs
once. -/
def mdirCmdRead (stx : CmdSyntax) (fd : Bytes) : CmdRead :=
  parseLine stx.defs fd

/-! ## Registered commands -/

def kwAuth : Bytes := ascii "auth"
def kwPut : Bytes := ascii "put"
def kwRem : Bytes := ascii "rem"
def kwSub : Bytes := ascii "sub"
def kwUnsub : Bytes := ascii "unsub"
def kwQuit : Bytes := ascii "quit"
def kwPatch : Bytes := ascii "patch"

/-- `MDIR_CNX_ANSW_REGISTER`: the definition of the answers to a query. -/
def answRegister (keyword : Bytes) : CmdDef :=
  { keyword := keyword, nbArgMin := 1, nbArgMax := 2, nbTypes := 2, types := [.integer, .string]
    negseq := true }

/-- A command with `n` strings for arguments. -/
def stringService (keyword : Bytes) (n : Nat) : CmdDef :=
  { keyword := keyword, nbArgMin := n, nbArgMax := n, nbTypes := n, types := List.replicate n .string }

/-- `init_syntax` of mdsyncd. -/
def mdsyncdInitSyntax : CmdSyntax :=
  [stringService kwQuit 0, stringService kwUnsub 1, stringService kwSub 2, stringService kwRem 1,
    stringService kwPut 1, stringService kwAuth 1].foldl CmdSyntax.register
    { defs := [], noAnswerIfNoSeqnum := true }

/-- The syntax that `connecter_begin` of mdsyncc registers. -/
def connecterBegin : CmdSyntax :=
  [answRegister kwSub, answRegister kwUnsub, answRegister kwPut, answRegister kwRem,
    answRegister kwQuit, answRegister kwAuth,
    { keyword := kwPatch, nbArgMin := 4, nbArgMax := 4, nbTypes := 4
      types := [.string, .integer, .integer, .string] }].foldl CmdSyntax.register
    { defs := [], noAnswerIfNoSeqnum := true }

end Scambio
