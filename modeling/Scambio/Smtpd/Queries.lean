import Scambio.Lib.Cmd

/-!
# Queries — the commands of the SMTP server (`smtpd/queries.c`, `smtpd/smtpd.c`)

The state of a session are the addresses of `struct cnx_env`, which the handlers set and clear one by
one.  What a handler gets from elsewhere comes with the command: the directory that `mdir_lookup` finds
for a folder, and what `process_mail` makes of the message.  Answers are all written.

`exec_noop` is never called, since `init_syntax` registers HELP twice and NOOP not at all.
-/

namespace Scambio

open Library

def OK : Nat := 250
def SERVICE_CLOSING : Nat := 221
def START_MAIL : Nat := 354
def LOCAL_ERROR : Nat := 451
def SYNTAX_ERR : Nat := 500
def BAD_SEQUENCE : Nat := 503
def MBOX_UNAVAIL_2 : Nat := 550

def SC_FROM_FIELD : Bytes := ascii "sc-from"
def SC_DESCR_FIELD : Bytes := ascii "sc-descr"
def SC_EXTID_FIELD : Bytes := ascii "sc-extid"
def SC_START_FIELD : Bytes := ascii "sc-start"
def SC_MAIL_TYPE : Bytes := ascii "mail"

def UINT_MAX : Nat := 2 ^ 32 - 1

/-! ## Syntax -/

/-- The services of `init_syntax`, in the order of their registration. -/
inductive SmtpService
  | ehlo
  | helo
  | mail
  | rcpt
  | data
  | rset
  | vrfy
  | expn
  | help
  | helpMore
  | quit
  deriving DecidableEq, Repr

namespace SmtpService

def cmdDef : SmtpService → CmdDef
  | ehlo => stringService (ascii "ehlo") 1
  | helo => stringService (ascii "helo") 1
  | mail => { stringService (ascii "mail") 1 with nbArgMax := UINT_MAX }
  | rcpt => { stringService (ascii "rcpt") 1 with nbArgMax := UINT_MAX }
  | data => stringService (ascii "data") 0
  | rset => stringService (ascii "rset") 0
  | vrfy => stringService (ascii "vrfy") 1
  | expn => stringService (ascii "expn") 1
  | help => { stringService (ascii "help") 1 with nbArgMin := 0 }
  | helpMore => { stringService (ascii "help") 0 with nbArgMax := UINT_MAX }
  | quit => stringService (ascii "quit") 0

def all : List SmtpService :=
  [ehlo, helo, mail, rcpt, data, rset, vrfy, expn, help, helpMore, quit]

end SmtpService

/-- `init_syntax` of smtpd. -/
def smtpdInitSyntax : CmdSyntax :=
  (SmtpService.all.map SmtpService.cmdDef).foldl CmdSyntax.register
    { defs := [], noAnswerIfNoSeqnum := false }

/-! ## Addresses -/

/-- The addresses of `struct cnx_env`.  There is no forward path without a reverse path, nor without its
mailbox. -/
structure CnxEnv where
  quit : Bool
  domain : Option Bytes
  reversePath : Option Bytes
  forwardPath : Option Bytes
  mailbox : Option Nat
  reverse_of_forward : forwardPath.isSome = true → reversePath.isSome = true
  mailbox_of_forward : forwardPath.isSome = true → mailbox.isSome = true

/-- `calloc`. -/
def CnxEnv.new : CnxEnv :=
  { quit := false, domain := none, reversePath := none, forwardPath := none, mailbox := none
    reverse_of_forward := fun h => h, mailbox_of_forward := fun h => h }

def resetState (env : CnxEnv) : CnxEnv :=
  { env with
    domain := none, reversePath := none, forwardPath := none
    reverse_of_forward := fun h => h, mailbox_of_forward := fun h => by cases h }

def setDomain (env : CnxEnv) (id : Bytes) : CnxEnv :=
  { resetState env with domain := some id }

/-- What `set_address` keeps of an address. -/
def setAddress (value : Bytes) : Bytes :=
  if value.head? = some 60 ∧ value.getLast? = some 62 then (value.drop 1).take (value.length - 2)
  else value

def setReversePath (env : CnxEnv) (path : Bytes) : CnxEnv :=
  { env with reversePath := some (setAddress path), reverse_of_forward := fun _ => rfl }

def incomingFolder (path : Bytes) : Bytes :=
  snprintfPath (ascii "/mailboxes/Incoming/" ++ path)

/-- `set_forward_path`, which tells if the mailbox exists. -/
def setForwardPath (env : CnxEnv) (path : Bytes) (lookup : Bytes → Option Nat)
    (h : env.reversePath.isSome = true) : CnxEnv × Bool :=
  match lookup (incomingFolder (setAddress path)) with
  | none =>
      ({ env with
          forwardPath := none, mailbox := none
          reverse_of_forward := fun h => by cases h
          mailbox_of_forward := fun h => by cases h }, false)
  | some mdir =>
      ({ env with
          forwardPath := some (setAddress path), mailbox := some mdir
          reverse_of_forward := fun _ => h
          mailbox_of_forward := fun _ => rfl }, true)

/-! ## Handlers -/

/-- `strncasecmp(kw, s, strlen(kw))`. -/
def startsWithCase (kw s : Bytes) : Bool :=
  strcaseeq kw (s.take kw.length)

/-- What `process_mail` learns from the message once its parts are stored. -/
structure MailInfo where
  resources : List Bytes
  subject : Option Bytes
  messageId : Option Bytes
  start : Bytes
  deriving DecidableEq, Repr

/-- What a handler does: the state that it leaves, its answers, the patches that it has requested, and
whether it leaves an error, which ends the session. -/
structure SmtpDone where
  env : CnxEnv
  answers : List (Nat × Bytes)
  requests : List (Nat × Header) := []
  failed : Bool := false

def execHelo (hostname : Bytes) (env : CnxEnv) (id : Bytes) : SmtpDone :=
  { env := setDomain env id, answers := [(OK, hostname)] }

def kwFrom : Bytes := ascii "FROM:"
def kwTo : Bytes := ascii "TO:"

def execMail (env : CnxEnv) (arg : Bytes) : SmtpDone :=
  if env.domain = none then
    { env := env, answers := [(BAD_SEQUENCE, ascii "What about presenting yourself first ?")] }
  else if !startsWithCase kwFrom arg then
    { env := env, answers := [(SYNTAX_ERR, ascii "I remember RFC mentioning 'MAIL FROM:...'")] }
  else
    { env := setReversePath env (arg.drop kwFrom.length), answers := [(OK, ascii "Ok")] }

/-- The name that a recipient is given by. -/
def rcptName (arg : Bytes) : Bytes :=
  (arg.drop kwTo.length).dropWhile (· == 32)

def execRcpt (env : CnxEnv) (arg : Bytes) (lookup : Bytes → Option Nat) : SmtpDone :=
  if h : env.reversePath.isSome = true then
    if !startsWithCase kwTo arg then
      { env := env, answers := [(SYNTAX_ERR, ascii "It should be 'RCPT TO:...', shouldn't it ?")] }
    else
      match setForwardPath env (rcptName arg) lookup h with
      | (env, false) => { env := env, answers := [(MBOX_UNAVAIL_2, ascii "Bad guess")] }
      | (env, true) => { env := env, answers := [(OK, ascii "Ok")] }
  else { env := env, answers := [(BAD_SEQUENCE, ascii "No MAIL command ?")] }

/-- The header that `process_mail` submits. -/
def mailHeader (reversePath : Bytes) (mail : MailInfo) : Header :=
  let h := headerFieldNew [] SC_TYPE_FIELD SC_MAIL_TYPE
  let h := headerFieldNew h SC_FROM_FIELD reversePath
  let h := mail.resources.foldl (fun h ref => headerFieldNew h SC_RESOURCE_FIELD ref) h
  let h := mail.subject.elim h (headerFieldNew h SC_DESCR_FIELD)
  let h := mail.messageId.elim h (headerFieldNew h SC_EXTID_FIELD)
  headerFieldNew h SC_START_FIELD mail.start

/-- `exec_data`; `mail` is `none` if some step of `process_mail` fails. -/
def execData (env : CnxEnv) (mail : Option MailInfo) : SmtpDone :=
  if h : env.forwardPath.isSome = true then
    let go := (START_MAIL, ascii "Go ahaid, end with a single dot")
    match mail with
    | some mail =>
        -- a forward path is only there with a reverse path and a mailbox
        let reversePath := env.reversePath.get (env.reverse_of_forward h)
        let mailbox := env.mailbox.get (env.mailbox_of_forward h)
        { env := env, answers := [go, (OK, ascii "Ok")]
          requests := [(mailbox, mailHeader reversePath mail)] }
    | none =>
        { env := env, answers := [go, (LOCAL_ERROR, ascii "Something bad happened at some point")]
          failed := true }
  else { env := env, answers := [(BAD_SEQUENCE, ascii "What recipient, again ?")] }

def execRset (env : CnxEnv) : SmtpDone :=
  { env := resetState env, answers := [(OK, ascii "Ok")] }

/-- `exec_vrfy`, `exec_expn` and `exec_help`. -/
def notImplemented (env : CnxEnv) : SmtpDone :=
  { env := env, answers := [(LOCAL_ERROR, ascii "Not implemented yet")] }

def execQuit (env : CnxEnv) : SmtpDone :=
  { env := { env with quit := true }, answers := [(SERVICE_CLOSING, ascii "Bye")] }

/-! ## Sessions -/

/-- A command with its first argument, if it has one. -/
structure SmtpCmd where
  service : SmtpService
  arg : Bytes
  deriving DecidableEq, Repr

/-- What `mdir_cmd_read` makes of a line; an error ends the session. -/
def smtpCmdRead (line : Bytes) : Option SmtpCmd :=
  match (parseTokens smtpdInitSyntax.defs (tokenize line)).result with
  | .error _ => none
  | .ok cmd =>
      (SmtpService.all.find? fun s => s.cmdDef = cmd.cmdDef).map fun service =>
        { service := service
          arg :=
            match cmd.args with
            | .string s :: _ => s
            | _ => [] }

/-- A line that the client sends, and what the rest of the system has for its handler. -/
structure SmtpEvent where
  line : Bytes
  lookup : Bytes → Option Nat
  mail : Option MailInfo

def exec (hostname : Bytes) (env : CnxEnv) (cmd : SmtpCmd) (e : SmtpEvent) : SmtpDone :=
  match cmd.service with
  | .ehlo | .helo => execHelo hostname env cmd.arg
  | .mail => execMail env cmd.arg
  | .rcpt => execRcpt env cmd.arg e.lookup
  | .data => execData env e.mail
  | .rset => execRset env
  | .vrfy | .expn | .help | .helpMore => notImplemented env
  | .quit => execQuit env

/-- A command as the client and the directories saw it. -/
structure Exchange where
  cmd : SmtpCmd
  answers : List (Nat × Bytes)
  requests : List (Nat × Header)
  /-- The mailbox of the recipient, if the command has one. -/
  mailbox : Option Nat
  deriving DecidableEq, Repr

/-- The mailbox of the recipient that a command names. -/
def recipientMailbox (cmd : SmtpCmd) (e : SmtpEvent) : Option Nat :=
  if cmd.service = .rcpt then e.lookup (incomingFolder (setAddress (rcptName cmd.arg))) else none

structure SmtpSession where
  env : CnxEnv
  closed : Bool
  log : List Exchange

def SmtpSession.start : SmtpSession :=
  { env := .new, closed := false, log := [] }

/-- One turn of the loop of `serve_cnx`. -/
def SmtpSession.step (hostname : Bytes) (s : SmtpSession) (e : SmtpEvent) : SmtpSession :=
  if s.closed then s
  else
    match smtpCmdRead e.line with
    | none => { s with closed := true }
    | some cmd =>
        let done := exec hostname s.env cmd e
        { env := done.env
          closed := done.failed || done.env.quit
          log := s.log ++ [{ cmd := cmd, answers := done.answers, requests := done.requests
                             mailbox := recipientMailbox cmd e }] }

/-- `serve_cnx`. -/
def serveCnx (hostname : Bytes) (events : List SmtpEvent) : SmtpSession :=
  events.foldl (SmtpSession.step hostname) .start

end Scambio
