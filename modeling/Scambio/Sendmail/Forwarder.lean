import Scambio.Lib.Header

/-!
# Forwarder — sending mails to the relay (`sendmail/forwarder.c`)

`send_forward` sends commands, each with a reply to wait for, and the lines of the message.  It is given
here by the list of what it sends, and by what happens to each: the relay may refuse, a line may be too
long, a file may be missing, the connection may be lost.

The relay follows RFC 5321: a transaction goes from an accepted MAIL to the final reply to DATA, and what
comes after 354 is text up to a lone dot.  Whether a refusal of DATA is a final reply is left open
(`refusalEnds`).

Strings are given to `snprintf` as formats.  What one with a `%` makes is not told here: whether such a line has room,
and what becomes of it, is left to its luck.
-/

namespace Scambio

open Library

def MAX_SMTP_LINE : Nat := 512
def CNX_IDLE_TIMEOUT : Nat := 15

/-! ## The relay -/

/-- What the relay has of us on a connection: no transaction, one that is open, one whose text is being
read.  A connection may also be lost. -/
inductive Relay
  | idle
  | opened
  | text
  | gone
  deriving DecidableEq, Repr

inductive SmtpVerb
  | mail
  | rcpt
  | data
  | dot
  deriving DecidableEq, Repr

namespace Relay

def NoTransaction (r : Relay) : Prop :=
  r = idle ∨ r = gone

instance (r : Relay) : Decidable r.NoTransaction :=
  inferInstanceAs (Decidable (_ ∨ _))

/-- The relay gets a command for which it has a given status, and replies if it takes it for a command. -/
def receive (refusalEnds : Bool) (r : Relay) (v : SmtpVerb) (status : Int) : Relay × Option Int :=
  match r with
  | gone => (gone, none)
  | text => if v = .dot then (idle, some status) else (text, none)
  | idle => (if v = .mail ∧ status = 250 then opened else idle, some status)
  | opened =>
      (if v = .data then if status = 354 then text else if refusalEnds then idle else opened else opened,
        some status)

end Relay

/-! ## Commands and lines -/

/-- What is sent at once: the strings of a line, or a file in base64. -/
inductive Sending
  | command (verb : SmtpVerb) (strs : List Bytes)
  | line (strs : List Bytes)
  | file (name : Bytes)
  deriving DecidableEq, Repr

/-- What happens to it.  `unsent` are failures before the relay gets anything, `unread` those that come
after. -/
inductive Luck
  | done (status : Int)
  | unread (status : Int)
  | unsent
  | lost
  deriving DecidableEq, Repr

/-- How `send_forward` goes on. -/
inductive Outcome
  | go
  | status (s : Int)
  | error
  deriving DecidableEq, Repr

/-- `send_smtp_nstrs` has room for the line, if no string of it is a format. -/
def Sending.Fits : Sending → Prop
  | .command _ strs | .line strs => (∀ s ∈ strs, (37 : UInt8) ∉ s) → strs.flatten.length + 2 < MAX_SMTP_LINE
  | .file _ => True

instance : (s : Sending) → Decidable s.Fits
  | .command _ _ | .line _ => inferInstanceAs (Decidable (_ → _))
  | .file _ => inferInstanceAs (Decidable True)

/-- What `send_forward` makes of a status. -/
def checkStatus : SmtpVerb → Int → Outcome
  | .mail, s => if s ≠ 250 then .status s else .go
  | .rcpt, s => if s < 250 ∨ s > 252 then .status s else .go
  | .data, s => if s ≠ 354 then .status s else .go
  | .dot, s => .status s

/-- `smtp_cmd`, with the check of its status. -/
def smtpCmd (refusalEnds : Bool) (v : SmtpVerb) (l : Luck) (r : Relay) : Relay × Outcome :=
  match l with
  | .done st =>
      match r.receive refusalEnds v st with
      | (r, none) => (r, .error)
      | (r, some st) => (r, checkStatus v st)
  | .unread st => ((r.receive refusalEnds v st).1, .error)
  | .unsent => (r, .error)
  | .lost => (.gone, .error)

/-- `send_smtp_strs` or `send_file`, for which there is no reply. -/
def sendText (l : Luck) (r : Relay) : Relay × Outcome :=
  match l with
  | .done _ => (r, if r = .gone then .error else .go)
  | .unread _ => (r, .error)
  | .unsent => (r, .error)
  | .lost => (.gone, .error)

def Sending.send (refusalEnds : Bool) (s : Sending) (l : Luck) (r : Relay) : Relay × Outcome :=
  if s.Fits then
    match s with
    | .command v _ => smtpCmd refusalEnds v l r
    | .line _ => sendText l r
    | .file _ => sendText l r
  else (r, .error)

/-- All of a list in order; an error gives no status.  (A part that fails is still followed by an end of
line, which is text for the relay.) -/
def sendAll (refusalEnds : Bool) : List Sending → (Nat → Luck) → Relay → Relay × Option Int
  | [], _, r => (r, none)
  | s :: rest, luck, r =>
      match s.send refusalEnds (luck 0) r with
      | (r, .go) => sendAll refusalEnds rest (fun i => luck (i + 1)) r
      | (r, .status st) => (r, some st)
      | (r, .error) => (r, none)

/-! ## Forwards -/

structure Part where
  filename : Bytes
  name : Option Bytes
  type : Option Bytes
  deriving DecidableEq, Repr

/-- `struct forward`, with what `send_forward` finds in the header; `send_patch` has checked that there is
a sender and a subject. -/
structure Forward where
  sender : Bytes
  dests : List Bytes
  descr : Bytes
  extid : Option Bytes
  version : Int
  parts : List Part
  status : Int
  deriving DecidableEq, Repr

def mimeBoundary : Bytes := ascii "Do-Noy-Cross-Criminal-Scene"

def sendPart (part : Part) : List Sending :=
  .line [ascii "Content-Transfer-Encoding: base64"] ::
    (match part.type with
      | none => []
      | some type =>
          .line [ascii "Content-Type: ", type, ascii ";"] ::
            (part.name.map fun name => .line [ascii "\tname=\"", name, ascii "\""]).toList) ++
    [.line [[]], .file part.filename]

def mailFrom (fwd : Forward) : Sending :=
  .command .mail [ascii "MAIL FROM:<", fwd.sender, ascii ">"]

def rcptTo (dest : Bytes) : Sending :=
  .command .rcpt [ascii "RCPT TO:<", dest, ascii ">"]

def destLines (dests : List Bytes) : List Sending :=
  dests.mapIdx fun i dest => .line [if i = 0 then ascii "To: " else ascii " , ", dest]

def extidLines (extid : Option Bytes) : List Sending :=
  (extid.map fun extid => .line [ascii "In-Reply-To: ", extid]).toList

def partLines (part : Part) : List Sending :=
  .line [[]] :: .line [ascii "--", mimeBoundary] :: sendPart part

/-- The lines of the header and of the parts. -/
def messageText (hostname : Bytes) (fwd : Forward) : List Sending :=
  let subject : List Sending :=
    [.line [ascii "Subject: ", fwd.descr],
      .line [ascii "Message-Id: <", mdirVersion2str fwd.version, ascii "@", hostname, ascii ">"]]
  let mime : List Sending :=
    [.line [ascii "Mime-Version: 1.0"],
      .line [ascii "Content-Type: multipart/mixed; boundary=", mimeBoundary]]
  let last : List Sending := [.line [[]], .line [ascii "--", mimeBoundary, ascii "--"]]
  .line [ascii "From: ", fwd.sender] :: destLines fwd.dests ++ subject ++ extidLines fwd.extid ++ mime ++
    fwd.parts.flatMap partLines ++ last

/-- What `send_forward` sends once MAIL is accepted. -/
def afterMail (hostname : Bytes) (fwd : Forward) : List Sending :=
  fwd.dests.map rcptTo ++
    .command .data [ascii "DATA"] :: (messageText hostname fwd ++ [.command .dot [ascii "."]])

def sendForward (refusalEnds : Bool) (hostname : Bytes) (fwd : Forward) (luck : Nat → Luck) (r : Relay) :
    Relay × Option Int :=
  sendAll refusalEnds (mailFrom fwd :: afterMail hostname fwd) luck r

/-! ## The thread -/

/-- `transfers_done`, from the statuses of the transfers of the parts: `none` if it has to wait, else the
status that it gives to the forward, if any. -/
def transfersDone : List (Option Int) → Option (Option Int)
  | [] => some none
  | none :: txs => transfersDone txs
  | some st :: txs =>
      if st = 0 then none else if st ≠ 200 then some (some st) else transfersDone txs

/-- What a turn of the loop over the waiting forwards gets from elsewhere. -/
structure Turn where
  transfers : List (Option Int)
  connected : Bool
  luck : Nat → Luck
  now : Nat

/-- The globals of the forwarder, what remains of the loop over the waiting forwards, and two records:
the state of the relay each time that it was sent MAIL, and the forwards that were sent since the
connection was opened. -/
structure ForwarderState where
  sock : Option Relay
  lastUsed : Nat
  waiting : List Forward
  delivered : List Forward
  todo : List Forward
  running : Bool
  mails : List Relay
  attempts : List (Forward × (Nat → Luck))

inductive ForwarderEvent
  | submit (fwd : Forward)
  | turn (t : Turn)
  /-- The end of the loop, and the start of the next one. -/
  | sleep (now : Nat)

namespace ForwarderState

def start : ForwarderState :=
  { sock := none, lastUsed := 0, waiting := [], delivered := [], todo := [], running := true, mails := []
    attempts := [] }

/-- `may_open_connection`, when it succeeds. -/
def mayOpenConnection (s : ForwarderState) (now : Nat) : ForwarderState :=
  match s.sock with
  | some _ => s
  | none => { s with sock := some .idle, lastUsed := now, attempts := [] }

def mayCloseConnection (s : ForwarderState) (now : Nat) : ForwarderState :=
  if s.sock ≠ none ∧ (((now : Int) - s.lastUsed) % 2 ^ 32).toNat > CNX_IDLE_TIMEOUT then
    { s with sock := none, attempts := [] }
  else s

/-- `list_move_to(&delivered_forwards, fwd)`. -/
def deliver (s : ForwarderState) (fwd : Forward) (status : Int) (now : Nat) : ForwarderState :=
  { s with
    waiting := s.waiting.erase fwd
    delivered := s.delivered ++ [{ fwd with status := status }]
    lastUsed := now }

end ForwarderState

/-- The relay gets the MAIL command of a forward. -/
def MailSent (fwd : Forward) (luck : Nat → Luck) : Prop :=
  (mailFrom fwd).Fits ∧ luck 0 ≠ .unsent ∧ luck 0 ≠ .lost

instance (fwd : Forward) (luck : Nat → Luck) : Decidable (MailSent fwd luck) :=
  inferInstanceAs (Decidable (_ ∧ _))

namespace ForwarderState

/-- `send_forward` on the connection. -/
def attempt (refusalEnds : Bool) (hostname : Bytes) (s : ForwarderState) (fwd : Forward) (t : Turn)
    (r : Relay) : ForwarderState :=
  let (r', status) := sendForward refusalEnds hostname fwd t.luck r
  let s :=
    { s with
      sock := some r'
      mails := if MailSent fwd t.luck then s.mails ++ [r] else s.mails
      attempts := s.attempts ++ [(fwd, t.luck)] }
  match status with
  | none => { s with todo := [] }
  | some status => s.deliver fwd status t.now

/-- One turn of the loop over the waiting forwards. -/
def turn (refusalEnds : Bool) (hostname : Bytes) (s : ForwarderState) (t : Turn) : ForwarderState :=
  match s.running, s.todo with
  | true, fwd :: todo =>
      let s := { s with todo := todo }
      match transfersDone t.transfers with
      -- some file of it is still to come
      | none => s
      | some failed =>
          let status := failed.getD fwd.status
          if status ≠ 0 then s.deliver fwd status t.now
          -- a connection that cannot be opened ends the thread
          else if s.sock = none ∧ t.connected = false then { s with running := false }
          else
            -- the connection that is open is used again
            let s := s.mayOpenConnection t.now
            match s.sock with
            | none => s
            | some r => s.attempt refusalEnds hostname fwd t r
  | _, _ => s

def step (refusalEnds : Bool) (hostname : Bytes) (s : ForwarderState) : ForwarderEvent → ForwarderState
  | .submit fwd =>
      { s with waiting := s.waiting ++ [fwd], todo := if s.todo = [] then [] else s.todo ++ [fwd] }
  | .turn t => s.turn refusalEnds hostname t
  | .sleep now =>
      if s.running = true ∧ s.todo = [] then { s.mayCloseConnection now with todo := s.waiting } else s

end ForwarderState

/-- The thread of the forwarder. -/
def forwarder (refusalEnds : Bool) (hostname : Bytes) (events : List ForwarderEvent) : ForwarderState :=
  events.foldl (ForwarderState.step refusalEnds hostname) .start

end Scambio
