import Scambio.Lib.Cmd
import Scambio.Lib.Cnx

/-!
# Connecter — the thread that keeps a connection open (`lib/cnx.c`)

`connecter_thread` tries to connect until `Connect` succeeds, then logs in.  Its tests look at the error stack of the
thread, not at the call before them, and nothing clears the stack between two calls of `Connect`: after one
failure no success is seen any more, and the errors pile up.  The log in has early exits: all but the last ones leave
`auth_def`, or the query, in a list although it lives on the stack.

- `recovers_iff`: all attempts of a run go as they should exactly if `Connect` never fails and, where there is a
  username, each AUTH gets its own answer, whatever the status.
- `aborted_of_unreachable`: the 65th failure of `Connect` in a row aborts the process.
-/

namespace Scambio

open Library

/-- `sizeof_array(eb->err_stack)` -/
def ERR_STACK_SIZE : Nat := 64

/-- The definition `auth_def`, on the stack of the thread. -/
def authDef : CmdDef :=
  answRegister kwAuth

/-! ## The thread -/

/-- The thread runs, an assertion of `error_push` has failed, or a list got an element that it had already:
it is a loop then, and is followed no further. -/
inductive ThreadStatus
  | running
  | aborted
  | looped
  deriving DecidableEq, Repr

/-- The connection as the thread sees it.  The owner of a query is none for the query of the thread itself, which is
on its stack. -/
structure Connecter (α : Type) where
  errors : ErrBuf
  fd : Option Nat
  authed : Bool
  user : Option Bytes
  stx : CmdSyntax
  /-- `auth_def` is in `stx`. -/
  authLinked : Bool
  sentQueries : List (SentQuery (Option α))
  nextSeq : Int
  /-- The descriptors that were used for a connection, and those that were forgotten. -/
  tried : List Nat
  leaked : List Nat
  status : ThreadStatus

/-- What one attempt meets: the outcomes of `Connect`, of the write of the query, of the read, and of
`mdir_user_load`; and what the callback of another command does with the queries. -/
structure Attempt (α : Type) where
  connect : Except Err Nat
  written : Option Err
  sentAt : Int
  received : Except Err Bytes
  answeredAt : Int
  callback : Cmd → List (SentQuery (Option α)) → List (SentQuery (Option α)) × Option Err
  load : Except Err Bytes

namespace Connecter

variable {α : Type}

/-- `mdir_cnx_ctor_outbound`. -/
def new (stx : CmdSyntax) : Connecter α where
  errors := .new
  fd := none
  authed := false
  user := none
  stx := stx
  authLinked := false
  sentQueries := []
  nextSeq := 1
  tried := []
  leaked := []
  status := .running

/-- `error_push` -/
def push (s : Connecter α) (e : Err) : Connecter α :=
  if s.errors.errStack.length < ERR_STACK_SIZE then { s with errors := s.errors.errorPush e }
  else { s with status := .aborted }

/-- `mdir_syntax_register(cnx->syntax, &auth_def)` -/
def register (s : Connecter α) : Connecter α :=
  if s.authLinked then { s with status := .looped }
  else { s with stx := s.stx.register authDef, authLinked := true }

/-- `mdir_syntax_unregister(cnx->syntax, &auth_def)` -/
def unregister (s : Connecter α) : Connecter α :=
  { s with stx := { s.stx with defs := s.stx.defs.erase authDef }, authLinked := false }

/-- `mdir_cnx_query` of AUTH; a number is taken even if the write fails. -/
def query (s : Connecter α) (written : Option Err) (now : Int) : Connecter α :=
  let numbered := { s with nextSeq := s.nextSeq + 1 }
  match written with
  | some e => numbered.push e
  | none =>
      if s.sentQueries.any fun sq => sq.owner.isNone then { numbered with status := .looped }
      else
        { numbered with sentQueries := { seq := s.nextSeq, creation := now, owner := none } :: s.sentQueries }

/-- `auth_answ`, and whether `my_sq.done` is set. -/
def authAnsw (s : Connecter α) (now : Int) (cmd : Cmd) : Connecter α × Bool :=
  match retrieveLoop now cmd.seq s.sentQueries with
  | (sqs, some sq) =>
      ({ s with sentQueries := sqs }, sq.owner.isNone && cmd.args.head? == some (.integer 200))
  | (sqs, none) =>
      ({ s with sentQueries := sqs }.push (.push 0 (ascii "Unexpected answer for seq# " ++ printInt cmd.seq)),
        false)

/-- The error of `mdir_cmd_read`. -/
def cmdErr : CmdErr → Err
  | .raised e => e
  | .fault _ => .abort []

/-- `mdir_cmd_read`, with the callback of the command that was read. -/
def readAnswer (s : Connecter α) (a : Attempt α) : Connecter α × Bool :=
  match a.received with
  | .error e => (s.push e, false)
  | .ok bytes =>
      match (mdirCmdRead s.stx bytes).parse.result with
      | .error e => (s.push (cmdErr e), false)
      | .ok cmd =>
          if cmd.cmdDef = authDef then s.authAnsw a.answeredAt cmd
          else
            -- another command of the syntax: its callback may do anything to the sent queries
            let r := a.callback cmd s.sentQueries
            let s := { s with sentQueries := r.1 }
            match r.2 with
            | none => (s, false)
            | some e => (s.push e, false)

/-- The block that logs in, which is left at the first error. -/
def logIn (s : Connecter α) (a : Attempt α) : Connecter α :=
  let s := s.register
  if s.status ≠ .running then s
  else
    let s := s.query a.written a.sentAt
    if s.status ≠ .running ∨ s.errors.isError then s
    else
      let r := s.readAnswer a
      if r.1.status ≠ .running ∨ r.1.errors.isError then r.1
      else
        -- AUTH is unregistered only if its answer could be read
        let s := r.1.unregister
        if r.2 then
          match a.load with
          | .error e => { s with user := none }.push e
          | .ok user => { s with user := some user }
        else s.push (.push 0 (ascii "no answer to auth"))

/-- From one call of `Connect` to the next, or to a connection that can be used. -/
def attempt (username : Option Bytes) (s : Connecter α) (a : Attempt α) : Connecter α :=
  match a.connect with
  | .error e => s.push e
  | .ok fd =>
      -- the test is on the stack: an error that is left from another call counts
      if s.errors.isError then { s with leaked := fd :: s.leaked }
      else
        let connected := { s with authed := false, fd := some fd, tried := fd :: s.tried }
        let s := if username.isSome then connected.logIn a else connected
        if s.status ≠ .running then s
        else if s.errors.isError then { s with errors := s.errors.errorClear, fd := none }
        else { s with authed := true }

end Connecter

/-- The thread makes an attempt; or the others, while it sleeps, register commands, send queries and get their
answers, or trash the connection. -/
inductive ConnecterEvent (α : Type)
  | attempt (a : Attempt α)
  | others (stx : CmdSyntax) (queries : List (SentQuery α)) (nextSeq : Int) (trashed : Bool)

namespace Connecter

variable {α : Type}

/-- The thread is about to call `Connect`. -/
def Connecting (s : Connecter α) : Prop :=
  s.status = .running ∧ s.fd = none

instance (s : Connecter α) : Decidable s.Connecting :=
  inferInstanceAs (Decidable (_ ∧ _))

def step (username : Option Bytes) (s : Connecter α) (e : ConnecterEvent α) : Connecter α :=
  match e with
  | .attempt a => if s.Connecting then s.attempt username a else s
  | .others stx queries nextSeq trashed =>
      let others : List (SentQuery (Option α)) :=
        queries.map fun sq => { seq := sq.seq, creation := sq.creation, owner := some sq.owner }
      { s with
        stx := stx
        sentQueries := others ++ s.sentQueries.filter fun sq => sq.owner.isNone
        nextSeq := nextSeq
        fd := if trashed then none else s.fd }

/-- A property of all attempts of a run, with the states that they start from. -/
def AllAttempts (username : Option Bytes) (P : Connecter α → Attempt α → Prop) :
    Connecter α → List (ConnecterEvent α) → Prop
  | _, [] => True
  | s, e :: es =>
      (∀ a, e = .attempt a → s.Connecting → P s a) ∧ AllAttempts username P (s.step username e) es

/-! ## What an attempt should do -/

/-- The answer to the query of the thread, with this status, comes. -/
def Answered (s : Connecter α) (a : Attempt α) (status : Int) : Prop :=
  ∃ bytes cmd, a.received = .ok bytes ∧ (mdirCmdRead (s.stx.register authDef) bytes).parse.result = .ok cmd ∧
    cmd.cmdDef = authDef ∧ cmd.seq = s.nextSeq ∧ cmd.args.head? = some (.integer status)

/-- The connection is used if there is one; the error stack is empty and the lists are as they were; no assertion
fails; and the connection is given to the others after an answer 200 only. -/
structure Recovers (username : Option Bytes) (s : Connecter α) (a : Attempt α) : Prop where
  used : ∀ fd, a.connect = .ok fd → (s.attempt username a).tried = fd :: s.tried
  errors : (s.attempt username a).errors = .new
  defs : (s.attempt username a).stx = s.stx ∧ (s.attempt username a).authLinked = s.authLinked
  queries : (s.attempt username a).sentQueries = s.sentQueries
  alive : (s.attempt username a).status = .running
  authed : (s.attempt username a).authed = true →
    (s.authed = true ∧ (s.attempt username a).fd = none) ∨ username = none ∨ s.Answered a 200

/-- `Connect` succeeds, and the AUTH that is sent, if there is a username, gets its answer, of any status (or another
command whose callback takes just its query out of the list). -/
def Recoverable (username : Option Bytes) (s : Connecter α) (a : Attempt α) : Prop :=
  ∃ fd, a.connect = .ok fd ∧ (username.isSome = true → a.written = none ∧
    ∃ bytes cmd, a.received = .ok bytes ∧ (mdirCmdRead (s.stx.register authDef) bytes).parse.result = .ok cmd ∧
      ((cmd.cmdDef = authDef ∧ cmd.seq = s.nextSeq) ∨
        (cmd.cmdDef ≠ authDef ∧
          a.callback cmd ({ seq := s.nextSeq, creation := a.sentAt, owner := none } :: s.sentQueries) =
            (s.sentQueries, none))))

/-! ## The log in -/

/-- No error is pending, nothing of the thread is in a list, and it runs. -/
structure Sane (s : Connecter α) : Prop where
  errors : s.errors = .new
  authLinked : s.authLinked = false
  queries : ∀ sq ∈ s.sentQueries, sq.owner ≠ none
  status : s.status = .running

variable {s : Connecter α} {a : Attempt α}

theorem push_eq (h : s.errors = .new) (e : Err) : s.push e = { s with errors := ErrBuf.new.errorPush e } := by
  rw [push, h, if_pos (by decide)]

/-- What the log in does not touch. -/
structure SameConnection (s r : Connecter α) : Prop where
  fd : r.fd = s.fd
  authed : r.authed = s.authed
  tried : r.tried = s.tried
  status : r.status = .running

/-- The lists are as they were. -/
def Restored (s r : Connecter α) : Prop :=
  r.stx = s.stx ∧ r.authLinked = s.authLinked ∧ r.sentQueries = s.sentQueries

/-- The AUTH gets its answer, or another command takes its query out of the list. -/
def QueryTakenOut (s : Connecter α) (a : Attempt α) : Prop :=
  a.written = none ∧
    ∃ bytes cmd, a.received = .ok bytes ∧ (mdirCmdRead (s.stx.register authDef) bytes).parse.result = .ok cmd ∧
      ((cmd.cmdDef = authDef ∧ cmd.seq = s.nextSeq) ∨
        (cmd.cmdDef ≠ authDef ∧
          a.callback cmd ({ seq := s.nextSeq, creation := a.sentAt, owner := none } :: s.sentQueries) =
            (s.sentQueries, none)))

/-- How a log in can end. -/
structure LoggedIn (s : Connecter α) (a : Attempt α) (r : Connecter α) : Prop where
  same : SameConnection s r
  errors : (r.errors = .new ∧ s.Answered a 200) ∨ ∃ e, r.errors = ErrBuf.new.errorPush e
  restored : s.Restored r ↔ s.QueryTakenOut a

theorem retrieveLoop_length {β : Type} {now seq : Int} {sqs rest : List (SentQuery β)} {found : Option (SentQuery β)}
    (h : retrieveLoop now seq sqs = (rest, found)) :
    rest.length ≤ sqs.length ∧ (found.isSome = true → rest.length < sqs.length) := by
  induction sqs generalizing rest with
  | nil =>
      cases h
      exact ⟨le_rfl, fun hsome => nomatch hsome⟩
  | cons sq sqs ih =>
      rw [retrieveLoop] at h
      split at h
      · cases h
        exact ⟨Nat.le_succ _, fun _ => Nat.lt_succ_self _⟩
      · rcases hrest : retrieveLoop now seq sqs with ⟨rest', found'⟩
        rw [hrest] at h
        cases h
        rcases ih hrest with ⟨hle, hlt⟩
        split
        · exact ⟨hle.trans (Nat.le_succ _), fun hsome => (hlt hsome).trans (Nat.lt_succ_self _)⟩
        · exact ⟨Nat.succ_le_succ hle, fun hsome => Nat.succ_lt_succ (hlt hsome)⟩

/-- The state once the query was written, with what is left of the queries. -/
def asked (s : Connecter α) (sqs : List (SentQuery (Option α))) : Connecter α :=
  { s with
    stx := s.stx.register authDef
    authLinked := true
    nextSeq := s.nextSeq + 1
    sentQueries := sqs }

/-- The state in which the answer is read. -/
def asking (s : Connecter α) (now : Int) : Connecter α :=
  s.asked ({ seq := s.nextSeq, creation := now, owner := none } :: s.sentQueries)

theorem logIn_written (h : s.Sane) (hwritten : a.written = none) :
    s.logIn a =
      let r := (s.asking a.sentAt).readAnswer a
      if r.1.status ≠ .running ∨ r.1.errors.isError then r.1
      else
        let s := r.1.unregister
        if r.2 then
          match a.load with
          | .error e => { s with user := none }.push e
          | .ok user => { s with user := some user }
        else s.push (.push 0 (ascii "no answer to auth")) := by
  have hnone : s.sentQueries.any (fun sq => sq.owner.isNone) = false := by
    rw [List.any_eq_false]
    intro sq hsq
    simpa using h.queries sq hsq
  have hreg : s.register = { s with stx := s.stx.register authDef, authLinked := true } := by
    rw [register, h.authLinked]
    rfl
  have hquery : s.register.query none a.sentAt = s.asking a.sentAt := by
    rw [hreg]
    simp only [query, hnone, Bool.false_eq_true, if_false]
    rfl
  have hstatus : s.register.status = .running := by rw [hreg, h.status]
  have hasking : ¬ ((s.asking a.sentAt).status ≠ .running ∨ (s.asking a.sentAt).errors.isError = true) := by
    rw [asking, asked]
    simp [h.status, h.errors]
  simp only [logIn, hwritten, hquery, if_neg hasking]
  rw [if_neg (by simp [hstatus])]

/-- A read that leaves an error: `auth_def` stays in the list. -/
theorem loggedIn_failed (h : s.Sane) (hwritten : a.written = none) (sqs : List (SentQuery (Option α))) (e : Err)
    (hread : (s.asking a.sentAt).readAnswer a = ((s.asked sqs).push e, false))
    (hnot : ¬ s.QueryTakenOut a) : LoggedIn s a (s.logIn a) := by
  have hpush : (s.asked sqs).push e = { s.asked sqs with errors := ErrBuf.new.errorPush e } :=
    push_eq (s := s.asked sqs) h.errors e
  have herror : (ErrBuf.new.errorPush e).isError = true := rfl
  rw [logIn_written h hwritten, hread, hpush]
  simp only [herror, or_true, if_true]
  refine ⟨⟨rfl, rfl, rfl, h.status⟩, .inr ⟨e, rfl⟩, iff_of_false ?_ hnot⟩
  rintro ⟨-, hlinked, -⟩
  rw [h.authLinked] at hlinked
  cases hlinked

/-- A read without error: `auth_def` is taken out of the list. -/
theorem loggedIn_read (h : s.Sane) (hwritten : a.written = none) (sqs : List (SentQuery (Option α))) (done : Bool)
    (hread : (s.asking a.sentAt).readAnswer a = (s.asked sqs, done))
    (hdone : done = true → s.Answered a 200) (htaken : sqs = s.sentQueries ↔ s.QueryTakenOut a) :
    LoggedIn s a (s.logIn a) := by
  have hrunning : ¬ ((s.asked sqs).status ≠ .running ∨ (s.asked sqs).errors.isError = true) := by
    simp [asked, h.status, h.errors]
  obtain ⟨t, ht⟩ : ∃ t, t = (s.asked sqs).unregister := ⟨_, rfl⟩
  have hstx : t.stx = s.stx := by
    rw [ht]
    simp only [unregister, asked, CmdSyntax.register, List.erase_cons_head]
  have hrestored : ∀ r : Connecter α, r.stx = t.stx → r.authLinked = t.authLinked → r.sentQueries = t.sentQueries →
      (s.Restored r ↔ s.QueryTakenOut a) := by
    intro r hdefs hlinked hqueries
    have hunlinked : t.authLinked = false := by rw [ht, unregister]
    have hsqs : t.sentQueries = sqs := by rw [ht, unregister, asked]
    rw [← htaken, Restored, hdefs, hstx, hlinked, hunlinked, h.authLinked, hqueries, hsqs]
    simp
  have herrors : t.errors = .new := by
    rw [ht, unregister]
    exact h.errors
  have hsame : SameConnection s t := by
    rw [ht]
    exact ⟨rfl, rfl, rfl, h.status⟩
  rw [logIn_written h hwritten, hread]
  simp only [if_neg hrunning, ← ht]
  split
  · next hsent =>
      split
      · next e _ =>
          rw [push_eq (s := { t with user := none }) herrors]
          exact ⟨⟨hsame.fd, hsame.authed, hsame.tried, hsame.status⟩, .inr ⟨e, rfl⟩, hrestored _ rfl rfl rfl⟩
      · exact ⟨⟨hsame.fd, hsame.authed, hsame.tried, hsame.status⟩, .inl ⟨herrors, hdone hsent⟩,
          hrestored _ rfl rfl rfl⟩
  · rw [push_eq herrors]
    exact ⟨⟨hsame.fd, hsame.authed, hsame.tried, hsame.status⟩, .inr ⟨_, rfl⟩, hrestored _ rfl rfl rfl⟩

/-- An answer of AUTH with another number never leaves the queries as they were. -/
theorem not_restored_of_other {now seq : Int} {own : SentQuery (Option α)} {sqs rest : List (SentQuery (Option α))}
    {sq : SentQuery (Option α)} (hown : own.owner = none) (hseq : own.seq ≠ seq)
    (h : retrieveLoop now seq (own :: sqs) = (rest, some sq)) (hothers : ∀ q ∈ sqs, q.owner ≠ none) :
    rest ≠ sqs ∧ sq.owner ≠ none := by
  rw [retrieveLoop, if_neg hseq] at h
  rcases hrest : retrieveLoop now seq sqs with ⟨rest', found⟩
  rw [hrest] at h
  cases h
  refine ⟨?_, hothers sq (retrieveLoop_some hrest).1⟩
  split
  · intro heq
    have hlt := (retrieveLoop_length hrest).2 rfl
    rw [heq] at hlt
    exact lt_irrefl _ hlt
  · intro heq
    exact hothers own (heq ▸ List.mem_cons_self) hown

theorem queryTakenOut_iff {bytes : Bytes} {cmd : Cmd} (hwritten : a.written = none) (hreceived : a.received = .ok bytes)
    (hcmd : (mdirCmdRead (s.stx.register authDef) bytes).parse.result = .ok cmd) :
    s.QueryTakenOut a ↔
      (cmd.cmdDef = authDef ∧ cmd.seq = s.nextSeq) ∨
        (cmd.cmdDef ≠ authDef ∧ a.callback cmd (s.asking a.sentAt).sentQueries = (s.sentQueries, none)) := by
  constructor
  · rintro ⟨-, bytes', cmd', hbytes, hok, htaken⟩
    rw [hreceived] at hbytes
    cases hbytes
    rw [hcmd] at hok
    cases hok
    exact htaken
  · exact fun htaken => ⟨hwritten, bytes, cmd, hreceived, hcmd, htaken⟩

/-- An answer of AUTH is read. -/
theorem loggedIn_answer (h : s.Sane) {bytes : Bytes} {cmd : Cmd} (hwritten : a.written = none)
    (hreceived : a.received = .ok bytes)
    (hcmd : (mdirCmdRead (s.stx.register authDef) bytes).parse.result = .ok cmd) (hdef : cmd.cmdDef = authDef) :
    LoggedIn s a (s.logIn a) := by
  have htaken : s.QueryTakenOut a ↔ cmd.seq = s.nextSeq := by
    rw [queryTakenOut_iff hwritten hreceived hcmd]
    simp [hdef]
  have hread : (s.asking a.sentAt).readAnswer a = (s.asking a.sentAt).authAnsw a.answeredAt cmd := by
    have hstx : (s.asking a.sentAt).stx = s.stx.register authDef := rfl
    simp only [readAnswer, hreceived, hstx, hcmd, if_pos hdef]
  by_cases hseq : cmd.seq = s.nextSeq
  · have hloop : retrieveLoop a.answeredAt cmd.seq (s.asking a.sentAt).sentQueries =
        (s.sentQueries, some { seq := s.nextSeq, creation := a.sentAt, owner := none }) := by
      rw [asking, asked, retrieveLoop, if_pos hseq.symm]
    refine loggedIn_read h hwritten s.sentQueries (cmd.args.head? == some (.integer 200)) ?_ ?_ ?_
    · rw [hread, authAnsw, hloop]
      rfl
    · exact fun hdone => ⟨bytes, cmd, hreceived, hcmd, hdef, hseq, by simpa using hdone⟩
    · rw [htaken]
      exact iff_of_true rfl hseq
  · rcases hloop : retrieveLoop a.answeredAt cmd.seq (s.asking a.sentAt).sentQueries with ⟨rest, found⟩
    cases found with
    | none =>
        refine loggedIn_failed h hwritten rest (.push 0 (ascii "Unexpected answer for seq# " ++ printInt cmd.seq)) ?_
          (fun ht => hseq (htaken.1 ht))
        rw [hread, authAnsw, hloop]
        rfl
    | some sq =>
        rcases not_restored_of_other rfl (fun heq => hseq heq.symm) hloop h.queries with ⟨hrest, howner⟩
        refine loggedIn_read h hwritten rest false ?_ (fun hdone => absurd hdone Bool.false_ne_true) ?_
        · have hnone : sq.owner.isNone = false :=
            Option.isNone_eq_false_iff.2 (Option.isSome_iff_ne_none.2 howner)
          rw [hread, authAnsw, hloop]
          simp only [hnone, Bool.false_and]
          rfl
        · rw [htaken]
          exact iff_of_false hrest hseq

/-- **The log in**: it restores the lists exactly if the query of AUTH is taken out of its list, and it ends without
error only after an answer 200. -/
theorem logIn_spec (h : s.Sane) (a : Attempt α) : LoggedIn s a (s.logIn a) := by
  cases hwritten : a.written with
  | some e =>
      -- the query is in the list before it is written, and stays there when that fails
      have hquery : s.register.query (some e) a.sentAt =
          { s with
            stx := s.stx.register authDef
            authLinked := true
            nextSeq := s.nextSeq + 1
            errors := ErrBuf.new.errorPush e } := by
        rw [register, h.authLinked]
        exact push_eq (s := { s.asked s.sentQueries with }) h.errors e
      have hstatus : s.register.status = .running := by
        rw [register, h.authLinked]
        exact h.status
      have herror : (ErrBuf.new.errorPush e).isError = true := rfl
      have hlogIn : s.logIn a = s.register.query (some e) a.sentAt := by
        rw [logIn, if_neg (by simp [hstatus]), hwritten, hquery]
        simp only [herror, or_true, if_true]
      rw [hlogIn, hquery]
      refine ⟨⟨rfl, rfl, rfl, h.status⟩, .inr ⟨e, rfl⟩, iff_of_false ?_ ?_⟩
      · rintro ⟨-, hlinked, -⟩
        rw [h.authLinked] at hlinked
        cases hlinked
      · rintro ⟨hnone, -⟩
        rw [hwritten] at hnone
        cases hnone
  | none =>
      cases hreceived : a.received with
      | error e =>
          -- the answer cannot be read
          refine loggedIn_failed h hwritten (s.asking a.sentAt).sentQueries e ?_ ?_
          · simp only [readAnswer, hreceived]
            rfl
          · rintro ⟨-, bytes, cmd, hbytes, -⟩
            rw [hreceived] at hbytes
            cases hbytes
      | ok bytes =>
          have hstx : (s.asking a.sentAt).stx = s.stx.register authDef := rfl
          cases hcmd : (mdirCmdRead (s.stx.register authDef) bytes).parse.result with
          | error e =>
              -- what is read is no command
              refine loggedIn_failed h hwritten (s.asking a.sentAt).sentQueries (cmdErr e) ?_ ?_
              · simp only [readAnswer, hreceived, hstx, hcmd]
                rfl
              · rintro ⟨-, bytes', cmd, hbytes, hok, -⟩
                rw [hreceived] at hbytes
                cases hbytes
                rw [hcmd] at hok
                cases hok
          | ok cmd =>
              by_cases hdef : cmd.cmdDef = authDef
              · exact loggedIn_answer h hwritten hreceived hcmd hdef
              · -- the callback of another command
                rcases hcallback : a.callback cmd (s.asking a.sentAt).sentQueries with ⟨sqs, raised⟩
                have htaken : s.QueryTakenOut a ↔ sqs = s.sentQueries ∧ raised = none := by
                  rw [queryTakenOut_iff hwritten hreceived hcmd]
                  simp [hdef, hcallback]
                cases raised with
                | some e =>
                    refine loggedIn_failed h hwritten sqs e ?_ ?_
                    · simp only [readAnswer, hreceived, hstx, hcmd, if_neg hdef, hcallback]
                      rfl
                    · rw [htaken]
                      rintro ⟨-, hnone⟩
                      cases hnone
                | none =>
                    refine loggedIn_read h hwritten sqs false ?_ (fun hdone => nomatch hdone) ?_
                    · simp only [readAnswer, hreceived, hstx, hcmd, if_neg hdef, hcallback]
                      rfl
                    · rw [htaken, and_iff_left rfl]

/-! ## Runs -/

theorem recoverable_iff (username : Option Bytes) :
    s.Recoverable username a ↔ ∃ fd, a.connect = .ok fd ∧ (username.isSome = true → s.QueryTakenOut a) :=
  Iff.rfl

/-- Where the rest is as it should be, what matters is that the lists are as they were. -/
theorem recovers_iff_restored {username : Option Bytes} {t : Connecter α} (ht : s.attempt username a = t)
    (hused : ∀ fd, a.connect = .ok fd → t.tried = fd :: s.tried) (herrors : t.errors = .new)
    (hstatus : t.status = .running)
    (hauthed : t.authed = true → (s.authed = true ∧ t.fd = none) ∨ username = none ∨ s.Answered a 200) :
    s.Recovers username a ↔ s.Restored t := by
  subst ht
  exact ⟨fun h => ⟨h.defs.1, h.defs.2, h.queries⟩,
    fun h => ⟨hused, herrors, ⟨h.1, h.2.1⟩, h.2.2, hstatus, hauthed⟩⟩

/-- The connection that `Connect` has just made. -/
def connected (s : Connecter α) (fd : Nat) : Connecter α :=
  { s with authed := false, fd := some fd, tried := fd :: s.tried }

theorem Sane.connected (h : s.Sane) (fd : Nat) : (s.connected fd).Sane :=
  ⟨h.errors, h.authLinked, h.queries, h.status⟩

theorem attempt_connected (h : s.Sane) {fd : Nat} (hconnect : a.connect = .ok fd) (username : Option Bytes) :
    s.attempt username a =
      let t := if username.isSome then (s.connected fd).logIn a else s.connected fd
      if t.status ≠ .running then t
      else if t.errors.isError then { t with errors := t.errors.errorClear, fd := none }
      else { t with authed := true } := by
  have hclean : ¬ s.errors.isError = true := by
    rw [h.errors]
    decide
  simp only [attempt, hconnect, if_neg hclean]
  rfl

/-- **One attempt** goes as it should exactly if it can. -/
theorem Sane.attemptRecovers_iff (h : s.Sane) (username : Option Bytes) (a : Attempt α) :
    s.Recovers username a ↔ s.Recoverable username a := by
  rw [recoverable_iff]
  cases hconnect : a.connect with
  | error e =>
      refine iff_of_false ?_ ?_
      · intro hrec
        have herrors := hrec.errors
        simp only [attempt, hconnect, push_eq h.errors] at herrors
        cases herrors
      · rintro ⟨fd, hfd, -⟩
        cases hfd
  | ok fd =>
      have hattempt := attempt_connected h hconnect username
      have hused : ∀ {t : Connecter α}, t.tried = fd :: s.tried →
          ∀ fd', a.connect = .ok fd' → t.tried = fd' :: s.tried := by
        intro t ht fd' hfd'
        rw [hconnect] at hfd'
        cases hfd'
        exact ht
      simp only [Except.ok.injEq, exists_eq_left']
      -- without a username there is no log in
      cases username with
      | none =>
          have hsane := h.connected fd
          simp only [Option.isSome_none, Bool.false_eq_true, if_false, hsane.status, ne_eq, not_true_eq_false,
            hsane.errors, ErrBuf.isError_new] at hattempt
          rw [recovers_iff_restored hattempt (hused rfl) rfl rfl fun _ => .inr (.inl rfl)]
          exact iff_of_true ⟨rfl, rfl, rfl⟩ fun hname => nomatch hname
      | some name =>
          have hlog := logIn_spec (h.connected fd) a
          have htaken : (s.connected fd).QueryTakenOut a ↔ s.QueryTakenOut a := Iff.rfl
          simp only [Option.isSome_some, if_true, hlog.same.status, ne_eq, not_true_eq_false, if_false] at hattempt
          simp only [Option.isSome_some, true_implies]
          rw [← htaken, ← hlog.restored]
          rcases hlog.errors with ⟨herrors, hanswered⟩ | ⟨e, herrors⟩
          · simp only [herrors, ErrBuf.isError_new, Bool.false_eq_true, if_false] at hattempt
            rw [recovers_iff_restored hattempt (hused hlog.same.tried) rfl rfl fun _ => .inr (.inr hanswered)]
            rfl
          · have herror : (ErrBuf.new.errorPush e).isError = true := rfl
            simp only [herrors, herror, if_true] at hattempt
            rw [recovers_iff_restored hattempt (hused hlog.same.tried) rfl rfl]
            · rfl
            · intro hauthed
              exact absurd (hlog.same.authed.symm.trans hauthed) Bool.false_ne_true

theorem Sane.attempt (h : s.Sane) {username : Option Bytes} (hrec : s.Recovers username a) :
    (s.attempt username a).Sane :=
  ⟨hrec.errors, hrec.defs.2.trans h.authLinked, fun sq hsq => h.queries sq (hrec.queries ▸ hsq), hrec.alive⟩

/-- The others only leave queries of their own. -/
theorem Sane.others (h : s.Sane) (username : Option Bytes) (stx : CmdSyntax) (queries : List (SentQuery α))
    (nextSeq : Int) (trashed : Bool) : (s.step username (.others stx queries nextSeq trashed)).Sane := by
  refine ⟨h.errors, h.authLinked, ?_, h.status⟩
  intro sq hsq
  rcases List.mem_append.1 hsq with hsq | hsq
  · rcases List.mem_map.1 hsq with ⟨q, -, rfl⟩
    simp
  · exact h.queries sq (List.mem_filter.1 hsq).1

theorem Sane.allAttempts_iff (h : s.Sane) (username : Option Bytes) (es : List (ConnecterEvent α)) :
    AllAttempts username (Recovers username) s es ↔ AllAttempts username (Recoverable username) s es := by
  induction es generalizing s with
  | nil => exact Iff.rfl
  | cons e es ih =>
      have hstep : (∀ a, e = .attempt a → s.Connecting → s.Recovers username a) → (s.step username e).Sane := by
        intro hall
        cases e with
        | attempt a =>
            rw [step]
            split
            · next hconnecting => exact h.attempt (hall a rfl hconnecting)
            · exact h
        | others stx queries nextSeq trashed => exact h.others username stx queries nextSeq trashed
      have hhead : (∀ a, e = .attempt a → s.Connecting → s.Recovers username a) ↔
          ∀ a, e = .attempt a → s.Connecting → s.Recoverable username a :=
        forall_congr' fun a => imp_congr_right fun _ => imp_congr_right fun _ => h.attemptRecovers_iff username a
      rw [AllAttempts, AllAttempts, ← hhead]
      exact and_congr_right fun hall => ih (hstep hall)

/-- **The connecter recovers** in a run exactly if in every attempt `Connect` succeeds and the AUTH, if there is a
username, gets its own answer. -/
theorem recovers_iff (username : Option Bytes) (stx : CmdSyntax) (es : List (ConnecterEvent α)) :
    AllAttempts username (Recovers username) (Connecter.new stx) es ↔
      AllAttempts username (Recoverable username) (Connecter.new stx) es := by
  refine Sane.allAttempts_iff ⟨rfl, rfl, ?_, rfl⟩ username es
  intro sq hsq
  cases hsq

/-! ## A host that is not reached -/

/-- Each failure of `Connect` leaves one more error, until there is no room. -/
theorem foldl_unreachable (username : Option Bytes) {as : List (Attempt α)}
    (hfail : ∀ a ∈ as, ∃ e, a.connect = .error e) (hconnecting : s.Connecting)
    (hroom : s.errors.errStack.length ≤ ERR_STACK_SIZE) :
    ((as.map ConnecterEvent.attempt).foldl (step username) s).status =
      if ERR_STACK_SIZE < s.errors.errStack.length + as.length then .aborted else .running := by
  induction as generalizing s with
  | nil => rw [if_neg (by simpa using hroom)]; exact hconnecting.1
  | cons a as ih =>
      rcases hfail a List.mem_cons_self with ⟨e, he⟩
      have hrest := fun b hb => hfail b (List.mem_cons_of_mem a hb)
      have hstep : s.step username (.attempt a) = s.push e := by
        rw [step, if_pos hconnecting, attempt, he]
      rw [List.map_cons, List.foldl_cons, hstep, List.length_cons, push]
      split
      · next hlt =>
          have hpushed := ih (s := { s with errors := s.errors.errorPush e }) hrest hconnecting hlt
          rw [hpushed, ErrBuf.errorPush, List.length_cons, Nat.add_right_comm, Nat.add_assoc]
      · next hfull =>
          -- the process is gone: nothing more happens
          have hgone : ∀ bs : List (Attempt α), (((bs.map ConnecterEvent.attempt).foldl (step username)
              { s with status := .aborted }).status) = .aborted := by
            intro bs
            induction bs with
            | nil => rfl
            | cons b bs ihb =>
                rw [List.map_cons, List.foldl_cons, step, if_neg (fun hc => nomatch hc.1)]
                exact ihb
          rw [hgone, if_pos (by omega)]

/-- The process does not survive 65 failures of `Connect` in a row. -/
theorem aborted_of_unreachable (username : Option Bytes) (stx : CmdSyntax) {as : List (Attempt α)}
    (hfail : ∀ a ∈ as, ∃ e, a.connect = .error e) (hmany : ERR_STACK_SIZE < as.length) :
    ((as.map ConnecterEvent.attempt).foldl (step username) (Connecter.new stx)).status = .aborted := by
  have hnone : (Connecter.new stx : Connecter α).errors.errStack.length = 0 := rfl
  rw [foldl_unreachable username hfail ⟨rfl, rfl⟩ (by rw [hnone]; decide), hnone, Nat.zero_add, if_pos hmany]

/-- The host is not reached once; the next connection is made, and forgotten. -/
theorem not_recovers :
    ¬ AllAttempts none (Recovers none) (Connecter.new { defs := [], noAnswerIfNoSeqnum := false } : Connecter Unit)
      [.attempt ⟨.error (.push 111 (ascii "No suitable address found")), none, 0, .ok [], 0, fun _ sqs => (sqs, none),
          .ok []⟩,
        .attempt ⟨.ok 5, none, 0, .ok [], 0, fun _ sqs => (sqs, none), .ok []⟩] := by
  rintro ⟨-, hsecond, -⟩
  have hused := (hsecond _ rfl ⟨rfl, rfl⟩).used 5 rfl
  exact absurd hused (by decide)

end Connecter

end Scambio
