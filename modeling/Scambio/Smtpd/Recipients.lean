import Mathlib.Data.List.Induction
import Scambio.Library.Traces
import Scambio.Smtpd.Queries

/-!
# Recipients — where the mail of a session goes

`Envelope` is a mail transaction as the client sees it: the reverse path of the latest MAIL that was
accepted, and the mailboxes of the recipients that were accepted since.  The server remembers one
recipient only, and does not forget it at the next MAIL.
-/

namespace Scambio

open Library

/-! ## The envelope of a message -/

structure Envelope where
  path : Bytes
  rcpts : List Nat
  deriving DecidableEq, Repr

/-- The last answer to a command. -/
def Exchange.status (x : Exchange) : Option Nat :=
  x.answers.getLast?.map Prod.fst

theorem Exchange.status_eq {x : Exchange} {status : Nat} {text : Bytes} (h : x.answers = [(status, text)]) :
    x.status = some status := by
  rw [Exchange.status, h]
  rfl

/-- What a command and its answer make of the envelope. -/
def envelopeStep (env : Option Envelope) (x : Exchange) : Option Envelope :=
  match x.cmd.service with
  | .ehlo | .helo | .rset => none
  | .mail =>
      if x.status = some OK then some { path := setAddress (x.cmd.arg.drop kwFrom.length), rcpts := [] }
      else env
  | .rcpt =>
      if x.status = some OK then env.map fun t => { t with rcpts := t.rcpts ++ x.mailbox.toList } else env
  | _ => env

def envelope (log : List Exchange) : Option Envelope :=
  log.foldl envelopeStep none

theorem envelope_concat (log : List Exchange) (x : Exchange) :
    envelope (log ++ [x]) = envelopeStep (envelope log) x := by
  simp [envelope]

/-- A message that was accepted went to the mailboxes of its recipients and to no other, with its reverse
path; one that has no recipient was refused. -/
structure DataOk (before : List Exchange) (x : Exchange) : Prop where
  delivered : x.status = some OK → ∃ t, envelope before = some t ∧
    (∀ m, m ∈ x.requests.map Prod.fst ↔ m ∈ t.rcpts) ∧
    ∀ r ∈ x.requests, headerFind r.2 SC_FROM_FIELD = some { name := SC_FROM_FIELD, value := t.path }
  refused : (∀ t, envelope before = some t → t.rcpts = []) → x.status = some BAD_SEQUENCE

/-- The latest RCPT was refused, or there was none; else some recipient was accepted for this message,
and all those accepted have one mailbox (or the message cannot be processed). -/
def OneMailbox (env : CnxEnv) (t : Option Envelope) (mail : Option MailInfo) : Prop :=
  env.forwardPath = none ∨
    ∃ e, t = some e ∧ e.rcpts ≠ [] ∧ (mail = none ∨ ∀ m ∈ e.rcpts, ∀ m' ∈ e.rcpts, m = m')

/-! ## One command -/

/-- What the server remembers of the envelope: its path, and the last of its recipients unless an older
one is still there. -/
structure Remembers (env : CnxEnv) (t : Option Envelope) : Prop where
  path : env.reversePath = t.map Envelope.path
  last : env.forwardPath ≠ none → ∀ e, t = some e → e.rcpts ≠ [] → e.rcpts.getLast? = env.mailbox

/-- Fields are added at the end. -/
theorem prefix_headerFieldNew (h : Header) (name value : Bytes) : h <+: headerFieldNew h name value :=
  List.prefix_append h _

theorem prefix_foldl_headerFieldNew (name : Bytes) (values : List Bytes) (h : Header) :
    h <+: values.foldl (fun h value => headerFieldNew h name value) h := by
  induction values generalizing h with
  | nil => exact List.prefix_rfl
  | cons value values ih => exact (prefix_headerFieldNew h name value).trans (ih _)

theorem prefix_elim_headerFieldNew (name : Bytes) (value : Option Bytes) (h : Header) :
    h <+: value.elim h (headerFieldNew h name) := by
  cases value with
  | none => exact List.prefix_rfl
  | some value => exact prefix_headerFieldNew h name value

theorem prefix_mailHeader (path : Bytes) (mail : MailInfo) :
    headerFieldNew (headerFieldNew [] SC_TYPE_FIELD SC_MAIL_TYPE) SC_FROM_FIELD path <+:
      mailHeader path mail := by
  unfold mailHeader
  apply List.IsPrefix.trans _ (prefix_headerFieldNew _ _ _)
  apply List.IsPrefix.trans _ (prefix_elim_headerFieldNew _ _ _)
  apply List.IsPrefix.trans _ (prefix_elim_headerFieldNew _ _ _)
  exact prefix_foldl_headerFieldNew _ _ _

theorem headerFind_mailHeader (path : Bytes) (mail : MailInfo) :
    headerFind (mailHeader path mail) SC_FROM_FIELD = some { name := SC_FROM_FIELD, value := path } := by
  rcases prefix_mailHeader path mail with ⟨more, hmore⟩
  rw [← hmore]
  rfl

/-- The exchange of a command. -/
def exchangeOf (hostname : Bytes) (env : CnxEnv) (cmd : SmtpCmd) (e : SmtpEvent) : Exchange :=
  let done := exec hostname env cmd e
  { cmd := cmd, answers := done.answers, requests := done.requests, mailbox := recipientMailbox cmd e }

/-- What a turn of `serve_cnx` does. -/
theorem SmtpSession.step_cases (hostname : Bytes) (s : SmtpSession) (e : SmtpEvent) :
    ((s.step hostname e).env = s.env ∧ (s.step hostname e).log = s.log ∧
      (s.closed = true ∨ smtpCmdRead e.line = none)) ∨
    ∃ cmd, s.closed = false ∧ smtpCmdRead e.line = some cmd ∧
      (s.step hostname e).env = (exec hostname s.env cmd e).env ∧
      (s.step hostname e).log = s.log ++ [exchangeOf hostname s.env cmd e] := by
  unfold SmtpSession.step
  cases hclosed : s.closed with
  | true => exact .inl ⟨rfl, rfl, .inl rfl⟩
  | false =>
      cases hread : smtpCmdRead e.line with
      | none => exact .inl ⟨rfl, rfl, .inr rfl⟩
      | some cmd => exact .inr ⟨cmd, rfl, rfl, rfl, rfl⟩

theorem Remembers.reset {env : CnxEnv} (hreverse : env.reversePath = none)
    (hforward : env.forwardPath = none) : Remembers env none :=
  ⟨hreverse, fun hne => absurd hforward hne⟩

/-- MAIL, when it is accepted: the server has a new path, and its recipient is still there. -/
theorem Remembers.execMail {env : CnxEnv} {t : Option Envelope} (h : Remembers env t) {x : Exchange}
    (hservice : x.cmd.service = .mail) (hanswers : x.answers = (execMail env x.cmd.arg).answers) :
    Remembers (execMail env x.cmd.arg).env (envelopeStep t x) := by
  unfold Scambio.execMail at hanswers ⊢
  split at hanswers
  · next hdomain =>
    have hstatus : x.status ≠ some OK := by
      rw [Exchange.status_eq hanswers]
      decide
    simp only [envelopeStep, hservice, if_neg hstatus, if_pos hdomain]
    exact h
  next hdomain =>
  split at hanswers
  · next hfrom =>
    have hstatus : x.status ≠ some OK := by
      rw [Exchange.status_eq hanswers]
      decide
    simp only [envelopeStep, hservice, if_neg hstatus, if_neg hdomain, if_pos hfrom]
    exact h
  · next hfrom =>
    have hstatus : x.status = some OK := Exchange.status_eq hanswers
    simp only [envelopeStep, hservice, if_pos hstatus, if_neg hdomain, if_neg hfrom]
    refine ⟨rfl, fun _ e he hne => ?_⟩
    cases he
    exact absurd rfl hne

/-- RCPT: a recipient that is accepted is the one that the server has. -/
theorem Remembers.execRcpt {env : CnxEnv} {t : Option Envelope} (h : Remembers env t)
    {lookup : Bytes → Option Nat} {x : Exchange} (hservice : x.cmd.service = .rcpt)
    (hanswers : x.answers = (execRcpt env x.cmd.arg lookup).answers)
    (hmailbox : x.mailbox = lookup (incomingFolder (setAddress (rcptName x.cmd.arg)))) :
    Remembers (execRcpt env x.cmd.arg lookup).env (envelopeStep t x) := by
  unfold Scambio.execRcpt at hanswers ⊢
  split at hanswers
  swap
  · next hreverse =>
    have hstatus : x.status ≠ some OK := by
      rw [Exchange.status_eq hanswers]
      decide
    simp only [envelopeStep, hservice, if_neg hstatus, dif_neg hreverse]
    exact h
  next hreverse =>
  split at hanswers
  · next hto =>
    have hstatus : x.status ≠ some OK := by
      rw [Exchange.status_eq hanswers]
      decide
    simp only [envelopeStep, hservice, if_neg hstatus, dif_pos hreverse, if_pos hto]
    exact h
  next hto =>
  simp only [envelopeStep, hservice, dif_pos hreverse, if_neg hto]
  unfold setForwardPath at hanswers ⊢
  cases hlookup : lookup (incomingFolder (setAddress (rcptName x.cmd.arg))) with
  | none =>
      rw [hlookup] at hanswers
      have hstatus : x.status ≠ some OK := by
        rw [Exchange.status_eq hanswers]
        decide
      rw [if_neg hstatus]
      exact ⟨h.path, fun hne => absurd rfl hne⟩
  | some mdir =>
      rw [hlookup] at hanswers hmailbox
      have hstatus : x.status = some OK := Exchange.status_eq hanswers
      rw [if_pos hstatus, hmailbox]
      constructor
      · rw [Option.map_map]
        exact h.path
      · intro _ e he _
        rcases Option.map_eq_some_iff.1 he with ⟨e', -, rfl⟩
        simp

theorem Remembers.exec {env : CnxEnv} {t : Option Envelope} (h : Remembers env t) (hostname : Bytes)
    (cmd : SmtpCmd) (e : SmtpEvent) :
    Remembers (exec hostname env cmd e).env (envelopeStep t (exchangeOf hostname env cmd e)) := by
  rcases cmd with ⟨service, arg⟩
  cases service with
  | ehlo => exact Remembers.reset rfl rfl
  | helo => exact Remembers.reset rfl rfl
  | rset => exact Remembers.reset rfl rfl
  | mail => exact h.execMail (x := exchangeOf hostname env ⟨.mail, arg⟩ e) rfl rfl
  | rcpt => exact h.execRcpt (x := exchangeOf hostname env ⟨.rcpt, arg⟩ e) rfl rfl rfl
  | data =>
      -- the state of the session stays as it is
      have henv : (execData env e.mail).env = env := by
        unfold execData
        split
        · cases e.mail <;> rfl
        · rfl
      have hexec : (Scambio.exec hostname env ⟨.data, arg⟩ e).env = env := henv
      rw [hexec]
      exact h
  | vrfy => exact h
  | expn => exact h
  | help => exact h
  | helpMore => exact h
  | quit => exact ⟨h.path, h.last⟩

/-! ## DATA -/

theorem execData_none {env : CnxEnv} (h : env.forwardPath = none) (mail : Option MailInfo) :
    execData env mail = { env := env, answers := [(BAD_SEQUENCE, ascii "What recipient, again ?")] } := by
  have hno : ¬ env.forwardPath.isSome = true := by simp [h]
  rw [execData, dif_neg hno]

/-- A message that is accepted goes to the mailbox that the server has. -/
theorem execData_some {env : CnxEnv} {path : Bytes} {mailbox : Nat} (hforward : env.forwardPath ≠ none)
    (hpath : env.reversePath = some path) (hmailbox : env.mailbox = some mailbox) (mail : MailInfo) :
    (execData env (some mail)).answers.getLast? = some (OK, ascii "Ok") ∧
      (execData env (some mail)).requests = [(mailbox, mailHeader path mail)] := by
  have hsome : env.forwardPath.isSome = true := Option.isSome_iff_ne_none.2 hforward
  rw [execData, dif_pos hsome]
  refine ⟨rfl, ?_⟩
  simp only [hpath, hmailbox, Option.get_some]

theorem execData_failed {env : CnxEnv} (hforward : env.forwardPath ≠ none) :
    (execData env none).answers.getLast? =
      some (LOCAL_ERROR, ascii "Something bad happened at some point") := by
  have hsome : env.forwardPath.isSome = true := Option.isSome_iff_ne_none.2 hforward
  rw [execData, dif_pos hsome]
  rfl

/-- The mailboxes are one exactly if they are all the last one. -/
theorem mem_singleton_iff_of_getLast? {l : List Nat} {a : Nat} (h : l.getLast? = some a) :
    (∀ m, m ∈ [a] ↔ m ∈ l) ↔ ∀ m ∈ l, ∀ m' ∈ l, m = m' := by
  have hmem : a ∈ l := List.mem_of_getLast? h
  constructor
  · intro hall m hm m' hm'
    rw [List.mem_singleton.1 ((hall m).2 hm), List.mem_singleton.1 ((hall m').2 hm')]
  · intro hsame m
    rw [List.mem_singleton]
    constructor
    · rintro rfl
      exact hmem
    · exact fun hm => hsame m hm a hmem

/-- A message that was not refused has a recipient. -/
theorem DataOk.ne_nil {log : List Exchange} {x : Exchange} (h : DataOk log x) {t : Envelope}
    (ht : envelope log = some t) (hstatus : x.status ≠ some BAD_SEQUENCE) : t.rcpts ≠ [] := by
  intro hnil
  apply hstatus
  apply h.refused
  intro t' ht'
  cases ht.symm.trans ht'
  exact hnil

/-- A DATA command does what it should exactly if there is one mailbox for it. -/
theorem dataOk_iff {env : CnxEnv} {log : List Exchange} (h : Remembers env (envelope log))
    {mail : Option MailInfo} {x : Exchange} (hanswers : x.answers = (execData env mail).answers)
    (hrequests : x.requests = (execData env mail).requests) :
    DataOk log x ↔ OneMailbox env (envelope log) mail := by
  by_cases hforward : env.forwardPath = none
  · rw [execData_none hforward] at hanswers
    have hstatus := Exchange.status_eq hanswers
    constructor
    · exact fun _ => .inl hforward
    · refine fun _ => ⟨fun hok => ?_, fun _ => hstatus⟩
      rw [hstatus] at hok
      exact absurd hok (by decide)
  -- the server has a path and a mailbox
  have hsome : env.forwardPath.isSome = true := Option.isSome_iff_ne_none.2 hforward
  obtain ⟨path, hpath⟩ := Option.isSome_iff_exists.1 (env.reverse_of_forward hsome)
  obtain ⟨mailbox, hmailbox⟩ := Option.isSome_iff_exists.1 (env.mailbox_of_forward hsome)
  have hmap := h.path
  rw [hpath] at hmap
  rcases Option.map_eq_some_iff.1 hmap.symm with ⟨t, ht, rfl⟩
  have hlast := h.last hforward t ht
  rw [hmailbox] at hlast
  have hone : OneMailbox env (envelope log) mail ↔
      t.rcpts ≠ [] ∧ (mail = none ∨ ∀ m ∈ t.rcpts, ∀ m' ∈ t.rcpts, m = m') := by
    rw [OneMailbox, ht]
    simp [hforward]
  rw [hone]
  cases mail with
  | none =>
      have hstatus : x.status = some LOCAL_ERROR := by
        rw [Exchange.status, hanswers, execData_failed hforward]
        rfl
      constructor
      · exact fun hok => ⟨hok.ne_nil ht (by rw [hstatus]; decide), .inl rfl⟩
      · rintro ⟨hne, -⟩
        refine ⟨fun hok => ?_, fun hnone => absurd (hnone t ht) hne⟩
        rw [hstatus] at hok
        exact absurd hok (by decide)
  | some mail =>
      have hdata := execData_some hforward hpath hmailbox mail
      have hstatus : x.status = some OK := by
        rw [Exchange.status, hanswers, hdata.1]
        rfl
      rw [hdata.2] at hrequests
      constructor
      · intro hok
        have hne : t.rcpts ≠ [] := hok.ne_nil ht (by rw [hstatus]; decide)
        rcases hok.delivered hstatus with ⟨t', ht', hall, -⟩
        cases ht.symm.trans ht'
        rw [hrequests] at hall
        exact ⟨hne, .inr ((mem_singleton_iff_of_getLast? (hlast hne)).1 hall)⟩
      · rintro ⟨hne, hsame⟩
        have hsame := hsame.resolve_left (by simp)
        refine ⟨fun _ => ⟨t, ht, ?_, ?_⟩, fun hnone => absurd (hnone t ht) hne⟩
        · rw [hrequests]
          exact (mem_singleton_iff_of_getLast? (hlast hne)).2 hsame
        · intro r hr
          rw [hrequests, List.mem_singleton] at hr
          rw [hr]
          exact headerFind_mailHeader t.path mail

/-! ## Sessions -/

theorem serveCnx_concat (hostname : Bytes) (events : List SmtpEvent) (e : SmtpEvent) :
    serveCnx hostname (events ++ [e]) = (serveCnx hostname events).step hostname e := by
  simp [serveCnx]

theorem remembers_serveCnx (hostname : Bytes) (events : List SmtpEvent) :
    Remembers (serveCnx hostname events).env (envelope (serveCnx hostname events).log) := by
  induction events using List.reverseRecOn with
  | nil => exact Remembers.reset rfl rfl
  | append_singleton events e ih =>
      rw [serveCnx_concat]
      rcases SmtpSession.step_cases hostname (serveCnx hostname events) e with
        ⟨henv, hlog, -⟩ | ⟨cmd, -, -, henv, hlog⟩
      · rw [henv, hlog]
        exact ih
      · rw [henv, hlog, envelope_concat]
        exact ih.exec hostname cmd e

/-- All the messages of a session went where they should. -/
def Delivered (log : List Exchange) : Prop :=
  ∀ pre x post, log = pre ++ x :: post → x.cmd.service = .data → DataOk pre x

/-- The next command, if it is DATA, has one mailbox. -/
def SmtpSession.Fit (s : SmtpSession) (e : SmtpEvent) : Prop :=
  s.closed = false → ∀ cmd, smtpCmdRead e.line = some cmd → cmd.service = .data →
    OneMailbox s.env (envelope s.log) e.mail

/-- Each message of a session goes to the mailboxes of all its recipients, and to no other, exactly if each
DATA of the session comes with one mailbox. -/
theorem mail_reaches_recipients_iff (hostname : Bytes) (events : List SmtpEvent) :
    Delivered (serveCnx hostname events).log ↔
      ∀ before e after, events = before ++ e :: after → (serveCnx hostname before).Fit e := by
  induction events using List.reverseRecOn with
  | nil =>
      constructor
      · intro _ before e after heq
        cases before <;> cases heq
      · intro _ pre x post heq
        cases pre <;> cases heq
  | append_singleton events e ih =>
      rw [forall_cut_concat, ← ih, serveCnx_concat]
      rcases SmtpSession.step_cases hostname (serveCnx hostname events) e with
        ⟨-, hlog, hnone⟩ | ⟨cmd, hopen, hread, -, hlog⟩
      · -- the session was over, or ends here
        rw [hlog]
        refine ⟨fun h => ⟨h, fun hopen cmd hread => ?_⟩, fun h => h.1⟩
        rcases hnone with hclosed | hnone
        · rw [hopen] at hclosed
          cases hclosed
        · rw [hnone] at hread
          cases hread
      · rw [hlog, Delivered, forall_cut_concat]
        refine and_congr_right fun _ => ?_
        have hcmd : (exchangeOf hostname (serveCnx hostname events).env cmd e).cmd = cmd := rfl
        rw [hcmd]
        constructor
        · intro hok _ cmd' hread' hdata
          cases hread.symm.trans hread'
          refine (dataOk_iff (remembers_serveCnx hostname events) ?_ ?_).1 (hok hdata)
          · simp only [exchangeOf, exec, hdata]
          · simp only [exchangeOf, exec, hdata]
        · intro hfit hdata
          refine (dataOk_iff (remembers_serveCnx hostname events) ?_ ?_).2 (hfit hopen cmd hread hdata)
          · simp only [exchangeOf, exec, hdata]
          · simp only [exchangeOf, exec, hdata]

/-- A message for two recipients, up to DATA. -/
def twoRecipients : List SmtpEvent :=
  let lookup : Bytes → Option Nat := fun folder =>
    if folder = ascii "/mailboxes/Incoming/b" then some 1 else some 2
  [⟨ascii "HELO x\n", lookup, none⟩, ⟨ascii "MAIL FROM:<a>\n", lookup, none⟩,
    ⟨ascii "RCPT TO:<b>\n", lookup, none⟩, ⟨ascii "RCPT TO:<c>\n", lookup, none⟩]

def emptyMail : SmtpEvent :=
  { line := ascii "DATA\n"
    lookup := fun _ => none
    mail := some { resources := [], subject := none, messageId := none, start := [] } }

/-- The first of the two recipients gets nothing. -/
theorem not_mail_reaches_recipients :
    ¬ ∀ (hostname : Bytes) (events : List SmtpEvent), Delivered (serveCnx hostname events).log := by
  intro h
  have henvelope : envelope (serveCnx [] twoRecipients).log = some { path := ascii "a", rcpts := [1, 2] } := by
    decide
  obtain ⟨x, hx⟩ : ∃ x, x = exchangeOf [] (serveCnx [] twoRecipients).env ⟨.data, []⟩ emptyMail := ⟨_, rfl⟩
  have hlog : (serveCnx [] (twoRecipients ++ [emptyMail])).log = (serveCnx [] twoRecipients).log ++ [x] := by
    rw [hx]
    decide
  have hdata : x.cmd.service = .data := by rw [hx]; rfl
  have hstatus : x.status = some OK := by
    rw [hx]
    decide
  have hrequests : x.requests.map Prod.fst = [2] := by
    rw [hx]
    decide
  rcases (h [] (twoRecipients ++ [emptyMail]) _ x [] hlog hdata).delivered hstatus with ⟨t, ht, hall, -⟩
  cases henvelope.symm.trans ht
  have hmem := (hall 1).2 (by simp)
  rw [hrequests] at hmem
  exact absurd hmem (by decide)

end Scambio
