import Mathlib.Data.List.Induction
import Scambio.Library.Traces
import Scambio.Sendmail.Forwarder

/-!
# Transactions — MAIL is sent when no transaction is open

A forward that leaves in the middle, once its MAIL was accepted, leaves a transaction open on a connection
that the next one uses.  `Clean` are the forwards that do not: whether they do is decided by the length of
their lines and by what happens to each of these.
-/

namespace Scambio

open Library

/-! ## Forwards that leave no transaction -/

/-- Something that is sent after MAIL does not leave the transaction open, if what follows (`next`) does
not. -/
def Sending.Passes (refusalEnds : Bool) (s : Sending) (l : Luck) (next : Prop) : Prop :=
  match l with
  | .lost => True
  | .unsent => False
  | .done st =>
      match s with
      | .command .mail _ => False
      | .command .rcpt _ => (250 ≤ st ∧ st ≤ 252) ∧ next
      | .command .data _ => (st = 354 ∧ next) ∨ (st ≠ 354 ∧ refusalEnds = true)
      | .command .dot _ => True
      | .line _ => next
      | .file _ => next
  | .unread st =>
      match s with
      | .command .data _ => st ≠ 354 ∧ refusalEnds = true
      | .command .dot _ => True
      | _ => False

/-- Once MAIL is accepted, what is sent comes to the end of the transaction, or the connection is lost. -/
def Ends (refusalEnds : Bool) : List Sending → (Nat → Luck) → Prop
  | [], _ => False
  | s :: rest, luck => s.Fits ∧ s.Passes refusalEnds (luck 0) (Ends refusalEnds rest fun i => luck (i + 1))

/-- MAIL is not accepted, or the rest comes to its end. -/
def Clean (refusalEnds : Bool) (hostname : Bytes) (fwd : Forward) (luck : Nat → Luck) : Prop :=
  ((mailFrom fwd).Fits → luck 0 ≠ .done 250 ∧ luck 0 ≠ .unread 250) ∨
    (luck 0 = .done 250 ∧ Ends refusalEnds (afterMail hostname fwd) fun i => luck (i + 1))

/-! ## One forward -/

theorem sendAll_cons (refusalEnds : Bool) (s : Sending) (rest : List Sending) (luck : Nat → Luck)
    (r : Relay) :
    sendAll refusalEnds (s :: rest) luck r =
      match s.send refusalEnds (luck 0) r with
      | (r, .go) => sendAll refusalEnds rest (fun i => luck (i + 1)) r
      | (r, .status st) => (r, some st)
      | (r, .error) => (r, none) := rfl

/-- A line of the message. -/
def Sending.IsText : Sending → Prop
  | .command _ _ => False
  | _ => True

theorem isText_sendPart (part : Part) : ∀ s ∈ sendPart part, s.IsText := by
  intro s hs
  rcases part with ⟨filename, name, type⟩
  cases type <;> cases name <;> simp only [sendPart, Option.map_none, Option.map_some, Option.toList_none,
    Option.toList_some, List.cons_append, List.nil_append, List.mem_cons, List.not_mem_nil, or_false] at hs <;>
    grind [Sending.IsText]

theorem isText_messageText (hostname : Bytes) (fwd : Forward) :
    ∀ s ∈ messageText hostname fwd, s.IsText := by
  have hparts : ∀ s ∈ fwd.parts.flatMap partLines, s.IsText := by
    intro s hs
    rcases List.mem_flatMap.1 hs with ⟨part, -, hs⟩
    simp only [partLines, List.mem_cons] at hs
    rcases hs with rfl | rfl | hs
    · trivial
    · trivial
    · exact isText_sendPart part s hs
  have hdests : ∀ s ∈ destLines fwd.dests, s.IsText := by
    intro s hs
    rcases List.mem_mapIdx.1 hs with ⟨i, hi, rfl⟩
    trivial
  have hextid : ∀ s ∈ extidLines fwd.extid, s.IsText := by
    intro s hs
    rcases Option.map_eq_some_iff.1 (Option.mem_toList.1 hs) with ⟨extid, -, rfl⟩
    trivial
  intro s hs
  simp only [messageText, List.mem_append, List.mem_cons, List.not_mem_nil, or_false] at hs
  grind [Sending.IsText]

theorem send_command (refusalEnds : Bool) {v : SmtpVerb} {strs : List Bytes}
    (h : (Sending.command v strs).Fits) (l : Luck) (r : Relay) :
    (Sending.command v strs).send refusalEnds l r = smtpCmd refusalEnds v l r :=
  if_pos h

theorem send_isText (refusalEnds : Bool) {s : Sending} (hs : s.IsText) (h : s.Fits) (l : Luck) (r : Relay) :
    s.send refusalEnds l r = sendText l r := by
  cases s with
  | command v strs => exact hs.elim
  | line strs => exact if_pos h
  | file name => exact if_pos h

/-- What does not fit leaves the relay as it is. -/
theorem sendAll_of_not_fits (refusalEnds : Bool) {s : Sending} (h : ¬ s.Fits) (rest : List Sending)
    (luck : Nat → Luck) (r : Relay) : sendAll refusalEnds (s :: rest) luck r = (r, none) := by
  have hsend : s.send refusalEnds (luck 0) r = (r, .error) := if_neg h
  rw [sendAll_cons, hsend]

theorem passes_isText (refusalEnds : Bool) {s : Sending} (hs : s.IsText) (l : Luck) (next : Prop) :
    s.Passes refusalEnds l next ↔ l = .lost ∨ ((∃ st, l = .done st) ∧ next) := by
  cases s with
  | command v strs => exact hs.elim
  | line strs => cases l <;> simp [Sending.Passes]
  | file name => cases l <;> simp [Sending.Passes]

theorem not_noTransaction_text : ¬ Relay.text.NoTransaction := by decide

theorem not_noTransaction_opened : ¬ Relay.opened.NoTransaction := by decide

theorem noTransaction_gone : Relay.gone.NoTransaction := .inr rfl

theorem noTransaction_idle : Relay.idle.NoTransaction := .inl rfl

/-- The text of the message: it ends with the dot. -/
theorem sendAll_texts (refusalEnds : Bool) {texts : List Sending} (h : ∀ s ∈ texts, s.IsText)
    (luck : Nat → Luck) :
    (sendAll refusalEnds (texts ++ [.command .dot [ascii "."]]) luck .text).1.NoTransaction ↔
      Ends refusalEnds (texts ++ [.command .dot [ascii "."]]) luck := by
  induction texts generalizing luck with
  | nil =>
      have hfits : (Sending.command .dot [ascii "."]).Fits := by decide
      rw [List.nil_append, sendAll_cons, send_command refusalEnds hfits, Ends]
      cases luck 0 with
      | done st => exact ⟨fun _ => ⟨hfits, trivial⟩, fun _ => noTransaction_idle⟩
      | unread st => exact ⟨fun _ => ⟨hfits, trivial⟩, fun _ => noTransaction_idle⟩
      | unsent => exact ⟨fun h => absurd h not_noTransaction_text, fun h => h.2.elim⟩
      | lost => exact ⟨fun _ => ⟨hfits, trivial⟩, fun _ => noTransaction_gone⟩
  | cons s texts ih =>
      have hnext := ih (fun t ht => h t (List.mem_cons_of_mem s ht)) fun i => luck (i + 1)
      have hs := h s List.mem_cons_self
      rw [List.cons_append, Ends, passes_isText refusalEnds hs]
      by_cases hfits : s.Fits
      · rw [sendAll_cons, send_isText refusalEnds hs hfits]
        cases luck 0 with
        | done st => simpa [sendText, hfits] using hnext
        | unread st => simpa [sendText] using not_noTransaction_text
        | unsent => simpa [sendText] using not_noTransaction_text
        | lost => simpa [sendText, hfits] using noTransaction_gone
      · rw [sendAll_of_not_fits refusalEnds hfits]
        simpa [hfits] using not_noTransaction_text

theorem sendAll_data (refusalEnds : Bool) {texts : List Sending} (h : ∀ s ∈ texts, s.IsText)
    (luck : Nat → Luck) :
    (sendAll refusalEnds (.command .data [ascii "DATA"] :: (texts ++ [.command .dot [ascii "."]])) luck
        .opened).1.NoTransaction ↔
      Ends refusalEnds (.command .data [ascii "DATA"] :: (texts ++ [.command .dot [ascii "."]])) luck := by
  have hfits : (Sending.command .data [ascii "DATA"]).Fits := by decide
  have hnext := sendAll_texts refusalEnds h fun i => luck (i + 1)
  rw [sendAll_cons, send_command refusalEnds hfits, Ends, and_iff_right hfits]
  cases luck 0 with
  | done st =>
      by_cases hst : st = 354
      · simpa [smtpCmd, Relay.receive, checkStatus, Sending.Passes, hst] using hnext
      · cases refusalEnds with
        | true => simpa [smtpCmd, Relay.receive, checkStatus, Sending.Passes, hst] using noTransaction_idle
        | false => simpa [smtpCmd, Relay.receive, checkStatus, Sending.Passes, hst] using not_noTransaction_opened
  | unread st =>
      by_cases hst : st = 354
      · simpa [smtpCmd, Relay.receive, Sending.Passes, hst] using not_noTransaction_text
      · cases refusalEnds with
        | true => simpa [smtpCmd, Relay.receive, Sending.Passes, hst] using noTransaction_idle
        | false => simpa [smtpCmd, Relay.receive, Sending.Passes, hst] using not_noTransaction_opened
  | unsent => simpa [smtpCmd, Sending.Passes] using not_noTransaction_opened
  | lost => simpa [smtpCmd, Sending.Passes] using noTransaction_gone

/-- What follows MAIL, with an open transaction. -/
theorem sendAll_rcpts (refusalEnds : Bool) (dests : List Bytes) {texts : List Sending}
    (h : ∀ s ∈ texts, s.IsText) (luck : Nat → Luck) :
    (sendAll refusalEnds (dests.map rcptTo ++
        .command .data [ascii "DATA"] :: (texts ++ [.command .dot [ascii "."]])) luck .opened).1.NoTransaction ↔
      Ends refusalEnds (dests.map rcptTo ++
        .command .data [ascii "DATA"] :: (texts ++ [.command .dot [ascii "."]])) luck := by
  induction dests generalizing luck with
  | nil => exact sendAll_data refusalEnds h luck
  | cons dest dests ih =>
      have hnext := ih fun i => luck (i + 1)
      rw [List.map_cons, List.cons_append, Ends]
      by_cases hfits : (rcptTo dest).Fits
      · rw [and_iff_right hfits, sendAll_cons, rcptTo, send_command refusalEnds hfits]
        cases luck 0 with
        | done st =>
            by_cases hst : st < 250 ∨ st > 252
            · have hno : ¬ (250 ≤ st ∧ st ≤ 252) := by omega
              simpa [smtpCmd, Relay.receive, checkStatus, Sending.Passes, hst, hno] using
                not_noTransaction_opened
            · have hyes : 250 ≤ st ∧ st ≤ 252 := by omega
              simpa [smtpCmd, Relay.receive, checkStatus, Sending.Passes, hst, hyes] using hnext
        | unread st => simpa [smtpCmd, Relay.receive, Sending.Passes] using not_noTransaction_opened
        | unsent => simpa [smtpCmd, Sending.Passes] using not_noTransaction_opened
        | lost => simpa [smtpCmd, Sending.Passes] using noTransaction_gone
      · rw [sendAll_of_not_fits refusalEnds hfits]
        simpa [hfits] using not_noTransaction_opened

/-- A forward that starts with no transaction leaves none exactly if it is clean. -/
theorem sendForward_idle (refusalEnds : Bool) (hostname : Bytes) (fwd : Forward) (luck : Nat → Luck) :
    (sendForward refusalEnds hostname fwd luck .idle).1.NoTransaction ↔
      Clean refusalEnds hostname fwd luck := by
  have hnext := sendAll_rcpts refusalEnds fwd.dests (isText_messageText hostname fwd) fun i => luck (i + 1)
  rw [← afterMail] at hnext
  rw [sendForward, Clean]
  by_cases hfits : (mailFrom fwd).Fits
  · rw [sendAll_cons, mailFrom, send_command refusalEnds hfits]
    rw [mailFrom] at hfits
    cases hl : luck 0 with
    | done st =>
        by_cases hst : st = 250
        · simpa [smtpCmd, Relay.receive, checkStatus, hst, hfits] using hnext
        · simpa [smtpCmd, Relay.receive, checkStatus, hst] using noTransaction_idle
    | unread st =>
        by_cases hst : st = 250
        · simpa [smtpCmd, Relay.receive, hst, hfits] using not_noTransaction_opened
        · simpa [smtpCmd, Relay.receive, hst] using noTransaction_idle
    | unsent => simpa [smtpCmd] using noTransaction_idle
    | lost => simpa [smtpCmd] using noTransaction_gone
  · rw [sendAll_of_not_fits refusalEnds hfits]
    simpa [hfits] using noTransaction_idle

/-- Nothing is sent on a connection that is lost. -/
theorem sendForward_gone (refusalEnds : Bool) (hostname : Bytes) (fwd : Forward) (luck : Nat → Luck) :
    (sendForward refusalEnds hostname fwd luck .gone).1 = .gone := by
  rw [sendForward]
  by_cases hfits : (mailFrom fwd).Fits
  · rw [sendAll_cons, mailFrom, send_command refusalEnds hfits]
    cases luck 0 <;> rfl
  · rw [sendAll_of_not_fits refusalEnds hfits]

/-- A forward whose MAIL is not sent: the relay stays as it is, or the connection is lost. -/
theorem sendForward_of_not_mailSent (refusalEnds : Bool) (hostname : Bytes) {fwd : Forward}
    {luck : Nat → Luck} (h : ¬ MailSent fwd luck) (r : Relay) :
    (sendForward refusalEnds hostname fwd luck r).1 = r ∨
      (sendForward refusalEnds hostname fwd luck r).1 = .gone := by
  rw [sendForward]
  by_cases hfits : (mailFrom fwd).Fits
  · rw [sendAll_cons, mailFrom, send_command refusalEnds hfits]
    cases hl : luck 0 with
    | done st => exact absurd ⟨hfits, by simp [hl], by simp [hl]⟩ h
    | unread st => exact absurd ⟨hfits, by simp [hl], by simp [hl]⟩ h
    | unsent => exact .inl rfl
    | lost => exact .inr rfl
  · rw [sendAll_of_not_fits refusalEnds hfits]
    exact .inl rfl

theorem clean_of_not_mailSent (refusalEnds : Bool) (hostname : Bytes) {fwd : Forward} {luck : Nat → Luck}
    (h : ¬ MailSent fwd luck) : Clean refusalEnds hostname fwd luck := by
  refine .inl fun hfits => ⟨fun hdone => h ⟨hfits, ?_, ?_⟩, fun hunread => h ⟨hfits, ?_, ?_⟩⟩ <;>
    simp [*]

/-! ## One step of the thread -/

namespace ForwarderState

/-- The step sends a forward. -/
structure Sends (s : ForwarderState) (e : ForwarderEvent) (fwd : Forward) (t : Turn) : Prop where
  turn : e = .turn t
  running : s.running = true
  next : ∃ rest, s.todo = fwd :: rest
  ready : ∃ failed, transfersDone t.transfers = some failed ∧ failed.getD fwd.status = 0
  connected : s.sock = none → t.connected = true

/-- The relay that a forward is sent to: a new connection is idle. -/
def relay (s : ForwarderState) : Relay :=
  s.sock.getD .idle

/-- The forwards that were sent on the connection. -/
def before (s : ForwarderState) : List (Forward × (Nat → Luck)) :=
  if s.sock = none then [] else s.attempts

/-- All that a step does to the connection and to the records. -/
theorem step_cases (refusalEnds : Bool) (hostname : Bytes) (s : ForwarderState) (e : ForwarderEvent) :
    ((s.step refusalEnds hostname e).mails = s.mails ∧ (∀ fwd t, ¬ s.Sends e fwd t) ∧
      ((s.step refusalEnds hostname e).sock = none ∨
        ((s.step refusalEnds hostname e).sock = s.sock ∧
          (s.step refusalEnds hostname e).attempts = s.attempts))) ∨
    ∃ fwd t, s.Sends e fwd t ∧
      (s.step refusalEnds hostname e).sock = some (sendForward refusalEnds hostname fwd t.luck s.relay).1 ∧
      (s.step refusalEnds hostname e).mails =
        (if MailSent fwd t.luck then s.mails ++ [s.relay] else s.mails) ∧
      (s.step refusalEnds hostname e).attempts = s.before ++ [(fwd, t.luck)] := by
  cases e with
  | submit fwd =>
      have hno : ∀ fwd' t, ¬ s.Sends (.submit fwd) fwd' t := fun _ _ h => nomatch h.turn
      exact .inl ⟨rfl, hno, .inr ⟨rfl, rfl⟩⟩
  | sleep now =>
      have hno : ∀ fwd t, ¬ s.Sends (.sleep now) fwd t := fun _ _ h => nomatch h.turn
      simp only [step, mayCloseConnection]
      split
      · split
        · exact .inl ⟨rfl, hno, .inl rfl⟩
        · exact .inl ⟨rfl, hno, .inr ⟨rfl, rfl⟩⟩
      · exact .inl ⟨rfl, hno, .inr ⟨rfl, rfl⟩⟩
  | turn t =>
      -- the turn goes on only past four tests, which are those of `Sends` in this order
      simp only [step, turn]
      split
      case h_2 hno =>
        refine .inl ⟨rfl, fun fwd t' h => ?_, .inr ⟨rfl, rfl⟩⟩
        rcases h.next with ⟨rest, hrest⟩
        exact hno fwd rest h.running hrest
      next fwd todo hrunning htodo =>
      split
      · next hwait =>
        refine .inl ⟨rfl, fun fwd' t' h => ?_, .inr ⟨rfl, rfl⟩⟩
        cases h.turn
        rcases h.ready with ⟨failed, hdone, -⟩
        rw [hwait] at hdone
        cases hdone
      next failed hdone =>
      split
      · next hfailed =>
        refine .inl ⟨rfl, fun fwd' t' h => ?_, .inr ⟨rfl, rfl⟩⟩
        cases h.turn
        rcases h.ready with ⟨failed', hdone', hzero⟩
        rcases h.next with ⟨rest, hrest⟩
        cases hdone.symm.trans hdone'
        cases htodo.symm.trans hrest
        exact hfailed hzero
      next hstatus =>
      have hzero : failed.getD fwd.status = 0 := not_not.1 hstatus
      split
      · next hclosed =>
        refine .inl ⟨rfl, fun fwd' t' h => ?_, .inr ⟨rfl, rfl⟩⟩
        cases h.turn
        rw [h.connected hclosed.1] at hclosed
        cases hclosed.2
      next hopen =>
      -- all four are passed, and the mail is attempted on the old connection or on a new one
      have hsends : s.Sends (.turn t) fwd t := by
        refine ⟨rfl, hrunning, ⟨todo, htodo⟩, ⟨failed, hdone, hzero⟩, fun hnone => ?_⟩
        by_contra hno
        exact hopen ⟨hnone, Bool.eq_false_iff.2 hno⟩
      right
      refine ⟨fwd, t, hsends, ?_⟩
      cases hsock : s.sock with
      | none =>
          simp only [mayOpenConnection, hsock, attempt, relay, before, Option.getD_none]
          split <;> exact ⟨rfl, rfl, rfl⟩
      | some r =>
          simp only [mayOpenConnection, hsock, attempt, relay, before, Option.getD_some]
          split <;> exact ⟨rfl, rfl, rfl⟩

/-- MAIL was only sent when no transaction was open. -/
def Good (s : ForwarderState) : Prop :=
  ∀ r ∈ s.mails, r.NoTransaction

/-- If the step sends MAIL on a connection that was kept, all that was sent on it before is clean. -/
def Fit (refusalEnds : Bool) (hostname : Bytes) (s : ForwarderState) (e : ForwarderEvent) : Prop :=
  ∀ fwd t, s.Sends e fwd t → s.relay ≠ .gone → MailSent fwd t.luck →
    ∀ a ∈ s.before, Clean refusalEnds hostname a.1 a.2

/-- What the forwards sent on the connection have left there. -/
structure Inv (refusalEnds : Bool) (hostname : Bytes) (s : ForwarderState) : Prop where
  clean : (∀ a ∈ s.before, Clean refusalEnds hostname a.1 a.2) → s.relay.NoTransaction
  unclean : ∀ a ∈ s.before, ¬ Clean refusalEnds hostname a.1 a.2 →
    s.relay = .gone ∨ ¬ s.relay.NoTransaction

theorem Inv.of_closed (refusalEnds : Bool) (hostname : Bytes) {s : ForwarderState} (h : s.sock = none) :
    s.Inv refusalEnds hostname := by
  constructor
  · intro _
    rw [relay, h]
    exact noTransaction_idle
  · intro a ha
    rw [before, if_pos h] at ha
    cases ha

/-- A forward is sent as it should exactly if those before it were clean. -/
theorem noTransaction_iff {refusalEnds : Bool} {hostname : Bytes} {s : ForwarderState}
    (h : s.Inv refusalEnds hostname) :
    s.relay.NoTransaction ↔ s.relay = .gone ∨ ∀ a ∈ s.before, Clean refusalEnds hostname a.1 a.2 := by
  constructor
  · intro hnone
    by_contra hno
    rcases not_or.1 hno with ⟨hgone, hclean⟩
    push Not at hclean
    rcases hclean with ⟨a, ha, hunclean⟩
    rcases h.unclean a ha hunclean with hgone' | hopen
    · exact hgone hgone'
    · exact hopen hnone
  · rintro (hgone | hclean)
    · exact .inr hgone
    · exact h.clean hclean

theorem Inv.step {refusalEnds : Bool} {hostname : Bytes} {s : ForwarderState}
    (h : s.Inv refusalEnds hostname) (e : ForwarderEvent)
    (hgood : (s.step refusalEnds hostname e).Good) : (s.step refusalEnds hostname e).Inv refusalEnds hostname := by
  rcases step_cases refusalEnds hostname s e with ⟨-, -, hclosed | ⟨hsock, hattempts⟩⟩ |
    ⟨fwd, t, -, hsock, hmails, hattempts⟩
  · exact Inv.of_closed refusalEnds hostname hclosed
  · have hrelay : (s.step refusalEnds hostname e).relay = s.relay := by rw [relay, hsock, relay]
    have hbefore : (s.step refusalEnds hostname e).before = s.before := by
      rw [before, hsock, hattempts, before]
    exact ⟨by rw [hrelay, hbefore]; exact h.clean, by rw [hrelay, hbefore]; exact h.unclean⟩
  · have hrelay : (s.step refusalEnds hostname e).relay =
        (sendForward refusalEnds hostname fwd t.luck s.relay).1 := by rw [relay, hsock, Option.getD_some]
    have hbefore : (s.step refusalEnds hostname e).before = s.before ++ [(fwd, t.luck)] := by
      rw [before, hsock, if_neg (by simp), hattempts]
    by_cases hsent : MailSent fwd t.luck
    · -- MAIL was sent, with no transaction open
      have hnone : s.relay.NoTransaction := by
        apply hgood
        rw [hmails, if_pos hsent]
        exact List.mem_append_right _ (List.mem_singleton.2 rfl)
      rcases hnone with hidle | hgone
      · have hclean := sendForward_idle refusalEnds hostname fwd t.luck
        have hbefore' := (noTransaction_iff h).1 (.inl hidle)
        constructor
        · intro hall
          rw [hrelay, hidle, hclean]
          exact hall (fwd, t.luck) (by rw [hbefore]; exact List.mem_append_right _ (List.mem_singleton.2 rfl))
        · intro a ha hunclean
          rw [hbefore] at ha
          rw [hrelay, hidle, hclean]
          rcases List.mem_append.1 ha with ha | ha
          · rcases hbefore' with hgone | hall
            · rw [hidle] at hgone
              cases hgone
            · exact absurd (hall a ha) hunclean
          · rw [List.mem_singleton.1 ha] at hunclean
            exact .inr hunclean
      · have hgone' := sendForward_gone refusalEnds hostname fwd t.luck
        rw [← hgone, ← hrelay] at hgone'
        rw [hgone] at hgone'
        exact ⟨fun _ => .inr hgone', fun _ _ _ => .inl hgone'⟩
    -- MAIL was not sent: the transaction of the relay is what it was, or the relay is gone
    · have hclean := clean_of_not_mailSent refusalEnds hostname hsent
      rcases sendForward_of_not_mailSent refusalEnds hostname hsent s.relay with hsame | hgone
      · rw [← hrelay] at hsame
        constructor
        · intro hall
          rw [hsame]
          apply h.clean
          intro a ha
          exact hall a (by rw [hbefore]; exact List.mem_append_left _ ha)
        · intro a ha hunclean
          rw [hbefore] at ha
          rw [hsame]
          rcases List.mem_append.1 ha with ha | ha
          · exact h.unclean a ha hunclean
          · rw [List.mem_singleton.1 ha] at hunclean
            exact absurd hclean hunclean
      · rw [← hrelay] at hgone
        exact ⟨fun _ => .inr hgone, fun _ _ _ => .inl hgone⟩

/-- A step keeps the good records exactly if it fits. -/
theorem good_step_iff {refusalEnds : Bool} {hostname : Bytes} {s : ForwarderState}
    (h : s.Inv refusalEnds hostname) (hgood : s.Good) (e : ForwarderEvent) :
    (s.step refusalEnds hostname e).Good ↔ s.Fit refusalEnds hostname e := by
  rcases step_cases refusalEnds hostname s e with ⟨hmails, hno, -⟩ | ⟨fwd, t, hsends, -, hmails, -⟩
  · rw [Good, hmails]
    exact ⟨fun _ fwd t hsends => absurd hsends (hno fwd t), fun _ => hgood⟩
  · rw [Good, hmails]
    constructor
    · intro hall fwd' t' hsends' hgone hsent
      cases hsends.turn.symm.trans hsends'.turn
      rcases hsends.next with ⟨rest, hrest⟩
      rcases hsends'.next with ⟨rest', hrest'⟩
      cases hrest.symm.trans hrest'
      rw [if_pos hsent] at hall
      have hnone := hall s.relay (List.mem_append_right _ (List.mem_singleton.2 rfl))
      exact ((noTransaction_iff h).1 hnone).resolve_left hgone
    · intro hfit r hr
      split at hr
      · next hsent =>
        rcases List.mem_append.1 hr with hr | hr
        · exact hgood r hr
        · rw [List.mem_singleton.1 hr]
          by_cases hgone : s.relay = .gone
          · exact .inr hgone
          · exact (noTransaction_iff h).2 (.inr (hfit fwd t hsends hgone hsent))
      · exact hgood r hr

theorem good_of_good_step {refusalEnds : Bool} {hostname : Bytes} {s : ForwarderState} {e : ForwarderEvent}
    (h : (s.step refusalEnds hostname e).Good) : s.Good := by
  rcases step_cases refusalEnds hostname s e with ⟨hmails, -⟩ | ⟨fwd, t, -, -, hmails, -⟩
  · rw [Good, hmails] at h
    exact h
  · intro r hr
    apply h
    rw [hmails]
    split
    · exact List.mem_append_left _ hr
    · exact hr

end ForwarderState

/-! ## Runs -/

theorem forwarder_concat (refusalEnds : Bool) (hostname : Bytes) (events : List ForwarderEvent)
    (e : ForwarderEvent) :
    forwarder refusalEnds hostname (events ++ [e]) =
      (forwarder refusalEnds hostname events).step refusalEnds hostname e := by
  simp [forwarder]

theorem forwarder_inv {refusalEnds : Bool} {hostname : Bytes} {events : List ForwarderEvent}
    (h : (forwarder refusalEnds hostname events).Good) :
    (forwarder refusalEnds hostname events).Inv refusalEnds hostname := by
  induction events using List.reverseRecOn with
  | nil => exact ForwarderState.Inv.of_closed refusalEnds hostname rfl
  | append_singleton events e ih =>
      rw [forwarder_concat] at h ⊢
      exact (ih (ForwarderState.good_of_good_step h)).step e h

/-- MAIL is only sent when the relay has no transaction open exactly if, each time that it is sent on a
connection that was kept, the forwards sent before on that connection were clean. -/
theorem mail_in_clean_transaction_iff (refusalEnds : Bool) (hostname : Bytes) (events : List ForwarderEvent) :
    (forwarder refusalEnds hostname events).Good ↔
      ∀ before e after, events = before ++ e :: after →
        (forwarder refusalEnds hostname before).Fit refusalEnds hostname e := by
  induction events using List.reverseRecOn with
  | nil =>
      constructor
      · intro _ before e after heq
        cases before <;> cases heq
      · intro _ r hr
        cases hr
  | append_singleton events e ih =>
      rw [forall_cut_concat, ← ih, forwarder_concat]
      constructor
      · intro h
        have hgood := ForwarderState.good_of_good_step h
        exact ⟨hgood, (ForwarderState.good_step_iff (forwarder_inv hgood) hgood e).1 h⟩
      · rintro ⟨hgood, hfit⟩
        exact (ForwarderState.good_step_iff (forwarder_inv hgood) hgood e).2 hfit

/-- A forward with one recipient, and a turn in which MAIL is accepted and all that follows gets 550. -/
def sampleForward : Forward :=
  { sender := ascii "a", dests := [ascii "b"], descr := [], extid := none, version := 1, parts := []
    status := 0 }

def refusedTurn : Turn :=
  { transfers := [], connected := true, luck := fun i => if i = 0 then .done 250 else .done 550, now := 0 }

/-- The relay refuses the recipient of the first of two forwards. -/
theorem not_mail_in_clean_transaction :
    ¬ ∀ (refusalEnds : Bool) (hostname : Bytes) (events : List ForwarderEvent),
      (forwarder refusalEnds hostname events).Good := by
  intro h
  have hmails : (forwarder true [] [.submit sampleForward, .submit { sampleForward with version := 2 },
      .sleep 0, .turn refusedTurn, .turn refusedTurn]).mails = [.idle, .opened] := by decide
  have hgood := h true [] [.submit sampleForward, .submit { sampleForward with version := 2 }, .sleep 0,
    .turn refusedTurn, .turn refusedTurn]
  rw [ForwarderState.Good, hmails] at hgood
  exact not_noTransaction_opened (hgood .opened (by simp))

end Scambio
