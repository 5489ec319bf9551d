import Scambio.Lib.CmdWords
import Scambio.Lib.HeaderWire
import Scambio.Mdsyncc.Replica
import Scambio.Mdsyncd.Subscription

/-!
# Convergence — a client that is subscribed to a mdir of the server

`Sync` is a mdir of the server, the subscription of one client to it, what was sent to that client and
not read yet, and the client.  `SyncRun` are the histories of the whole: patches of the server, patches
sent, turns of the reader, and everything else that happens to the client.  The entries that the server
has accepted are recorded along the run.

* `Synced`            : the invariant, what is on its way included;
* `Converges`         : what the client has, compared with what the server has stored;
* `FewDeletedNext`    : the sends that `try_apply` can count the blanks of;
* `replica_converges` : along runs of such sends the client is never ahead, never wrong, and the same as
  the server once it has all its versions.
-/

namespace Scambio

open Library

/-! ## The command of a patch -/

/-- The line of a PATCH command, without its end. -/
def patchText (dirId : Bytes) (action : Action) (prev new : Int) : Bytes :=
  ascii "PATCH" ++ 32 :: (dirId ++ 32 :: (printInt prev ++ 32 :: (printInt new ++
    32 :: mdirAction2str action)))

theorem patchLine_append (dirId : Bytes) (action : Action) (prev new : Int) (rest : Bytes) :
    patchLine dirId action prev new ++ rest = patchText dirId action prev new ++ 10 :: rest := by
  simp [patchLine, patchText, ascii, charByte]

theorem isWord_action (action : Action) : IsWord (mdirAction2str action) := by
  cases action with
  | add => exact ⟨by decide +kernel, by decide +kernel⟩
  | rem => exact ⟨by decide +kernel, by decide +kernel⟩

theorem isWord_patch : IsWord (ascii "PATCH") :=
  ⟨by decide +kernel, by decide +kernel⟩

/-- What `connecter_begin` registers for PATCH. -/
def patchDef : CmdDef :=
  { keyword := kwPatch, nbArgMin := 4, nbArgMax := 4, nbTypes := 4
    types := [.string, .integer, .integer, .string] }

theorem buildToks_patch {t₁ t₂ t₃ t₄ : Tok UInt8} {prev new : Int}
    (hprev : strtoll t₂.word = (prev, [])) (hnew : strtoll t₃.word = (new, [])) :
    buildToks patchDef [t₁, t₂, t₃, t₄] =
      .ok [.string t₁.word, .integer prev, .integer new, .string t₄.word] := by
  have hmin : ¬ ([t₁, t₂, t₃, t₄].length < patchDef.nbArgMin) := by simp [patchDef]
  have hsw : swallows patchDef [t₁, t₂, t₃, t₄].length = .ok false := rfl
  have h0 : patchDef.isInteger 0 = .ok false := rfl
  have h1 : patchDef.isInteger 1 = .ok true := rfl
  have h2 : patchDef.isInteger 2 = .ok true := rfl
  have h3 : patchDef.isInteger 3 = .ok false := rfl
  have hstring : ∀ s, transcodeArg false s = .ok (.string s) := fun s => rfl
  have hint : ∀ {s v}, strtoll s = (v, []) → transcodeArg true s = .ok (.integer v) := by
    intro s v hs
    simp [transcodeArg, hs]
  rw [buildToks, if_neg hmin, hsw]
  simp [argTexts, convert, h0, h1, h2, h3, hstring, hint hprev, hint hnew, bind, Except.bind]

section PatchText

variable {dirId : Bytes} (hword : IsWord dirId) (action : Action) (prev new : Int)

include hword

theorem isWord_patchWords :
    ∀ w ∈ [ascii "PATCH", dirId, printInt prev, printInt new, mdirAction2str action], IsWord w := by
  intro w hw
  simp only [List.mem_cons, List.not_mem_nil, or_false] at hw
  rcases hw with rfl | rfl | rfl | rfl | rfl
  · exact isWord_patch
  · exact hword
  · exact isWord_printInt prev
  · exact isWord_printInt new
  · exact isWord_action action

variable {prev new}

/-- The reader finds the words of a PATCH command back, and the header is next. -/
theorem mdirCmdRead_patchLine (hid : dirId.length ≤ 973) (hprev : -2 ^ 63 ≤ prev ∧ prev < 2 ^ 63)
    (hnew : -2 ^ 63 ≤ new ∧ new < 2 ^ 63) (rest : Bytes) :
    (mdirCmdRead connecterBegin (patchLine dirId action prev new ++ rest)).rest = rest ∧
    (mdirCmdRead connecterBegin (patchLine dirId action prev new ++ rest)).inBlock = true ∧
    ∃ cmd, (mdirCmdRead connecterBegin (patchLine dirId action prev new ++ rest)).parse.result = .ok cmd ∧
      cmd.args = [.string dirId, .integer prev, .integer new, .string (mdirAction2str action)] := by
  have htext : patchText dirId action prev new =
      joinWords [ascii "PATCH", dirId, printInt prev, printInt new, mdirAction2str action] := by
    simp [patchText, joinWords]
  have hlen : (patchText dirId action prev new).length < 1024 := by
    have h1 := length_printInt hprev.1 hprev.2
    have h2 := length_printInt hnew.1 hnew.2
    have h3 : (mdirAction2str action).length = 1 := by cases action <;> rfl
    have h4 : (ascii "PATCH").length = 5 := rfl
    have hsum : (patchText dirId action prev new).length =
        5 + (dirId.length + ((printInt prev).length + ((printInt new).length + 2 + 1) + 1) + 1) := by
      simp only [patchText, List.length_append, List.length_cons, h3, h4]
    omega
  rw [htext] at hlen
  rw [patchLine_append, htext, mdirCmdRead_words (isWord_patchWords hword action prev new) connecterBegin
    (List.cons_ne_nil _ _) (hlen.trans (by decide)) (by simp [CMD_MAX_ARGS])]
  refine ⟨rfl, decide_eq_true ?_, ?_⟩
  · rw [List.length_append]
    exact hlen
  have hseq : isSeq (ascii "PATCH") = false := by decide
  have hfind : connecterBegin.defs.find? (CmdDef.selects 0 (ascii "PATCH")) =
      some patchDef := by decide
  have hp : strtoll (printInt prev) = (prev, []) := strtoll_printInt hprev.1 hprev.2
  have hn : strtoll (printInt new) = (new, []) := strtoll_printInt hnew.1 hnew.2
  have hbuild := @buildToks_patch ⟨[], dirId, 32⟩ ⟨[], printInt prev, 32⟩ ⟨[], printInt new, 32⟩
    ⟨[], mdirAction2str action, 10⟩ prev new hp hn
  simp only [wordToks]
  unfold parseToks
  simp only [hseq, Bool.false_eq_true, if_false, dispatch, hfind, hbuild, bind, Except.bind]
  exact ⟨_, rfl, rfl⟩

end PatchText

/-! ## The system -/

/-- A mdir of the server, its subscription, the bytes that were sent for it and not read yet, and the
client. -/
structure Sync where
  server : Mdir
  sub : Option Subscription
  wire : Bytes
  client : Mdirc

section System

variable [Host]

/-- What `patch_new` leaves on the connection. -/
def patchRest (action fd : Bytes) : Bytes :=
  match mdirStr2action action with
  | .error _ => fd
  | .ok _ => (headerRead fd).2

/-- One turn of the reader on what the subscription has sent.  Answers are events of the client of their
own, so that the others commands do not show here. -/
def readerTurn (sys : Sys) (maxJnlSize : Nat) (dirId : Bytes) (s : Sync) : Option Sync :=
  let r := mdirCmdRead connecterBegin s.wire
  if r.inBlock then
    match r.parse.result with
    | .error (.fault _) => none
    | .error (.raised _) => some { s with wire := r.rest, client := { s.client with reading := false } }
    | .ok cmd =>
        match cmd.args with
        | [.string id, .integer oldVersion, .integer newVersion, .string action] =>
            if id = dirId then
              (handle maxJnlSize s.client (.patch sys oldVersion newVersion action r.rest)).map fun c =>
                { s with wire := patchRest action r.rest, client := c }
            -- `mdir_lookup_by_id` knows no other mdir
            else some { s with wire := r.rest, client := { s.client with reading := false } }
        | _ => some { s with wire := r.rest }
  else none

/-- The patch that the reader is about to get. -/
def nextPatch (s : Sync) : Option Patch :=
  let r := mdirCmdRead connecterBegin s.wire
  match r.parse.result with
  | .error _ => none
  | .ok cmd =>
      match cmd.args with
      | [.string _, .integer oldVersion, .integer newVersion, .string action] =>
          (received s.client oldVersion newVersion action r.rest).map Prod.fst
      | _ => none

/-- There is room on the disk of the client for what the next turn may apply. -/
def TurnRoom (sys : Sys) (maxJnlSize : Nat) (s : Sync) : Prop :=
  ∀ p, nextPatch s = some p → ApplyRoom sys maxJnlSize s.client.mdir (insertPatch p s.client.patches)

omit [Host] in
/-- The entry that a patch adds to those of the server, if it is accepted. -/
def storedEntry (r : PatchResult) (action : Action) (header : Header) : Entries :=
  match r.result with
  | .error _ => []
  | .ok _ => [(action, header)]

omit [Host] in
/-- An event that is not the reception of a patch. -/
def Event.aside : Event → Prop
  | .patch .. => False
  | _ => True

variable (maxJnlSize : Nat) (dirId : Bytes) (ok : Mdir → Subscription → Prop)

/-- The histories of a server and of a client that start empty, with the entries that the server has
accepted.  The sends all satisfy `ok`. -/
inductive SyncRun : Sync → Entries → Prop
  | start (serverPath clientPath : Bytes) (cnx : Cnx (Option Command)) (files : Bytes → Option Bytes) :
      SyncRun { server := Mdir.new serverPath, sub := none, wire := []
                client := Mdirc.new (Mdir.new clientPath) cnx files } []
  | patch {s : Sync} {G : Entries} (sys : Sys) (action : Action) (header : Header) : SyncRun s G →
      ReadableHeader header → InReadBuffer header → RoomFor sys s.server action header 0 →
      SyncRun { s with server := (mdirPatch sys maxJnlSize s.server action header 0).mdir }
        (G ++ storedEntry (mdirPatch sys maxJnlSize s.server action header 0) action header)
  /-- The client starts, and subscribes from its last version. -/
  | connect {s : Sync} {G : Entries} {sub : Subscription} (user : User) (cnx : Cnx (Option Command))
      (files : Bytes → Option Bytes) : SyncRun s G →
      subscriptionNew user s.server (mdirLastVersion s.client.mdir) = .ok sub →
      SyncRun { s with sub := some sub, wire := [], client := Mdirc.new s.client.mdir cnx files } G
  | send {s : Sync} {G : Entries} {sub sub' : Subscription} {msg : PatchMsg} {bytes : Bytes} :
      SyncRun s G → s.sub = some sub → clientNeedsPatch s.server sub = true → ok s.server sub →
      sendNextPatch dirId s.server sub = .ok (msg, bytes, sub') →
      SyncRun { s with sub := some sub', wire := s.wire ++ bytes } G
  | receive {s s' : Sync} {G : Entries} (sys : Sys) : SyncRun s G → s.client.reading = true →
      s.wire ≠ [] → TurnRoom sys maxJnlSize s → readerTurn sys maxJnlSize dirId s = some s' →
      SyncRun s' G
  | event {s : Sync} {G : Entries} {c : Mdirc} (e : Event) : SyncRun s G → e.aside →
      handle maxJnlSize s.client e = some c → SyncRun { s with client := c } G

/-! ## What is on its way -/

omit [Host] in
def msgBytes (msg : PatchMsg) : Bytes :=
  patchLine dirId msg.action msg.prev msg.new ++ headerWrite msg.header

omit [Host] in
/-- A patch that was made of these entries. -/
structure Sent (G : Entries) (msg : PatchMsg) : Prop where
  prev : 0 ≤ msg.prev
  patch : PatchOf G msg.prev msg.new msg.action msg.header
  gap : msg.new - msg.prev ≤ 2 ^ 32

omit [Host] in
theorem Sent.snoc {G : Entries} {msg : PatchMsg} (h : Sent G msg) (e : Action × Header) :
    Sent (G ++ [e]) msg :=
  ⟨h.prev, h.patch.snoc e, h.gap⟩

omit [Host] in
/-- What the server, the client, its queue and the connection have to do with the entries. -/
structure Synced (s : Sync) (G : Entries) : Prop where
  server : Logs maxJnlSize s.server G
  client : Replicates maxJnlSize s.client.mdir G
  queue : ∀ p ∈ s.client.patches, Queued G p
  maps : MapsInRange s.client.c2lMaps
  inBuffer : ∀ e ∈ G, InReadBuffer e.2
  sub : ∀ sub, s.sub = some sub → 0 ≤ sub.version
  wire : s.client.reading = true →
    ∃ msgs : List PatchMsg, (∀ msg ∈ msgs, Sent G msg) ∧ s.wire = msgs.flatMap (msgBytes dirId)

/-! ## One step -/

variable {maxJnlSize dirId} {s : Sync} {G : Entries}

omit [Host] in
/-- The entries of the server may grow at any time. -/
theorem Synced.snoc (h : Synced maxJnlSize dirId s G) {m : Mdir} {e : Action × Header}
    (hm : Logs maxJnlSize m (G ++ [e])) (he : InReadBuffer e.2) :
    Synced maxJnlSize dirId { s with server := m } (G ++ [e]) := by
  refine ⟨hm, h.client.snoc e, fun p hp => (h.queue p hp).snoc e, h.maps, fun x hx => ?_, h.sub, fun hread => ?_⟩
  · rcases List.mem_append.1 hx with hx | hx
    · exact h.inBuffer x hx
    · rw [List.mem_singleton.1 hx]
      exact he
  · rcases h.wire hread with ⟨msgs, hmsgs, hwire⟩
    exact ⟨msgs, fun msg hmem => (hmsgs msg hmem).snoc e, hwire⟩

theorem Synced.patch (hmax : maxJnlSize < 2 ^ 32) (h : Synced maxJnlSize dirId s G) {sys : Sys}
    {action : Action} {header : Header} (hp : ReadableHeader header) (hin : InReadBuffer header)
    (hroom : RoomFor sys s.server action header 0) :
    Synced maxJnlSize dirId { s with server := (mdirPatch sys maxJnlSize s.server action header 0).mdir }
      (G ++ storedEntry (mdirPatch sys maxJnlSize s.server action header 0) action header) := by
  rcases h.server.patch hmax hp hroom with ⟨hnone, hlogs⟩ | ⟨hok, hlogs⟩
  · cases hr : (mdirPatch sys maxJnlSize s.server action header 0).result with
    | ok v =>
        rw [hr] at hnone
        cases hnone
    | error e =>
        simp only [storedEntry, hr, List.append_nil]
        exact ⟨hlogs, h.client, h.queue, h.maps, h.inBuffer, h.sub, h.wire⟩
  · simp only [storedEntry, hok]
    exact h.snoc hlogs hin

omit [Host] in
theorem Synced.connect (h : Synced maxJnlSize dirId s G) {user : User} {sub : Subscription}
    (cnx : Cnx (Option Command)) (files : Bytes → Option Bytes)
    (hsub : subscriptionNew user s.server (mdirLastVersion s.client.mdir) = .ok sub) :
    Synced maxJnlSize dirId
      { s with sub := some sub, wire := [], client := Mdirc.new s.client.mdir cnx files } G := by
  refine ⟨h.server, h.client, fun p hp => (by cases hp), fun c2l hmem => (by cases hmem), h.inBuffer, ?_,
    fun _ => ⟨[], by simp, rfl⟩⟩
  intro sub' hsub'
  cases hsub'
  unfold subscriptionNew at hsub
  split_ifs at hsub
  cases hsub
  simpa [subscriptionResetVersion] using h.client.lastVersion_le.1

/-- One of the next 2^32 versions after the one of the subscription is not deleted. -/
def FewDeletedNext (m : Mdir) (sub : Subscription) : Prop :=
  ∃ v, sub.version < v ∧ v ≤ sub.version + 2 ^ 32 ∧ Live m v

theorem Synced.send (hmax : maxJnlSize < 2 ^ 32) (hid : dirId.length ≤ 973)
    (h : Synced maxJnlSize dirId s G) {sub sub' : Subscription} {msg : PatchMsg} {bytes : Bytes}
    (hsub : s.sub = some sub) (hneeds : clientNeedsPatch s.server sub = true)
    (hfew : FewDeletedNext s.server sub)
    (hsend : sendNextPatch dirId s.server sub = .ok (msg, bytes, sub')) :
    Synced maxJnlSize dirId { s with sub := some sub', wire := s.wire ++ bytes } G := by
  have hlow := h.sub sub hsub
  have hlt : sub.version < G.length := by
    rw [← h.server.lastVersion]
    exact of_decide_eq_true hneeds
  have hfit := h.server.length_lt
  rcases h.server.readNext hmax hlt (by omega) with ⟨next, action, header, hread, hpatch, -⟩
  have hrange := entryOf_range hpatch.entry
  have hbytes := sendPatch_ok (hid.trans_lt (by decide)) header action
    (show -2 ^ 63 ≤ sub.version ∧ sub.version < 2 ^ 63 by omega)
    (show -2 ^ 63 ≤ next ∧ next < 2 ^ 63 by omega)
  simp only [sendNextPatch, hread, hbytes] at hsend
  cases hsend
  have hsent : Sent G { prev := sub.version, new := next, action := action, header := header } := by
    refine ⟨hlow, hpatch, ?_⟩
    -- the patch stops at the first version that is not deleted
    rcases hfew with ⟨v, hv, hnear, a, hd, hlive⟩
    rcases h.server.read_inv hmax hlive with ⟨hv1, -, hnone, -⟩
    have hnext : next ≤ v := by
      by_contra hgt
      cases hnone.2 (hpatch.between v hv (by omega) hv1)
    simp only
    omega
  refine ⟨h.server, h.client, h.queue, h.maps, h.inBuffer, ?_, fun hreading => ?_⟩
  · intro sub'' hsub''
    cases hsub''
    simp only
    omega
  · rcases h.wire hreading with ⟨msgs, hmsgs, hwire⟩
    refine ⟨msgs ++ [⟨sub.version, next, action, header⟩], ?_, ?_⟩
    · intro msg hmem
      rcases List.mem_append.1 hmem with hmem | hmem
      · exact hmsgs msg hmem
      · rw [List.mem_singleton.1 hmem]
        exact hsent
    · simp [hwire, msgBytes]

/-- What happens aside leaves the journals and the queue alone; it may end the reader. -/
theorem handle_aside {c c' : Mdirc} {e : Event} (he : e.aside) (h : handle maxJnlSize c e = some c') :
    c'.mdir = c.mdir ∧ c'.patches = c.patches ∧ (c'.reading = true → c.reading = true) := by
  cases e with
  | files files =>
      cases h
      exact ⟨rfl, rfl, fun hr => hr⟩
  | otherQuery now written =>
      cases h
      exact ⟨rfl, rfl, fun hr => hr⟩
  | subscribe new hidden now written =>
      cases h
      have hq := (subscribe_frame c new hidden now written).1
      exact ⟨hq.mdir, hq.patches, fun hr => hq.reading ▸ hr⟩
  | transients entries now =>
      cases h
      have hq := (lsTransients_frame c entries now).1
      exact ⟨hq.mdir, hq.patches, fun hr => hq.reading ▸ hr⟩
  | answer kw now seq status compl =>
      simp only [handle] at h
      split_ifs at h with hr
      · have hq := (finalize_frame c kw now seq status compl).1
        rcases hf : finalize c kw now seq status compl with ⟨c₁, r⟩
        rw [hf] at h hq
        rcases readerOutcome_some h with ⟨-, rfl⟩ | ⟨_, _, -, rfl⟩
        · exact ⟨hq.mdir, hq.patches, fun _ => hr⟩
        · exact ⟨hq.mdir, hq.patches, fun _ => hr⟩
      · cases h
        exact ⟨rfl, rfl, fun hr => hr⟩
  | patch sys oldVersion newVersion action fd => exact he.elim

theorem Synced.event (h : Synced maxJnlSize dirId s G) {e : Event} {c : Mdirc} (he : e.aside)
    (hc : handle maxJnlSize s.client e = some c) : Synced maxJnlSize dirId { s with client := c } G := by
  rcases handle_aside he hc with ⟨hm, hp, hr⟩
  refine ⟨h.server, ?_, ?_, handle_mapsInRange hc h.maps, h.inBuffer, h.sub, fun hread => h.wire (hr hread)⟩
  · simp only [hm]
    exact h.client
  · simp only [hp]
    exact h.queue

/-! ## A turn of the reader -/

omit [Host] in
theorem mdirStr2action_action2str (action : Action) :
    mdirStr2action (mdirAction2str action) = .ok action := by
  cases action <;> rfl

/-- The reader gets the next message of the wire. -/
theorem readerTurn_msg (hid : dirId.length ≤ 973) (hword : IsWord dirId) {msg : PatchMsg}
    {tail : Bytes} (hlow : 0 ≤ msg.prev) (hpatch : PatchOf G msg.prev msg.new msg.action msg.header)
    (hfit : G.length + 1 < 2 ^ 63) (hwire : s.wire = msgBytes dirId msg ++ tail) (sys : Sys) :
    readerTurn sys maxJnlSize dirId s =
      (handle maxJnlSize s.client (.patch sys msg.prev msg.new (mdirAction2str msg.action)
        (headerWrite msg.header ++ tail))).map (fun c =>
          { s with wire := (headerRead (headerWrite msg.header ++ tail)).2, client := c }) ∧
    nextPatch s = (received s.client msg.prev msg.new (mdirAction2str msg.action)
      (headerWrite msg.header ++ tail)).map Prod.fst := by
  have hlt := hpatch.lt
  have hrange := entryOf_range hpatch.entry
  have hcmd := mdirCmdRead_patchLine hword msg.action hid
    (show -2 ^ 63 ≤ msg.prev ∧ msg.prev < 2 ^ 63 by omega)
    (show -2 ^ 63 ≤ msg.new ∧ msg.new < 2 ^ 63 by omega) (headerWrite msg.header ++ tail)
  rw [msgBytes, List.append_assoc] at hwire
  rw [← hwire] at hcmd
  rcases hcmd with ⟨hrest, hblock, cmd, hok, hargs⟩
  refine ⟨?_, ?_⟩
  · simp only [readerTurn, hblock, hok, hargs, if_true, hrest, patchRest, mdirStr2action_action2str]
  · simp only [nextPatch, hok, hargs, hrest]

/-- What the client does of a message: the patch is queued and what follows its last version is applied,
or the header is refused for its lines, and the reader ends. -/
theorem handle_msg (hmax : maxJnlSize < 2 ^ 32) {c : Mdirc} {msg : PatchMsg} {tail : Bytes}
    (hG : PlainEntries G) (hin : InReadBuffer msg.header) (hmaps : MapsInRange c.c2lMaps) (hmsg : Sent G msg)
    (hclient : Replicates maxJnlSize c.mdir G)
    (hqueue : ∀ p ∈ c.patches, Queued G p) (hread : c.reading = true) {sys : Sys}
    (hroom : ∀ p maps, received c msg.prev msg.new (mdirAction2str msg.action)
      (headerWrite msg.header ++ tail) = some (p, maps) →
        ApplyRoom sys maxJnlSize c.mdir (insertPatch p c.patches)) :
    ∃ c', handle maxJnlSize c (.patch sys msg.prev msg.new (mdirAction2str msg.action)
        (headerWrite msg.header ++ tail)) = some c' ∧
      Replicates maxJnlSize c'.mdir G ∧ (∀ p ∈ c'.patches, Queued G p) ∧
      (c'.reading = true → (headerRead (headerWrite msg.header ++ tail)).2 = tail) := by
  have hplain := hG.plain _ (mem_of_entryOf hmsg.patch.entry)
  have hact := mdirStr2action_action2str msg.action
  simp only [handle, hread, if_true]
  by_cases hrec : Receivable msg.header
  · have hhead := (headerRead_headerWrite_iff hplain.canonical tail).2 hrec
    let p : Patch :=
      { oldVersion := msg.prev, newVersion := msg.new
        header := (tieLocalId c.c2lMaps msg.new msg.header).1, action := msg.action }
    have hgot : received c msg.prev msg.new (mdirAction2str msg.action)
        (headerWrite msg.header ++ tail) = some (p, (tieLocalId c.c2lMaps msg.new msg.header).2) := by
      simp only [received, hact, hhead, p]
    have hp : Queued G p := ⟨⟨msg.header, hmsg.patch, withLocalId_tieLocalId hmaps _ _⟩, hmsg.gap⟩
    have hins : ∀ q ∈ insertPatch p c.patches, Queued G q := by
      intro q hq
      rcases mem_insertPatch hq with rfl | hq
      · exact hp
      · exact hqueue q hq
    rw [patchService_of_received hgot, tryApply]
    by_cases hacks : c.nbPendingAcks > 0
    · -- the patch waits for the answers
      rw [if_pos hacks]
      exact ⟨_, rfl, hclient, hins, fun _ => by rw [hhead]⟩
    · rw [if_neg hacks]
      rcases tryApplyLoop_replica hmax sys hG hclient hins (hroom _ _ hgot) with ⟨hok, hrep, hsuf⟩
      simp only [hok]
      exact ⟨_, rfl, hrep, fun q hq => hins q (hsuf.subset hq), fun _ => by rw [hhead]⟩
  · have hmany : MAX_HEADER_LINES ≤ msg.header.length := Nat.not_lt.1 fun hlines =>
      hrec ⟨hlines, hin, hplain.short⟩
    rcases headerRead_headerWrite_many hplain.canonical hplain.short hin hmany tail with ⟨str, herr⟩
    simp only [patchService, patchNew, hact, herr]
    exact ⟨_, rfl, hclient, hqueue, fun hr => by cases hr⟩

/-- A turn of the reader meets no assertion. -/
theorem Synced.turn (hmax : maxJnlSize < 2 ^ 32) (hid : dirId.length ≤ 973) (hword : IsWord dirId)
    (h : Synced maxJnlSize dirId s G) (hread : s.client.reading = true) (hne : s.wire ≠ []) {sys : Sys}
    (hroom : TurnRoom sys maxJnlSize s) :
    ∃ s', readerTurn sys maxJnlSize dirId s = some s' ∧ Synced maxJnlSize dirId s' G := by
  rcases h.wire hread with ⟨msgs, hmsgs, hwire⟩
  cases msgs with
  | nil => exact absurd hwire hne
  | cons msg msgs =>
      have hmsg := hmsgs msg List.mem_cons_self
      rw [List.flatMap_cons] at hwire
      obtain ⟨hturn, hnext⟩ : readerTurn sys maxJnlSize dirId s = _ ∧ nextPatch s = _ :=
        readerTurn_msg hid hword hmsg.prev hmsg.patch h.server.length_lt hwire sys
      have hroom' : ∀ p maps, received s.client msg.prev msg.new (mdirAction2str msg.action)
          (headerWrite msg.header ++ msgs.flatMap (msgBytes dirId)) = some (p, maps) →
            ApplyRoom sys maxJnlSize s.client.mdir (insertPatch p s.client.patches) := by
        intro p maps hgot
        refine hroom p ?_
        rw [hnext, hgot]
        rfl
      have hin := h.inBuffer _ (mem_of_entryOf hmsg.patch.entry)
      rcases handle_msg hmax h.server.plain hin h.maps hmsg h.client h.queue hread hroom' with
        ⟨c, hc, hrep, hqueue, hrest⟩
      rw [hturn, hc]
      refine ⟨_, rfl, h.server, hrep, hqueue, handle_mapsInRange hc h.maps, h.inBuffer, h.sub,
        fun hreading => ?_⟩
      exact ⟨msgs, fun x hx => hmsgs x (List.mem_cons_of_mem _ hx), hrest hreading⟩

/-! ## Whole runs -/

theorem SyncRun.synced (hmax : maxJnlSize < 2 ^ 32) (hid : dirId.length ≤ 973)
    (hword : IsWord dirId) (run : SyncRun maxJnlSize dirId FewDeletedNext s G) :
    Synced maxJnlSize dirId s G := by
  induction run with
  | start serverPath clientPath cnx files =>
      refine ⟨logs_new maxJnlSize serverPath, replicates_new maxJnlSize clientPath, ?_, ?_, ?_, ?_, ?_⟩
      · intro p hp
        cases hp
      · intro c2l hmem
        cases hmem
      · intro e he
        cases he
      · intro sub hsub
        cases hsub
      · exact fun _ => ⟨[], by simp, rfl⟩
  | patch sys action header _ hp hin hroom ih => exact ih.patch hmax hp hin hroom
  | connect user cnx files _ hsub ih => exact ih.connect cnx files hsub
  | send _ hsub hneeds hfew hsend ih => exact ih.send hmax hid hsub hneeds hfew hsend
  | receive sys _ hread hne hroom hturn ih =>
      rcases ih.turn hmax hid hword hread hne hroom with ⟨s', hs', hsynced⟩
      rw [hturn] at hs'
      cases hs'
      exact hsynced
  | event e _ he hc ih => exact ih.event he hc

/-! ## Long logs -/

omit [Host] in
theorem length_headerWrite_le (action : Action) (h : Header) :
    (headerWrite h).length ≤ (patchRecord action h).length := by
  have hsame : headerWrite h = headerDump h := rfl
  rw [hsame, patchRecord, List.length_append]
  omega

/-- Any plain log that fits on the disk is the one of some run. -/
theorem SyncRun.grow {ok : Mdir → Subscription → Prop} (hmax : maxJnlSize < 2 ^ 32) (sys : Sys) {B : Nat}
    (run : SyncRun maxJnlSize dirId ok s []) (hserver : Logs maxJnlSize s.server [])
    (hempty : logSize s.server = 0) (hG : PlainEntries G)
    (hB : ∀ e ∈ G, (patchRecord e.1 e.2).length ≤ B) (hbuf : B ≤ 10240) (hroom : B * G.length + 1 < 2 ^ 63) :
    ∃ m, SyncRun maxJnlSize dirId ok { s with server := m } G ∧ Logs maxJnlSize m G ∧
      logSize m ≤ B * G.length := by
  induction G using List.reverseRecOn with
  | nil => exact ⟨s.server, run, hserver, by omega⟩
  | append_singleton G e ih =>
      rcases e with ⟨a, hd⟩
      have hlast : (patchRecord a hd).length ≤ B := hB (a, hd) (by simp)
      have hplain : ReadableHeader hd := hG.plain (a, hd) (by simp)
      rw [List.length_append, List.length_singleton, Nat.mul_succ] at hroom ⊢
      rcases ih hG.of_snoc (fun x hx => hB x (List.mem_append_left _ hx)) (by omega) with
        ⟨m, hrun, hlogs, hsize⟩
      have hfits : RoomFor sys m a hd 0 := by
        rw [RoomFor, hplain.linked]
        omega
      rcases hlogs.accepts hmax hG hfits with ⟨hok, hlogs', hsize'⟩
      have hin : InReadBuffer hd := (length_headerWrite_le a hd).trans (hlast.trans hbuf)
      have hnext := SyncRun.patch sys a hd hrun hplain hin hfits
      simp only [storedEntry, hok] at hnext
      exact ⟨_, hnext, hlogs', by omega⟩

end System

/-- The removal of a version. -/
def targetHeader (v : Nat) : Header :=
  [{ name := SC_TARGET_FIELD, value := decimal v }]

theorem readableHeader_target {v : Nat} (hv : v < 2 ^ 63) : ReadableHeader (targetHeader v) := by
  have hname : CleanText SC_TARGET_FIELD := by decide
  have hlower : SC_TARGET_FIELD.map tolower = SC_TARGET_FIELD := by decide
  have hcolon : (58 : UInt8) ∉ SC_TARGET_FIELD := by decide
  have htype : strcaseeq SC_TARGET_FIELD SC_TYPE_FIELD = false := by decide
  have hnone : headerFind (targetHeader v) SC_TYPE_FIELD = none := by
    simp [headerFind, targetHeader, htype]
  have hlen : (decimal v).length ≤ 19 := length_decimal_le (by decide) (hv.trans (by decide))
  have hshort : SC_TARGET_FIELD.length ≤ 1000 := by decide
  refine ⟨⟨?_, ?_, ?_⟩, ?_⟩
  · intro hf hmem
    rw [List.mem_singleton.1 hmem]
    exact ⟨hname, hlower, hcolon, cleanText_decimal v⟩
  · simp [headerHasType, hnone]
  · simp [headerHasType, hnone]
  · intro hf hmem
    rw [List.mem_singleton.1 hmem]
    exact ⟨hshort, hlen.trans (by decide)⟩

theorem headerTarget_target {v : Nat} (hv : v < 2 ^ 63) : headerTarget (targetHeader v) = .ok (v : Int) := by
  have heq : strcaseeq SC_TARGET_FIELD SC_TARGET_FIELD = true := by decide
  have hfind : headerFind (targetHeader v) SC_TARGET_FIELD =
      some { name := SC_TARGET_FIELD, value := decimal v } := by
    simp [headerFind, targetHeader, heq]
  simp only [headerTarget, hfind, mdirStr2version, sscanfInt64_decimal hv]

def oneField : Header :=
  [{ name := ascii "from", value := ascii "a b" }]

theorem readableHeader_oneField : ReadableHeader oneField :=
  ⟨⟨by decide, by decide, by decide⟩, by decide⟩

/-- A client that just started on an empty directory. -/
def freshClient : Mdirc :=
  Mdirc.new (Mdir.new (ascii "/c/1")) { usable := true, nextSeq := 1, sentQueries := [] } fun _ => none

/-- `n` additions, then the removals of all of them but the last. -/
def removedLog (n : Nat) : Entries :=
  List.replicate n (.add, oneField) ++ (List.range (n - 1)).map fun i => (.rem, targetHeader (i + 1))

section RemovedLog

variable {n : Nat}

theorem length_removedLog (n : Nat) : (removedLog n).length = n + (n - 1) := by
  simp [removedLog]

theorem removedLog_add {i : Nat} (hi : i < n) : (removedLog n)[i]? = some (.add, oneField) := by
  rw [removedLog, List.getElem?_append_left (by simpa using hi), List.getElem?_replicate, if_pos hi]

theorem removedLog_rem {h : Header} (hmem : (Action.rem, h) ∈ removedLog n) :
    ∃ i, i < n - 1 ∧ h = targetHeader (i + 1) := by
  rcases List.mem_append.1 hmem with hmem | hmem
  · cases List.eq_of_mem_replicate hmem
  · rcases List.mem_map.1 hmem with ⟨i, hi, heq⟩
    cases heq
    exact ⟨i, List.mem_range.1 hi, rfl⟩

theorem plainEntries_removedLog (hn : n < 2 ^ 63) : PlainEntries (removedLog n) := by
  refine ⟨?_, ?_⟩
  · rintro ⟨a, h⟩ hmem
    cases a with
    | add =>
        rcases List.mem_append.1 hmem with hmem | hmem
        · cases List.eq_of_mem_replicate hmem
          exact readableHeader_oneField
        · rcases List.mem_map.1 hmem with ⟨i, -, heq⟩
          cases heq
    | rem =>
        rcases removedLog_rem hmem with ⟨i, hi, rfl⟩
        exact readableHeader_target (by omega)
  · intro i h hi
    rcases removedLog_rem (List.mem_of_getElem? hi) with ⟨k, hk, rfl⟩
    have hlow : n ≤ i := by
      by_contra hlt
      rw [removedLog_add (by omega)] at hi
      cases hi
    refine ⟨k, ?_, by omega, oneField, removedLog_add (by omega)⟩
    rw [headerTarget_target (by omega), Nat.add_comm]

theorem removedIn_removedLog (hn : n < 2 ^ 63) {v : Int} :
    RemovedIn (removedLog n) v ↔ 1 ≤ v ∧ v < n := by
  constructor
  · rintro ⟨h, hmem, ht⟩
    rcases removedLog_rem hmem with ⟨i, hi, rfl⟩
    rw [headerTarget_target (by omega)] at ht
    cases ht
    omega
  · rintro ⟨hlow, hhigh⟩
    have hv : ((v - 1).toNat + 1 : Nat) = v := by omega
    refine ⟨targetHeader ((v - 1).toNat + 1), ?_, ?_⟩
    · refine List.mem_append_right _ (List.mem_map.2 ⟨(v - 1).toNat, ?_, rfl⟩)
      rw [List.mem_range]
      omega
    · rw [headerTarget_target (by omega), hv]

theorem length_patchRecord_removedLog (hn : n < 10 ^ 10) :
    ∀ e ∈ removedLog n, (patchRecord e.1 e.2).length ≤ 40 := by
  rintro ⟨a, h⟩ hmem
  rcases List.mem_append.1 hmem with hadd | hrem
  · cases List.eq_of_mem_replicate hadd
    decide
  · rcases List.mem_map.1 hrem with ⟨i, hi, heq⟩
    cases heq
    rw [List.mem_range] at hi
    have hlen : (decimal (i + 1)).length ≤ 10 := length_decimal_le (by decide) (by omega)
    have hrec : patchRecord .rem (targetHeader (i + 1)) =
        ascii "-\nsc-target: " ++ decimal (i + 1) ++ ascii "\n\n" := by
      simp [patchRecord, headerDump, fieldDump, targetHeader, mdirAction2str, SC_TARGET_FIELD, ascii,
        charByte]
    have hhead : (ascii "-\nsc-target: ").length = 13 := rfl
    have htail : (ascii "\n\n").length = 2 := rfl
    rw [hrec, List.length_append, List.length_append, hhead, htail]
    omega

end RemovedLog

/-! ## Convergence -/

section Converge

variable [Host] {maxJnlSize : Nat} {dirId : Bytes} {s : Sync} {G : Entries}

/-- The state of a client against what the server has accepted. -/
structure Converges (maxJnlSize : Nat) (dirId : Bytes) (s : Sync) (G : Entries) : Prop where
  /-- No assertion fails, whatever is read next. -/
  alive : s.client.reading = true → s.wire ≠ [] → ∀ sys, TurnRoom sys maxJnlSize s →
    readerTurn sys maxJnlSize dirId s ≠ none
  /-- Each version of the client is what the server has stored for it, or it is deleted on both. -/
  follows : ∀ v, 1 ≤ v → v ≤ mdirLastVersion s.client.mdir →
    (Deleted s.client.mdir v ∧ Deleted s.server v) ∨
      ∃ a h h', entryOf G v = some (a, h) ∧ WithLocalId h h' ∧
        mdirRead s.client.mdir v = .ok (a, some h')
  /-- With the same last version, both have the same patches and the same deleted ones. -/
  agrees : mdirLastVersion s.client.mdir = mdirLastVersion s.server →
    ∀ v, 1 ≤ v → v ≤ mdirLastVersion s.server →
      (Deleted s.client.mdir v ∧ Deleted s.server v) ∨
        ∃ a h h', mdirRead s.server v = .ok (a, some h) ∧ WithLocalId h h' ∧
          mdirRead s.client.mdir v = .ok (a, some h')

/-- In every run whose sends skip less than 2^32 deleted versions, no assertion of the client fails and
its journals follow those of the server. -/
theorem replica_converges (hmax : maxJnlSize < 2 ^ 32) (hid : dirId.length ≤ 973)
    (hword : IsWord dirId) (run : SyncRun maxJnlSize dirId FewDeletedNext s G) :
    Converges maxJnlSize dirId s G := by
  have h := run.synced hmax hid hword
  refine ⟨?_, ?_, ?_⟩
  · intro hread hne sys hroom hnone
    rcases h.turn hmax hid hword hread hne hroom with ⟨s', hs', -⟩
    rw [hnone] at hs'
    cases hs'
  · intro v hlow hhigh
    exact h.client.read hmax h.server hlow hhigh
  · intro hlast v hlow hhigh
    rcases h.client.read hmax h.server hlow (by omega) with hdel | ⟨a, hd, hd', he, hloc, hread⟩
    · exact .inl hdel
    · -- the client would have deleted it
      have hlen := h.server.lastVersion
      have hkeep := h.client.not_removed (by omega) hmax hread hlow
      exact .inr ⟨a, hd, hd', (h.server.read hmax he).2 hkeep, hloc, hread⟩

end Converge

/-- One patch is sent, received and applied. -/
theorem replica_converges_sample :
    let _ := plainHost
    ∃ s G, SyncRun 10 (ascii "1") FewDeletedNext s G ∧ mdirLastVersion s.client.mdir = 1 ∧
      Converges 10 (ascii "1") s G := by
  intro _
  let m := (mdirPatch quietSys 10 (Mdir.new (ascii "/m/1")) .add oneField 0).mdir
  let bytes := msgBytes (ascii "1") ⟨0, 1, .add, oneField⟩
  let s : Sync := { server := m, sub := some ⟨1⟩, wire := bytes, client := freshClient }
  have hpatched : SyncRun 10 (ascii "1") FewDeletedNext
      { server := m, sub := none, wire := [], client := freshClient } _ :=
    SyncRun.patch quietSys .add oneField (.start (ascii "/m/1") (ascii "/c/1") _ _) readableHeader_oneField
      (by decide) (by decide)
  have hconnected : SyncRun 10 (ascii "1") FewDeletedNext
      { server := m, sub := some ⟨0⟩, wire := [], client := freshClient } _ :=
    SyncRun.connect bob _ _ hpatched (by decide)
  have hlive : Live m 1 := ⟨.add, oneField, eq_ok_of_toOption (by decide)⟩
  have hsent : SyncRun 10 (ascii "1") FewDeletedNext s _ :=
    SyncRun.send hconnected rfl (by decide) ⟨1, by decide, by decide, hlive⟩
      (eq_ok_of_toOption (by decide) :
        sendNextPatch (ascii "1") m ⟨0⟩ = .ok (⟨0, 1, .add, oneField⟩, bytes, ⟨1⟩))
  have hnext : nextPatch s = some ⟨0, 1, oneField, .add⟩ := by decide
  have hroom : TurnRoom quietSys 10 s := by
    intro p hp
    rw [hnext] at hp
    cases hp
    exact fun _ => ⟨by decide, trivial⟩
  have hturn : (readerTurn quietSys 10 (ascii "1") s).map (fun s => mdirLastVersion s.client.mdir) =
      some 1 := by decide
  rcases Option.map_eq_some_iff.1 hturn with ⟨s', hs', hlast⟩
  have hreceived := SyncRun.receive quietSys hsent rfl (by decide) hroom hs'
  refine ⟨s', _, hreceived, hlast, ?_⟩
  exact replica_converges (by decide +kernel) (by decide +kernel) ⟨by decide +kernel, by decide +kernel⟩ hreceived

/-- The client subscribes to an empty mdir.  The server goes on alone, until the first version that is not
deleted comes after 2^32 others. -/
theorem exists_far_patch :
    let _ := plainHost
    ∃ m G, SyncRun 10 (ascii "1") (fun _ _ => True)
        { server := m, sub := some ⟨2 ^ 32 + 1⟩
          wire := msgBytes (ascii "1") ⟨0, 2 ^ 32 + 1, .add, oneField⟩, client := freshClient } G ∧
      PatchOf G 0 (2 ^ 32 + 1) .add oneField ∧ G.length + 1 < 2 ^ 63 := by
  intro _
  -- `n` stays a variable: a log of that length is never written out
  obtain ⟨n, hn⟩ : ∃ n : Nat, n = 2 ^ 32 + 1 := ⟨_, rfl⟩
  have hsub : subscriptionNew bob (Mdir.new (ascii "/m/1")) 0 = .ok ⟨0⟩ := by decide
  have hconnected : SyncRun 10 (ascii "1") (fun _ _ => True)
      { server := Mdir.new (ascii "/m/1"), sub := some ⟨0⟩, wire := [], client := freshClient } [] :=
    SyncRun.connect bob _ _
      (.start (ascii "/m/1") (ascii "/c/1") freshClient.cnx freshClient.files) hsub
  have hlen := length_removedLog n
  rcases hconnected.grow (by decide) quietSys (logs_new 10 _) rfl
    (@plainEntries_removedLog n (by omega)) (length_patchRecord_removedLog (by omega)) (by decide) (by omega) with
    ⟨m, hrun, hlogs, -⟩
  have hlast := hlogs.lastVersion
  have hlate : clientNeedsPatch m ⟨0⟩ = true := decide_eq_true (by simp only; omega)
  rcases hlogs.readNext (by decide) (show (0 : Int) < (removedLog n).length by omega) (by omega) with
    ⟨next, action, header, hread, hpatch, hkeep⟩
  have hlt := hpatch.lt
  rw [removedIn_removedLog (by omega)] at hkeep
  -- every version before the last one is removed
  have hnext : next = ((1 + (n - 1) : Nat) : Int) := by
    by_contra hne
    have hrem := hpatch.between n (by omega) (by omega) (by omega)
    rw [removedIn_removedLog (by omega)] at hrem
    omega
  have hentry := hpatch.entry
  rw [hnext, entryOf_succ, removedLog_add (by omega)] at hentry
  cases hentry
  have hfar : next = 2 ^ 32 + 1 := by omega
  rw [hfar] at hpatch hread
  have hbytes := sendPatch_ok (show (ascii "1").length < PATH_MAX by decide) oneField .add
    (show -2 ^ 63 ≤ (0 : Int) ∧ (0 : Int) < 2 ^ 63 by decide)
    (show -2 ^ 63 ≤ (2 ^ 32 + 1 : Int) ∧ (2 ^ 32 + 1 : Int) < 2 ^ 63 by decide)
  have hsend : sendNextPatch (ascii "1") m ⟨0⟩ = .ok (⟨0, 2 ^ 32 + 1, .add, oneField⟩,
      msgBytes (ascii "1") ⟨0, 2 ^ 32 + 1, .add, oneField⟩, ⟨2 ^ 32 + 1⟩) := by
    simp only [sendNextPatch, hread, hbytes, msgBytes]
  exact ⟨m, removedLog n, SyncRun.send hrun rfl hlate trivial hsend, hpatch, by omega⟩

/-- `try_apply` counts no blank and applies the patch as the first version, which is not the one it was
sent for. -/
theorem handle_far_patch :
    let _ := plainHost
    received freshClient 0 (2 ^ 32 + 1) (mdirAction2str .add) (headerWrite oneField) =
        some (⟨0, 2 ^ 32 + 1, oneField, .add⟩, []) ∧
      ApplyRoom quietSys 10 freshClient.mdir [⟨0, 2 ^ 32 + 1, oneField, .add⟩] ∧
      handle 10 freshClient (.patch quietSys 0 (2 ^ 32 + 1) (mdirAction2str .add) (headerWrite oneField)) =
        none := by
  intro _
  refine ⟨by decide, fun _ => ⟨by decide, trivial⟩, ?_⟩
  exact Option.isNone_iff_eq_none.1 (by decide)

/-- A gap of more than 2^32 versions ends the client. -/
theorem not_replica_converges :
    ¬ ∀ (_ : Host) (maxJnlSize : Nat) (dirId : Bytes) (s : Sync) (G : Entries), maxJnlSize < 2 ^ 32 →
      dirId.length < PATH_MAX → IsWord dirId → SyncRun maxJnlSize dirId (fun _ _ => True) s G →
      Converges maxJnlSize dirId s G := by
  intro hall
  let _ := plainHost
  have hword : IsWord (ascii "1") := ⟨by decide +kernel, by decide +kernel⟩
  rcases exists_far_patch with ⟨m, G, hrun, hpatch, hfit⟩
  rcases handle_far_patch with ⟨hgot, hroom, hnone⟩
  have halive := (hall plainHost 10 (ascii "1") _ G (by decide) (by decide) hword hrun).alive
  let s : Sync :=
    { server := m, sub := some ⟨2 ^ 32 + 1⟩
      wire := msgBytes (ascii "1") ⟨0, 2 ^ 32 + 1, .add, oneField⟩, client := freshClient }
  have hwire : s.wire = msgBytes (ascii "1") ⟨0, 2 ^ 32 + 1, .add, oneField⟩ ++ [] :=
    (List.append_nil _).symm
  obtain ⟨hturn, hnext⟩ : readerTurn quietSys 10 (ascii "1") s = _ ∧ nextPatch s = _ :=
    readerTurn_msg (by decide) hword le_rfl hpatch hfit hwire quietSys
  rw [List.append_nil] at hturn hnext
  have hne : msgBytes (ascii "1") ⟨0, 2 ^ 32 + 1, .add, oneField⟩ ≠ [] := by decide
  refine halive rfl hne quietSys ?_ ?_
  · intro p hp
    rw [hnext, hgot] at hp
    cases hp
    exact hroom
  · rw [hturn, hnone]
    rfl

end Scambio
