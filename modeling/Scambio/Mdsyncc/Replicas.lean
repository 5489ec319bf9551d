import Scambio.Library.Interleaving
import Scambio.Mdsyncc.Convergence
import Scambio.Mdsyncd.Authority

/-!
# Replicas — a folder of the server and all the clients that follow it

Any number of clients have a copy of the same folder.  Any of them may send a PUT or a REM, whose patch is accepted or
refused, while the others are sent patches, receive them, or lose their connection.

* `Folder`          : the folder of the server, with the record of what was accepted;
* `Peer`            : a subscription, the bytes on their way, and the client;
* `PeerStep`        : what a client may do, or have done to it;
* `peer_steady`     : each client stays in accordance with the folder, whatever the others do;
* `replicas_follow` : what any two clients have, against each other and against the server.
-/

namespace Scambio

open Library

structure Folder where
  mdir : Mdir
  log : List Posted

structure Peer where
  sub : Option Subscription
  wire : Bytes
  client : Mdirc

/-- What one client and the server make of each other. -/
def Peer.sync (p : Peer) (server : Mdir) : Sync where
  server := server
  sub := p.sub
  wire := p.wire
  client := p.client

/-- The entries of the accepted patches. -/
def entriesOf (log : List Posted) : Entries :=
  log.map fun e => (e.action, e.header)

theorem entriesOf_append (log log' : List Posted) : entriesOf (log ++ log') = entriesOf log ++ entriesOf log' :=
  List.map_append

section Steps

variable [Host] (maxJnlSize : Nat) (dirId : Bytes)

/-- The folder after a PUT or a REM. -/
def Folder.put (sys : Sys) (f : Folder) (lookup : Bytes → Except Err FoundMdir) (h : Header) (action : Action)
    (user : User) : Folder :=
  let r := addHeader sys maxJnlSize f.mdir lookup h action user
  { mdir := r.mdir, log := f.log ++ postedOf r user f.mdir.permissions action }

/-- What a client does, or what the server does for it. -/
inductive PeerStep : Folder × Peer → Folder × Peer → Prop
  /-- The server executes a query of this client. -/
  | put {f : Folder} {p : Peer} (sys : Sys) (lookup : Bytes → Except Err FoundMdir) (h : Header) (action : Action)
      (user : User) : dumpFills DEBUG_ROOM h = false → ReadableHeader (headerFieldNew h SC_USER_FIELD user.name) →
      InReadBuffer (headerFieldNew h SC_USER_FIELD user.name) →
      RoomFor sys f.mdir action (headerFieldNew h SC_USER_FIELD user.name) 0 →
      PeerStep (f, p) (f.put maxJnlSize sys lookup h action user, p)
  /-- The client starts, or connects again, and subscribes from its last version. -/
  | connect {f : Folder} {p : Peer} {sub : Subscription} (user : User) (cnx : Cnx (Option Command))
      (files : Bytes → Option Bytes) :
      subscriptionNew user f.mdir (mdirLastVersion p.client.mdir) = .ok sub →
      PeerStep (f, p) (f, { sub := some sub, wire := [], client := Mdirc.new p.client.mdir cnx files })
  /-- The server sends the next patch. -/
  | send {f : Folder} {p : Peer} {sub sub' : Subscription} {msg : PatchMsg} {bytes : Bytes} :
      p.sub = some sub → clientNeedsPatch f.mdir sub = true → FewDeletedNext f.mdir sub →
      sendNextPatch dirId f.mdir sub = .ok (msg, bytes, sub') →
      PeerStep (f, p) (f, { p with sub := some sub', wire := p.wire ++ bytes })
  /-- The client reads the next command. -/
  | receive {f : Folder} {p : Peer} {s : Sync} (sys : Sys) : p.client.reading = true → p.wire ≠ [] →
      TurnRoom sys maxJnlSize (p.sync f.mdir) → readerTurn sys maxJnlSize dirId (p.sync f.mdir) = some s →
      PeerStep (f, p) (f, { sub := s.sub, wire := s.wire, client := s.client })
  /-- Something else happens to the client: an answer, a new request, a transient patch. -/
  | event {f : Folder} {p : Peer} {c : Mdirc} (e : Event) : e.aside → handle maxJnlSize p.client e = some c →
      PeerStep (f, p) (f, { p with client := c })

/-- An empty folder, and clients that have not connected yet. -/
def replicasStart {ι : Type} (serverPath : Bytes) (clientPath : ι → Bytes) (cnx : ι → Cnx (Option Command))
    (files : ι → Bytes → Option Bytes) : World ι Folder Peer where
  shared := { mdir := Mdir.new serverPath, log := [] }
  threads i := { sub := none, wire := [], client := Mdirc.new (Mdir.new (clientPath i)) (cnx i) (files i) }

end Steps

/-! ## Every step -/

section Steady

variable [Host] {maxJnlSize : Nat} {dirId : Bytes} {f : Folder} {p : Peer}

/-- A plain patch is refused, or stored as `mdir_patch` stores it. -/
theorem put_plain {sys : Sys} {lookup : Bytes → Except Err FoundMdir} {h : Header} {action : Action} {user : User}
    (hplain : ReadableHeader (headerFieldNew h SC_USER_FIELD user.name)) :
    f.put maxJnlSize sys lookup h action user = f ∨
      ((f.put maxJnlSize sys lookup h action user).mdir =
          (mdirPatch sys maxJnlSize f.mdir action (headerFieldNew h SC_USER_FIELD user.name) 0).mdir ∧
        entriesOf (f.put maxJnlSize sys lookup h action user).log = entriesOf f.log ++
          storedEntry (mdirPatch sys maxJnlSize f.mdir action (headerFieldNew h SC_USER_FIELD user.name) 0) action
            (headerFieldNew h SC_USER_FIELD user.name)) := by
  unfold Folder.put addHeader
  split_ifs with hperm huser
  · exact .inl (by simp only [postedOf, List.append_nil])
  · exact .inl (by simp only [postedOf, List.append_nil])
  · right
    have hdir : headerIsDirectory h = false := by
      rw [← headerIsDirectory_user h user.name]
      exact hplain.not_dir
    have hleft : (mdirPatch sys maxJnlSize f.mdir action (headerFieldNew h SC_USER_FIELD user.name) 0).header =
        headerFieldNew h SC_USER_FIELD user.name := by
      rcases mdirPatch_adds sys maxJnlSize f.mdir action (headerFieldNew h SC_USER_FIELD user.name) with
        ⟨added, heq, -, hnodir⟩
      rw [heq, hnodir (fun hadd => by rw [headerIsDirectory, hplain.not_dir] at hadd; cases hadd.2), List.append_nil]
    generalize mdirPatch sys maxJnlSize f.mdir action (headerFieldNew h SC_USER_FIELD user.name) 0 = r at hleft ⊢
    rcases r with ⟨m', left, e | version⟩
    · exact ⟨rfl, by simp [postedOf, storedEntry]⟩
    · simp only [hdir, Bool.false_and, Bool.false_eq_true, if_false]
      refine ⟨trivial, ?_⟩
      rw [entriesOf_append]
      simp [postedOf, storedEntry, entriesOf, ← hleft]

/-- A client stays in accordance with the folder when any of them has put something. -/
theorem synced_put (hmax : maxJnlSize < 2 ^ 32) (h : Synced maxJnlSize dirId (p.sync f.mdir) (entriesOf f.log))
    {sys : Sys} {lookup : Bytes → Except Err FoundMdir} {hd : Header} {action : Action} {user : User}
    (hplain : ReadableHeader (headerFieldNew hd SC_USER_FIELD user.name))
    (hin : InReadBuffer (headerFieldNew hd SC_USER_FIELD user.name))
    (hroom : RoomFor sys f.mdir action (headerFieldNew hd SC_USER_FIELD user.name) 0) :
    Synced maxJnlSize dirId (p.sync (f.put maxJnlSize sys lookup hd action user).mdir)
      (entriesOf (f.put maxJnlSize sys lookup hd action user).log) := by
  have hput : f.put maxJnlSize sys lookup hd action user = f ∨ _ := put_plain hplain
  rcases hput with hrefused | ⟨hmdir, hlog⟩
  · rw [hrefused]
    exact h
  · rw [hmdir, hlog]
    exact h.patch hmax hplain hin hroom

/-- A plain patch creates no folder, so that nothing is granted. -/
theorem permsOf_put {sys : Sys} {lookup : Bytes → Except Err FoundMdir} {hd : Header} {action : Action} {user : User}
    (hplain : ReadableHeader (headerFieldNew hd SC_USER_FIELD user.name))
    (h : PermsOf none f.log [] f.mdir.permissions) :
    PermsOf none (f.put maxJnlSize sys lookup hd action user).log []
      (f.put maxJnlSize sys lookup hd action user).mdir.permissions := by
  have hdir : headerIsDirectory hd = false := by
    rw [← headerIsDirectory_user hd user.name]
    exact hplain.not_dir
  have hchild : grantsOf (addHeader sys maxJnlSize f.mdir lookup hd action user) user = [] := by
    unfold addHeader
    split_ifs
    · rfl
    · rfl
    · simp only [hdir, Bool.false_and, Bool.false_eq_true, if_false]
      split <;> rfl
  have hput := @PermsOf.addHeader _ sys maxJnlSize f.mdir lookup hd action user _ _ _ h
  rw [hchild] at hput
  exact hput

/-- A turn of the reader leaves the server alone. -/
theorem readerTurn_server {sys : Sys} {s s' : Sync} (h : readerTurn sys maxJnlSize dirId s = some s') :
    s'.server = s.server := by
  unfold readerTurn at h
  dsimp only at h
  split at h
  · split at h
    · cases h
    · cases h
      rfl
    · split at h
      · split_ifs at h
        · rcases Option.map_eq_some_iff.1 h with ⟨c, -, rfl⟩
          rfl
        · cases h
          rfl
      · cases h
        rfl
  · cases h

theorem peer_steady (ι : Type) (hmax : maxJnlSize < 2 ^ 32) (hid : dirId.length ≤ 973) (hword : IsWord dirId) :
    World.Steady (fun _ : ι => PeerStep maxJnlSize dirId) (fun f => PermsOf none f.log [] f.mdir.permissions)
      (fun _ f p => Synced maxJnlSize dirId (p.sync f.mdir) (entriesOf f.log)) where
  shared := by
    intro i f p r hstep hperms _
    cases hstep with
    | put sys lookup h action user _ hplain hin hroom => exact permsOf_put hplain hperms
    | connect | send | receive | event => exact hperms
  own := by
    intro i f p r hstep _ h
    cases hstep with
    | put sys lookup hd action user _ hplain hin hroom => exact synced_put hmax h hplain hin hroom
    | connect user cnx files hsub => exact h.connect cnx files hsub
    | send hsub hneeds hfew hsend => exact h.send hmax hid hsub hneeds hfew hsend
    | receive sys hread hne hroom hturn =>
        rcases h.turn hmax hid hword hread hne hroom with ⟨s', hs', hsynced⟩
        have hserver := readerTurn_server hturn
        rw [hturn] at hs'
        cases hs'
        exact ⟨hserver ▸ hsynced.server, hsynced.client, hsynced.queue, hsynced.maps, hsynced.inBuffer, hsynced.sub,
          hsynced.wire⟩
    | event e he hc => exact h.event he hc
  others := by
    intro i f p r hstep _ _ j _ q hq
    cases hstep with
    | put sys lookup hd action user _ hplain hin hroom => exact synced_put hmax hq hplain hin hroom
    | connect | send | receive | event => exact hq

end Steady

/-! ## What the clients have -/

/-- The patch that was accepted as this version. -/
def postAt (log : List Posted) (v : Int) : Option Posted :=
  if 1 ≤ v then log[(v - 1).toNat]? else none

theorem entryOf_entriesOf (log : List Posted) (v : Int) :
    entryOf (entriesOf log) v = (postAt log v).map fun e => (e.action, e.header) := by
  unfold entryOf postAt entriesOf
  split_ifs
  · rw [List.getElem?_map]
  · rfl

theorem mem_of_postAt {log : List Posted} {v : Int} {e : Posted} (h : postAt log v = some e) : e ∈ log := by
  unfold postAt at h
  split_ifs at h
  exact List.mem_of_getElem? h

section Follow

variable [Host] {maxJnlSize : Nat} {dirId : Bytes} {f : Folder} {p : Peer}

/-- A version of a client is what its user has put, or it is deleted on both sides. -/
theorem Synced.follows (hmax : maxJnlSize < 2 ^ 32) (h : Synced maxJnlSize dirId (p.sync f.mdir) (entriesOf f.log))
    {v : Int} (hlow : 1 ≤ v) (hhigh : v ≤ mdirLastVersion p.client.mdir) :
    (Deleted p.client.mdir v ∧ Deleted f.mdir v) ∨
      ∃ e h', postAt f.log v = some e ∧ WithLocalId e.header h' ∧
        mdirRead p.client.mdir v = .ok (e.action, some h') := by
  rcases h.client.read hmax h.server hlow hhigh with hdel | ⟨a, hd, h', he, hloc, hread⟩
  · exact .inl hdel
  · rw [entryOf_entriesOf] at he
    rcases Option.map_eq_some_iff.1 he with ⟨e, hpost, heq⟩
    cases heq
    exact .inr ⟨e, h', hpost, hloc, hread⟩

/-- A client that has all the versions has the patches of the server. -/
theorem Synced.caught_up (hmax : maxJnlSize < 2 ^ 32) (h : Synced maxJnlSize dirId (p.sync f.mdir) (entriesOf f.log))
    (hlast : mdirLastVersion p.client.mdir = mdirLastVersion f.mdir) {v : Int} (hlow : 1 ≤ v)
    (hhigh : v ≤ mdirLastVersion f.mdir) :
    (Deleted p.client.mdir v ∧ Deleted f.mdir v) ∨
      ∃ a hd h', mdirRead f.mdir v = .ok (a, some hd) ∧ WithLocalId hd h' ∧
        mdirRead p.client.mdir v = .ok (a, some h') := by
  rcases h.client.read hmax h.server hlow (hlast ▸ hhigh) with hdel | ⟨a, hd, h', he, hloc, hread⟩
  · exact .inl hdel
  · have hkeep := h.client.not_removed (hlast.trans h.server.lastVersion) hmax hread hlow
    exact .inr ⟨a, hd, h', (h.server.read hmax he).2 hkeep, hloc, hread⟩

variable {ι : Type} [DecidableEq ι] {serverPath : Bytes} {clientPath : ι → Bytes} {cnx : ι → Cnx (Option Command)}
  {files : ι → Bytes → Option Bytes} {w : World ι Folder Peer}

theorem replicas_synced (hmax : maxJnlSize < 2 ^ 32) (hid : dirId.length ≤ 973) (hword : IsWord dirId)
    (run : World.Run (fun _ => PeerStep maxJnlSize dirId) (replicasStart serverPath clientPath cnx files) w) :
    PermsOf none w.shared.log [] w.shared.mdir.permissions ∧
      ∀ i, Synced maxJnlSize dirId ((w.threads i).sync w.shared.mdir) (entriesOf w.shared.log) := by
  have hstart : ∀ i, Synced maxJnlSize dirId
      (((replicasStart serverPath clientPath cnx files).threads i).sync (Mdir.new serverPath)) (entriesOf []) := by
    intro i
    refine ⟨logs_new maxJnlSize serverPath, replicates_new maxJnlSize (clientPath i), fun p hp => ?_,
      fun c2l hmem => ?_, fun e he => ?_, fun sub hsub => ?_, fun _ => ⟨[], fun msg hmsg => ?_, rfl⟩⟩
    · cases hp
    · cases hmem
    · cases he
    · cases hsub
    · cases hmsg
  exact run.invariant (peer_steady ι hmax hid hword) .start hstart

/-- In every run of a folder and of any number of clients: no client meets an assertion; each version that a client has
is what its user has put, who was allowed to, or it is deleted on both sides; two clients that have all the versions
have the same patches, those of the server; and the permissions are those that users who may administrate have put. -/
theorem replicas_follow (hmax : maxJnlSize < 2 ^ 32) (hid : dirId.length ≤ 973) (hword : IsWord dirId)
    (run : World.Run (fun _ => PeerStep maxJnlSize dirId) (replicasStart serverPath clientPath cnx files) w) :
    (∀ i, (w.threads i).client.reading = true → (w.threads i).wire ≠ [] → ∀ sys,
      TurnRoom sys maxJnlSize ((w.threads i).sync w.shared.mdir) →
        readerTurn sys maxJnlSize dirId ((w.threads i).sync w.shared.mdir) ≠ none) ∧
    (∀ i v, 1 ≤ v → v ≤ mdirLastVersion (w.threads i).client.mdir →
      (Deleted (w.threads i).client.mdir v ∧ Deleted w.shared.mdir v) ∨
        ∃ e h', postAt w.shared.log v = some e ∧ e.Legit ∧ WithLocalId e.header h' ∧
          mdirRead (w.threads i).client.mdir v = .ok (e.action, some h')) ∧
    (∀ i j, mdirLastVersion (w.threads i).client.mdir = mdirLastVersion w.shared.mdir →
      mdirLastVersion (w.threads j).client.mdir = mdirLastVersion w.shared.mdir →
      ∀ v, 1 ≤ v → v ≤ mdirLastVersion w.shared.mdir →
        (Deleted (w.threads i).client.mdir v ∧ Deleted (w.threads j).client.mdir v ∧ Deleted w.shared.mdir v) ∨
          ∃ a hd hi hj, mdirRead w.shared.mdir v = .ok (a, some hd) ∧ WithLocalId hd hi ∧ WithLocalId hd hj ∧
            mdirRead (w.threads i).client.mdir v = .ok (a, some hi) ∧
            mdirRead (w.threads j).client.mdir v = .ok (a, some hj)) ∧
    PermsOf none w.shared.log [] w.shared.mdir.permissions := by
  rcases replicas_synced hmax hid hword run with ⟨hperms, hsynced⟩
  refine ⟨?_, ?_, ?_, hperms⟩
  · intro i hread hne sys hroom hnone
    rcases (hsynced i).turn hmax hid hword hread hne hroom with ⟨s', hs', -⟩
    rw [hnone] at hs'
    cases hs'
  · intro i v hlow hhigh
    rcases (hsynced i).follows hmax hlow hhigh with hdel | ⟨e, h', hpost, hloc, hread⟩
    · exact .inl hdel
    · exact .inr ⟨e, h', hpost, hperms.legit e (mem_of_postAt hpost), hloc, hread⟩
  · intro i j hi hj v hlow hhigh
    rcases (hsynced i).caught_up hmax hi hlow hhigh with ⟨hdel, hgone⟩ | ⟨a, hd, h', hserver, hloc, hread⟩
    · -- the other one cannot have kept it
      rcases (hsynced j).caught_up hmax hj hlow hhigh with ⟨hdel', -⟩ | ⟨a, hd, h', hserver, -, -⟩
      · exact .inl ⟨hdel, hdel', hgone⟩
      · rcases hgone with ⟨a', hgone⟩
        rw [hgone] at hserver
        cases hserver
    · rcases (hsynced j).caught_up hmax hj hlow hhigh with ⟨-, hgone⟩ | ⟨a', hd', h'', hserver', hloc', hread'⟩
      · rcases hgone with ⟨a', hgone⟩
        rw [hgone] at hserver
        cases hserver
      · rw [hserver] at hserver'
        cases hserver'
        exact .inr ⟨a, hd, h', h'', hserver, hloc, hloc', hread, hread'⟩

end Follow

/-- A patch of bob is sent to two clients. -/
theorem replicas_follow_sample :
    let _ := plainHost
    ∃ w : World Bool Folder Peer, mdirLastVersion (w.threads false).client.mdir = 1 ∧
      mdirLastVersion (w.threads true).client.mdir = 1 ∧
      ((Deleted (w.threads true).client.mdir 1 ∧ Deleted w.shared.mdir 1) ∨
        ∃ e h', postAt w.shared.log 1 = some e ∧ e.Legit ∧ WithLocalId e.header h' ∧
          mdirRead (w.threads true).client.mdir 1 = .ok (e.action, some h')) := by
  intro _
  let posted : Header := headerFieldNew oneField SC_USER_FIELD bob.name
  let lookup : Bytes → Except Err FoundMdir := fun _ => .error (.push 0 [])
  let f : Folder := Folder.put 10 quietSys ⟨Mdir.new (ascii "/m/1"), []⟩ lookup oneField .add bob
  let bytes := msgBytes (ascii "1") ⟨0, 1, .add, posted⟩
  let cnx := freshClient.cnx
  let idle : Peer := ⟨none, [], freshClient⟩
  let sent : Peer := ⟨some ⟨1⟩, bytes, freshClient⟩
  have hplain : ReadableHeader posted := ⟨⟨by decide, by decide, by decide⟩, by decide⟩
  have hput : PeerStep 10 (ascii "1") (⟨Mdir.new (ascii "/m/1"), []⟩, idle) (f, idle) :=
    .put quietSys lookup oneField .add bob (by decide) hplain (by decide) (by decide)
  have hconnect : PeerStep 10 (ascii "1") (f, idle) (f, ⟨some ⟨0⟩, [], freshClient⟩) :=
    .connect bob cnx (fun _ => none) (by decide)
  have hlive : Live f.mdir 1 := ⟨.add, posted, eq_ok_of_toOption (by decide)⟩
  have hsend : PeerStep 10 (ascii "1") (f, ⟨some ⟨0⟩, [], freshClient⟩) (f, sent) :=
    .send rfl (by decide) ⟨1, by decide, by decide, hlive⟩
      (eq_ok_of_toOption (by decide) : sendNextPatch (ascii "1") f.mdir ⟨0⟩ = .ok (⟨0, 1, .add, posted⟩, bytes, ⟨1⟩))
  have hnext : nextPatch (sent.sync f.mdir) = some ⟨0, 1, posted, .add⟩ := by decide
  have hroom : TurnRoom quietSys 10 (sent.sync f.mdir) := by
    intro p hp
    rw [hnext] at hp
    cases hp
    exact fun _ => ⟨by decide, trivial⟩
  have hturn : (readerTurn quietSys 10 (ascii "1") (sent.sync f.mdir)).map (fun s => mdirLastVersion s.client.mdir) =
      some 1 := by decide
  rcases Option.map_eq_some_iff.1 hturn with ⟨s', hs', hlast⟩
  have hreceive : PeerStep 10 (ascii "1") (f, sent) (f, ⟨s'.sub, s'.wire, s'.client⟩) :=
    .receive quietSys rfl (by decide) hroom hs'
  -- each of the two clients goes through these steps
  have h₀ : World.Run (fun _ : Bool => PeerStep 10 (ascii "1"))
      (replicasStart (ascii "/m/1") (fun _ => ascii "/c/1") (fun _ => cnx) fun _ _ => none) _ := .start
  have h₁ := h₀.step false hput
  have h₂ := (h₁.step false hconnect).step true hconnect
  have h₃ := (h₂.step false hsend).step true hsend
  have h₄ := (h₃.step false hreceive).step true hreceive
  have hfollow := (replicas_follow (by decide +kernel) (by decide +kernel)
    ⟨by decide +kernel, by decide +kernel⟩ h₄).2.1
  refine ⟨_, ?_, ?_, hfollow true 1 le_rfl ?_⟩
  · exact hlast
  · exact hlast
  · exact hlast.ge

end Scambio
