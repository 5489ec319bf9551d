import Scambio.Commons.Auth
import Scambio.Lib.PlainMdir

/-!
# Subscription — the patches that the server sends (`mdsyncd/sub.c`)

The thread of a subscription sends, as long as the client is late, the next patch after the last
version it sent.  `SubRun` are the histories of a subscription that is not reset while the mdir is
patched.
-/

namespace Scambio

open Library

/-- A `struct subscription`; the mdir and the connection are arguments of its functions. -/
structure Subscription where
  version : Int
  deriving DecidableEq, Repr

def subscriptionResetVersion (sub : Subscription) (version : Int) : Subscription :=
  if version > sub.version then sub else { sub with version := version }

/-- `subscription_new`, once the mdir is found. -/
def subscriptionNew (user : User) (m : Mdir) (version : Int) : Except Err Subscription :=
  if !userCanRead user m.permissions then .error (.push 0 (ascii "No read permission"))
  else .ok (subscriptionResetVersion { version := version } version)

def clientNeedsPatch (m : Mdir) (sub : Subscription) : Bool :=
  decide (sub.version < mdirLastVersion m)

/-- What a PATCH command tells. -/
structure PatchMsg where
  prev : Int
  new : Int
  action : Action
  header : Header
  deriving DecidableEq, Repr

/-- The command line of a patch. -/
def patchLine (dirId : Bytes) (action : Action) (prev new : Int) : Bytes :=
  ascii "PATCH " ++ dirId ++ ascii " " ++ printInt prev ++ ascii " " ++ printInt new ++ ascii " " ++
    mdirAction2str action ++ ascii "\n"

/-- `sizeof(cmdstr)`. -/
def cmdstrSize : Nat := 5 + 1 + PATH_MAX + 1 + 20 + 1 + 20 + 1 + 1 + 1

/-- `send_patch`: the bytes written. -/
def sendPatch (dirId : Bytes) (h : Header) (action : Action) (prev new : Int) : Except Err Bytes :=
  let cmdstr := patchLine dirId action prev new
  if cmdstr.length < cmdstrSize then .ok (cmdstr ++ headerWrite h)
  else .error (.abort (ascii "cmdlen < sizeof(cmdstr)"))

section Send

variable [Host]

/-- `send_next_patch`: the patch sent, its bytes and the subscription. -/
def sendNextPatch (dirId : Bytes) (m : Mdir) (sub : Subscription) :
    Except Err (PatchMsg × Bytes × Subscription) :=
  match mdirReadNext m sub.version with
  | .error e => .error e
  -- `header_write` goes through the NULL header
  | .ok none => .error (.abort (ascii "h"))
  | .ok (some (next, action, h)) =>
      match sendPatch dirId h action sub.version next with
      | .error e => .error e
      | .ok bytes =>
          .ok ({ prev := sub.version, new := next, action := action, header := h }, bytes,
            { sub with version := next })

/-! ## Runs -/

/-- The runs of one subscription, from version `start` on: patches of the mdir and patches sent. -/
inductive SubRun (maxJnlSize : Nat) (dirId : Bytes) (start : Int) :
    Mdir → Subscription → List PatchMsg → Prop
  | subscribe {m : Mdir} {calls : List Call} {sub : Subscription} (user : User) :
      Run maxJnlSize plainEntry noCrash m calls → subscriptionNew user m start = .ok sub →
      SubRun maxJnlSize dirId start m sub []
  | patch {m : Mdir} {sub : Subscription} {msgs : List PatchMsg} (sys : Sys) (action : Action)
      (header : Header) : SubRun maxJnlSize dirId start m sub msgs → ReadableHeader header →
      RoomFor sys m action header 0 →
      SubRun maxJnlSize dirId start (mdirPatch sys maxJnlSize m action header 0).mdir sub msgs
  | send {m : Mdir} {sub sub' : Subscription} {msgs : List PatchMsg} {msg : PatchMsg} {bytes : Bytes} :
      SubRun maxJnlSize dirId start m sub msgs → clientNeedsPatch m sub = true →
      sendNextPatch dirId m sub = .ok (msg, bytes, sub') →
      SubRun maxJnlSize dirId start m sub' (msgs ++ [msg])

omit [Host] in
/-- Each patch starts from the version of the one before. -/
def Chained : Int → List PatchMsg → Int → Prop
  | v, [], w => v = w
  | v, msg :: msgs, w => msg.prev = v ∧ Chained msg.new msgs w

omit [Host] in
theorem Chained.snoc {v w : Int} {msgs : List PatchMsg} {msg : PatchMsg} (h : Chained v msgs w)
    (hprev : msg.prev = w) : Chained v (msgs ++ [msg]) msg.new := by
  induction msgs generalizing v with
  | nil =>
      cases h
      exact ⟨hprev, rfl⟩
  | cons m msgs ih => exact ⟨h.1, ih h.2⟩

omit [Host] in
/-- A chain of growing patches goes through every version between its ends. -/
theorem Chained.covers {v w : Int} {msgs : List PatchMsg} (h : Chained v msgs w) {x : Int} (hlo : v < x)
    (hhi : x ≤ w) : ∃ msg ∈ msgs, msg.prev < x ∧ x ≤ msg.new := by
  induction msgs generalizing v with
  | nil =>
      have hvw : v = w := h
      omega
  | cons m msgs ih =>
      rcases h with ⟨hprev, hrest⟩
      by_cases hx : x ≤ m.new
      · exact ⟨m, List.mem_cons_self, by omega, hx⟩
      · rcases ih hrest (by omega) with ⟨msg, hmem, hin⟩
        exact ⟨msg, List.mem_cons_of_mem _ hmem, hin⟩

omit [Host] in
theorem Chained.le {v w : Int} {msgs : List PatchMsg} (h : Chained v msgs w)
    (hlt : ∀ msg ∈ msgs, msg.prev < msg.new) : v ≤ w := by
  induction msgs generalizing v with
  | nil => exact le_of_eq h
  | cons m msgs ih =>
      have hm := hlt m List.mem_cons_self
      have hrest := ih h.2 fun msg hmem => hlt msg (List.mem_cons_of_mem _ hmem)
      have hprev := h.1
      omega

omit [Host] in
theorem Chained.increasing {v w : Int} {msgs : List PatchMsg} (h : Chained v msgs w)
    (hlt : ∀ msg ∈ msgs, msg.prev < msg.new) :
    (∀ msg ∈ msgs, v < msg.new) ∧ (msgs.map PatchMsg.new).Pairwise (· < ·) := by
  induction msgs generalizing v with
  | nil => simp
  | cons m msgs ih =>
      have hm := hlt m List.mem_cons_self
      have hprev := h.1
      rcases ih h.2 fun msg hmem => hlt msg (List.mem_cons_of_mem _ hmem) with ⟨hafter, hpair⟩
      refine ⟨?_, ?_⟩
      · intro msg hmem
        rcases List.mem_cons.1 hmem with rfl | hmem
        · omega
        · have := hafter msg hmem
          omega
      · rw [List.map_cons, List.pairwise_cons]
        refine ⟨?_, hpair⟩
        intro x hx
        rcases List.mem_map.1 hx with ⟨msg, hmem, rfl⟩
        exact hafter msg hmem

variable {maxJnlSize : Nat} {dirId : Bytes} {start : Int} {m : Mdir} {sub : Subscription}
  {msgs : List PatchMsg}

omit [Host] in
/-- The patches sent so far, by the entries of the mdir. -/
structure Served (G : Entries) (start : Int) (sub : Subscription) (msgs : List PatchMsg) : Prop where
  chained : Chained start msgs sub.version
  patches : ∀ msg ∈ msgs, PatchOf G msg.prev msg.new msg.action msg.header

omit [Host] in
theorem Served.snoc {G : Entries} (h : Served G start sub msgs) (e : Action × Header) :
    Served (G ++ [e]) start sub msgs :=
  ⟨h.chained, fun msg hmem => (h.patches msg hmem).snoc e⟩

omit [Host] in
/-- The command line fits its buffer. -/
theorem sendPatch_ok (hid : dirId.length < PATH_MAX) (h : Header) (action : Action) {prev new : Int}
    (hprev : -2 ^ 63 ≤ prev ∧ prev < 2 ^ 63) (hnew : -2 ^ 63 ≤ new ∧ new < 2 ^ 63) :
    sendPatch dirId h action prev new = .ok (patchLine dirId action prev new ++ headerWrite h) := by
  have h1 := length_printInt hprev.1 hprev.2
  have h2 := length_printInt hnew.1 hnew.2
  have hact : (mdirAction2str action).length = 1 := by cases action <;> rfl
  have hword : (ascii "PATCH ").length = 6 := rfl
  have hspace : (ascii " ").length = 1 := rfl
  have heol : (ascii "\n").length = 1 := rfl
  have hlt : (patchLine dirId action prev new).length < cmdstrSize := by
    simp only [patchLine, cmdstrSize, List.length_append, hact, hword, hspace, heol]
    omega
  simp only [sendPatch, if_pos hlt]

/-- What was sent, and the next patch, in the entries of the mdir. -/
theorem SubRun.served (hmax : maxJnlSize < 2 ^ 32) (h : SubRun maxJnlSize dirId start m sub msgs) :
    ∃ G, Logs maxJnlSize m G ∧ Served G start sub msgs := by
  induction h with
  | @subscribe m calls sub user hrun hnew =>
      rcases hrun.logs hmax with ⟨G, hlogs⟩
      refine ⟨G, hlogs, ?_, by simp⟩
      unfold subscriptionNew at hnew
      split_ifs at hnew
      cases hnew
      simp [subscriptionResetVersion, Chained]
  | patch sys action header _ hp hroom ih =>
      rcases ih with ⟨G, hlogs, hserved⟩
      rcases hlogs.patch hmax hp hroom with ⟨-, hlogs'⟩ | ⟨-, hlogs'⟩
      · exact ⟨G, hlogs', hserved⟩
      · exact ⟨_, hlogs', hserved.snoc _⟩
  | @send m sub sub' msgs msg bytes _ hneeds hsend ih =>
      rcases ih with ⟨G, hlogs, hserved⟩
      refine ⟨G, hlogs, ?_⟩
      have hlt : sub.version < G.length := by
        rw [← hlogs.lastVersion]
        exact of_decide_eq_true hneeds
      -- without any entry the header would be NULL, and nothing would have been sent
      have hpos : 1 ≤ G.length := by
        rcases Nat.eq_zero_or_pos G.length with hzero | hpos
        · simp only [sendNextPatch] at hsend
          split at hsend
          · cases hsend
          · cases hsend
          · next hread => exact absurd hread (hlogs.readNext_empty hzero _ _)
        · exact hpos
      rcases hlogs.readNext hmax hlt hpos with ⟨next, action, header, hread, hpatch, -⟩
      simp only [sendNextPatch, hread] at hsend
      split at hsend
      · cases hsend
      · cases hsend
        refine ⟨hserved.chained.snoc rfl, ?_⟩
        intro msg hmem
        rcases List.mem_append.1 hmem with hmem | hmem
        · exact hserved.patches msg hmem
        · obtain rfl := List.mem_singleton.1 hmem
          exact hpatch

/-! ## The next patch -/

/-- The version has a patch that is not deleted. -/
def Live (m : Mdir) (v : Int) : Prop :=
  ∃ action header, mdirRead m v = .ok (action, some header)

/-- The next patch after the version of the subscription is found, and sent. -/
def SendsNext (dirId : Bytes) (m : Mdir) (sub : Subscription) : Prop :=
  ∃ next action header, mdirReadNext m sub.version = .ok (some (next, action, header)) ∧
    sub.version < next ∧ mdirRead m next = .ok (action, some header) ∧
    (∀ w, sub.version < w → w < next → ¬ Live m w) ∧
    sendNextPatch dirId m sub =
      .ok ({ prev := sub.version, new := next, action := action, header := header },
        patchLine dirId action sub.version next ++ headerWrite header, { version := next })

theorem Logs.sendsNext (hmax : maxJnlSize < 2 ^ 32) (hid : dirId.length < PATH_MAX) {G : Entries}
    (h : Logs maxJnlSize m G) (hlow : -2 ^ 63 ≤ sub.version) (hlt : sub.version < G.length)
    (hpos : 1 ≤ G.length) : SendsNext dirId m sub := by
  rcases h.readNext hmax hlt hpos with ⟨next, action, header, hread, hpatch, hkeep⟩
  have hrange := entryOf_range hpatch.entry
  have hfit := h.length_lt
  refine ⟨next, action, header, hread, hpatch.lt, (h.read hmax hpatch.entry).2 hkeep, ?_, ?_⟩
  · rintro w hlo hhi ⟨a, hd, hw⟩
    rcases h.read_inv hmax hw with ⟨hw1, -, hnone, -⟩
    cases hnone.2 (hpatch.between w hlo hhi hw1)
  · have hsend := sendPatch_ok hid header action
      (show -2 ^ 63 ≤ sub.version ∧ sub.version < 2 ^ 63 from ⟨hlow, by omega⟩)
      (show -2 ^ 63 ≤ (next : Int) ∧ (next : Int) < 2 ^ 63 from ⟨by omega, by omega⟩)
    simp only [sendNextPatch, hread, hsend]

/-- Whenever a client that is late subscribed from a version that is not negative, or the mdir is not
empty, there is a patch to send; the patches sent are a chain through all those that are not
deleted. -/
theorem sends_next_of_run (hmax : maxJnlSize < 2 ^ 32) (hid : dirId.length < PATH_MAX)
    (hstart : -2 ^ 63 ≤ start) (h : SubRun maxJnlSize dirId start m sub msgs) :
    (clientNeedsPatch m sub = true →
      (SendsNext dirId m sub ↔ 0 ≤ sub.version ∨ 1 ≤ mdirLastVersion m)) ∧
    Chained start msgs sub.version ∧
    (msgs.map PatchMsg.new).Pairwise (· < ·) ∧
    ∀ v action header, start < v → v ≤ sub.version → mdirRead m v = .ok (action, some header) →
      ∃ msg ∈ msgs, msg.new = v ∧ msg.action = action ∧ msg.header = header := by
  rcases h.served hmax with ⟨G, hlogs, hserved⟩
  have hlast := hlogs.lastVersion
  have hlt : ∀ msg ∈ msgs, msg.prev < msg.new := fun msg hmem => (hserved.patches msg hmem).lt
  have hfrom := hserved.chained.le hlt
  refine ⟨fun hneeds => ?_, hserved.chained, (hserved.chained.increasing hlt).2, ?_⟩
  · have hlate : sub.version < mdirLastVersion m := of_decide_eq_true hneeds
    constructor
    · rintro ⟨next, action, header, -, -, hread, -⟩
      rcases hlogs.read_inv hmax hread with ⟨hlow, hhigh, -⟩
      exact .inr (by omega)
    · intro hcond
      exact hlogs.sendsNext hmax hid (by omega) (by omega) (by omega)
  · intro v action header hlo hhi hread
    rcases hlogs.read_inv hmax hread with ⟨hv, -, hnone, hentry⟩
    rcases hserved.chained.covers hlo hhi with ⟨msg, hmem, hprev, hnew⟩
    have hpatch := hserved.patches msg hmem
    -- strictly inside the patch, the version would be removed
    have hat : v = msg.new := by
      by_contra hne
      cases hnone.2 (hpatch.between v hprev (by omega) hv)
    subst hat
    have he := hpatch.entry
    rw [hentry header rfl] at he
    cases he
    exact ⟨msg, hmem, rfl, rfl, rfl⟩

end Send

theorem sends_next_of_run_sample :
    let _ := plainHost
    let m := (mdirPatch quietSys 1 (Mdir.new (ascii "/m/1")) .add [⟨ascii "from", ascii "a b"⟩] 0).mdir
    SubRun 1 (ascii "1") (-3) m ⟨-3⟩ [] ∧ clientNeedsPatch m ⟨-3⟩ = true ∧
      SendsNext (ascii "1") m ⟨-3⟩ := by
  intro _ m
  have hplain : ReadableHeader [⟨ascii "from", ascii "a b"⟩] :=
    ⟨⟨by decide, by decide, by decide⟩, by decide⟩
  have hrun : Run 1 plainEntry noCrash m _ :=
    .patch quietSys .add _ 0 (.init (ascii "/m/1")) ⟨hplain, rfl⟩ (by decide)
  have hsub : SubRun 1 (ascii "1") (-3) m ⟨-3⟩ [] := .subscribe bob hrun (by decide)
  have hneeds : clientNeedsPatch m ⟨-3⟩ = true := by decide
  refine ⟨hsub, hneeds, ?_⟩
  exact ((sends_next_of_run (by decide) (by decide) (by decide) hsub).1 hneeds).2
    (.inr (by decide))

/-- A negative version on a mdir that is still empty: the client is late, and there is no patch. -/
theorem send_from_negative_version :
    let _ := plainHost
    let m := Mdir.new (ascii "/m/1")
    SubRun 1 (ascii "1") (-1) m ⟨-1⟩ [] ∧ clientNeedsPatch m ⟨-1⟩ = true ∧
      mdirReadNext m (-1) = .ok none ∧
      sendNextPatch (ascii "1") m ⟨-1⟩ = .error (.abort (ascii "h")) := by
  intro _ m
  refine ⟨.subscribe bob (.init (ascii "/m/1")) (by decide), by decide, rfl, rfl⟩

end Scambio
