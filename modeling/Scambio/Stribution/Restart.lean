import Scambio.Stribution.Daemon

/-!
# Restart — a stop and a start of the stribution daemon

`restart_iff` tells for which journals, and stops, the daemon does with a restart what it does without: the
rules in force are not read back from the secret file, so that the messages up to the next configuration go
without rules.
-/

namespace Scambio

open Library

/-! ## What the secret file gives back -/

theorem canonical_replaceHeaderField {h : Header} (hh : CanonicalHeader h) {name value : Bytes}
    (hname : CleanText (name.map tolower)) (hcolon : (58 : UInt8) ∉ name.map tolower) (hvalue : CleanText value) :
    CanonicalHeader (replaceHeaderField h name value) := by
  intro hf hmem
  rcases List.mem_append.1 hmem with hmem | hmem
  · exact hh hf (List.mem_of_mem_filter hmem)
  · rw [List.mem_singleton.1 hmem]
    refine ⟨hname, ?_, hcolon, hvalue⟩
    rw [List.map_map]
    exact List.map_congr_left fun c _ => tolower_tolower c

theorem canonical_savedConf {smdir : Smdir} (hh : CanonicalHeader smdir.conf) : CanonicalHeader (savedConf smdir) := by
  have hfirst := @canonical_replaceHeaderField _ hh STRIB_LAST_CONF_VERSION _ (by decide) (by decide)
    (cleanText_printInt smdir.lastConfVersion)
  exact canonical_replaceHeaderField hfirst (by decide) (by decide)
    (cleanText_printInt smdir.lastDoneVersion)

/-- A field that was replaced is found. -/
theorem headerFind_replaceHeaderField (h : Header) (name value : Bytes) :
    headerFind (replaceHeaderField h name value) name = some ⟨name.map tolower, value⟩ := by
  have hnone : (h.filter fun hf => !strcaseeq hf.name name).find? (fun hf => strcaseeq hf.name name) = none := by
    rw [List.find?_eq_none]
    intro hf hmem
    simpa using List.of_mem_filter hmem
  have hself : strcaseeq (name.map tolower) name = true := by
    rw [strcaseeq, List.map_map, beq_iff_eq]
    exact List.map_congr_left fun c _ => tolower_tolower c
  rw [headerFind, replaceHeaderField, headerFieldNew, List.find?_append, hnone]
  simp [hself]

/-- The other fields remain. -/
theorem headerFind_replaceHeaderField_of_ne {h : Header} {name other value : Bytes}
    (hne : ∀ n, strcaseeq n name = true → strcaseeq n other = false) (hself : strcaseeq (name.map tolower) other = false) :
    headerFind (replaceHeaderField h name value) other = headerFind h other := by
  have hfilter : (h.filter fun hf => !strcaseeq hf.name name).find? (fun hf => strcaseeq hf.name other) =
      h.find? (fun hf => strcaseeq hf.name other) := by
    rw [List.find?_filter]
    congr 1
    funext hf
    cases hcase : strcaseeq hf.name name with
    | false => simp
    | true => simp [hne _ hcase]
  rw [headerFind, replaceHeaderField, headerFieldNew, List.find?_append, hfilter]
  simp [hself, headerFind]

/-- A version that a 64-bit integer holds. -/
def VersionFits (v : Int) : Prop :=
  -2 ^ 63 ≤ v ∧ v < 2 ^ 63

instance (v : Int) : Decidable (VersionFits v) :=
  inferInstanceAs (Decidable (_ ∧ _))

theorem confVersion_savedConf {smdir : Smdir} (hconf : VersionFits smdir.lastConfVersion)
    (hdone : VersionFits smdir.lastDoneVersion) :
    confVersion (savedConf smdir) STRIB_LAST_CONF_VERSION = .ok smdir.lastConfVersion ∧
      confVersion (savedConf smdir) STRIB_LAST_DONE_VERSION = .ok smdir.lastDoneVersion := by
  have hne : ∀ n, strcaseeq n STRIB_LAST_DONE_VERSION = true → strcaseeq n STRIB_LAST_CONF_VERSION = false := by
    intro n hn
    have hdiff : STRIB_LAST_DONE_VERSION.map tolower ≠ STRIB_LAST_CONF_VERSION.map tolower := by decide
    rw [strcaseeq, beq_iff_eq] at hn
    rw [strcaseeq, hn]
    exact beq_eq_false_iff_ne.2 hdiff
  have hlower : strcaseeq (STRIB_LAST_DONE_VERSION.map tolower) STRIB_LAST_CONF_VERSION = false := by decide
  constructor
  · rw [confVersion, savedConf, headerFind_replaceHeaderField_of_ne hne hlower, headerFind_replaceHeaderField]
    simp only [mdirStr2version, mdirVersion2str, sscanfInt64_printInt hconf.1 hconf.2]
  · rw [confVersion, savedConf, headerFind_replaceHeaderField]
    simp only [mdirStr2version, mdirVersion2str, sscanfInt64_printInt hdone.1 hdone.2]

/-- The state of a daemon that never ran. -/
def Smdir.fresh : Smdir :=
  { conf := [], lastConfVersion := 0, lastDoneVersion := 0, stribution := none }

variable [Host]

/-- A start reads back what the stop saved, but for the rules. -/
theorem smdirAlloc_smdirFree {smdir : Smdir} (hh : CanonicalHeader smdir.conf)
    (hconf : VersionFits smdir.lastConfVersion) (hdone : VersionFits smdir.lastDoneVersion)
    (hreceivable : Receivable (savedConf smdir)) :
    smdirAlloc (some (smdirFree smdir)) = .ok { smdir with conf := savedConf smdir, stribution := none } := by
  have hread := (headerRead_headerWrite_iff (canonical_savedConf hh) []).2 hreceivable
  rw [List.append_nil] at hread
  have hfile : headerFromFile ErrBuf.new (some (smdirFree smdir)) [] = (ErrBuf.new, some (savedConf smdir)) := by
    simp [headerFromFile, smdirFree, hread]
  have hversions := confVersion_savedConf hconf hdone
  rw [smdirAlloc, hfile]
  simp only [ErrBuf.new, Option.getD_some, smdirOfConf, hversions.1, hversions.2]

/-- A file that cannot be read is as none, unless reading it ends the process. -/
theorem smdirAlloc_smdirFree_of_not {smdir : Smdir} (hh : CanonicalHeader smdir.conf)
    (hreceivable : ¬ Receivable (savedConf smdir)) :
    smdirAlloc (some (smdirFree smdir)) = .ok Smdir.fresh ∨
      ∃ assertion, smdirAlloc (some (smdirFree smdir)) = .error (.abort assertion) := by
  rcases headerRead_headerWrite_error (canonical_savedConf hh) hreceivable [] with ⟨e, herr⟩
  rw [List.append_nil] at herr
  have hfile : headerFromFile ErrBuf.new (some (smdirFree smdir)) [] = (ErrBuf.new.errorPush e, none) := by
    rcases hread : headerRead (smdirFree smdir) with ⟨e' | h, rest⟩
    · rw [smdirFree] at hread
      rw [hread] at herr
      cases herr
      simp [headerFromFile, smdirFree, hread]
    · rw [smdirFree] at hread
      rw [hread] at herr
      cases herr
  rw [smdirAlloc, hfile]
  cases e with
  | push code str => exact Or.inl rfl
  | abort assertion => exact Or.inr ⟨assertion, rfl⟩

/-! ## Runs -/

section Runs

variable {world : StribWorld} {journal : List StribMsg}

omit [Host] in
theorem events_of_none {smdir : Smdir} {history : List StribRequest} {msg : StribMsg} (msgs : List StribMsg)
    (h : processPut world journal smdir history msg = none) :
    (smdirLoop world journal smdir history (msg :: msgs)).events = [] := by
  rw [smdirLoop, h]

omit [Host] in
theorem events_of_some {smdir : Smdir} {history : List StribRequest} {msg : StribMsg} (msgs : List StribMsg)
    {r : PutResult} (h : processPut world journal smdir history msg = some r) :
    (smdirLoop world journal smdir history (msg :: msgs)).events =
      r.event :: if r.error then [] else
        (smdirLoop world journal r.smdir (history ++ r.event.requests) msgs).events := by
  simp only [smdirLoop, h]
  split <;> rfl

omit [Host] in
/-- What is done for a message depends on the rules only, and the rules after it do. -/
theorem processPut_congr {smdir smdir' : Smdir} (h : smdir.stribution = smdir'.stribution)
    (history : List StribRequest) (msg : StribMsg) :
    (processPut world journal smdir history msg = none ∧ processPut world journal smdir' history msg = none) ∨
      ∃ r r', processPut world journal smdir history msg = some r ∧
        processPut world journal smdir' history msg = some r' ∧ r.event = r'.event ∧ r.error = r'.error ∧
        r.smdir.stribution = r'.smdir.stribution := by
  unfold processPut processPutRec
  cases kindOf journal msg.header with
  | skip => exact Or.inr ⟨_, _, rfl, rfl, rfl, rfl, h⟩
  | noTarget => exact Or.inr ⟨_, _, rfl, rfl, rfl, rfl, h⟩
  | endless => exact Or.inl ⟨rfl, rfl⟩
  | config =>
      cases world.stribNew msg.header with
      | none => exact Or.inr ⟨_, _, rfl, rfl, rfl, rfl, h⟩
      | some strib => exact Or.inr ⟨_, _, rfl, rfl, rfl, rfl, rfl⟩
  | ruled subject =>
      obtain ⟨conf, confVersion, doneVersion, stribution⟩ := smdir
      obtain ⟨conf', confVersion', doneVersion', stribution'⟩ := smdir'
      obtain rfl : stribution = stribution' := h
      cases stribution with
      | none => exact Or.inr ⟨_, _, rfl, rfl, rfl, rfl, rfl⟩
      | some tests =>
          simp only [processMessage]
          cases stribEval world tests history subject msg.header msg.version false with
          | none => exact Or.inl ⟨rfl, rfl⟩
          | some done => exact Or.inr ⟨_, _, rfl, rfl, rfl, rfl, rfl⟩

omit [Host] in
theorem smdirLoop_congr {smdir smdir' : Smdir} (h : smdir.stribution = smdir'.stribution)
    (history : List StribRequest) (msgs : List StribMsg) :
    (smdirLoop world journal smdir history msgs).events = (smdirLoop world journal smdir' history msgs).events := by
  induction msgs generalizing smdir smdir' history with
  | nil => rfl
  | cons msg msgs ih =>
      rcases @processPut_congr world journal _ _ h history msg with ⟨hnone, hnone'⟩ |
        ⟨r, r', hr, hr', hevent, herror, hstrib⟩
      · rw [events_of_none msgs hnone, events_of_none msgs hnone']
      · rw [events_of_some msgs hr, events_of_some msgs hr', hevent, herror, ih hstrib]

omit [Host] in
theorem processPut_version {smdir : Smdir} {history : List StribRequest} {msg : StribMsg} {r : PutResult}
    (h : processPut world journal smdir history msg = some r) :
    r.event.version = msg.version ∧ r.smdir.lastDoneVersion = msg.version := by
  unfold processPut processPutRec at h
  split at h
  · cases h
    exact ⟨rfl, rfl⟩
  · split at h
    · cases h
      exact ⟨rfl, rfl⟩
    · cases h
      exact ⟨rfl, rfl⟩
  · cases h
    exact ⟨rfl, rfl⟩
  · cases h
  · unfold processMessage at h
    split at h
    · cases h
      exact ⟨rfl, rfl⟩
    · split at h
      · cases h
      · cases h
        exact ⟨rfl, rfl⟩

omit [Host] in
/-- What is done is done for a message that came. -/
theorem smdirLoop_versions (smdir : Smdir) (history : List StribRequest) (msgs : List StribMsg) :
    ∀ event ∈ (smdirLoop world journal smdir history msgs).events, ∃ msg ∈ msgs, event.version = msg.version := by
  induction msgs generalizing smdir history with
  | nil => exact fun _ h => absurd h List.not_mem_nil
  | cons msg msgs ih =>
      intro event hmem
      cases hput : processPut world journal smdir history msg with
      | none =>
          rw [events_of_none msgs hput] at hmem
          exact absurd hmem List.not_mem_nil
      | some r =>
          rw [events_of_some msgs hput] at hmem
          rcases List.mem_cons.1 hmem with rfl | hmem
          · exact ⟨msg, List.mem_cons_self, (processPut_version hput).1⟩
          · split at hmem
            · exact absurd hmem List.not_mem_nil
            · rcases ih _ _ event hmem with ⟨msg', hmsg', heq⟩
              exact ⟨msg', List.mem_cons_of_mem _ hmsg', heq⟩

omit [Host] in
/-- Once all messages are done, the last one is the last done, and what the thread does next is what it does
after them, unless the last one left an error. -/
theorem smdirLoop_done {smdir : Smdir} {history : List StribRequest} {msgs : List StribMsg}
    (hdone : (smdirLoop world journal smdir history msgs).events.length = msgs.length) (later : List StribMsg) :
    let first := smdirLoop world journal smdir history msgs
    first.smdir.lastDoneVersion = ((msgs.getLast?).map StribMsg.version).getD smdir.lastDoneVersion ∧
      (smdirLoop world journal smdir history (msgs ++ later)).events = first.events ++
        if first.ending = .waiting then
          (smdirLoop world journal first.smdir (history ++ first.events.flatMap StribEvent.requests) later).events
        else [] := by
  induction msgs generalizing smdir history with
  | nil => simp [smdirLoop]
  | cons msg msgs ih =>
      cases hput : processPut world journal smdir history msg with
      | none =>
          rw [events_of_none msgs hput] at hdone
          cases hdone
      | some r =>
          have hversion := (processPut_version hput).2
          rw [List.cons_append, events_of_some (msgs ++ later) hput]
          rw [events_of_some msgs hput] at hdone
          cases herror : r.error with
          | true =>
              obtain rfl : msgs = [] := by simpa [herror, eq_comm] using hdone
              simp [smdirLoop, hput, herror, hversion]
          | false =>
              have hlater := @ih r.smdir (history ++ r.event.requests) (by simpa [herror] using hdone)
              simp only [smdirLoop, hput, herror, Bool.false_eq_true, if_false]
              refine ⟨?_, ?_⟩
              · rw [hlater.1, List.getLast?_cons, hversion]
                cases msgs.getLast? <;> rfl
              · rw [hlater.2]
                simp

/-- What the secret file can hold. -/
structure Smdir.Saveable (smdir : Smdir) : Prop where
  conf : CanonicalHeader smdir.conf
  conf_version : VersionFits smdir.lastConfVersion
  done_version : VersionFits smdir.lastDoneVersion

omit [Host] in
theorem Smdir.Saveable.put {smdir : Smdir} (h : smdir.Saveable) {history : List StribRequest} {msg : StribMsg}
    (hcanonical : CanonicalHeader msg.header) (hversion : VersionFits msg.version) {r : PutResult}
    (hput : processPut world journal smdir history msg = some r) : r.smdir.Saveable := by
  have hdone : ({ smdir with lastDoneVersion := msg.version } : Smdir).Saveable :=
    ⟨h.conf, h.conf_version, hversion⟩
  unfold processPut processPutRec at hput
  split at hput
  · cases hput
    exact hdone
  · split at hput
    · cases hput
      exact hdone
    · cases hput
      exact ⟨hcanonical, hversion, hversion⟩
  · cases hput
    exact hdone
  · cases hput
  · unfold processMessage at hput
    split at hput
    · cases hput
      exact hdone
    · split at hput
      · cases hput
      · cases hput
        exact hdone

omit [Host] in
theorem Smdir.Saveable.loop {smdir : Smdir} (h : smdir.Saveable) (history : List StribRequest) {msgs : List StribMsg}
    (hmsgs : ∀ msg ∈ msgs, CanonicalHeader msg.header ∧ VersionFits msg.version) :
    (smdirLoop world journal smdir history msgs).smdir.Saveable := by
  induction msgs generalizing smdir history with
  | nil => exact h
  | cons msg msgs ih =>
      have hmsg := hmsgs msg List.mem_cons_self
      cases hput : processPut world journal smdir history msg with
      | none =>
          rw [smdirLoop, hput]
          exact h
      | some r =>
          have hnext := h.put hmsg.1 hmsg.2 hput
          simp only [smdirLoop, hput]
          split
          · exact hnext
          · exact ih hnext _ fun m hm => hmsgs m (List.mem_cons_of_mem _ hm)

/-- No message is given to the rules before the next configuration that is accepted, or the end of the
thread. -/
def NoRuleNeeded (world : StribWorld) (journal : List StribMsg) : List StribRequest → List StribMsg → Prop
  | _, [] => True
  | history, msg :: msgs =>
      match kindOf journal msg.header with
      | .skip => NoRuleNeeded world journal history msgs
      | .config =>
          -- one that is not accepted is marked, or the thread ends
          let mark := StribRequest.markError msg.version (ascii "Cannot parse strib config")
          (world.stribNew msg.header).isSome ∨ world.grants history mark = false ∨
            NoRuleNeeded world journal (history ++ [mark]) msgs
      | .noTarget => True
      | .endless => True
      | .ruled _ => False

omit [Host] in
/-- A message that does not need the rules, with and without them: the thread ends, or a configuration replaces
the rules, or they remain what they were. -/
theorem processPut_kept {smdir smdir' : Smdir} {msg : StribMsg}
    (hkind : ∀ subject, kindOf journal msg.header ≠ .ruled subject) (history : List StribRequest)
    (msgs : List StribMsg) :
    (processPut world journal smdir history msg = none ∧ processPut world journal smdir' history msg = none ∧
        NoRuleNeeded world journal history (msg :: msgs)) ∨
      ∃ r r', processPut world journal smdir history msg = some r ∧
        processPut world journal smdir' history msg = some r' ∧ r.event = r'.event ∧ r.error = r'.error ∧
        ((r.error = true ∧ NoRuleNeeded world journal history (msg :: msgs)) ∨
          (r.smdir.stribution = r'.smdir.stribution ∧ NoRuleNeeded world journal history (msg :: msgs)) ∨
          (r.error = false ∧ r.smdir.stribution = smdir.stribution ∧ r'.smdir.stribution = smdir'.stribution ∧
            (NoRuleNeeded world journal history (msg :: msgs) ↔
              NoRuleNeeded world journal (history ++ r.event.requests) msgs))) := by
  unfold processPut processPutRec
  rw [NoRuleNeeded]
  cases hk : kindOf journal msg.header with
  | skip => exact Or.inr ⟨_, _, rfl, rfl, rfl, rfl, Or.inr (Or.inr ⟨rfl, rfl, rfl, by rw [List.append_nil]⟩)⟩
  | noTarget => exact Or.inr ⟨_, _, rfl, rfl, rfl, rfl, Or.inl ⟨rfl, trivial⟩⟩
  | endless => exact Or.inl ⟨rfl, rfl, trivial⟩
  | config =>
      cases world.stribNew msg.header with
      | none =>
          refine Or.inr ⟨_, _, rfl, rfl, rfl, rfl, ?_⟩
          cases hgrant : world.grants history (.markError msg.version (ascii "Cannot parse strib config")) with
          | false => exact Or.inl ⟨by simp [patchRequest, hgrant], Or.inr (Or.inl hgrant)⟩
          | true =>
              exact Or.inr (Or.inr ⟨by simp [patchRequest, hgrant], rfl, rfl, by simp [patchRequest, hgrant]⟩)
      | some strib => exact Or.inr ⟨_, _, rfl, rfl, rfl, rfl, Or.inr (Or.inl ⟨rfl, Or.inl rfl⟩)⟩
  | ruled subject => exact absurd hk (hkind subject)

omit [Host] in
/-- A message that needs the rules is given to those in force. -/
theorem events_ruled {smdir : Smdir} {msg : StribMsg} {subject : Header}
    (hkind : kindOf journal msg.header = .ruled subject) (history : List StribRequest) (msgs : List StribMsg) :
    (∃ tests, smdir.stribution = some tests ∧ (smdirLoop world journal smdir history (msg :: msgs)).events = []) ∨
      ∃ event events, (smdirLoop world journal smdir history (msg :: msgs)).events = event :: events ∧
        event.rules = some smdir.stribution := by
  have hput : processPut world journal smdir history msg =
      processMessage world { smdir with lastDoneVersion := msg.version } history subject msg.header msg.version := by
    rw [processPut, processPutRec, hkind]
  cases hrules : smdir.stribution with
  | none =>
      have hr : processPut world journal smdir history msg =
          some ⟨{ smdir with lastDoneVersion := msg.version }, ⟨msg.version, some none, []⟩, false⟩ := by
        rw [hput, processMessage]
        simp only [hrules]
      exact Or.inr ⟨_, _, events_of_some msgs hr, rfl⟩
  | some tests =>
      cases heval : stribEval world tests history subject msg.header msg.version false with
      | none =>
          have hr : processPut world journal smdir history msg = none := by
            rw [hput, processMessage]
            simp only [hrules, heval]
          exact Or.inl ⟨tests, rfl, events_of_none msgs hr⟩
      | some done =>
          have hr : processPut world journal smdir history msg =
              some ⟨{ smdir with lastDoneVersion := msg.version }, ⟨msg.version, some (some tests), done.requests⟩,
                done.error⟩ := by
            rw [hput, processMessage]
            simp only [hrules, heval]
          exact Or.inr ⟨_, _, events_of_some msgs hr, rfl⟩

omit [Host] in
/-- Without its rules the thread does the same if and only if it does not need them. -/
theorem smdirLoop_without_rules {smdir : Smdir} {tests : Strib} (hrules : smdir.stribution = some tests)
    {smdir' : Smdir} (hnone : smdir'.stribution = none) (history : List StribRequest) (msgs : List StribMsg) :
    (smdirLoop world journal smdir' history msgs).events = (smdirLoop world journal smdir history msgs).events ↔
      NoRuleNeeded world journal history msgs := by
  induction msgs generalizing smdir smdir' history with
  | nil => exact iff_of_true rfl trivial
  | cons msg msgs ih =>
      by_cases hruled : ∃ subject, kindOf journal msg.header = .ruled subject
      · rcases hruled with ⟨subject, hkind⟩
        have hno : ¬ NoRuleNeeded world journal history (msg :: msgs) := by
          rw [NoRuleNeeded, hkind]
          exact id
        refine iff_of_false (fun heq => ?_) hno
        rcases @events_ruled world journal smdir' _ _ hkind history msgs with ⟨tests', hsome, -⟩ | ⟨event', _, h', hevent'⟩
        · rw [hnone] at hsome
          cases hsome
        · rw [h'] at heq
          rcases @events_ruled world journal smdir _ _ hkind history msgs with ⟨_, -, h⟩ | ⟨event, _, h, hevent⟩
          · rw [h] at heq
            cases heq
          · rw [h] at heq
            rw [(List.cons.inj heq).1, hevent, hrules, hnone] at hevent'
            cases hevent'
      · have hkind : ∀ subject, kindOf journal msg.header ≠ .ruled subject := fun s hs => hruled ⟨s, hs⟩
        -- no rule is asked for: both do the same, and keep what they have
        rcases @processPut_kept world journal smdir smdir' _ hkind history msgs with ⟨hr, hr', hneed⟩ |
          ⟨r, r', hr, hr', hevent, herror, hcases⟩
        · rw [events_of_none msgs hr, events_of_none msgs hr']
          exact iff_of_true rfl hneed
        · rw [events_of_some msgs hr, events_of_some msgs hr', hevent, ← herror, List.cons_inj_right]
          rcases hcases with ⟨htrue, hneed⟩ | ⟨hsame, hneed⟩ | ⟨hfalse, hkeep, hkeep', hneed⟩
          · rw [htrue]
            exact iff_of_true rfl hneed
          · rw [smdirLoop_congr hsame]
            exact iff_of_true rfl hneed
          · rw [hfalse, hneed, hevent]
            exact ih (hkeep.trans hrules) (hkeep'.trans hnone) _

end Runs

/-! ## The restart -/

section Restart

variable (world : StribWorld) (P S : List StribMsg)

/-- What a daemon that is never stopped does. -/
def uninterrupted (journal : List StribMsg) : List StribEvent :=
  (smdirThread world journal Smdir.fresh []).events

/-- The daemon that has done the messages `P` and is stopped. -/
def stopped : StribRun :=
  smdirLoop world (P ++ S) Smdir.fresh [] P

/-- What a daemon does that is stopped after `P`, and started again, unless it does not survive the start. -/
def restarted : Except Err (List StribEvent) :=
  let first := stopped world P S
  match smdirAlloc (some (smdirFree first.smdir)) with
  | .error (.abort assertion) => .error (.abort assertion)
  | .error (.push _ _) => .ok first.events
  | .ok smdir =>
      .ok (first.events ++ (smdirThread world (P ++ S) smdir (first.events.flatMap StribEvent.requests)).events)

/-- The secret file can be read again, and, unless nothing comes (or marks that lead nowhere), the thread had not
ended by itself and no rules were in force, or they are not needed before the next configuration. -/
structure RestartFits : Prop where
  receivable : Receivable (savedConf (stopped world P S).smdir)
  rules : (∀ msg ∈ S.head?, kindOf (P ++ S) msg.header = .endless) ∨ ((stopped world P S).ending = .waiting ∧
    ((stopped world P S).smdir.stribution = none ∨
      NoRuleNeeded world (P ++ S) ((stopped world P S).events.flatMap StribEvent.requests) S))

end Restart

variable {world : StribWorld} {P S : List StribMsg}

omit [Host] in
/-- The messages after the last one done. -/
theorem filter_after {v : Int} (hsorted : (P ++ S).Pairwise fun a b => a.version < b.version)
    (hlast : v = ((P.getLast?).map StribMsg.version).getD 0) (hpos : ∀ msg ∈ P ++ S, 0 < msg.version) :
    ((P ++ S).filter fun msg => v < msg.version) = S := by
  rcases List.pairwise_append.1 hsorted with ⟨hP, -, hPS⟩
  have hS : ∀ msg ∈ S, v < msg.version := by
    intro msg hmsg
    cases hend : P.getLast? with
    | none =>
        rw [hend] at hlast
        exact hlast ▸ hpos msg (List.mem_append_right _ hmsg)
    | some last =>
        rw [hend] at hlast
        exact hlast ▸ hPS last (List.mem_of_getLast? hend) msg hmsg
  have hbefore : ∀ msg ∈ P, ¬ v < msg.version := by
    intro msg hmsg
    rcases List.eq_nil_or_concat P with rfl | ⟨P, last, rfl⟩
    · exact absurd hmsg List.not_mem_nil
    · rw [List.concat_eq_append] at *
      rw [List.getLast?_concat] at hlast
      rw [hlast]
      rcases List.mem_append.1 hmsg with hmsg | hmsg
      · have := (List.pairwise_append.1 hP).2.2 msg hmsg last (List.mem_singleton.2 rfl)
        exact Int.not_lt.2 (Int.le_of_lt this)
      · rw [List.mem_singleton.1 hmsg]
        exact Int.lt_irrefl _
  rw [List.filter_append, List.filter_eq_nil_iff.2 (by simpa using hbefore),
    List.filter_eq_self.2 (by simpa using hS), List.nil_append]

omit [Host] in
/-- A thread without rules does something for its first message, whatever was requested before. -/
theorem events_fresh_cons {journal : List StribMsg} {history : List StribRequest} (history' : List StribRequest)
    {msg : StribMsg} {msgs : List StribMsg} (msgs' : List StribMsg)
    (h : (smdirLoop world journal Smdir.fresh history (msg :: msgs)).events ≠ []) :
    ∃ event events, (smdirLoop world journal Smdir.fresh history' (msg :: msgs')).events = event :: events ∧
      event.version = msg.version := by
  -- what it does depends on the history only when it has rules, or marks a configuration
  have hsame : processPut world journal Smdir.fresh history' msg = none →
      processPut world journal Smdir.fresh history msg = none := by
    unfold processPut processPutRec
    cases kindOf journal msg.header with
    | config => cases world.stribNew msg.header <;> exact nofun
    | _ => exact id
  cases hput : processPut world journal Smdir.fresh history' msg with
  | none => exact absurd (events_of_none msgs (hsame hput)) h
  | some r => exact ⟨_, _, events_of_some msgs' hput, (processPut_version hput).1⟩

omit [Host] in
/-- A thread without rules does nothing if and only if nothing comes, or marks that lead nowhere. -/
theorem events_eq_nil {journal : List StribMsg} {smdir : Smdir} (hnone : smdir.stribution = none)
    (history : List StribRequest) (msgs : List StribMsg) :
    (smdirLoop world journal smdir history msgs).events = [] ↔
      ∀ msg ∈ msgs.head?, kindOf journal msg.header = .endless := by
  cases msgs with
  | nil => exact iff_of_true rfl (by simp)
  | cons msg msgs =>
      have hput : processPut world journal smdir history msg = none ↔ kindOf journal msg.header = .endless := by
        unfold processPut processPutRec
        cases hkind : kindOf journal msg.header with
        | endless => simp
        | config => cases world.stribNew msg.header <;> simp
        | ruled subject => simp [processMessage, hnone]
        | _ => simp
      simp only [List.head?_cons, Option.mem_def, Option.some.injEq, forall_eq']
      rw [← hput]
      cases hr : processPut world journal smdir history msg with
      | none => exact iff_of_true (events_of_none msgs hr) rfl
      | some r =>
          rw [events_of_some msgs hr]
          simp

omit [Host] in
theorem noRuleNeeded_of_endless {journal msgs : List StribMsg} (history : List StribRequest)
    (h : ∀ msg ∈ msgs.head?, kindOf journal msg.header = .endless) : NoRuleNeeded world journal history msgs := by
  cases msgs with
  | nil => trivial
  | cons msg msgs =>
      rw [NoRuleNeeded, h msg rfl]
      trivial

omit [Host] in
theorem uninterrupted_eq (hpos : ∀ msg ∈ P ++ S, 0 < msg.version) (hdone : (stopped world P S).events.length = P.length) :
    uninterrupted world (P ++ S) = (stopped world P S).events ++
      if (stopped world P S).ending = .waiting then
        (smdirLoop world (P ++ S) (stopped world P S).smdir
          ((stopped world P S).events.flatMap StribEvent.requests) S).events
      else [] := by
  have hall : ((P ++ S).filter fun msg => (0 : Int) < msg.version) = P ++ S := by
    rw [List.filter_eq_self]
    simpa using hpos
  rw [uninterrupted, smdirThread]
  exact (congrArg (fun msgs => (smdirLoop world (P ++ S) Smdir.fresh [] msgs).events) hall).trans
    (smdirLoop_done hdone S).2

omit [Host] in
theorem Smdir.saveable_fresh : Smdir.fresh.Saveable :=
  ⟨by simp [CanonicalHeader, Smdir.fresh], by decide, by decide⟩

omit [Host] in
theorem receivable_fresh : Receivable (savedConf Smdir.fresh) :=
  ⟨by decide, by decide, by decide⟩

/-- A restart changes nothing if and only if it fits. -/
theorem restart_iff (hsorted : (P ++ S).Pairwise fun a b => a.version < b.version)
    (hversions : ∀ msg ∈ P ++ S, 0 < msg.version ∧ msg.version < 2 ^ 63)
    (hcanonical : ∀ msg ∈ P, CanonicalHeader msg.header)
    (hdone : (stopped world P S).events.length = P.length) :
    restarted world P S = .ok (uninterrupted world (P ++ S)) ↔ RestartFits world P S := by
  have hpos : ∀ msg ∈ P ++ S, 0 < msg.version := fun msg hmsg => (hversions msg hmsg).1
  have hmsgs : ∀ msg ∈ P, CanonicalHeader msg.header ∧ VersionFits msg.version := by
    intro msg hmsg
    have hversion := hversions msg (List.mem_append_left _ hmsg)
    exact ⟨hcanonical msg hmsg, by omega, hversion.2⟩
  have hsave : (stopped world P S).smdir.Saveable := Smdir.saveable_fresh.loop [] hmsgs
  have hlast : (stopped world P S).smdir.lastDoneVersion = ((P.getLast?).map StribMsg.version).getD 0 :=
    (smdirLoop_done hdone S).1
  rw [uninterrupted_eq hpos hdone]
  by_cases hreceivable : Receivable (savedConf (stopped world P S).smdir)
  · -- the daemon starts after the last message it has done
    have halloc := smdirAlloc_smdirFree hsave.conf hsave.conf_version hsave.done_version hreceivable
    have hrest := filter_after hsorted hlast hpos
    rw [restarted, halloc]
    simp only [smdirThread, hrest, Except.ok.injEq, List.append_cancel_left_eq]
    -- the rules are not saved: what follows is read without them
    have hfits : RestartFits world P S ↔ (∀ msg ∈ S.head?, kindOf (P ++ S) msg.header = .endless) ∨
        ((stopped world P S).ending = .waiting ∧
          ((stopped world P S).smdir.stribution = none ∨
            NoRuleNeeded world (P ++ S) ((stopped world P S).events.flatMap StribEvent.requests) S)) :=
      ⟨fun h => h.rules, fun h => ⟨hreceivable, h⟩⟩
    rw [hfits]
    split
    next hwaiting =>
      cases hrules : (stopped world P S).smdir.stribution with
      | none =>
          refine iff_of_true ?_ (Or.inr ⟨hwaiting, Or.inl rfl⟩)
          exact smdirLoop_congr hrules.symm _ _
      | some tests =>
          rw [smdirLoop_without_rules hrules rfl]
          constructor
          · exact fun hneed => Or.inr ⟨hwaiting, Or.inr hneed⟩
          · rintro (hend | ⟨-, hnone | hneed⟩)
            · exact noRuleNeeded_of_endless _ hend
            · cases hnone
            · exact hneed
    next hended =>
      rw [events_eq_nil rfl]
      constructor
      · exact Or.inl
      · rintro (hend | ⟨hwaiting, -⟩)
        · exact hend
        · exact absurd hwaiting hended
  · refine iff_of_false (fun heq => ?_) fun hfits => hreceivable hfits.receivable
    rcases smdirAlloc_smdirFree_of_not hsave.conf hreceivable with halloc | ⟨assertion, halloc⟩
    case inr =>
      rw [restarted, halloc] at heq
      cases heq
    -- the daemon starts from the first message
    have hall : ((P ++ S).filter fun msg => (0 : Int) < msg.version) = P ++ S := by
      rw [List.filter_eq_self]
      simpa using hpos
    rw [restarted, halloc] at heq
    simp only [Except.ok.injEq, List.append_cancel_left_eq, smdirThread] at heq
    cases P with
    | nil => exact hreceivable receivable_fresh
    | cons msg P =>
        -- the first message is handled again, with a version below those of `S`
        have hne : (stopped world (msg :: P) S).events ≠ [] := by
          intro hnil
          rw [hnil] at hdone
          cases hdone
        obtain ⟨event, events, hevents, hversion⟩ := events_fresh_cons
          ((stopped world (msg :: P) S).events.flatMap StribEvent.requests) (P ++ S) hne
        have hzero : Smdir.fresh.lastDoneVersion = 0 := rfl
        rw [List.cons_append] at hevents
        rw [hzero, hall, List.cons_append, hevents] at heq
        split at heq
        · have hmem : event ∈ event :: events := List.mem_cons_self
          rw [heq] at hmem
          rcases smdirLoop_versions _ _ _ event hmem with ⟨msg', hmsg', heq'⟩
          have hlt := (List.pairwise_append.1 hsorted).2.2 msg List.mem_cons_self msg' hmsg'
          rw [← hversion, heq'] at hlt
          exact absurd hlt (Int.lt_irrefl _)
        · cases heq

/-- A world where every configuration is the rule that deletes all. -/
def deleteAll : StribWorld :=
  { stribNew := fun _ =>
      some [⟨{ op := .always, fieldName := none, value := none }, { type := .delete, dest := none }⟩]
    regexec := fun _ _ => false
    mdirName := ascii "/"
    lookup := fun _ _ => .missing
    grants := fun _ _ => true }

def confMsg (version : Int) : StribMsg :=
  ⟨version, [⟨SC_TYPE_FIELD, SC_STRIB_TYPE⟩]⟩

def mailMsg (version : Int) : StribMsg :=
  ⟨version, [⟨SC_TYPE_FIELD, ascii "mail"⟩]⟩

omit [Host] in
/-- The first configuration comes after the restart. -/
theorem restart_iff_sample :
    @restarted plainHost deleteAll [mailMsg 1] [confMsg 2, mailMsg 3] =
      .ok (uninterrupted deleteAll ([mailMsg 1] ++ [confMsg 2, mailMsg 3])) := by
  have hreceivable : Receivable (savedConf (stopped deleteAll [mailMsg 1] [confMsg 2, mailMsg 3]).smdir) :=
    ⟨by decide, by decide, by decide⟩
  have hending : (stopped deleteAll [mailMsg 1] [confMsg 2, mailMsg 3]).ending = .waiting := by decide
  have hnone : (stopped deleteAll [mailMsg 1] [confMsg 2, mailMsg 3]).smdir.stribution = none := by decide
  exact (@restart_iff plainHost deleteAll [mailMsg 1] [confMsg 2, mailMsg 3] (by decide) (by decide)
    (by decide) (by decide)).2 ⟨hreceivable, Or.inr ⟨hending, Or.inl hnone⟩⟩

omit [Host] in
/-- The rules are forgotten: the second message is not deleted. -/
theorem not_restart : ¬ ∀ (world : StribWorld) (P S : List StribMsg),
    (P ++ S).Pairwise (fun a b => a.version < b.version) →
      (∀ msg ∈ P ++ S, 0 < msg.version ∧ msg.version < 2 ^ 63) → (∀ msg ∈ P, CanonicalHeader msg.header) →
        (stopped world P S).events.length = P.length →
          @restarted plainHost world P S = .ok (uninterrupted world (P ++ S)) := by
  intro h
  have heq := h deleteAll [confMsg 1] [mailMsg 2] (by decide) (by decide) (by decide)
    (by decide)
  have hne : @restarted plainHost deleteAll [confMsg 1] [mailMsg 2] ≠
      .ok (uninterrupted deleteAll [confMsg 1, mailMsg 2]) := by
    decide
  exact hne heq

end Scambio
