import Scambio.Lib.Readback
import Scambio.Mdsyncc.Client

/-!
# ClientRuns — sequences of events on one mdir of the client

`ClientRun` are the runs of a client, with the events handled so far and the state that each of them
found.  The lemmas before it say which parts of the state a handler leaves alone: only patches
change the journals and the queue.
-/

namespace Scambio

open Library

/-! ## Frames -/

/-- The journals and the queue are the same, and the reader is in the same condition. -/
structure SameQueue (c c' : Mdirc) : Prop where
  mdir : c'.mdir = c.mdir
  patches : c'.patches = c.patches
  reading : c'.reading = c.reading

namespace SameQueue

theorem refl (c : Mdirc) : SameQueue c c :=
  ⟨rfl, rfl, rfl⟩

theorem trans {c c' c'' : Mdirc} (h : SameQueue c c') (h' : SameQueue c' c'') : SameQueue c c'' :=
  ⟨h'.mdir.trans h.mdir, h'.patches.trans h.patches, h'.reading.trans h.reading⟩

end SameQueue

theorem commandNew_frame (c : Mdirc) (kw : Kw) (filename : Bytes) (h : Option Header) (now : Int)
    (written : Option Err) :
    SameQueue c (commandNew c kw filename h now written).1 ∧
      (commandNew c kw filename h now written).1.c2lMaps = c.c2lMaps ∧
      (commandNew c kw filename h now written).1.nbPendingAcks = c.nbPendingAcks := by
  simp only [commandNew]
  rcases cnxQuery c.cnx (some { kw := kw, filename := snprintfPath filename, header := h }) now written
    with ⟨cnx, e | u⟩
  · exact ⟨⟨rfl, rfl, rfl⟩, rfl, rfl⟩
  · exact ⟨⟨rfl, rfl, rfl⟩, rfl, rfl⟩

theorem subscribe_frame (c : Mdirc) (new hidden : Bool) (now : Int) (written : Option Err) :
    SameQueue c (subscribe c new hidden now written).1 ∧
      (subscribe c new hidden now written).1.c2lMaps = c.c2lMaps ∧
      (subscribe c new hidden now written).1.nbPendingAcks = c.nbPendingAcks := by
  unfold subscribe
  split_ifs
  · exact ⟨SameQueue.refl c, rfl, rfl⟩
  · exact commandNew_frame ..
  · exact ⟨SameQueue.refl c, rfl, rfl⟩

section Frames

variable [Host]

theorem lsTransient_frame (c : Mdirc) (name : Bytes) (now : Int) (written : Option Err) :
    SameQueue c (lsTransient c name now written) ∧
      (lsTransient c name now written).c2lMaps = c.c2lMaps ∧
      c.nbPendingAcks ≤ (lsTransient c name now written).nbPendingAcks := by
  unfold lsTransient
  split
  · exact ⟨SameQueue.refl c, rfl, le_rfl⟩
  · next kw _ =>
      simp only
      split_ifs
      · exact ⟨SameQueue.refl c, rfl, le_rfl⟩
      · split
        · exact ⟨SameQueue.refl c, rfl, le_rfl⟩
        · next h _ =>
            have hnew := commandNew_frame c kw (snprintfPath (c.mdir.path ++ ascii "/.tmp/" ++ name))
              (some (h.filter fun hf => !strcaseeq hf.name SC_LOCALID_FIELD)) now written
            split
            · next c' _ heq =>
                rw [heq] at hnew
                exact ⟨hnew.1, hnew.2.1, hnew.2.2.ge⟩
            · next c' heq =>
                rw [heq] at hnew
                refine ⟨⟨hnew.1.mdir, hnew.1.patches, hnew.1.reading⟩, hnew.2.1, ?_⟩
                simp only at hnew ⊢
                omega

theorem lsTransients_frame (c : Mdirc) (entries : Except Nat (List (Bytes × Option Err))) (now : Int) :
    SameQueue c (lsTransients c entries now).1 ∧ (lsTransients c entries now).1.c2lMaps = c.c2lMaps ∧
      c.nbPendingAcks ≤ (lsTransients c entries now).1.nbPendingAcks := by
  unfold lsTransients
  cases entries with
  | error errno =>
      simp only
      split_ifs <;> exact ⟨SameQueue.refl c, rfl, le_rfl⟩
  | ok names =>
      simp only
      induction names generalizing c with
      | nil => exact ⟨SameQueue.refl c, rfl, le_rfl⟩
      | cons e names ih =>
          rcases lsTransient_frame c e.1 now e.2 with ⟨hq, hm, hn⟩
          rcases ih (lsTransient c e.1 now e.2) with ⟨hq', hm', hn'⟩
          exact ⟨hq.trans hq', hm'.trans hm, hn.trans hn'⟩

omit [Host] in
/-- The maps that an answer adds. -/
def learned (c : Mdirc) (kw : Kw) (now seq status : Int) (compl : Bytes) : Option C2lMap :=
  if kw = .put ∨ kw = .rem then
    match (cnxQueryRetrieve c.cnx now seq).2 with
    | .error _ => none
    | .ok sq =>
        match sq.owner with
        | none => none
        | some command =>
            if c.nbPendingAcks ≠ 0 ∧ command.filename ≠ [] ∧ status = 200 then
              ((rememberVersionMap [] compl command.filename).toOption).bind List.head?
            else none
  else none

omit [Host] in
/-- The answered query is one of this mdir. -/
def AnswersOwn (c : Mdirc) (now seq : Int) : Prop :=
  ∃ sq command, (cnxQueryRetrieve c.cnx now seq).2 = .ok sq ∧ sq.owner = some command

omit [Host] in
theorem rememberVersionMap_eq (maps : List C2lMap) (compl filename : Bytes) :
    (rememberVersionMap maps compl filename).toOption.getD maps =
      (((rememberVersionMap [] compl filename).toOption).bind List.head?).toList ++ maps := by
  unfold rememberVersionMap
  cases mdirStr2version compl with
  | error e => rfl
  | ok central =>
      simp only
      split_ifs
      · rfl
      · cases mdirStr2version ((basename filename).drop 1) with
        | error e => rfl
        | ok n => rfl

omit [Host] in
theorem finPutrem_frame (c : Mdirc) (command : Command) (status : Int) (compl : Bytes) :
    SameQueue c (finPutrem c command status compl).1 ∧
      (finPutrem c command status compl).1.nbPendingAcks = c.nbPendingAcks ∧
      (finPutrem c command status compl).1.cnx = c.cnx ∧
      (finPutrem c command status compl).1.c2lMaps =
        (if command.filename ≠ [] ∧ status = 200 then
          ((rememberVersionMap [] compl command.filename).toOption).bind List.head?
        else none).toList ++ c.c2lMaps := by
  by_cases hname : command.filename = []
  · rw [finPutrem, if_pos hname, if_neg fun h => h.1 hname]
    exact ⟨SameQueue.refl c, rfl, rfl, rfl⟩
  · by_cases hstatus : status = 200
    · rw [finPutrem, if_neg hname, if_pos hstatus, if_pos ⟨hname, hstatus⟩]
      exact ⟨⟨rfl, rfl, rfl⟩, rfl, rfl, rememberVersionMap_eq ..⟩
    · have hmap : (if command.filename ≠ [] ∧ status = 200 then
          ((rememberVersionMap [] compl command.filename).toOption).bind List.head?
        else none) = none := if_neg fun h => hstatus h.2
      rw [hmap, finPutrem, if_neg hname, if_neg hstatus]
      by_cases hretry : (!retryLater status) = true
      · rw [if_pos hretry]
        simp only
        cases errFilename command.filename with
        | none => exact ⟨⟨rfl, rfl, rfl⟩, rfl, rfl, rfl⟩
        | some errFile => exact ⟨⟨rfl, rfl, rfl⟩, rfl, rfl, rfl⟩
      · rw [if_neg hretry]
        exact ⟨⟨rfl, rfl, rfl⟩, rfl, rfl, rfl⟩

omit [Host] in
theorem finalizeAnswer_frame (c : Mdirc) (kw : Kw) (hkw : kw = .put ∨ kw = .rem)
    (now seq status : Int) (compl : Bytes) :
    SameQueue c (finalizeAnswer c now seq status compl).1 ∧
      (finalizeAnswer c now seq status compl).1.c2lMaps =
        (learned c kw now seq status compl).toList ++ c.c2lMaps ∧
      ((finalizeAnswer c now seq status compl).1.nbPendingAcks = c.nbPendingAcks ∨
        AnswersOwn c now seq ∧
          (finalizeAnswer c now seq status compl).1.nbPendingAcks + 1 = c.nbPendingAcks) := by
  unfold finalizeAnswer learned
  rw [if_pos hkw]
  rcases hr : cnxQueryRetrieve c.cnx now seq with ⟨cnx, e | sq⟩
  · exact ⟨⟨rfl, rfl, rfl⟩, rfl, .inl rfl⟩
  · simp only
    cases howner : sq.owner with
    | none => exact ⟨⟨rfl, rfl, rfl⟩, rfl, .inl rfl⟩
    | some command =>
        simp only
        by_cases hzero : c.nbPendingAcks = 0
        · rw [if_pos hzero, if_neg fun h => h.1 hzero]
          exact ⟨⟨rfl, rfl, rfl⟩, rfl, .inl rfl⟩
        · rw [if_neg hzero]
          rcases finPutrem_frame { c with cnx := cnx, nbPendingAcks := c.nbPendingAcks - 1 } command
            status compl with ⟨hq, hn, -, hm⟩
          refine ⟨⟨hq.mdir, hq.patches, hq.reading⟩, ?_, .inr ⟨⟨sq, command, by rw [hr], howner⟩, ?_⟩⟩
          · simpa [hzero] using hm
          · simp only at hn
            omega

omit [Host] in
/-- An answer leaves journals and queue alone; it may add a map, and it ends one wait at most. -/
theorem finalize_frame (c : Mdirc) (kw : Kw) (now seq status : Int) (compl : Bytes) :
    SameQueue c (finalize c kw now seq status compl).1 ∧
      (finalize c kw now seq status compl).1.c2lMaps =
        (learned c kw now seq status compl).toList ++ c.c2lMaps ∧
      ((finalize c kw now seq status compl).1.nbPendingAcks = c.nbPendingAcks ∨
        (kw = .put ∨ kw = .rem) ∧ AnswersOwn c now seq ∧
          (finalize c kw now seq status compl).1.nbPendingAcks + 1 = c.nbPendingAcks) := by
  cases kw with
  | put =>
      rcases finalizeAnswer_frame c .put (.inl rfl) now seq status compl with ⟨hq, hm, hn⟩
      exact ⟨hq, hm, hn.imp_right fun h => ⟨.inl rfl, h⟩⟩
  | rem =>
      rcases finalizeAnswer_frame c .rem (.inr rfl) now seq status compl with ⟨hq, hm, hn⟩
      exact ⟨hq, hm, hn.imp_right fun h => ⟨.inr rfl, h⟩⟩
  | sub =>
      unfold finalize finalizeSub
      rcases cnxQueryRetrieve c.cnx now seq with ⟨cnx, e | sq⟩
      · exact ⟨⟨rfl, rfl, rfl⟩, rfl, .inl rfl⟩
      · simp only
        cases sq.owner with
        | none => exact ⟨⟨rfl, rfl, rfl⟩, rfl, .inl rfl⟩
        | some command =>
            simp only
            split_ifs <;> exact ⟨⟨rfl, rfl, rfl⟩, rfl, .inl rfl⟩
  | unsub =>
      unfold finalize finalizeUnsub
      rcases cnxQueryRetrieve c.cnx now seq with ⟨cnx, e | sq⟩
      · exact ⟨⟨rfl, rfl, rfl⟩, rfl, .inl rfl⟩
      · simp only
        cases sq.owner with
        | none => exact ⟨⟨rfl, rfl, rfl⟩, rfl, .inl rfl⟩
        | some command =>
            simp only
            split_ifs <;> exact ⟨⟨rfl, rfl, rfl⟩, rfl, .inl rfl⟩

/-! ## Received patches -/

/-- The patch that a PATCH command adds to the queue, and the maps it leaves; none if its action or
its header is refused. -/
def received (c : Mdirc) (oldVersion newVersion : Int) (action fd : Bytes) :
    Option (Patch × List C2lMap) :=
  match mdirStr2action action, (headerRead fd).1 with
  | .ok action, .ok h =>
      some ({ oldVersion := oldVersion, newVersion := newVersion,
              header := (tieLocalId c.c2lMaps newVersion h).1, action := action },
        (tieLocalId c.c2lMaps newVersion h).2)
  | _, _ => none

omit [Host] in
theorem mem_insertPatch {p q : Patch} {patches : List Patch} (h : q ∈ insertPatch p patches) :
    q = p ∨ q ∈ patches := by
  induction patches with
  | nil => exact .inl (List.mem_singleton.1 h)
  | cons r ps ih =>
      unfold insertPatch at h
      split_ifs at h
      · exact List.mem_cons.1 h
      · rcases List.mem_cons.1 h with rfl | h
        · exact .inr List.mem_cons_self
        · exact (ih h).imp_right (List.mem_cons_of_mem _)

theorem patchService_of_received {c : Mdirc} {oldVersion newVersion : Int} {action fd : Bytes}
    {p : Patch} {maps : List C2lMap} (h : received c oldVersion newVersion action fd = some (p, maps))
    (sys : Sys) (maxJnlSize : Nat) :
    patchService sys maxJnlSize c oldVersion newVersion action fd =
      tryApply sys maxJnlSize { c with c2lMaps := maps, patches := insertPatch p c.patches } := by
  unfold received at h
  split at h
  · next act hd hact hhead =>
      cases h
      simp only [patchService, patchNew, hact, hhead]
  · cases h

theorem patchService_of_refused {c : Mdirc} {oldVersion newVersion : Int} {action fd : Bytes}
    (h : received c oldVersion newVersion action fd = none) (sys : Sys) (maxJnlSize : Nat) :
    ∃ e, patchService sys maxJnlSize c oldVersion newVersion action fd = (c, .error e) := by
  cases hact : mdirStr2action action with
  | error e => exact ⟨e, by simp only [patchService, patchNew, hact]⟩
  | ok act =>
      cases hhead : (headerRead fd).1 with
      | error e => exact ⟨e, by simp only [patchService, patchNew, hact, hhead]⟩
      | ok hd => simp [received, hact, hhead] at h

end Frames

/-! ## Runs -/

section Run

variable [Host] (maxJnlSize : Nat) (ok : List (Mdirc × Event) → Mdirc → Event → Prop)

/-- The runs from `c₀` whose events all satisfy `ok`, given what came before. -/
inductive ClientRun (c₀ : Mdirc) : List (Mdirc × Event) → Mdirc → Prop
  | start : ClientRun c₀ [] c₀
  | step {trace : List (Mdirc × Event)} {c c' : Mdirc} (e : Event) : ClientRun c₀ trace c →
      ok trace c e → handle maxJnlSize c e = some c' → ClientRun c₀ (trace ++ [(c, e)]) c'

variable {maxJnlSize ok}

theorem handle_patch_ok {c : Mdirc} {sys : Sys} {oldVersion newVersion : Int} {action fd : Bytes}
    (hread : c.reading = true)
    (hok : (patchService sys maxJnlSize c oldVersion newVersion action fd).2 = .ok ()) :
    handle maxJnlSize c (.patch sys oldVersion newVersion action fd) =
      some (patchService sys maxJnlSize c oldVersion newVersion action fd).1 := by
  simp only [handle, hread, if_true]
  rcases h : patchService sys maxJnlSize c oldVersion newVersion action fd with ⟨c', r⟩
  rw [h] at hok
  simp only at hok
  rw [hok]
  rfl

theorem handle_answer_ok {c : Mdirc} {kw : Kw} {now seq status : Int} {compl : Bytes}
    (hread : c.reading = true) (hok : (finalize c kw now seq status compl).2 = .ok ()) :
    handle maxJnlSize c (.answer kw now seq status compl) =
      some (finalize c kw now seq status compl).1 := by
  simp only [handle, hread, if_true]
  rcases h : finalize c kw now seq status compl with ⟨c', r⟩
  rw [h] at hok
  simp only at hok
  rw [hok]
  rfl

/-- The invariant rule of client runs. -/
theorem ClientRun.invariant {c₀ : Mdirc} {P : List (Mdirc × Event) → Mdirc → Prop} (hstart : P [] c₀)
    (hstep : ∀ {trace c c' e}, P trace c → ok trace c e → handle maxJnlSize c e = some c' →
      P (trace ++ [(c, e)]) c')
    {trace : List (Mdirc × Event)} {c : Mdirc} (run : ClientRun maxJnlSize ok c₀ trace c) :
    P trace c := by
  induction run with
  | start => exact hstart
  | step e _ hok hhandle ih => exact hstep ih hok hhandle

omit [Host] in
/-- What the reader leaves: the state of its handler, where it may have ended. -/
theorem readerOutcome_some {c c' : Mdirc} {r : Except Err Unit} (h : readerOutcome (c, r) = some c') :
    (r = .ok () ∧ c' = c) ∨ ∃ code str, r = .error (.push code str) ∧ c' = { c with reading := false } := by
  rcases r with (⟨code, str⟩ | msg) | ⟨⟩
  · exact .inr ⟨code, str, rfl, (Option.some.inj h).symm⟩
  · cases h
  · exact .inl ⟨rfl, (Option.some.inj h).symm⟩

omit [Host] in
/-- A client with one transient patch. -/
def oneTransient : Mdirc :=
  Mdirc.new (Mdir.new (ascii "/m/1")) { usable := true, nextSeq := 1, sentQueries := [] }
    fun f => if f = ascii "/m/1/.tmp/+5" then some (ascii "sc-type: im\n\n") else none

end Run

end Scambio
