import Scambio.Lib.MarkIndex
import Scambio.Library.Pointers
import Scambio.Stribution.Daemon

/-!
# MarkTargets — from a mark to its message (`process_put_rec` of `stribution/main.c`)

A journal is a list of places: a mark points to its target, what was removed or left blank is erased, and anything
else is an end, errors included.

* `putsEnd_iff`      : `process_put_rec` ends well on all additions when these places settle;
* `marksKept_iff`    : which calls of `mdir_patch` keep it so;
* `putsEnd_of_run`   : every run of such calls.
-/

namespace Scambio

open Library

/-! ## `process_put_rec` -/

section Put

variable [Host] (m : Mdir)

/-- `mdir_get_targeted_header`: no header comes with no error for a patch that was deleted. -/
def Mdir.mdirGetTargetedHeader (h : Header) : Except Err (Option Header) :=
  match headerTarget h with
  | .error e => .error e
  | .ok version =>
      match mdirRead m version with
      | .error e => .error e
      | .ok (action, header) =>
          if action ≠ .add then .error (.push 0 (ascii "Target header was not an addition !")) else .ok header

/-- How `process_put_rec` ends. -/
inductive PutEnd
  | skipped
  | configured
  | processed (subject : Header)
  | error (e : Err)
  /-- The subject is NULL. -/
  | absent

/-- The recursion of `process_put_rec`; `same` tells whether the subject is the object. -/
def Mdir.processPutRec : Nat → Bool → Option Header → Option PutEnd
  | 0, _, _ => none
  | _ + 1, _, none => some .absent
  | fuel + 1, same, some subject =>
      match headerFind subject SC_TYPE_FIELD with
      | none => some (.processed subject)
      | some hfType =>
          if hfType.value = SC_DIR_TYPE then some .skipped
          else if hfType.value = SC_STRIB_TYPE then if same then some .configured else some .skipped
          else if hfType.value = SC_MARK_TYPE then
            match m.mdirGetTargetedHeader subject with
            | .error e => some (.error e)
            | .ok altSubject => Mdir.processPutRec fuel false altSubject
          else some (.processed subject)

/-- The recursion ends, and not on an absent subject. -/
def PutEnds (same : Bool) (h : Header) : Prop :=
  ∃ fuel e, m.processPutRec fuel same (some h) = some e ∧ e ≠ .absent

/-- It does from every addition of the journal. -/
def PutsEnd : Prop :=
  ∀ v h, mdirRead m v = .ok (.add, some h) → PutEnds m true h

/-! ## Places -/

omit [Host] in
/-- What a header points to. -/
def headerPointer (h : Header) : Pointer Int :=
  if headerHasType h SC_MARK_TYPE then
    match headerTarget h with
    | .ok target => .goto target
    | .error _ => .stop
  else .stop

omit [Host] in
def readPointer : Option (Action × Option Header) → Pointer Int
  | some (.add, some h) => headerPointer h
  | some (.add, none) => .erased
  | _ => .stop

/-- What a version points to. -/
def mdirPointer (version : Int) : Pointer Int :=
  readPointer (mdirRead m version).toOption

variable {m}

/-- A mark is followed. -/
theorem processPutRec_goto {h : Header} {target : Int} (hgoto : headerPointer h = .goto target) (fuel : Nat)
    (same : Bool) :
    m.processPutRec (fuel + 1) same (some h) =
      match mdirRead m target with
      | .error e => some (.error e)
      | .ok (.add, subject) => m.processPutRec fuel false subject
      | .ok (.rem, _) => some (.error (.push 0 (ascii "Target header was not an addition !"))) := by
  unfold headerPointer headerHasType at hgoto
  have hdir : SC_MARK_TYPE ≠ SC_DIR_TYPE := by decide
  have hstrib : SC_MARK_TYPE ≠ SC_STRIB_TYPE := by decide
  rw [Mdir.processPutRec, Mdir.mdirGetTargetedHeader]
  cases hfind : headerFind h SC_TYPE_FIELD with
  | none => simp [hfind] at hgoto
  | some hf =>
      by_cases hmark : hf.value = SC_MARK_TYPE
      · cases htarget : headerTarget h with
        | error e => simp [hfind, hmark, htarget] at hgoto
        | ok version =>
            obtain rfl : version = target := by simpa [hfind, hmark, htarget] using hgoto
            simp only [hmark, if_neg hdir, if_neg hstrib, if_true]
            cases mdirRead m version with
            | error e => rfl
            | ok p =>
                obtain ⟨action, subject⟩ := p
                cases action <;> rfl
      · simp [hfind, hmark] at hgoto

/-- Anything else is an end. -/
theorem processPutRec_stop {h : Header} (hstop : headerPointer h = .stop) (fuel : Nat) (same : Bool) :
    ∃ e, m.processPutRec (fuel + 1) same (some h) = some e ∧ e ≠ .absent := by
  unfold headerPointer headerHasType at hstop
  rw [Mdir.processPutRec, Mdir.mdirGetTargetedHeader]
  cases hfind : headerFind h SC_TYPE_FIELD with
  | none => exact ⟨_, rfl, by simp⟩
  | some hf =>
      simp only
      split_ifs with hdir hstrib hsame hmark
      · exact ⟨_, rfl, by simp⟩
      · exact ⟨_, rfl, by simp⟩
      · exact ⟨_, rfl, by simp⟩
      · cases htarget : headerTarget h with
        | error e => exact ⟨_, rfl, by simp⟩
        | ok version => simp [hfind, hmark, htarget] at hstop
      · exact ⟨_, rfl, by simp⟩

omit [Host] in
theorem headerPointer_ne_erased (h : Header) : headerPointer h ≠ .erased := by
  unfold headerPointer
  split
  · split <;> simp
  · simp

/-- The recursion ends well from a header when its target settles. -/
theorem putEnds_iff {h : Header} {same : Bool} :
    PutEnds m same h ↔ headerPointer h = .stop ∨
      ∃ target, headerPointer h = .goto target ∧ Library.Settles (mdirPointer m) target := by
  constructor
  -- each call of the recursion is one pointer
  · rintro ⟨fuel, e, hend, he⟩
    induction fuel generalizing h same with
    | zero => cases hend
    | succ fuel ih =>
        cases hpointer : headerPointer h with
        | stop => exact Or.inl rfl
        | erased => exact absurd hpointer (headerPointer_ne_erased h)
        | goto target =>
            refine Or.inr ⟨target, rfl, ?_⟩
            rw [processPutRec_goto hpointer] at hend
            cases hread : mdirRead m target with
            | error e => exact .stop (by simp [mdirPointer, hread, readPointer, Except.toOption])
            | ok p =>
                obtain ⟨action, subject⟩ := p
                rw [hread] at hend
                cases action with
                | rem => exact .stop (by simp [mdirPointer, hread, readPointer, Except.toOption])
                | add =>
                    cases subject with
                    -- an added patch without header ends the recursion with the error that is excluded
                    | none =>
                        cases fuel with
                        | zero => cases hend
                        | succ fuel =>
                            cases hend
                            exact absurd rfl he
                    | some subject =>
                        have hplace : mdirPointer m target = headerPointer subject := by
                          simp [mdirPointer, hread, readPointer, Except.toOption]
                        rcases ih hend with hstop | ⟨next, hnext, hsettles⟩
                        · exact .stop (hplace.trans hstop)
                        · exact .goto (hplace.trans hnext) hsettles
  -- along the pointers, from the last one on: each needs one unit of fuel more
  · rintro (hstop | ⟨target, hgoto, hsettles⟩)
    · exact ⟨1, processPutRec_stop hstop 0 same⟩
    · induction hsettles generalizing h same with
      | @stop target hstop =>
          unfold mdirPointer at hstop
          cases hread : mdirRead m target with
          | error e => exact ⟨1, _, by rw [processPutRec_goto hgoto, hread], by simp⟩
          | ok p =>
              obtain ⟨action, subject⟩ := p
              cases action with
              | rem => exact ⟨1, _, by rw [processPutRec_goto hgoto, hread], by simp⟩
              | add =>
                  cases subject with
                  | none => simp [hread, readPointer, Except.toOption] at hstop
                  | some subject =>
                      rw [hread] at hstop
                      rcases processPutRec_stop (m := m) hstop 0 false with ⟨e, hend, he⟩
                      exact ⟨2, e, by rw [processPutRec_goto hgoto, hread]; exact hend, he⟩
      | @goto target next hnext _ ih =>
          unfold mdirPointer at hnext
          cases hread : mdirRead m target with
          | error e => simp [hread, readPointer, Except.toOption] at hnext
          | ok p =>
              obtain ⟨action, subject⟩ := p
              rw [hread] at hnext
              cases action with
              | rem => cases hnext
              | add =>
                  cases subject with
                  | none => cases hnext
                  | some subject =>
                      rcases @ih subject false hnext with ⟨fuel, e, hend, he⟩
                      exact ⟨fuel + 1, e, by rw [processPutRec_goto hgoto, hread]; exact hend, he⟩

/-- The recursion ends well from all additions when all places settle. -/
theorem putsEnd_iff : PutsEnd m ↔ AllSettle (mdirPointer m) := by
  have hadd : ∀ {v h}, mdirRead m v = .ok (.add, some h) → mdirPointer m v = headerPointer h := by
    intro v h hread
    simp [mdirPointer, hread, readPointer, Except.toOption]
  constructor
  · intro hends v hv
    cases hpointer : mdirPointer m v with
    | stop => exact .stop hpointer
    | erased => exact absurd hpointer hv
    | goto target =>
        obtain ⟨h, hread⟩ : ∃ h, mdirRead m v = .ok (.add, some h) := by
          unfold mdirPointer at hpointer
          cases hread : mdirRead m v with
          | error e => simp [hread, readPointer, Except.toOption] at hpointer
          | ok p =>
              rw [hread] at hpointer
              rcases p with ⟨_ | _, _ | h⟩
              · cases hpointer
              · exact ⟨h, rfl⟩
              · cases hpointer
              · cases hpointer
        have hgoto := (hadd hread).symm.trans hpointer
        rcases putEnds_iff.1 (hends v h hread) with hstop | ⟨next, hnext, hsettles⟩
        · rw [hgoto] at hstop
          cases hstop
        · rw [hgoto, Pointer.goto.injEq] at hnext
          exact .goto hpointer (hnext ▸ hsettles)
  · intro hall v h hread
    have hne : mdirPointer m v ≠ .erased := hadd hread ▸ headerPointer_ne_erased h
    rw [putEnds_iff]
    cases hpointer : headerPointer h with
    | stop => exact Or.inl rfl
    | erased => exact absurd hpointer (headerPointer_ne_erased h)
    | goto target =>
        exact Or.inr ⟨target, rfl, (hall v hne).target ((hadd hread).trans hpointer)⟩

end Put

/-! ## Records -/

section Records

variable [Host]

/-- What the patch of a record points to. -/
def recordPointer (r : Bytes) : Pointer Int :=
  readPointer (readRecord r)

/-- What the versions of a list of records point to. -/
def journalPointer (R : List Bytes) (version : Int) : Pointer Int :=
  if version < 1 then .stop
  else
    match R[(version - 1).toNat]? with
    | none => .stop
    | some r => recordPointer r

theorem recordPointer_of_isDeleted {r : Bytes} (h : IsDeleted r) : recordPointer r = .erased := by
  rw [recordPointer, readRecord_of_isDeleted h]
  rfl

theorem recordPointer_patchRecord (action : Action) (h : Header) :
    recordPointer (patchRecord action h) ≠ .erased ∧
      (action = .rem → recordPointer (patchRecord action h) = .stop) := by
  unfold recordPointer readRecord
  rw [readText_patchRecord]
  simp only
  cases (headerParse (cstr (headerDump h))).toOption with
  | none => simp [readPointer]
  | some p =>
      cases action with
      | rem => simp [readPointer]
      | add => exact ⟨headerPointer_ne_erased p.1, by simp⟩

theorem journalPointer_of_get {R : List Bytes} {v : Int} {r : Bytes} (hv : 1 ≤ v) (hr : R[(v - 1).toNat]? = some r) :
    journalPointer R v = recordPointer r := by
  rw [journalPointer, if_neg (by omega), hr]

theorem journalPointer_out {R : List Bytes} {v : Int} (hv : v < 1 ∨ R.length < v) : journalPointer R v = .stop := by
  unfold journalPointer
  split
  · rfl
  · rw [List.getElem?_eq_none (by omega)]

theorem journalPointer_congr {R T : List Bytes} {v : Int} (h : 1 ≤ v → T[(v - 1).toNat]? = R[(v - 1).toNat]?) :
    journalPointer T v = journalPointer R v := by
  unfold journalPointer
  split
  · rfl
  · rw [h (by omega)]

/-- The places of a folder are those of its records. -/
theorem Refines.mdirPointer {maxJnlSize : Nat} {m : Mdir} {A : List Slot} (hmax : maxJnlSize < 2 ^ 32)
    (h : Refines maxJnlSize m A) : mdirPointer m = journalPointer (records A) := by
  funext v
  by_cases hv : 1 ≤ v ∧ v ≤ A.length
  · have hlt : (v - 1).toNat < (records A).length := by
      rw [records_length]
      omega
    have hr := List.getElem?_eq_getElem hlt
    have hread := h.mdirRead hmax hr
    have hcast : ((1 + (v - 1).toNat : Nat) : Int) = v := by omega
    rw [hcast] at hread
    rw [journalPointer_of_get hv.1 hr, Scambio.mdirPointer, hread]
    rfl
  · have hout : v < 1 ∨ ((records A).length : Int) < v := by
      rw [records_length]
      omega
    have hnone := h.find_none (x := v) (by omega)
    rw [journalPointer_out hout, Scambio.mdirPointer, Scambio.mdirRead, jnlGetByVersion, hnone]
    rfl

/-! ## One call -/

/-- The versions of the blanks that come after a last version. -/
def blankVersions (last : Int) (nb : Nat) : Set Int :=
  {v | last < v ∧ v ≤ last + nb}

/-- The version that a removal removes. -/
def removedVersions (action : Action) (header : Header) : Set Int :=
  {v | action = .rem ∧ headerTarget header = .ok v}

theorem journalPointer_blanks (R : List Bytes) (nb : Nat) :
    journalPointer (R ++ List.replicate nb blankRecord) =
      erase (blankVersions R.length nb) (journalPointer R) := by
  funext v
  by_cases hv : v ∈ blankVersions R.length nb
  · have hrange : (R.length : Int) < v ∧ v ≤ R.length + nb := hv
    have hr : (R ++ List.replicate nb blankRecord)[(v - 1).toNat]? = some blankRecord := by
      rw [List.getElem?_append_right (by omega), List.getElem?_replicate, if_pos (by omega)]
    rw [erase_of_mem hv, journalPointer_of_get (by omega) hr, recordPointer_of_isDeleted isDeleted_blank]
  · rw [erase_of_not_mem hv]
    by_cases hout : (R.length : Int) < v
    · have hlong : ((R ++ List.replicate nb blankRecord).length : Int) < v := by
        rw [List.length_append, List.length_replicate]
        have hrange : ¬ ((R.length : Int) < v ∧ v ≤ R.length + nb) := hv
        omega
      rw [journalPointer_out (Or.inr hlong), journalPointer_out (Or.inr hout)]
    · exact journalPointer_congr fun hlow => List.getElem?_append_left (by omega)

/-- What a removal leaves: its target is erased. -/
theorem Prepared.journalPointer {action : Action} {header : Header} {R T : List Bytes}
    (h : Prepared action header R T) :
    journalPointer T = erase (removedVersions action header) (journalPointer R) := by
  funext v
  by_cases hv : v ∈ removedVersions action header
  · rcases h.target hv.1 with ⟨n, r, htarget, hr, hdel⟩
    rw [hv.2, Except.ok.injEq] at htarget
    have hidx : (v - 1).toNat = n := by omega
    rw [erase_of_mem hv, journalPointer_of_get (by omega) (hidx ▸ hr), recordPointer_of_isDeleted hdel]
  · rw [erase_of_not_mem hv]
    refine journalPointer_congr fun hlow => ?_
    rcases h.keep (v - 1).toNat with hkeep | ⟨hrem, htarget, -⟩
    · exact hkeep
    · refine absurd ⟨hrem, htarget.trans ?_⟩ hv
      congr 1
      omega

theorem journalPointer_snoc (R : List Bytes) (r : Bytes) :
    journalPointer (R ++ [r]) = Function.update (journalPointer R) (R.length + 1) (recordPointer r) := by
  funext v
  by_cases hv : v = R.length + 1
  · subst hv
    have hr : (R ++ [r])[((R.length + 1 : Int) - 1).toNat]? = some r := by simp
    rw [Function.update_self, journalPointer_of_get (by omega) hr]
  · rw [Function.update_of_ne hv]
    by_cases hout : (R.length : Int) < v
    · have hlong : ((R ++ [r]).length : Int) < v := by
        rw [List.length_append, List.length_singleton]
        omega
      rw [journalPointer_out (Or.inr hlong), journalPointer_out (Or.inr hout)]
    · exact journalPointer_congr fun hlow => List.getElem?_append_left (by omega)

/-- The versions that a call erases. -/
def erasedVersions (sys : Sys) (m : Mdir) (action : Action) (header : Header) (nb : Nat) : Set Int :=
  {v | v ∈ blankVersions (mdirLastVersion m) nb ∨
    Accepted sys m action header nb ∧ v ∈ removedVersions action header}

/-- A call that keeps the marks: no mark that stays points to what it erases, and following the marks from the
target of the mark that it adds, if it does, comes neither to a version that was erased nor to the versions of the
call itself. -/
structure MarksKept (sys : Sys) (m : Mdir) (action : Action) (header : Header) (nb : Nat) : Prop where
  untargeted : ∀ v target, v ∉ erasedVersions sys m action header nb → mdirPointer m v = .goto target →
    target ∉ erasedVersions sys m action header nb
  added : Accepted sys m action header nb → ∀ target,
    recordPointer (patchRecord action (linkedHeader sys m.path action header)) = .goto target →
      Library.Settles (erase (blankVersions (mdirLastVersion m) (nb + 1)) (mdirPointer m)) target

/-- These calls are the ones that keep all places settled. -/
theorem marksKept_iff {maxJnlSize : Nat} (hmax : maxJnlSize < 2 ^ 32) {m : Mdir} {A : List Slot}
    (href : Refines maxJnlSize m A) (hall : AllSettle (journalPointer (records A))) (sys : Sys) (action : Action)
    (header : Header) (nb : Nat) :
    AllSettle (journalPointer (records (storePatch sys m.path A action header nb).1)) ↔
      MarksKept sys m action header nb := by
  have hplaces := href.mdirPointer hmax
  have hlast : mdirLastVersion m = (records A).length := by rw [href.lastVersion, records_length]
  have haccepted : storePrepare sys m.path (A ++ List.replicate nb blankSlot) action header ≠ none ↔
      Accepted sys m action header nb := href.accepted_iff hmax
  have hblanks := journalPointer_blanks (records A) nb
  -- a refused call writes the blanks only
  rcases storePatch_records sys m.path A action header nb with ⟨hrec, -, hrefused⟩ | ⟨T, hprep, hrec, -⟩
  · have hnot : ¬ Accepted sys m action header nb := fun h => haccepted.2 h hrefused
    have herased : erasedVersions sys m action header nb = blankVersions (records A).length nb := by
      ext v
      simp [erasedVersions, hnot, hlast]
    rw [hrec, hblanks, allSettle_erase_iff hall, ← hplaces, ← herased]
    exact ⟨fun h => ⟨h, fun hyes => absurd hyes hnot⟩, fun h => h.untargeted⟩
  · have hlen : T.length = (records A).length + nb := by simpa using hprep.length
    have hyes : Accepted sys m action header nb := by
      rw [← haccepted]
      intro hrefused
      have hlong := congrArg List.length hrec
      rw [storePatch_refused sys hrefused] at hlong
      simp only [records_length, List.length_append, List.length_replicate, List.length_singleton] at hlong hlen
      omega
    have herased : erasedVersions sys m action header nb =
        removedVersions action header ∪ blankVersions (records A).length nb := by
      ext v
      simp [erasedVersions, hyes, hlast, or_comm]
    have hT : journalPointer T = erase (erasedVersions sys m action header nb) (mdirPointer m) := by
      rw [hprep.journalPointer, hblanks, erase_erase, hplaces, herased]
    have hstop : journalPointer T (T.length + 1) = .stop := journalPointer_out (Or.inr (by omega))
    have huntargeted : AllSettle (journalPointer T) ↔ ∀ v target, v ∉ erasedVersions sys m action header nb →
        mdirPointer m v = .goto target → target ∉ erasedVersions sys m action header nb := by
      rw [hT, allSettle_erase_iff (hplaces ▸ hall)]
    have hrecord := recordPointer_patchRecord action (linkedHeader sys m.path action header)
    rw [hrec, journalPointer_snoc]
    -- the new record is never an erased one: it points nowhere or to its target
    cases hp : recordPointer (patchRecord action (linkedHeader sys m.path action header)) with
    | erased => exact absurd hp hrecord.1
    | stop =>
        rw [← hstop, Function.update_eq_self, huntargeted]
        exact ⟨fun h => ⟨h, fun _ target htarget => by rw [hp] at htarget; cases htarget⟩, fun h => h.untargeted⟩
    | goto target =>
        have hadd : action ≠ .rem := fun hrem => by
          rw [hrecord.2 hrem] at hp
          cases hp
        have hown : erase {(T.length : Int) + 1} (journalPointer T) =
            erase (blankVersions (mdirLastVersion m) (nb + 1)) (mdirPointer m) := by
          rw [hT, erase_erase]
          congr 1
          ext v
          simp only [erasedVersions, blankVersions, removedVersions, hadd, Set.mem_union, Set.mem_singleton_iff,
            Set.mem_ofPred_eq, false_and, and_false, or_false, hlast, hlen]
          omega
        rw [allSettle_write_iff hstop, huntargeted, hown]
        constructor
        · rintro ⟨hfree, hsettles⟩
          refine ⟨hfree, fun _ target' htarget => ?_⟩
          rw [hp, Pointer.goto.injEq] at htarget
          exact htarget ▸ hsettles
        · rintro ⟨hfree, hadded⟩
          exact ⟨hfree, hadded hyes target hp⟩

/-! ## Every run -/

variable {maxJnlSize : Nat}

theorem putsEnd_refines (hmax : maxJnlSize < 2 ^ 32) {m : Mdir} {A : List Slot} (href : Refines maxJnlSize m A) :
    PutsEnd m ↔ AllSettle (journalPointer (records A)) := by
  rw [putsEnd_iff, href.mdirPointer hmax]

/-- In every run of such calls the recursion ends well from all additions, and any other call breaks that. -/
theorem putsEnd_of_run (hat : Host.appendPwrite = .atOffset) (hmax : maxJnlSize < 2 ^ 32) :
    (∀ m calls, Run maxJnlSize MarksKept noCrash m calls → PutsEnd m) ∧
      ∀ m calls, Run maxJnlSize anyPatch noCrash m calls → PutsEnd m →
        ∀ sys action header nb, RoomFor sys m action header nb →
          (PutsEnd (mdirPatch sys maxJnlSize m action header nb).mdir ↔ MarksKept sys m action header nb) := by
  constructor
  · intro m calls run
    have hinv : ∃ A, Refines maxJnlSize m A ∧ m.disk.power = none ∧ AllSettle (journalPointer (records A)) := by
      refine Run.invariant (P := fun A _ => AllSettle (journalPointer (records A))) hmax (fun _ => .inl hat)
        (fun hc => hc.elim) ?_ ?_ (fun hc => hc.elim) run
      · intro v _
        have hout : v < 1 ∨ ((records []).length : Int) < v := by
          rw [records_length, List.length_nil]
          omega
        exact .stop (journalPointer_out hout)
      · intro m A calls sys action header nb href _ hall hkept _
        exact (marksKept_iff hmax href hall sys action header nb).2 hkept
    rcases hinv with ⟨A, href, -, hall⟩
    exact (putsEnd_refines hmax href).2 hall
  · intro m calls run hends sys action header nb hroom
    have hinv : ∃ A, Refines maxJnlSize m A ∧ m.disk.power = none ∧ True :=
      Run.invariant (P := fun _ _ => True) hmax (fun _ => .inl hat) (fun hc => hc.elim) trivial
        (fun _ _ _ _ _ => trivial) (fun hc => hc.elim) run
    rcases hinv with ⟨A, href, hpow, -⟩
    have hpatched := (href.callOf hmax hpow hroom (.inl hat)).1
    rw [putsEnd_refines hmax hpatched]
    exact marksKept_iff hmax href ((putsEnd_refines hmax href).1 hends) sys action header nb

omit [Host] in
theorem putsEnd_of_run_sample :
    let _ := plainHost
    let h : Header := [⟨ascii "sc-type", ascii "im"⟩]
    let k : Header := [⟨ascii "sc-type", ascii "mark"⟩, ⟨ascii "sc-target", ascii "1"⟩]
    let m₁ := (mdirPatch quietSys 2000 (Mdir.new (ascii "/m/1")) .add h 0).mdir
    PutsEnd m₁ ∧ (PutsEnd (mdirPatch quietSys 2000 m₁ .add k 0).mdir ↔ MarksKept quietSys m₁ .add k 0) := by
  intro _ h k m₁
  have hruns := @putsEnd_of_run _ 2000 rfl (by norm_num)
  have hkept : MarksKept quietSys (Mdir.new (ascii "/m/1")) .add h 0 := by
    refine ⟨fun v target _ hgoto => ?_, fun _ target hgoto => ?_⟩
    · have hnone : mdirPointer (Mdir.new (ascii "/m/1")) v = .stop := rfl
      rw [hnone] at hgoto
      cases hgoto
    · have hstop : recordPointer (patchRecord .add (linkedHeader quietSys (ascii "/m/1") .add h)) = .stop := by
        decide
      rw [show (Mdir.new (ascii "/m/1")).path = ascii "/m/1" from rfl, hstop] at hgoto
      cases hgoto
  have hends : PutsEnd m₁ :=
    hruns.1 m₁ _ (Run.patch quietSys .add h 0 (Run.init (ascii "/m/1")) hkept (by decide))
  have run₁ : Run 2000 anyPatch noCrash m₁ _ :=
    Run.patch quietSys .add h 0 (Run.init (ascii "/m/1")) trivial (by decide)
  exact ⟨hends, hruns.2 m₁ _ run₁ hends quietSys .add k 0 (by decide)⟩

omit [Host] in
/-- A mark whose target is removed leads to no subject. -/
theorem not_putsEnd :
    ¬ ∀ (_ : Host), Host.appendPwrite = .atOffset → ∀ (maxJnlSize : Nat) (m : Mdir) (calls : List Call),
      maxJnlSize < 2 ^ 32 → Run maxJnlSize anyPatch noCrash m calls → PutsEnd m := by
  intro hall
  let _ := plainHost
  let h : Header := [⟨ascii "sc-type", ascii "im"⟩]
  let k : Header := [⟨ascii "sc-type", ascii "mark"⟩, ⟨ascii "sc-target", ascii "1"⟩]
  let r : Header := [⟨ascii "sc-target", ascii "1"⟩]
  let m₁ := (mdirPatch quietSys 2000 (Mdir.new (ascii "/m/1")) .add h 0).mdir
  let m₂ := (mdirPatch quietSys 2000 m₁ .add k 0).mdir
  let m₃ := (mdirPatch quietSys 2000 m₂ .rem r 0).mdir
  have run₁ : Run 2000 anyPatch noCrash m₁ _ :=
    Run.patch quietSys .add h 0 (Run.init (ascii "/m/1")) trivial (by decide)
  have run₂ : Run 2000 anyPatch noCrash m₂ _ :=
    Run.patch quietSys .add k 0 run₁ trivial (by decide)
  have run₃ : Run 2000 anyPatch noCrash m₃ _ :=
    Run.patch quietSys .rem r 0 run₂ trivial (by decide +kernel)
  have hread : mdirRead m₃ 2 = .ok (.add, some k) := eq_ok_of_toOption (by decide +kernel)
  have hgoto : headerPointer k = .goto 1 := by decide
  have herased : mdirPointer m₃ 1 = .erased := by decide +kernel
  rcases putEnds_iff.1 (hall plainHost rfl 2000 m₃ _ (by norm_num) run₃ 2 k hread) with hstop | ⟨target, htarget, hsettles⟩
  · rw [hgoto] at hstop
    cases hstop
  · rw [hgoto, Pointer.goto.injEq] at htarget
    exact hsettles.not_erased (htarget ▸ herased)

end Records

end Scambio
