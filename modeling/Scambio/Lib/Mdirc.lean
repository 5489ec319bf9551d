import Mathlib.Algebra.Order.Group.Multiset
import Scambio.Lib.Transients

/-!
# Mdirc — the messages of a mdir, kept by its listings (`lib/mdirc.c`, `lib/msg.c`)

A mdirc holds the messages that `mdir_patch_list` has reported.  Marks are not messages of their own: each
one hangs on the message that it marks, if that one is there.

The messages are found by their versions.  `slot` is what is held for a version, and each call of a
callback changes the slots one by one (`slot_call`), so that the calls of a listing can be followed for
one version at a time.
-/

namespace Scambio

open Library

/-! ## Model -/

/-- `struct sc_msg`, with its marks, the last one first; a mark has a version and a header. -/
structure Msg where
  version : Int
  header : Header
  marks : List (Int × Header)
  deriving DecidableEq, Repr

/-- `struct mdirc` of the library. -/
structure LibMdirc where
  cursor : MdirCursor
  nbMsgs : Nat
  msgs : List Msg

namespace LibMdirc

/-- `mdirc_ctor`. -/
def new : LibMdirc :=
  { cursor := .new, nbMsgs := 0, msgs := [] }

def findMsgByVersion (c : LibMdirc) (version : Int) : Option Msg :=
  c.msgs.find? fun msg => msg.version = version

/-- `rem_msg`; the marks go with their message. -/
def remMsg (c : LibMdirc) (version : Int) : LibMdirc :=
  match c.findMsgByVersion version with
  | none => c
  | some _ =>
      { c with
        msgs := c.msgs.eraseP fun msg => msg.version = version
        nbMsgs := c.nbMsgs - 1 }

/-- `LIST_INSERT_HEAD(&marked->marks, ...)` on the first message of a version. -/
def markFirst (version : Int) (mark : Int × Header) : List Msg → List Msg
  | [] => []
  | msg :: msgs =>
      if msg.version = version then { msg with marks := mark :: msg.marks } :: msgs
      else msg :: markFirst version mark msgs

def addMsg (c : LibMdirc) (h : Header) (version : Int) : LibMdirc :=
  if headerIsDirectory h then c
  else if headerHasType h SC_MARK_TYPE then
    match headerTarget h with
    | .error _ => c
    | .ok target => { c with msgs := markFirst target (version, h) c.msgs }
  else
    { c with
      msgs := c.msgs ++ [{ version := version, header := h, marks := [] }]
      nbMsgs := c.nbMsgs + 1 }

/-- The callbacks of `mdirc_update`; `err_msg` only sets the status of a message. -/
def call (c : LibMdirc) : Callback → LibMdirc
  | .put h version => c.addMsg h version
  | .rem version => c.remMsg version
  | .err _ _ => c

/-- `mdirc_update`: `mdir_patch_list` on the mdir `m` of the mdirc, with its cursor.  `order`, `tmp` and `err`
are what the folder, `.tmp` and `.err` deliver. -/
def mdircUpdate [Host] (m : Mdir) (c : LibMdirc) (order : List Bytes)
    (tmp err : Except Nat (List (Bytes × Option Bytes))) : LibMdirc :=
  let r := (mdirPatchList m c.cursor false order tmp err).2
  { r.calls.foldl call c with cursor := r.cursor }

/-! ## Slots -/

/-- What is held for a version: a header, and the versions of the marks. -/
abbrev Slot := Option (Header × Multiset Int)

end LibMdirc

/-- The versions of its marks, in no order. -/
def Msg.marked (msg : Msg) : Multiset Int :=
  (msg.marks.map Prod.fst : List Int)

namespace LibMdirc

def slot (c : LibMdirc) (v : Int) : Slot :=
  (c.findMsgByVersion v).map fun msg => (msg.header, msg.marked)

/-- One message for a version, and the right count. -/
structure Tidy (c : LibMdirc) : Prop where
  nodup : (c.msgs.map Msg.version).Nodup
  count : c.nbMsgs = c.msgs.length

end LibMdirc

/-- A header that makes a message. -/
def IsMessage (h : Header) : Prop :=
  headerIsDirectory h = false ∧ headerHasType h SC_MARK_TYPE = false

instance (h : Header) : Decidable (IsMessage h) :=
  inferInstanceAs (Decidable (_ ∧ _))

/-- What a header marks, if it makes a mark. -/
def markTarget (h : Header) : Option Int :=
  if headerIsDirectory h = false ∧ headerHasType h SC_MARK_TYPE = true then (headerTarget h).toOption
  else none

/-- The mark that a header of version `w` makes for version `v`. -/
def markFor (v w : Int) (h : Header) : Multiset Int :=
  if markTarget h = some v then {w} else 0

/-- What a call does to the slot of version `v`. -/
def slotStep (v : Int) (s : LibMdirc.Slot) : Callback → LibMdirc.Slot
  | .put h w =>
      if IsMessage h ∧ w = v then some (h, 0) else s.map fun x => (x.1, x.2 + markFor v w h)
  | .rem w => if w = v then none else s
  | .err _ _ => s

/-- The versions of the messages that calls add. -/
def putVersions (calls : List Callback) : List Int :=
  calls.filterMap fun
    | .put h w => if IsMessage h then some w else none
    | _ => none

theorem putVersions_append (a b : List Callback) : putVersions (a ++ b) = putVersions a ++ putVersions b :=
  List.filterMap_append

theorem putVersions_cons (cb : Callback) (calls : List Callback) :
    putVersions (cb :: calls) = putVersions [cb] ++ putVersions calls :=
  putVersions_append [cb] calls

theorem mem_putVersions {calls : List Callback} {v : Int} :
    v ∈ putVersions calls ↔ ∃ h, Callback.put h v ∈ calls ∧ IsMessage h := by
  simp only [putVersions, List.mem_filterMap]
  constructor
  · rintro ⟨cb, hcb, hv⟩
    cases cb with
    | put h w =>
        rcases Option.ite_none_right_eq_some.1 hv with ⟨hmsg, hw⟩
        cases hw
        exact ⟨h, hcb, hmsg⟩
    | rem w => cases hv
    | err h w => cases hv
  · rintro ⟨h, hput, hmsg⟩
    exact ⟨_, hput, if_pos hmsg⟩

/-- The marks that a call makes for version `v`. -/
def callMarks (v : Int) : Callback → Multiset Int
  | .put h w => markFor v w h
  | _ => 0

/-- The marks that calls make for version `v`. -/
def marksMade (v : Int) (calls : List Callback) : Multiset Int :=
  (calls.map (callMarks v)).sum

theorem marksMade_append (v : Int) (a b : List Callback) : marksMade v (a ++ b) = marksMade v a + marksMade v b := by
  rw [marksMade, List.map_append, List.sum_append, marksMade, marksMade]

theorem slotStep_none {v : Int} {cb : Callback} (h : v ∉ putVersions [cb]) : slotStep v none cb = none := by
  cases cb with
  | put header w =>
      have hmsg : ¬ (IsMessage header ∧ w = v) := by
        rintro ⟨hmsg, rfl⟩
        exact h (mem_putVersions.2 ⟨header, List.mem_singleton_self _, hmsg⟩)
      exact if_neg hmsg
  | rem w => exact ite_self _
  | err header w => rfl

theorem slotStep_marks {v : Int} {cb : Callback} (h : v ∉ putVersions [cb]) (hrem : cb ≠ .rem v)
    (s : LibMdirc.Slot) : slotStep v s cb = s.map fun x => (x.1, x.2 + callMarks v cb) := by
  have hkeep : s.map (fun x => (x.1, x.2 + 0)) = s := by simp
  cases cb with
  | put header w =>
      have hmsg : ¬ (IsMessage header ∧ w = v) := by
        rintro ⟨hmsg, rfl⟩
        exact h (mem_putVersions.2 ⟨header, List.mem_singleton_self _, hmsg⟩)
      exact if_neg hmsg
  | rem w =>
      have hne : w ≠ v := fun hwv => hrem (by rw [hwv])
      exact (if_neg hne).trans hkeep.symm
  | err header w => exact hkeep.symm

/-! Calls that do not add the message `v`: a removal of `v` empties its slot, else it only gets marks. -/

section Fold

variable {v : Int} {calls : List Callback} (hput : v ∉ putVersions calls)
include hput

theorem slot_foldl_none : calls.foldl (slotStep v) none = none := by
  induction calls with
  | nil => rfl
  | cons cb calls ih =>
      rw [putVersions_cons, List.mem_append, not_or] at hput
      rw [List.foldl_cons, slotStep_none hput.1]
      exact ih hput.2

theorem slot_foldl_marks (hrem : Callback.rem v ∉ calls) (s : LibMdirc.Slot) :
    calls.foldl (slotStep v) s = s.map fun x => (x.1, x.2 + marksMade v calls) := by
  induction calls generalizing s with
  | nil => simp [marksMade]
  | cons cb calls ih =>
      rw [putVersions_cons, List.mem_append, not_or] at hput
      rw [List.mem_cons, not_or] at hrem
      rw [List.foldl_cons, slotStep_marks hput.1 (Ne.symm hrem.1), ih hput.2 hrem.2, Option.map_map]
      have hsum : marksMade v (cb :: calls) = callMarks v cb + marksMade v calls := by
        rw [marksMade, List.map_cons, List.sum_cons, marksMade]
      simp only [Function.comp_def, hsum, add_assoc]

theorem slot_foldl_rem (hrem : Callback.rem v ∈ calls) (s : LibMdirc.Slot) :
    calls.foldl (slotStep v) s = none := by
  rcases List.append_of_mem hrem with ⟨a, b, rfl⟩
  rw [putVersions_append, putVersions_cons, List.mem_append, List.mem_append, not_or, not_or] at hput
  have hgone : slotStep v (a.foldl (slotStep v) s) (.rem v) = none := if_pos rfl
  rw [List.foldl_append, List.foldl_cons, hgone]
  exact slot_foldl_none hput.2.2

end Fold

/-- A message is added to an empty slot, and then marked. -/
theorem slot_foldl_put {v : Int} {a b : List Callback} {h : Header} (hmsg : IsMessage h)
    (hafter : v ∉ putVersions b) (hrem : Callback.rem v ∉ b) (s : LibMdirc.Slot) :
    (a ++ .put h v :: b).foldl (slotStep v) s = some (h, marksMade v b) := by
  have hput : slotStep v (a.foldl (slotStep v) s) (.put h v) = some (h, 0) := if_pos ⟨hmsg, rfl⟩
  rw [List.foldl_append, List.foldl_cons, hput, slot_foldl_marks hafter hrem, Option.map_some, zero_add]

namespace LibMdirc

theorem find?_markFirst (target v : Int) (mark : Int × Header) (msgs : List Msg) :
    ((markFirst target mark msgs).find? fun msg => msg.version = v).map (fun msg => (msg.header, msg.marked)) =
      ((msgs.find? fun msg => msg.version = v).map fun msg => (msg.header, msg.marked)).map
        fun x => (x.1, x.2 + if target = v then {mark.1} else 0) := by
  induction msgs with
  | nil => rfl
  | cons msg msgs ih =>
      rw [markFirst]
      by_cases hv : msg.version = v
      · by_cases ht : msg.version = target
        · have htv : target = v := ht.symm.trans hv
          have hmarked : Msg.marked { msg with marks := mark :: msg.marks } = msg.marked + {mark.1} := by
            rw [add_comm, Multiset.singleton_add]
            rfl
          rw [if_pos ht, List.find?_cons_of_pos (by simpa using hv), List.find?_cons_of_pos (by simpa using hv),
            if_pos htv]
          simp only [Option.map_some, hmarked]
        · have htv : ¬ target = v := fun h => ht (hv.trans h.symm)
          rw [if_neg ht, List.find?_cons_of_pos (by simpa using hv), List.find?_cons_of_pos (by simpa using hv),
            if_neg htv]
          simp
      · by_cases ht : msg.version = target
        · have htv : ¬ target = v := fun h => hv (ht.trans h)
          rw [if_pos ht, List.find?_cons_of_neg (by simpa using hv), List.find?_cons_of_neg (by simpa using hv),
            if_neg htv]
          simp [Function.comp_def]
        · rw [if_neg ht, List.find?_cons_of_neg (by simpa using hv), List.find?_cons_of_neg (by simpa using hv),
            ih]

theorem map_version_markFirst (target : Int) (mark : Int × Header) (msgs : List Msg) :
    (markFirst target mark msgs).map Msg.version = msgs.map Msg.version := by
  induction msgs with
  | nil => rfl
  | cons msg msgs ih =>
      rw [markFirst]
      split
      · rfl
      · rw [List.map_cons, ih, List.map_cons]

theorem find?_eraseP {msgs : List Msg} (h : (msgs.map Msg.version).Nodup) (w v : Int) :
    ((msgs.eraseP fun msg => msg.version = w).find? fun msg => msg.version = v) =
      if w = v then none else msgs.find? fun msg => msg.version = v := by
  induction msgs with
  | nil => simp
  | cons msg msgs ih =>
      rw [List.map_cons, List.nodup_cons] at h
      by_cases hw : msg.version = w
      · rw [List.eraseP_cons_of_pos (by simpa using hw)]
        split
        · next hwv =>
          -- no other message has that version
          rw [List.find?_eq_none]
          intro m hm hversion
          apply h.1
          rw [hw, hwv, ← of_decide_eq_true hversion]
          exact List.mem_map_of_mem hm
        · next hwv =>
          rw [List.find?_cons_of_neg (by simpa [hw] using hwv)]
      · rw [List.eraseP_cons_of_neg (by simpa using hw)]
        by_cases hv : msg.version = v
        · have hwv : ¬ w = v := fun hwv => hw (hv.trans hwv.symm)
          rw [List.find?_cons_of_pos (by simpa using hv), List.find?_cons_of_pos (by simpa using hv),
            if_neg hwv]
        · rw [List.find?_cons_of_neg (by simpa using hv), List.find?_cons_of_neg (by simpa using hv),
            ih h.2]

theorem slot_remMsg {c : LibMdirc} (h : c.Tidy) (w v : Int) :
    (c.remMsg w).slot v = if w = v then none else c.slot v := by
  have herase : ((c.msgs.eraseP fun msg => msg.version = w).find? fun msg => msg.version = v).map
      (fun msg => (msg.header, msg.marked)) = if w = v then none else c.slot v := by
    rw [find?_eraseP h.nodup]
    split <;> rfl
  unfold remMsg
  cases hfind : c.findMsgByVersion w with
  | none =>
      have hnone : (c.msgs.eraseP fun msg => msg.version = w) = c.msgs :=
        List.eraseP_of_forall_not fun msg hmsg => List.find?_eq_none.1 hfind msg hmsg
      rw [hnone] at herase
      exact herase
  | some msg => exact herase

theorem Tidy.remMsg {c : LibMdirc} (h : c.Tidy) (w : Int) : (c.remMsg w).Tidy := by
  unfold LibMdirc.remMsg
  cases hfind : c.findMsgByVersion w with
  | none => exact h
  | some msg =>
      constructor
      · exact h.nodup.sublist ((List.eraseP_sublist).map Msg.version)
      · have hlen := List.length_eraseP_of_mem (List.mem_of_find?_eq_some hfind) (List.find?_some hfind)
        simp only [h.count, hlen]

theorem slot_addMsg {c : LibMdirc} (h : Header) (w : Int) (hfresh : IsMessage h → c.slot w = none) (v : Int) :
    (c.addMsg h w).slot v = slotStep v (c.slot v) (.put h w) := by
  have hput : slotStep v (c.slot v) (.put h w) =
      if IsMessage h ∧ w = v then some (h, 0) else (c.slot v).map fun x => (x.1, x.2 + markFor v w h) := rfl
  have hkeep : (c.slot v).map (fun x => (x.1, x.2 + 0)) = c.slot v := by simp
  rw [hput]
  unfold addMsg
  split
  · next hdir =>
    have hmsg : ¬ (IsMessage h ∧ w = v) := fun hmsg => by simp [hmsg.1.1] at hdir
    have hmark : markFor v w h = 0 := by simp [markFor, markTarget, hdir]
    rw [if_neg hmsg, hmark, hkeep]
  next hdir =>
  have hdir' : headerIsDirectory h = false := by simpa using hdir
  split
  · next htype =>
    have hmsg : ¬ (IsMessage h ∧ w = v) := fun hmsg => by simp [hmsg.1.2] at htype
    rw [if_neg hmsg]
    cases htarget : headerTarget h with
    | error e =>
        have hmark : markFor v w h = 0 := by simp [markFor, markTarget, htarget, Except.toOption]
        rw [hmark, hkeep]
    | ok target =>
        have hmark : markFor v w h = if target = v then {w} else 0 := by
          simp [markFor, markTarget, htarget, hdir', htype, Except.toOption]
        rw [hmark]
        exact find?_markFirst target v (w, h) c.msgs
  · next htype =>
    have hmessage : IsMessage h := ⟨hdir', by simpa using htype⟩
    have hfresh' := hfresh hmessage
    simp only [slot, findMsgByVersion, Option.map_eq_none_iff] at hfresh'
    by_cases hwv : w = v
    · subst hwv
      rw [if_pos ⟨hmessage, rfl⟩]
      simp only [slot, findMsgByVersion, List.find?_append, hfresh']
      simp [Msg.marked]
    · have hmark : markFor v w h = 0 := by simp [markFor, markTarget, htype]
      rw [if_neg fun hmsg => hwv hmsg.2, hmark, hkeep]
      simp only [slot, findMsgByVersion, List.find?_append]
      rw [List.find?_cons_of_neg (by simpa using hwv)]
      simp

theorem Tidy.addMsg {c : LibMdirc} (h : c.Tidy) (header : Header) (w : Int)
    (hfresh : IsMessage header → c.slot w = none) : (c.addMsg header w).Tidy := by
  unfold LibMdirc.addMsg
  split
  · exact h
  next hdir =>
  split
  · cases headerTarget header with
    | error e => exact h
    | ok target =>
        constructor
        · rw [map_version_markFirst]
          exact h.nodup
        · have hlen := congrArg List.length (map_version_markFirst target (w, header) c.msgs)
          rw [List.length_map, List.length_map] at hlen
          simp only [h.count, hlen]
  · next htype =>
    have hnone := hfresh ⟨by simpa using hdir, by simpa using htype⟩
    simp only [slot, findMsgByVersion, Option.map_eq_none_iff, List.find?_eq_none] at hnone
    constructor
    · rw [List.map_append, List.map_singleton]
      refine List.Nodup.append h.nodup (List.nodup_singleton _) ?_
      intro x hx hw
      rcases List.mem_map.1 hx with ⟨msg, hmsg, rfl⟩
      rw [List.mem_singleton] at hw
      exact hnone msg hmsg (by simpa using hw)
    · simp only [h.count, List.length_append, List.length_singleton]

/-- A call changes the slots as `slotStep` says, if the message that it adds is new. -/
theorem slot_call {c : LibMdirc} (h : c.Tidy) (cb : Callback) (hfresh : ∀ w ∈ putVersions [cb], c.slot w = none) :
    (c.call cb).Tidy ∧ ∀ v, (c.call cb).slot v = slotStep v (c.slot v) cb := by
  cases cb with
  | put header w =>
      have hnew : IsMessage header → c.slot w = none := fun hmsg => hfresh w (by simp [putVersions, hmsg])
      exact ⟨h.addMsg header w hnew, slot_addMsg header w hnew⟩
  | rem w => exact ⟨h.remMsg w, slot_remMsg h w⟩
  | err header w => exact ⟨h, fun v => rfl⟩

/-- The calls of a listing, slot by slot. -/
theorem slots_foldl {c : LibMdirc} (h : c.Tidy) {calls : List Callback} (hnodup : (putVersions calls).Nodup)
    (hfresh : ∀ w ∈ putVersions calls, c.slot w = none) :
    (calls.foldl call c).Tidy ∧ ∀ v, (calls.foldl call c).slot v = calls.foldl (slotStep v) (c.slot v) := by
  induction calls generalizing c with
  | nil => exact ⟨h, fun v => rfl⟩
  | cons cb calls ih =>
      rw [putVersions_cons] at hnodup hfresh
      rcases List.nodup_append.1 hnodup with ⟨-, hrest, hdisj⟩
      rcases slot_call h cb fun w hw => hfresh w (List.mem_append_left _ hw) with ⟨htidy, hslot⟩
      have hfresh' : ∀ w ∈ putVersions calls, (c.call cb).slot w = none := by
        intro w hw
        have hne : w ∉ putVersions [cb] := fun hcb => hdisj w hcb w hw rfl
        rw [hslot, hfresh w (List.mem_append_right _ hw), slotStep_none hne]
      rcases ih htidy hrest hfresh' with ⟨htidy', hslots⟩
      refine ⟨htidy', fun v => ?_⟩
      rw [List.foldl_cons, List.foldl_cons, hslots v, hslot v]

end LibMdirc

/-! ## Agreement of two mdirc -/

/-- The version, the header and the versions of the marks. -/
def Msg.view (msg : Msg) : Int × Header × Multiset Int :=
  (msg.version, msg.header, msg.marked)

namespace LibMdirc

/-- The same messages with the same marks, and as many as `nb_msgs` tells. -/
structure Agrees (c c' : LibMdirc) : Prop where
  same : (c.msgs.map Msg.view).Perm (c'.msgs.map Msg.view)
  count : c.nbMsgs = c.msgs.length

theorem mem_view_iff {c : LibMdirc} (h : c.Tidy) {v : Int} {x : Header × Multiset Int} :
    (v, x) ∈ c.msgs.map Msg.view ↔ c.slot v = some x := by
  simp only [slot, Option.map_eq_some_iff, List.mem_map, findMsgByVersion]
  constructor
  · rintro ⟨msg, hmsg, hview⟩
    rcases Prod.mk.inj hview with ⟨rfl, hx⟩
    refine ⟨msg, ?_, hx⟩
    -- it is the first one of its version, as there is no other
    cases hfind : c.msgs.find? fun m => m.version = msg.version with
    | none =>
        have hne := List.find?_eq_none.1 hfind msg hmsg
        simp at hne
    | some first =>
        have hversion : first.version = msg.version := by simpa using List.find?_some hfind
        rw [List.inj_on_of_nodup_map h.nodup (List.mem_of_find?_eq_some hfind) hmsg hversion]
  · rintro ⟨msg, hfind, hx⟩
    have hversion : msg.version = v := by simpa using List.find?_some hfind
    exact ⟨msg, List.mem_of_find?_eq_some hfind, Prod.ext hversion hx⟩

theorem Tidy.agrees {c c' : LibMdirc} (h : c.Tidy) (h' : c'.Tidy) (hslot : ∀ v, c.slot v = c'.slot v) :
    c.Agrees c' := by
  have hnodup : ∀ {c : LibMdirc}, c.Tidy → (c.msgs.map Msg.view).Nodup := by
    intro c h
    refine List.Nodup.of_map Prod.fst ?_
    rw [List.map_map]
    exact h.nodup
  refine ⟨(List.perm_ext_iff_of_nodup (hnodup h) (hnodup h')).2 ?_, h.count⟩
  rintro ⟨v, x⟩
  rw [mem_view_iff h, mem_view_iff h', hslot v]

end LibMdirc

end Scambio
