import Scambio.Vadrouille.DateOrder
import Scambio.Library.Ranked

/-!
# Calendar — the list of events (`vadrouille/calendar.c`)

The events of all folders are in one list, in which `cal_msg_insert` puts an event before the first that starts
after it.  `foreach_event_in_view_between` leaves this list at the first event that starts after the period.

- `calMsgs_ranked`: whatever was inserted and removed, the list is in the order of the ranks of the starts.
- `calDate_order_iff`: the comparison is a total preorder on all dates but for pairs with midnight, and even
  with these the list is sorted.
- `mem_calMsgs_iff`: the list holds the events inserted and not removed since.
- `foreachEvent_exact`: of these, the ones called back are those of the view that meet the period, each once.
-/

namespace Scambio

open Library

/-! ## Events -/

/-- `struct cal_msg`, at its address. -/
structure CalMsg where
  ptr : Nat
  mdirb : Nat
  start : CalDate
  stop : CalDate
  deriving DecidableEq, Repr

/-- What `foreach_event_in_view_between` takes for the end: the stop date may be unset. -/
def CalMsg.endDate (cmsg : CalMsg) : CalDate :=
  if cmsg.stop.isSet then cmsg.stop else cmsg.start

def calMsgInsert (cmsg : CalMsg) : List CalMsg → List CalMsg
  | [] => [cmsg]
  | m :: rest =>
      if calDateCompare m.start cmsg.start > 0 then cmsg :: m :: rest
      -- `LIST_INSERT_AFTER` the last event
      else if rest = [] then [m, cmsg]
      else m :: calMsgInsert cmsg rest

/-- `LIST_REMOVE` of the event at an address. -/
def calMsgRemove (ptr : Nat) (calMsgs : List CalMsg) : List CalMsg :=
  calMsgs.filter fun m => m.ptr ≠ ptr

/-- `struct cal_dir_view`, as far as the folders that it shows. -/
structure CalDirView where
  dirs : List Nat

def viewThisDir (view : CalDirView) (mdirb : Nat) : Bool :=
  view.dirs.any (· == mdirb)

/-- The events for which `foreach_event_in_view_between` calls back, in the order of the calls. -/
def foreachEventInViewBetween (view : CalDirView) (start stop : CalDate) : List CalMsg → List CalMsg
  | [] => []
  | cmsg :: rest =>
      -- `break`: the list is sorted by the starts
      if calDateCompare cmsg.start stop > 0 then []
      else if !viewThisDir view cmsg.mdirb then foreachEventInViewBetween view start stop rest
      else if calDateCompare cmsg.endDate start < 0 then foreachEventInViewBetween view start stop rest
      else cmsg :: foreachEventInViewBetween view start stop rest

/-! ## Runs -/

/-- A message with an event comes in a folder, or one leaves. -/
inductive CalendarOp
  | insert (mdirb : Nat) (start stop : CalDate)
  | remove (ptr : Nat)

/-- The list, and the address that `Malloc` gives next. -/
structure Calendar where
  calMsgs : List CalMsg
  next : Nat

def Calendar.step (c : Calendar) : CalendarOp → Calendar
  | .insert mdirb start stop => ⟨calMsgInsert ⟨c.next, mdirb, start, stop⟩ c.calMsgs, c.next + 1⟩
  | .remove ptr => { c with calMsgs := calMsgRemove ptr c.calMsgs }

/-- The calendar after some operations, from `LIST_INIT` on. -/
def Calendar.run (ops : List CalendarOp) : Calendar :=
  ops.foldl Calendar.step ⟨[], 0⟩

/-- The events that came before. -/
def insertions (ops : List CalendarOp) : Nat :=
  ops.countP fun op => match op with
    | .insert .. => true
    | .remove _ => false

/-- What the list is for: the event was inserted by one of the operations, and none of the later ones removed it.
Its address tells which of the insertions it came with. -/
def Present (ops : List CalendarOp) (m : CalMsg) : Prop :=
  ∃ before after, ops = before ++ .insert m.mdirb m.start m.stop :: after ∧ m.ptr = insertions before ∧
    .remove m.ptr ∉ after

/-! ## The list is sorted -/

def CalMsg.rank (m : CalMsg) : Nat ×ₗ Nat ×ₗ Nat ×ₗ Nat ×ₗ Nat :=
  m.start.rank

/-- The two branches that insert behind an event are one. -/
theorem calMsgInsert_eq (cmsg : CalMsg) (l : List CalMsg) :
    calMsgInsert cmsg l = l.orderedInsert (fun a b => a.rank < b.rank) cmsg := by
  induction l with
  | nil => rfl
  | cons m rest ih =>
      rw [List.orderedInsert_cons, calMsgInsert]
      by_cases hlt : cmsg.rank < m.rank
      · rw [if_pos hlt, if_pos ((calDateCompare_pos _ _).2 hlt)]
      · rw [if_neg hlt, if_neg fun h => hlt ((calDateCompare_pos _ _).1 h)]
        cases rest with
        | nil => rfl
        | cons m' rest => rw [if_neg (List.cons_ne_nil _ _), ih]

theorem calMsgInsert_perm (cmsg : CalMsg) (l : List CalMsg) : (calMsgInsert cmsg l).Perm (cmsg :: l) := by
  rw [calMsgInsert_eq]
  exact List.perm_orderedInsert _ cmsg l

/-- The invariant of the list. -/
structure Calendar.Wf (c : Calendar) : Prop where
  ranked : Ranked CalMsg.rank c.calMsgs
  nodup : (c.calMsgs.map CalMsg.ptr).Nodup
  lt_next : ∀ m ∈ c.calMsgs, m.ptr < c.next

theorem Calendar.Wf.step {c : Calendar} (h : c.Wf) (op : CalendarOp) : (c.step op).Wf := by
  cases op with
  | insert mdirb start stop =>
      have hins := calMsgInsert_eq ⟨c.next, mdirb, start, stop⟩ c.calMsgs
      have hperm := calMsgInsert_perm ⟨c.next, mdirb, start, stop⟩ c.calMsgs
      refine ⟨?_, ?_, ?_⟩
      · have hranked : Ranked CalMsg.rank (calMsgInsert ⟨c.next, mdirb, start, stop⟩ c.calMsgs) := by
          rw [hins]
          exact h.ranked.orderedInsert _
        exact hranked
      -- the address is a new one
      · refine (hperm.map CalMsg.ptr).nodup_iff.2 (List.nodup_cons.2 ⟨fun hmem => ?_, h.nodup⟩)
        rcases List.mem_map.1 hmem with ⟨m, hm, heq⟩
        exact Nat.lt_irrefl _ (heq ▸ h.lt_next m hm)
      · intro m hm
        rcases List.mem_cons.1 (hperm.mem_iff.1 hm) with rfl | hm
        · exact Nat.lt_succ_self _
        · exact Nat.lt_succ_of_lt (h.lt_next m hm)
  | remove ptr =>
      have hsub : (calMsgRemove ptr c.calMsgs).Sublist c.calMsgs := List.filter_sublist
      exact ⟨h.ranked.sublist hsub, h.nodup.sublist (hsub.map _), fun m hm => h.lt_next m (hsub.subset hm)⟩

theorem Calendar.Wf.foldl {c : Calendar} (h : c.Wf) (ops : List CalendarOp) : (ops.foldl Calendar.step c).Wf := by
  induction ops generalizing c with
  | nil => exact h
  | cons op ops ih => exact ih (h.step op)

theorem calMsgs_ranked (ops : List CalendarOp) : (Calendar.run ops).Wf := by
  have hempty : (⟨[], 0⟩ : Calendar).Wf :=
    ⟨List.Pairwise.nil, List.nodup_nil, fun _ hm => absurd hm List.not_mem_nil⟩
  exact hempty.foldl ops

/-! ## The list is complete -/

theorem Calendar.run_concat (ops : List CalendarOp) (op : CalendarOp) :
    Calendar.run (ops ++ [op]) = (Calendar.run ops).step op := by
  rw [Calendar.run, List.foldl_concat]
  rfl

theorem Calendar.run_next (ops : List CalendarOp) : (Calendar.run ops).next = insertions ops := by
  induction ops using List.reverseRecOn with
  | nil => rfl
  | append_singleton ops op ih =>
      rw [Calendar.run_concat, insertions, List.countP_append]
      cases op with
      | insert mdirb start stop => exact congrArg (· + 1) ih
      | remove ptr => exact ih

/-- An operation at the end: an event that it inserts, or one that was there and that it does not remove. -/
theorem present_concat (ops : List CalendarOp) (op : CalendarOp) (m : CalMsg) :
    Present (ops ++ [op]) m ↔
      (op = .insert m.mdirb m.start m.stop ∧ m.ptr = insertions ops) ∨ (Present ops m ∧ op ≠ .remove m.ptr) := by
  constructor
  · rintro ⟨before, after, heq, hptr, hkept⟩
    rcases List.eq_nil_or_concat after with rfl | ⟨after, last, rfl⟩
    · obtain ⟨rfl, hop⟩ := List.append_inj' heq rfl
      exact .inl ⟨List.singleton_inj.1 hop, hptr⟩
    · rw [List.concat_eq_append, ← List.cons_append, ← List.append_assoc] at heq
      obtain ⟨rfl, hop⟩ := List.append_inj' heq rfl
      rw [List.concat_eq_append, List.mem_append, not_or, List.mem_singleton] at hkept
      exact .inr ⟨⟨before, after, rfl, hptr, hkept.1⟩, fun h => hkept.2 (h.symm.trans (List.singleton_inj.1 hop))⟩
  · rintro (⟨rfl, hptr⟩ | ⟨⟨before, after, rfl, hptr, hkept⟩, hop⟩)
    · exact ⟨ops, [], rfl, hptr, List.not_mem_nil⟩
    · refine ⟨before, after ++ [op], by simp, hptr, ?_⟩
      rw [List.mem_append, not_or, List.mem_singleton]
      exact ⟨hkept, hop.symm⟩

/-- Nothing that was inserted is missing in the list, and nothing else is in it. -/
theorem mem_calMsgs_iff (ops : List CalendarOp) (m : CalMsg) :
    m ∈ (Calendar.run ops).calMsgs ↔ Present ops m := by
  induction ops using List.reverseRecOn with
  | nil =>
      refine iff_of_false List.not_mem_nil ?_
      rintro ⟨before, after, heq, -⟩
      exact List.cons_ne_nil _ _ (List.append_eq_nil_iff.1 heq.symm).2
  | append_singleton ops op ih =>
      rw [Calendar.run_concat, present_concat, ← ih]
      cases op with
      | insert mdirb start stop =>
          rw [Calendar.step, (calMsgInsert_perm _ _).mem_iff, List.mem_cons, Calendar.run_next]
          refine or_congr ?_ (by simp)
          cases m
          simp only [CalMsg.mk.injEq, CalendarOp.insert.injEq]
          tauto
      | remove ptr =>
          rw [Calendar.step, calMsgRemove, List.mem_filter, decide_eq_true_eq, ne_eq, ne_eq, CalendarOp.remove.injEq,
            @eq_comm _ ptr]
          simp

/-- Whatever the dates, the comparison is transitive and the list that it makes is sorted; it is antisymmetric for two
dates exactly if neither is at midnight of the day of the other, which has no time. -/
theorem calDate_order_iff (a b c : CalDate) (ops : List CalendarOp) :
    (((calDateCompare a b).sign = -(calDateCompare b a).sign ∧
        (calDateCompare a b ≤ 0 → calDateCompare b c ≤ 0 → calDateCompare a c ≤ 0)) ↔
      ¬ MidnightOf a b ∧ ¬ MidnightOf b a) ∧
    (Calendar.run ops).calMsgs.Pairwise fun m m' => calDateCompare m.start m'.start ≤ 0 := by
  constructor
  · rw [← calDateCompare_sign_iff]
    exact and_iff_left fun hab hbc => calDateCompare_trans hab hbc
  · exact (calMsgs_ranked ops).ranked.imp fun hle => (calDateCompare_le_zero _ _).2 hle

/-- The 27th of December at midnight and all day: the first is before the second, which is not after it. -/
theorem not_calDateCompare_sign_midnight :
    calDateCompare ⟨2008, 11, 27, 0, 0, []⟩ ⟨2008, 11, 27, 99, 99, []⟩ = -1 ∧
      calDateCompare ⟨2008, 11, 27, 99, 99, []⟩ ⟨2008, 11, 27, 0, 0, []⟩ = 0 ∧
      ¬ ∀ a b : CalDate, a.InRange → b.InRange → (calDateCompare a b).sign = -(calDateCompare b a).sign := by
  refine ⟨by decide, by decide, fun hall => ?_⟩
  have hsign := hall ⟨2008, 11, 27, 0, 0, []⟩ ⟨2008, 11, 27, 99, 99, []⟩
    ⟨by decide, by decide, by decide, by decide⟩ ⟨by decide, by decide, by decide, by decide⟩
  revert hsign
  decide

/-! ## What a view shows -/

/-- The event is one of the view, and meets the period. -/
def CalMsg.shownIn (m : CalMsg) (view : CalDirView) (start stop : CalDate) : Bool :=
  decide (calDateCompare m.start stop ≤ 0) && (viewThisDir view m.mdirb && decide (calDateCompare m.endDate start ≥ 0))

/-- No event behind the one that ends the loop is hidden. -/
theorem foreachEventInViewBetween_eq (view : CalDirView) (start stop : CalDate) {l : List CalMsg}
    (h : Ranked CalMsg.rank l) :
    foreachEventInViewBetween view start stop l = l.filter fun m => m.shownIn view start stop := by
  have hshown : (fun m : CalMsg => m.shownIn view start stop) = fun m => decide (m.rank ≤ stop.rank) &&
      (viewThisDir view m.mdirb && decide (calDateCompare m.endDate start ≥ 0)) := by
    funext m
    rw [CalMsg.shownIn, decide_eq_decide.2 (calDateCompare_le_zero m.start stop)]
    rfl
  induction l with
  | nil => rfl
  | cons cmsg rest ih =>
      unfold foreachEventInViewBetween
      by_cases hpast : calDateCompare cmsg.start stop > 0
      -- the loop is left, and no later event starts in the period either
      · have habove : ¬ cmsg.rank ≤ stop.rank := not_le.2 ((calDateCompare_pos _ _).1 hpast)
        rw [if_pos hpast, hshown, h.filter_eq_nil habove]
      · have hle : decide (calDateCompare cmsg.start stop ≤ 0) = true := decide_eq_true (not_lt.1 hpast)
        rw [if_neg hpast, ih (List.pairwise_cons.1 h).2, List.filter_cons]
        cases hview : viewThisDir view cmsg.mdirb with
        | false =>
            have hnot : ¬ cmsg.shownIn view start stop = true := by simp [CalMsg.shownIn, hview]
            rw [if_neg hnot]
            rfl
        | true =>
            by_cases hbefore : calDateCompare cmsg.endDate start < 0
            · have hnot : ¬ cmsg.shownIn view start stop = true := by simp [CalMsg.shownIn, hview, hbefore]
              rw [if_neg hnot]
              simp [hbefore]
            · have hyes : cmsg.shownIn view start stop = true := by
                simp only [CalMsg.shownIn, hle, hview, Bool.true_and, decide_eq_true_eq]
                exact not_lt.1 hbefore
              rw [if_pos hyes]
              simp [hbefore]

/-- The loop calls back, each once, for exactly the events inserted and not removed that are of the view and meet the
period. -/
theorem foreachEvent_exact (ops : List CalendarOp) (view : CalDirView) (start stop : CalDate) :
    (foreachEventInViewBetween view start stop (Calendar.run ops).calMsgs).Nodup ∧
      ∀ m, m ∈ foreachEventInViewBetween view start stop (Calendar.run ops).calMsgs ↔
        Present ops m ∧ m.mdirb ∈ view.dirs ∧
          calDateCompare m.start stop ≤ 0 ∧ calDateCompare m.endDate start ≥ 0 := by
  have hwf := calMsgs_ranked ops
  rw [foreachEventInViewBetween_eq view start stop hwf.ranked]
  refine ⟨(List.Nodup.of_map _ hwf.nodup).filter _, fun m => ?_⟩
  rw [List.mem_filter, mem_calMsgs_iff, CalMsg.shownIn, viewThisDir]
  simp only [Bool.and_eq_true, decide_eq_true_eq, List.any_eq_true, beq_iff_eq, exists_eq_right]
  tauto

end Scambio
