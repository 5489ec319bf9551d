import Scambio.Library.Traces
import Scambio.Mdsyncd.Subscription

/-!
# Resets — SUB commands for a mdir that is already subscribed (`mdsyncd/queries.c`)

A client that lost a patch subscribes again with the last version it knows, and the version of its
subscription goes back to it.

- the thread of the subscription has the mutex of the connection while it writes a patch, and other
  threads run when that write blocks;
- `exec_sub` lowers the version without the mutex, and only takes it to answer;
- the mutex is also taken by the other subscriptions of the connection: the answer may wait for them,
  and the thread of the subscription may get it before the answer does.
-/

namespace Scambio

open Library

/-! ## The subscription between two steps of its threads -/

structure ResetState where
  mdir : Mdir
  sub : Subscription
  /-- The patch being written; the thread of the subscription has the mutex. -/
  sending : Option PatchMsg
  /-- The SUB that is not answered yet: its version, and whether the subscription took it. -/
  waiting : Option (Int × Bool)
  /-- The thread of the subscription did not meet any error. -/
  alive : Bool

def ResetState.new (m : Mdir) (version : Int) : ResetState :=
  { mdir := m, sub := { version := version }, sending := none, waiting := none, alive := true }

inductive SubEvent
  /-- The other threads write in the mdir. -/
  | written (m : Mdir)
  /-- `send_next_patch` up to the write. -/
  | start
  /-- The end of the write. -/
  | finish (failed : Bool)
  /-- `exec_sub` up to its answer. -/
  | sub (version : Int)
  | answer

/-- What the client can see of a step. -/
inductive SubTrace
  | started (msg : PatchMsg)
  /-- The status 304 for a SUB, and whether the subscription had taken its version. -/
  | answered (version : Int) (taken : Bool)

section Step

variable [Host]

def subStep (dirId : Bytes) (s : ResetState) : SubEvent → Option (ResetState × List SubTrace)
  | .written m => some ({ s with mdir := m }, [])
  | .start =>
      -- the mutex is free: an answer may wait for it too
      if s.alive && s.sending.isNone && clientNeedsPatch s.mdir s.sub then
        match sendNextPatch dirId s.mdir s.sub with
        | .ok (msg, _, _) => some ({ s with sending := some msg }, [.started msg])
        | .error (.push _ _) => some ({ s with alive := false }, [])
        | .error (.abort _) => none
      else none
  | .finish failed =>
      match s.sending with
      | none => none
      | some msg =>
          if failed then some ({ s with sending := none, alive := false }, [])
          else some ({ s with sending := none, sub := { s.sub with version := msg.new } }, [])
  | .sub version =>
      if s.alive && s.waiting.isNone then
        let taken := decide (version ≤ s.sub.version)
        some ({ s with sub := subscriptionResetVersion s.sub version, waiting := some (version, taken) },
          [])
      else none
  | .answer =>
      match s.waiting with
      | none => none
      | some (version, taken) =>
          if s.sending.isNone then some ({ s with waiting := none }, [.answered version taken])
          else none

theorem subStep_start {dirId : Bytes} {s : ResetState} {msg : PatchMsg} {bytes : Bytes}
    {sub' : Subscription} (hfree : s.alive = true ∧ s.sending = none)
    (hneeds : clientNeedsPatch s.mdir s.sub = true)
    (hsend : sendNextPatch dirId s.mdir s.sub = .ok (msg, bytes, sub')) :
    subStep dirId s .start = some ({ s with sending := some msg }, [.started msg]) := by
  simp [subStep, hfree, hneeds, hsend]

theorem sendNextPatch_ok {dirId : Bytes} {m : Mdir} {sub sub' : Subscription} {msg : PatchMsg}
    {bytes : Bytes} (h : sendNextPatch dirId m sub = .ok (msg, bytes, sub')) :
    msg.prev = sub.version ∧ sub' = { sub with version := msg.new } := by
  simp only [sendNextPatch] at h
  split at h
  · cases h
  · cases h
  · split at h
    · cases h
    · cases h
      exact ⟨rfl, rfl⟩

/-- Without any step in between, the two halves are `send_next_patch`. -/
theorem subStep_start_finish {dirId : Bytes} {s : ResetState} {msg : PatchMsg} {bytes : Bytes}
    {sub' : Subscription} (hfree : s.alive = true ∧ s.sending = none)
    (hneeds : clientNeedsPatch s.mdir s.sub = true)
    (hsend : sendNextPatch dirId s.mdir s.sub = .ok (msg, bytes, sub')) :
    ∃ s', subStep dirId s .start = some (s', [.started msg]) ∧
      subStep dirId s' (.finish false) = some ({ s with sub := sub' }, []) := by
  refine ⟨_, subStep_start hfree hneeds hsend, ?_⟩
  simp [subStep, (sendNextPatch_ok hsend).2, hfree]

/-- The histories of a subscription whose steps all satisfy `ok`. -/
inductive ResetRun (dirId : Bytes) (ok : ResetState → SubEvent → Prop) :
    ResetState → List SubTrace → Prop
  | init (m : Mdir) (version : Int) : ResetRun dirId ok (ResetState.new m version) []
  | step {s s' : ResetState} {trace out : List SubTrace} (e : SubEvent) :
      ResetRun dirId ok s trace → ok s e → subStep dirId s e = some (s', out) →
      ResetRun dirId ok s' (trace ++ out)

omit [Host] in
/-- No version is lowered while a patch is being written, and no patch is started between the moment when a
version is lowered and the answer. -/
def noResetInWrite (s : ResetState) (e : SubEvent) : Prop :=
  (∀ v, e = .sub v → v ≤ s.sub.version → s.sending = none) ∧
    (e = .start → ∀ v, s.waiting ≠ some (v, true))

end Step

/-! ## Resets that are owed -/

def SubTrace.isStarted : SubTrace → Bool
  | .started _ => true
  | .answered _ _ => false

/-- After the answer to a SUB that the subscription took, the next patch starts from its version or
below. -/
def ResetsKept (trace : List SubTrace) : Prop :=
  ∀ t₁ v t₂ msg t₃, trace = t₁ ++ .answered v true :: (t₂ ++ .started msg :: t₃) →
    (∀ x ∈ t₂, x.isStarted = false) → msg.prev ≤ v

/-- The versions answered since the last patch was started. -/
def Owed (trace : List SubTrace) (v : Int) : Prop :=
  ∃ t₁ t₂, trace = t₁ ++ .answered v true :: t₂ ∧ ∀ x ∈ t₂, x.isStarted = false

theorem not_owed_nil (v : Int) : ¬ Owed [] v := by
  rintro ⟨t₁, t₂, h, -⟩
  simp at h

theorem owed_snoc {trace : List SubTrace} {x : SubTrace} {v : Int} (h : Owed (trace ++ [x]) v) :
    x = .answered v true ∨ (x.isStarted = false ∧ Owed trace v) := by
  rcases h with ⟨t₁, t₂, heq, hquiet⟩
  rcases snoc_eq_append_cons heq with ⟨-, -, hx⟩ | ⟨t, rfl, rfl⟩
  · exact .inl hx
  · refine .inr ⟨hquiet x (by simp), t₁, t, rfl, fun y hy => hquiet y (by simp [hy])⟩

theorem ResetsKept.snoc {trace : List SubTrace} {x : SubTrace} (h : ResetsKept trace)
    (hx : ∀ msg, x = .started msg → ∀ v, Owed trace v → msg.prev ≤ v) : ResetsKept (trace ++ [x]) := by
  intro t₁ v t₂ msg t₃ heq hquiet
  have hsplit : t₁ ++ SubTrace.answered v true :: (t₂ ++ .started msg :: t₃) =
      (t₁ ++ .answered v true :: t₂) ++ .started msg :: t₃ := by simp
  rw [hsplit] at heq
  rcases snoc_eq_append_cons heq with ⟨-, rfl, hx'⟩ | ⟨t, rfl, rfl⟩
  · exact hx msg hx' v ⟨t₁, t₂, rfl, hquiet⟩
  · exact h t₁ v t₂ msg t (by simp) hquiet

/-! ## No reset is lost -/

section Kept

variable [Host] {dirId : Bytes} {s s' : ResetState} {trace out : List SubTrace}

omit [Host] in
/-- The invariant: what is owed, or will be once answered, is not below the version; during a write
nothing is. -/
structure KeepsResets (s : ResetState) (trace : List SubTrace) : Prop where
  kept : ResetsKept trace
  owed : ∀ v, Owed trace v → s.sub.version ≤ v
  waiting : ∀ v, s.waiting = some (v, true) → s.sub.version ≤ v
  writing : s.sending ≠ none → (∀ v, ¬ Owed trace v) ∧ ∀ v, s.waiting ≠ some (v, true)

omit [Host] in
theorem keepsResets_new (m : Mdir) (version : Int) : KeepsResets (ResetState.new m version) [] := by
  refine ⟨?_, fun v h => absurd h (not_owed_nil v), ?_, ?_⟩
  · intro t₁ v t₂ msg t₃ h
    simp at h
  · intro v h
    simp [ResetState.new] at h
  · intro h
    simp [ResetState.new] at h

omit [Host] in
theorem subscriptionResetVersion_le (sub : Subscription) (v : Int) :
    (subscriptionResetVersion sub v).version ≤ sub.version ∧
      (v ≤ sub.version → (subscriptionResetVersion sub v).version = v) := by
  unfold subscriptionResetVersion
  split_ifs with h
  · exact ⟨le_rfl, fun hle => by omega⟩
  · exact ⟨by simpa using h, fun _ => rfl⟩

theorem KeepsResets.step (h : KeepsResets s trace) {e : SubEvent} (hok : noResetInWrite s e)
    (hstep : subStep dirId s e = some (s', out)) : KeepsResets s' (trace ++ out) := by
  cases e with
  | written m =>
      cases hstep
      rw [List.append_nil]
      exact ⟨h.kept, h.owed, h.waiting, h.writing⟩
  | start =>
      simp only [subStep] at hstep
      split_ifs at hstep with hfree
      split at hstep
      · next msg bytes sub' hsend =>
          cases hstep
          -- the patch starts from the version of the subscription
          have hprev := (sendNextPatch_ok hsend).1
          have hnone : ∀ v, ¬ Owed (trace ++ [.started msg]) v := by
            intro v hv
            rcases owed_snoc hv with hx | ⟨hx, -⟩
            · cases hx
            · cases hx
          refine ⟨h.kept.snoc ?_, fun v hv => absurd hv (hnone v), h.waiting, fun _ => ⟨hnone, hok.2 rfl⟩⟩
          intro msg' hmsg v hv
          cases hmsg
          rw [hprev]
          exact h.owed v hv
      · cases hstep
        rw [List.append_nil]
        exact ⟨h.kept, h.owed, h.waiting, h.writing⟩
      · cases hstep
  | finish failed =>
      simp only [subStep] at hstep
      split at hstep
      · cases hstep
      · next msg hsending =>
          have hquiet := h.writing (by simp [hsending])
          split_ifs at hstep
          · cases hstep
            rw [List.append_nil]
            exact ⟨h.kept, h.owed, h.waiting, fun hne => absurd rfl hne⟩
          · -- the version grows, and nothing is owed nor waited for
            cases hstep
            rw [List.append_nil]
            exact ⟨h.kept, fun v hv => absurd hv (hquiet.1 v), fun v hv => absurd hv (hquiet.2 v),
              fun hne => absurd rfl hne⟩
  | sub v =>
      simp only [subStep] at hstep
      split_ifs at hstep with hfree
      cases hstep
      rw [List.append_nil]
      rcases subscriptionResetVersion_le s.sub v with ⟨hle, htaken⟩
      refine ⟨h.kept, fun w hw => hle.trans (h.owed w hw), ?_, ?_⟩
      · intro w hw
        simp only [Option.some.injEq, Prod.mk.injEq, decide_eq_true_eq] at hw
        rw [← hw.1]
        exact le_of_eq (htaken hw.2)
      · intro hne
        refine ⟨(h.writing hne).1, ?_⟩
        intro w hw
        simp only [Option.some.injEq, Prod.mk.injEq, decide_eq_true_eq] at hw
        exact hne (hok.1 v rfl hw.2)
  | answer =>
      simp only [subStep] at hstep
      split at hstep
      · cases hstep
      · next v taken hwaiting =>
          split_ifs at hstep with hfree
          cases hstep
          have hsending : s.sending = none := by simpa using hfree
          refine ⟨h.kept.snoc (by simp), ?_, by simp, fun hne => absurd hsending hne⟩
          intro w hw
          rcases owed_snoc hw with hx | ⟨-, hold⟩
          · cases hx
            exact h.waiting _ hwaiting
          · exact h.owed w hold

/-- When no version is lowered in the middle of a write and no patch comes between a reset and its answer, no reset
is lost. -/
theorem resets_kept_of_run (run : ResetRun dirId noResetInWrite s trace) : ResetsKept trace := by
  have hinv : KeepsResets s trace := by
    induction run with
    | init m version => exact keepsResets_new m version
    | step e _ hok hstep ih => exact ih.step hok hstep
  exact hinv.kept

end Kept

theorem resets_kept_of_run_sample :
    let _ := plainHost
    let h : Header := [⟨ascii "from", ascii "a b"⟩]
    let trace : List SubTrace := [.answered 0 true, .started ⟨0, 1, .add, h⟩]
    (∃ s, ResetRun (ascii "1") noResetInWrite s trace) ∧ ResetsKept trace := by
  intro _ h trace
  let m := (mdirPatch quietSys 1 (Mdir.new (ascii "/m/1")) .add h 0).mdir
  have hsend : sendNextPatch (ascii "1") m ⟨0⟩ =
      .ok (⟨0, 1, .add, h⟩, patchLine (ascii "1") .add 0 1 ++ headerWrite h, ⟨1⟩) :=
    eq_ok_of_toOption (by decide)
  have hsub : ResetRun (ascii "1") noResetInWrite _ ([] ++ []) :=
    .step (.sub 0) (.init m 1) ⟨fun _ _ _ => rfl, fun he => (by cases he)⟩ rfl
  have hanswer : ResetRun (ascii "1") noResetInWrite _ ([] ++ [] ++ [.answered 0 true]) :=
    .step .answer hsub ⟨fun _ he => (by cases he), fun he => (by cases he)⟩ rfl
  have hrun : ResetRun (ascii "1") noResetInWrite _ trace :=
    .step .start hanswer ⟨fun _ he => (by cases he), fun _ _ hw => (by cases hw)⟩
      (subStep_start ⟨rfl, rfl⟩ (by decide) hsend)
  exact ⟨⟨_, hrun⟩, resets_kept_of_run hrun⟩

/-- A SUB for version 0 while the patch from 1 to 2 is being written: the end of the write undoes it,
and the next patch starts from 2. -/
theorem reset_lost_in_write :
    let _ := plainHost
    ∃ s trace, ResetRun (ascii "1") (fun _ _ => True) s trace ∧ ¬ ResetsKept trace := by
  intro _
  let h : Header := [⟨ascii "from", ascii "a b"⟩]
  let patch := fun m => (mdirPatch quietSys 10 m .add h 0).mdir
  let m := patch (patch (Mdir.new (ascii "/m/1")))
  have hfirst : sendNextPatch (ascii "1") m ⟨1⟩ =
      .ok (⟨1, 2, .add, h⟩, patchLine (ascii "1") .add 1 2 ++ headerWrite h, ⟨2⟩) :=
    eq_ok_of_toOption (by decide +kernel)
  have hsecond : sendNextPatch (ascii "1") (patch m) ⟨2⟩ =
      .ok (⟨2, 3, .add, h⟩, patchLine (ascii "1") .add 2 3 ++ headerWrite h, ⟨3⟩) :=
    eq_ok_of_toOption (by decide +kernel)
  have hinit : ResetRun (ascii "1") (fun _ _ => True) (ResetState.new m 1) [] := .init m 1
  have hstart := ResetRun.step .start hinit trivial
    (subStep_start ⟨rfl, rfl⟩ (by decide) hfirst)
  have hsub := ResetRun.step (.sub 0) hstart trivial rfl
  have hfinish := ResetRun.step (.finish false) hsub trivial rfl
  have hanswer := ResetRun.step .answer hfinish trivial rfl
  have hgrown := ResetRun.step (.written (patch m)) hanswer trivial rfl
  have hnext := ResetRun.step .start hgrown trivial
    (subStep_start ⟨rfl, rfl⟩ (by decide) hsecond)
  refine ⟨_, _, hnext, fun hkept => ?_⟩
  have hprev := hkept [.started ⟨1, 2, .add, h⟩] 0 [] ⟨2, 3, .add, h⟩ [] rfl (by simp)
  exact absurd hprev (by decide)

end Scambio
