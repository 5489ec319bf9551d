import Scambio.Lib.Readback

/-!
# Atomicity — what a failed `mdir_patch` leaves behind

An error of `mdir_patch` does not undo the stages before it.  `mdirPatch_atomic_iff` says when a
failed call leaves the journals as they were: the check of the target must not come after blanks, and
nothing may fail once the patch is appended.
-/

namespace Scambio

open Library

/-! ## The entries of the journals -/

/-- All the journal entries in order: action and header text, or the deleted flag; none for an entry
that cannot be read. -/
def journalEntries (m : Mdir) : List (Option (Action × Option Bytes)) :=
  m.jnls.flatMap fun j => (List.range j.nbPatches).map fun i => (jnlReadText m.disk j i).toOption

theorem entries_of_parts {d : Disk} (v : Nat) {ps : List (List Slot)}
    (h : ∀ ps₁ p ps₂, ps = ps₁ ++ p :: ps₂ →
      JnlHolds d (partJnl (v + ps₁.flatten.length) p) p ∧ Fits p ∧ p.length < 2 ^ 32) :
    ((journalsOf v ps).flatMap fun j =>
        (List.range j.nbPatches).map fun i => (jnlReadText d j i).toOption) =
      (records ps.flatten).map readText := by
  induction ps generalizing v with
  | nil => rfl
  | cons p ps ih =>
      have htail := ih (v + p.length) fun ps₁ q ps₂ heq => by
        have hq := h (p :: ps₁) q ps₂ (by rw [heq]; rfl)
        rw [add_length_cons] at hq
        exact hq
      rcases h [] p ps rfl with ⟨hhold, hfits, hlt⟩
      have hhead : (List.range p.length).map (fun i => (jnlReadText d (partJnl v p) i).toOption) =
          (records p).map readText := by
        refine List.ext_getElem (by simp [records]) ?_
        intro i h1 h2
        have hi : i < p.length := by simpa using h1
        have hread := jnlReadText_spec hhold hfits hlt hi
        simpa [records] using hread
      have hrec : records (p :: ps).flatten = records p ++ records ps.flatten := by
        simp [records]
      rw [journalsOf, List.flatMap_cons, htail, hrec, List.map_append]
      exact congrArg (· ++ (records ps.flatten).map readText) hhead

theorem Refines.journalEntries {maxJnlSize : Nat} (hmax : maxJnlSize < 2 ^ 32) {m : Mdir}
    {A : List Slot} (h : Refines maxJnlSize m A) :
    journalEntries m = (records A).map readText := by
  rcases h with ⟨ps, hrep, rfl⟩
  rw [Scambio.journalEntries, hrep.jnls]
  refine entries_of_parts 1 fun ps₁ p ps₂ heq => ?_
  subst heq
  have hp : p ∈ ps₁ ++ p :: ps₂ := by simp
  exact ⟨hrep.disk.holds, hrep.fits.part hp, hrep.part_lt hmax hp⟩

/-! ## Atomicity -/

section Atomic

variable [Host] {sys : Sys} {m : Mdir} {maxJnlSize : Nat} {calls : List Call}

/-- The call left an error raised only if the journals are as they were. -/
def AtomicCall (maxJnlSize : Nat) (sys : Sys) (m : Mdir) (action : Action) (header : Header)
    (nbDeleted : Nat) : Prop :=
  (∃ e, (mdirPatch sys maxJnlSize m action header nbDeleted).result = .error e) →
    journalEntries (mdirPatch sys maxJnlSize m action header nbDeleted).mdir = journalEntries m ∧
    mdirLastVersion (mdirPatch sys maxJnlSize m action header nbDeleted).mdir = mdirLastVersion m

omit [Host] in
theorem error_iff_toOption {α : Type} {x : Except Err α} : (∃ e, x = .error e) ↔ x.toOption = none := by
  cases x <;> simp [Except.toOption]

/-- The journals of a failed call are unchanged exactly when no slot was added. -/
theorem Refines.atomicCall_iff (hmax : maxJnlSize < 2 ^ 32) {A : List Slot}
    (h : Refines maxJnlSize m A) (hpow : m.disk.power = none) {action : Action} {header : Header}
    {nb : Nat} (hroom : RoomFor sys m action header nb) (hmark : MarksSafe sys m action header nb) :
    AtomicCall maxJnlSize sys m action header nb ↔
      ((storePatch sys m.path A action header nb).2 = none →
        records (storePatch sys m.path A action header nb).1 = records A) := by
  rcases h.callOf hmax hpow hroom hmark with ⟨href, hres, -⟩
  unfold AtomicCall
  rw [error_iff_toOption, hres, href.journalEntries hmax, h.journalEntries hmax, href.lastVersion,
    h.lastVersion]
  refine imp_congr_right fun hnone => ⟨?_, ?_⟩
  · rintro ⟨-, hlen⟩
    -- a failed call only ever appends, so the length decides
    have hlen' : (records (storePatch sys m.path A action header nb).1).length = (records A).length := by
      rw [records_length, records_length]
      omega
    rcases storePatch_records sys m.path A action header nb with ⟨hrec, -, -⟩ | ⟨T, hprep, hrec, -⟩
    · rw [hrec, List.length_append, List.length_replicate] at hlen'
      have hnb : nb = 0 := by omega
      rw [hrec, hnb, List.replicate_zero, List.append_nil]
    · rw [hrec, List.length_append, hprep.length, List.length_append, List.length_singleton] at hlen'
      omega
  · intro hrec
    have hlen := congrArg List.length hrec
    rw [records_length, records_length] at hlen
    exact ⟨by rw [hrec], by omega⟩

/-- A failed call leaves the journals alone exactly when no blanks precede a check that fails and
nothing fails after the append. -/
theorem mdirPatch_atomic_iff (hmax : maxJnlSize < 2 ^ 32)
    (run : Run maxJnlSize MarksSafe noCrash m calls) {action : Action} {header : Header} {nb : Nat}
    (hroom : RoomFor sys m action header nb) (hmark : MarksSafe sys m action header nb) :
    AtomicCall maxJnlSize sys m action header nb ↔
      (Accepted sys m action header nb → Completes sys m action header nb) ∧
      (¬ Accepted sys m action header nb → nb = 0) := by
  rcases Run.invariant (P := fun _ _ => True) hmax id (fun hc => hc.elim) trivial
    (fun _ _ _ _ _ => trivial) (fun _ _ _ => trivial) run with ⟨A, href, hpow, -⟩
  rw [href.atomicCall_iff hmax hpow hroom hmark, ← href.accepted_iff hmax, storePatch_eq_none]
  have hcomp := href.completes_iff sys action header nb
  cases hp : storePrepare sys m.path (A ++ List.replicate nb blankSlot) action header with
  | none =>
      rw [storePatch_refused sys hp]
      have hrec : records (A ++ List.replicate nb blankSlot) =
          records A ++ List.replicate nb blankRecord := by
        simp [records, blankSlot]
      simp [hrec]
  | some B =>
      have hgrow : records (storePatch sys m.path A action header nb).1 ≠ records A := by
        intro heq
        rcases storePatch_records sys m.path A action header nb with
          ⟨-, -, hnone⟩ | ⟨T, hprep, hrec, -⟩
        · rw [hp] at hnone
          cases hnone
        · have hlen := congrArg List.length heq
          rw [hrec, List.length_append, hprep.length, List.length_append, List.length_singleton] at hlen
          omega
      simp only [reduceCtorEq, false_or, ne_eq, not_false_eq_true, forall_true_left, not_true_eq_false,
        false_implies, and_true, hgrow, hcomp]

omit [Host] in
/-- A mark on a version that does not exist is appended before it is refused. -/
theorem mdirPatch_mark_not_atomic :
    ¬ ∀ (_ : Host) (maxJnlSize : Nat) (m : Mdir) (calls : List Call), maxJnlSize < 2 ^ 32 →
      Run maxJnlSize MarksSafe noCrash m calls →
      ∀ (sys : Sys) (action : Action) (header : Header) (nb : Nat),
        RoomFor sys m action header nb → MarksSafe sys m action header nb →
        AtomicCall maxJnlSize sys m action header nb := by
  intro h
  let _ := plainHost
  let header : Header := [⟨ascii "sc-type", ascii "mark"⟩, ⟨ascii "sc-target", ascii "5"⟩]
  have hbad := h plainHost 2000 _ _ (by norm_num) (Run.init (ascii "/m/1")) quietSys .add header 0
    (by decide) (.inl rfl)
  have herr : (@mdirPatch plainHost quietSys 2000 (Mdir.new (ascii "/m/1")) .add header 0).result.toOption =
      none := by decide
  have hlast := (hbad (error_iff_toOption.2 herr)).2
  revert hlast
  decide

omit [Host] in
/-- A removal without blanks is atomic: here its target does not exist. -/
theorem mdirPatch_atomic_iff_sample :
    @AtomicCall plainHost 2000 quietSys (Mdir.new (ascii "/m/1")) .rem
      [⟨ascii "sc-target", ascii "5"⟩] 0 := by
  let _ := plainHost
  have hroom : RoomFor quietSys (Mdir.new (ascii "/m/1")) .rem [⟨ascii "sc-target", ascii "5"⟩] 0 := by
    decide
  refine (mdirPatch_atomic_iff (by norm_num) (Run.init (ascii "/m/1")) hroom (.inl rfl)).2
    ⟨?_, fun _ => rfl⟩
  rintro ⟨toDel, htgt, hpos, ⟨hlo, hhi⟩ | ⟨hle, -⟩⟩
  · have hlast : mdirLastVersion (Mdir.new (ascii "/m/1")) = 0 := rfl
    rw [hlast] at hlo hhi
    push_cast at hhi
    omega
  · have hlast : mdirLastVersion (Mdir.new (ascii "/m/1")) = 0 := rfl
    rw [hlast] at hle
    omega

end Atomic

end Scambio
