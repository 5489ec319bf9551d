import Scambio.Lib.PatchSpec

/-!
# PatchOutcome — what one `mdir_patch` does to the records, and when it succeeds

`storePatch_records` gives the records that a patch leaves: blanks, maybe a tag, and its own record.
`Accepted` and `Completes` say on the mdir itself which calls pass the checks before the append and
which go through to the end.
-/

namespace Scambio

open Library

/-! ## What one patch does to the records -/

/-- A record that `jnl_read` takes for a deleted patch. -/
def IsDeleted (r : Bytes) : Prop :=
  readText r = some (.add, none)

instance (r : Bytes) : Decidable (IsDeleted r) :=
  inferInstanceAs (Decidable (readText r = some (.add, none)))

theorem readRecord_of_isDeleted [Host] {r : Bytes} (h : IsDeleted r) :
    readRecord r = some (.add, none) := by
  rw [readRecord, h]

theorem isDeleted_blank : IsDeleted blankRecord := by decide

theorem isDeleted_of_readRecord [Host] {r : Bytes} {action : Action}
    (h : readRecord r = some (action, none)) : IsDeleted r := by
  unfold readRecord at h
  split at h
  · cases h
  · next a ht =>
      cases h
      unfold IsDeleted
      rw [ht]
      unfold readText readTag at ht
      split_ifs at ht
      rcases r with _ | ⟨tag, _ | ⟨nl, rest⟩⟩
      · simp [Except.toOption] at ht
      · simp [Except.toOption] at ht
      · simp only at ht
        split_ifs at ht <;> simp [Except.toOption] at ht
        rw [ht]
  · rcases Option.map_eq_some_iff.1 h with ⟨p, -, heq⟩
    cases heq

theorem readText_some {r text : Bytes} {action : Action} (h : readText r = some (action, some text)) :
    3 ≤ r.length ∧ (ascii "\n\n") <:+ r := by
  unfold readText at h
  split_ifs at h with hlen
  refine ⟨by omega, ?_⟩
  unfold readTag at h
  rcases r with _ | ⟨tag, _ | ⟨nl, rest⟩⟩
  · simp [Except.toOption] at h
  · simp [Except.toOption] at h
  · simp only at h
    split_ifs at h with h1 <;> simp [Except.toOption] at h <;> (push Not at h1; exact h1.2)

/-- Tagging a patch that reads as an addition deletes it. -/
theorem isDeleted_tagDeleted {r text : Bytes} (h : readText r = some (.add, some text)) :
    IsDeleted (tagDeleted r) := by
  rcases readText_some h with ⟨hlen, hsuf⟩
  have hr := readText_add h
  subst hr
  rcases text with _ | ⟨c, text⟩
  · simp at hlen
  · have htag : tagDeleted (43 :: 10 :: c :: text) = 37 :: 10 :: c :: text := rfl
    have hsuf' : (ascii "\n\n") <:+ 37 :: 10 :: c :: text := by
      rcases hsuf with ⟨pre, hpre⟩
      rcases pre with _ | ⟨x, pre⟩
      · simp [ascii] at hpre
      · simp only [List.cons_append, List.cons.injEq] at hpre
        exact ⟨37 :: pre, by rw [List.cons_append, hpre.2]⟩
    unfold IsDeleted readText readTag
    rw [htag, if_neg (by simp)]
    simp [hsuf', Except.toOption]

section Records

variable [Host] (sys : Sys)

omit [Host] in
theorem records_modify_delete (A : List Slot) (n : Nat) :
    records (storeDelete A n) = (records A).modify n tagDeleted := by
  refine List.ext_getElem? ?_
  intro k
  simp only [records, storeDelete, List.getElem?_map, List.getElem?_modify]
  cases A[k]? with
  | none => rfl
  | some s => by_cases hk : n = k <;> simp [hk]

omit [Host] in
theorem records_setMark (A : List Slot) (n : Nat) (mark : Int) :
    records (storeSetMark A n mark) = records A := by
  refine List.ext_getElem? ?_
  intro k
  simp only [records, storeSetMark, List.getElem?_map, List.getElem?_modify]
  cases A[k]? with
  | none => rfl
  | some s => by_cases hk : n = k <;> simp [hk]

omit [Host] in
theorem storeMark_records {A B : List Slot} {header : Header} (h : storeMark A header = some B) :
    records B = records A := by
  unfold storeMark at h
  simp only at h
  split_ifs at h
  · cases h
    rfl
  · split at h
    · cases h
    · cases h
      rw [records_setMark, records_setMark]

/-- What a removal that is not refused finds. -/
theorem storeRemoval_tag {path : Bytes} {A : List Slot} {header : Header} {n : Nat}
    (h : storeRemoval sys path A header = .tag n) :
    headerTarget header = .ok ((1 + n : Nat) : Int) ∧
      ∃ s target, A[n]? = some s ∧ readRecord s.record = some (.add, some target) := by
  unfold storeRemoval at h
  split at h
  · cases h
  · next toDel ht =>
      split_ifs at h with hlow
      split at h
      · cases h
      · next s hs =>
          split at h
          · cases h
          · cases h
          · next action target hr =>
              by_cases hadd : action = .add
              · subst hadd
                rw [if_neg (not_not.2 rfl)] at h
                cases hu : (if headerIsDirectory target then mdirUnlink sys path target else .ok ()) with
                | error e =>
                    rw [hu] at h
                    cases h
                | ok u =>
                    rw [hu] at h
                    cases h
                    refine ⟨?_, s, target, hs, hr⟩
                    rw [ht]
                    congr 1
                    omega
              · rw [if_pos hadd] at h
                cases h

theorem storeRemoval_already {path : Bytes} {A : List Slot} {header : Header}
    (h : storeRemoval sys path A header = .already) :
    ∃ n : Nat, headerTarget header = .ok ((1 + n : Nat) : Int) ∧
      ∃ s action, A[n]? = some s ∧ readRecord s.record = some (action, none) := by
  unfold storeRemoval at h
  split at h
  · cases h
  · next toDel ht =>
      split_ifs at h with hlow
      split at h
      · cases h
      · next s hs =>
          split at h
          · cases h
          · next action hr =>
              refine ⟨(toDel - 1).toNat, ?_, s, action, hs, hr⟩
              rw [ht]
              congr 1
              omega
          · next action target hr =>
              by_cases hadd : action = .add
              · rw [if_neg (not_not.2 hadd)] at h
                cases hu : (if headerIsDirectory target then mdirUnlink sys path target else .ok ()) with
                | error e =>
                    rw [hu] at h
                    cases h
                | ok u =>
                    rw [hu] at h
                    cases h
              · rw [if_pos hadd] at h
                cases h

/-- What an accepted patch does to the records before its own: nothing, or the tag of the target of a
removal. -/
structure Prepared (action : Action) (header : Header) (R T : List Bytes) : Prop where
  length : T.length = R.length
  keep : ∀ i, T[i]? = R[i]? ∨ (action = .rem ∧ headerTarget header = .ok ((1 + i : Nat) : Int) ∧
    ∃ r, R[i]? = some r ∧ T[i]? = some (tagDeleted r))
  target : action = .rem → ∃ n r, headerTarget header = .ok ((1 + n : Nat) : Int) ∧
    T[n]? = some r ∧ IsDeleted r

theorem readText_of_readRecord {r : Bytes} {action : Action} {h : Header}
    (hr : readRecord r = some (action, some h)) : ∃ text, readText r = some (action, some text) := by
  unfold readRecord at hr
  split at hr
  · cases hr
  · cases hr
  · next a text ht =>
      rcases Option.map_eq_some_iff.1 hr with ⟨p, -, heq⟩
      cases heq
      exact ⟨text, ht⟩

theorem storePrepare_records {path : Bytes} {A B : List Slot} {action : Action} {header : Header}
    (h : storePrepare sys path A action header = some B) :
    Prepared action header (records A) (records B) := by
  unfold storePrepare at h
  cases action with
  | add =>
      simp only at h
      split at h
      · cases h
      · cases h
        exact ⟨rfl, fun i => .inl rfl, fun hrem => by cases hrem⟩
  | rem =>
      simp only at h
      cases hrem : storeRemoval sys path A header with
      | refused =>
          rw [hrem] at h
          cases h
      | already =>
          rw [hrem] at h
          cases h
          rcases storeRemoval_already sys hrem with ⟨n, ht, s, action, hs, hr⟩
          refine ⟨rfl, fun i => .inl rfl, fun _ => ⟨n, s.record, ht, ?_, isDeleted_of_readRecord hr⟩⟩
          simp [records, hs]
      | tag n =>
          rw [hrem] at h
          cases h
          rcases storeRemoval_tag sys hrem with ⟨ht, s, target, hs, hr⟩
          rcases readText_of_readRecord hr with ⟨text, htext⟩
          have hn : (records A)[n]? = some s.record := by simp [records, hs]
          refine ⟨?_, fun i => ?_, fun _ => ⟨n, tagDeleted s.record, ht, ?_, isDeleted_tagDeleted htext⟩⟩
          · rw [records_modify_delete, List.length_modify]
          · rw [records_modify_delete, List.getElem?_modify]
            by_cases hi : n = i
            · subst hi
              exact .inr ⟨rfl, ht, s.record, hn, by simp [hn]⟩
            · left
              simp [hi]
          · rw [records_modify_delete, List.getElem?_modify, hn]
            simp

/-- What a patch does to the records: blanks when it is refused; otherwise blanks, maybe a tag, and
its own record.  An accepted removal always succeeds. -/
theorem storePatch_records (path : Bytes) (A : List Slot) (action : Action) (header : Header)
    (nb : Nat) :
    (records (storePatch sys path A action header nb).1 =
        records A ++ List.replicate nb blankRecord ∧
      (storePatch sys path A action header nb).2 = none ∧
      storePrepare sys path (A ++ List.replicate nb blankSlot) action header = none) ∨
    ∃ T, Prepared action header (records A ++ List.replicate nb blankRecord) T ∧
      records (storePatch sys path A action header nb).1 =
        T ++ [patchRecord action (linkedHeader sys path action header)] ∧
      ((storePatch sys path A action header nb).2 = some ((A.length + nb + 1 : Nat) : Int) ∨
        (storePatch sys path A action header nb).2 = none ∧ action = .add) := by
  have hblank : records (A ++ List.replicate nb blankSlot) =
      records A ++ List.replicate nb blankRecord := by
    simp [records, blankSlot]
  unfold storePatch
  simp only
  cases hp : storePrepare sys path (A ++ List.replicate nb blankSlot) action header with
  | none => exact .inl ⟨hblank, rfl, rfl⟩
  | some B =>
      right
      have hprep := storePrepare_records sys hp
      rw [hblank] at hprep
      have hlen : B.length = A.length + nb := by
        have := hprep.length
        simpa [records] using this
      have happ : records (B ++ [⟨patchRecord action (linkedHeader sys path action header), 0⟩]) =
          records B ++ [patchRecord action (linkedHeader sys path action header)] := by
        simp [records]
      simp only
      split_ifs with hc
      · cases hm : storeMark (B ++ [⟨patchRecord action (linkedHeader sys path action header), 0⟩])
            (linkedHeader sys path action header) with
        | none =>
            refine ⟨records B, hprep, happ, .inr ⟨rfl, ?_⟩⟩
            -- the target of a removal that was accepted exists, so its mark is no error
            cases action with
            | add => rfl
            | rem =>
                rcases storeMark_eq_none.1 hm with ⟨hne, hout⟩
                rcases hprep.target rfl with ⟨n, r, ht, hn, -⟩
                have htarget := headerTarget_of_isMarkFor hne
                have hlt := (List.getElem?_eq_some_iff.1 hn).1
                simp only [linkedHeader] at htarget hout
                rw [ht, Except.ok.injEq] at htarget
                simp only [records, List.length_map] at hlt
                refine absurd ?_ hout
                simp only [MarksExisting, ← htarget, List.length_append, List.length_singleton]
                omega
        | some C =>
            refine ⟨records B, hprep, (storeMark_records hm).trans happ, .inl ?_⟩
            simp [hlen]
      · refine ⟨records B, hprep, happ, .inr ⟨rfl, ?_⟩⟩
        cases action with
        | add => rfl
        | rem => simp [storeConfirm] at hc

end Records

theorem Refines.mdirRead [Host] {maxJnlSize : Nat} {m : Mdir} {A : List Slot} (hmax : maxJnlSize < 2 ^ 32)
    (h : Refines maxJnlSize m A) {n : Nat} {r : Bytes} (hr : (records A)[n]? = some r) :
    (mdirRead m ((1 + n : Nat) : Int)).toOption = readRecord r := by
  rcases h with ⟨ps, hrep, rfl⟩
  simp only [records, List.getElem?_map] at hr
  rcases Option.map_eq_some_iff.1 hr with ⟨s, hs, rfl⟩
  exact hrep.mdirRead hmax hs

/-! ## When the checks pass, and when the rest does -/

section Conditions

variable [Host] (sys : Sys) (m : Mdir)

/-- The target of a removal exists, maybe among the blanks just inserted, and it is deleted already or
can be deleted. -/
def RemAccepted (header : Header) (nbDeleted : Nat) : Prop :=
  ∃ toDel, headerTarget header = .ok toDel ∧ 1 ≤ toDel ∧
    ((mdirLastVersion m < toDel ∧ toDel ≤ mdirLastVersion m + nbDeleted) ∨
      (toDel ≤ mdirLastVersion m ∧ ∃ action target, mdirRead m toDel = .ok (action, target) ∧
        ∀ t, target = some t → action = .add ∧
          (headerIsDirectory t = true → mdirUnlink sys m.path t = .ok ())))

omit [Host] in
/-- The mount point of a folder can be linked. -/
def AddAccepted (header : Header) : Prop :=
  headerIsDirectory header = true → (mdirLink sys m.path header false).2 = .ok ()

/-- The checks `mdir_patch` makes before it appends pass. -/
def Accepted (action : Action) (header : Header) (nbDeleted : Nat) : Prop :=
  match action with
  | .rem => RemAccepted sys m header nbDeleted
  | .add => AddAccepted sys m header

omit [Host] in
/-- The version file of a folder can be created and written. -/
def Confirmed (action : Action) (header : Header) : Prop :=
  action = .add → headerIsDirectory (linkedHeader sys m.path action header) = true →
    ∃ hf, headerFind (linkedHeader sys m.path action header) SC_NAME_FIELD = some hf ∧
      sys.creat (versionOfPath m.path hf.value) = none ∧ sys.writeVersion (versionOfPath m.path hf.value) = none

omit [Host] in
/-- What `mdir_patch` does after the append goes through: the version file of a folder is created and
written, and a mark has no target or one of the versions up to its own. -/
def Completes (action : Action) (header : Header) (nbDeleted : Nat) : Prop :=
  Confirmed sys m action header ∧
  (isMarkFor (linkedHeader sys m.path action header) = 0 ∨
    (1 ≤ isMarkFor (linkedHeader sys m.path action header) ∧
      isMarkFor (linkedHeader sys m.path action header) ≤ mdirLastVersion m + nbDeleted + 1))

/-- The mark index is written: the call gets that far, and its patch marks a version that exists. -/
def MarksWritten (action : Action) (header : Header) (nbDeleted : Nat) : Prop :=
  Accepted sys m action header nbDeleted ∧ Confirmed sys m action header ∧
    MarksExisting ((mdirLastVersion m).toNat + nbDeleted + 1) (linkedHeader sys m.path action header)

variable {sys m} {maxJnlSize : Nat} {A : List Slot} {header : Header} {nb : Nat}

omit [Host] in
theorem storeConfirm_iff {action : Action} :
    storeConfirm sys m.path action (linkedHeader sys m.path action header) = true ↔
      Confirmed sys m action header := by
  unfold Confirmed
  generalize linkedHeader sys m.path action header = linked
  cases action with
  | rem => simp [storeConfirm]
  | add =>
      unfold storeConfirm
      by_cases hdir : headerIsDirectory linked = true
      · simp only [hdir, if_true, forall_true_left]
        cases headerFind linked SC_NAME_FIELD with
        | none => simp
        | some hf => simp
      · simp [hdir]

/-- The slots pass the check of a removal when the mdir does. -/
theorem Refines.remAccepted_iff (hmax : maxJnlSize < 2 ^ 32) (h : Refines maxJnlSize m A) :
    storeRemoval sys m.path (A ++ List.replicate nb blankSlot) header ≠ .refused ↔
      RemAccepted sys m header nb := by
  have hlast := h.lastVersion
  unfold RemAccepted storeRemoval
  cases htgt : headerTarget header with
  | error e => simp
  | ok toDel =>
      simp only [Except.ok.injEq, exists_eq_left']
      by_cases hlow : toDel < 1
      · rw [if_pos hlow]
        constructor
        · intro hne
          exact absurd rfl hne
        · rintro ⟨hpos, -⟩
          omega
      · rw [if_neg hlow]
        obtain ⟨n, rfl⟩ : ∃ n : Nat, toDel = ((1 + n : Nat) : Int) := ⟨(toDel - 1).toNat, by omega⟩
        have hidx : (((1 + n : Nat) : Int) - 1).toNat = n := by omega
        rw [hidx]
        by_cases hn : n < A.length
        · -- the target was there before the call
          rw [List.getElem?_append_left hn, List.getElem?_eq_getElem hn]
          have hrec : (records A)[n]? = some A[n].record := by simp [records, hn]
          have hread := h.mdirRead hmax hrec
          simp only
          rw [← hread]
          have hleft : ¬ (mdirLastVersion m < ((1 + n : Nat) : Int) ∧
              ((1 + n : Nat) : Int) ≤ mdirLastVersion m + nb) := by omega
          have hright : ((1 + n : Nat) : Int) ≤ mdirLastVersion m := by omega
          simp only [hleft, false_or, hright, true_and]
          have hone : (1 : Int) ≤ ((1 + n : Nat) : Int) := by omega
          simp only [hone, true_and]
          cases Scambio.mdirRead m ((1 + n : Nat) : Int) with
          | error e => simp [Except.toOption]
          | ok r =>
              rcases r with ⟨action, _ | target⟩
              · simp [Except.toOption]
              · simp only [Except.toOption, Except.ok.injEq, Prod.mk.injEq]
                by_cases hadd : action = .add
                · subst hadd
                  by_cases hdir : headerIsDirectory target = true
                  · cases hu : mdirUnlink sys m.path target with
                    | error e => simp [hdir, hu]
                    | ok u => simp [hdir, hu]
                  · simp [hdir]
                · simp [hadd]
        · -- past the end before the call: one of the blanks, or nothing
          rw [List.getElem?_append_right (by omega), List.getElem?_replicate]
          have hone : (1 : Int) ≤ ((1 + n : Nat) : Int) := by omega
          have hright : ¬ ((1 + n : Nat) : Int) ≤ mdirLastVersion m := by omega
          simp only [hone, hright, true_and, false_and, or_false]
          by_cases hb : n - A.length < nb
          · have hblank : readRecord blankSlot.record = some (.add, none) :=
              readRecord_of_isDeleted isDeleted_blank
            have hin : mdirLastVersion m < ((1 + n : Nat) : Int) ∧
                ((1 + n : Nat) : Int) ≤ mdirLastVersion m + nb := by omega
            simp only [if_pos hb, hblank]
            exact ⟨fun _ => hin, fun _ => by simp⟩
          · have hout : ¬ (mdirLastVersion m < ((1 + n : Nat) : Int) ∧
                ((1 + n : Nat) : Int) ≤ mdirLastVersion m + nb) := by omega
            simp only [if_neg hb]
            exact ⟨fun hne => absurd rfl hne, fun hin => absurd hin hout⟩

theorem Refines.accepted_iff (hmax : maxJnlSize < 2 ^ 32) (h : Refines maxJnlSize m A)
    {action : Action} :
    storePrepare sys m.path (A ++ List.replicate nb blankSlot) action header ≠ none ↔
      Accepted sys m action header nb := by
  cases action with
  | rem =>
      rw [Accepted, ← h.remAccepted_iff hmax]
      simp only [storePrepare]
      cases storeRemoval sys m.path (A ++ List.replicate nb blankSlot) header <;> simp
  | add =>
      simp only [Accepted, AddAccepted, storePrepare, storePrepareAdd]
      by_cases hdir : headerIsDirectory header = true
      · cases hl : (mdirLink sys m.path header false).2 with
        | error e => simp [hdir, hl]
        | ok u => simp [hdir, hl]
      · simp [hdir]

omit [Host] in
theorem Refines.completes_iff (h : Refines maxJnlSize m A) (sys : Sys) (action : Action)
    (header : Header) (nb : Nat) :
    Completes sys m action header nb ↔
      ¬ (storeConfirm sys m.path action (linkedHeader sys m.path action header) = false ∨
        (isMarkFor (linkedHeader sys m.path action header) ≠ 0 ∧
          ¬ MarksExisting (A.length + nb + 1) (linkedHeader sys m.path action header))) := by
  unfold Completes MarksExisting
  rw [← storeConfirm_iff, h.lastVersion]
  generalize isMarkFor (linkedHeader sys m.path action header) = target
  cases storeConfirm sys m.path action (linkedHeader sys m.path action header) with
  | false => simp
  | true =>
      simp only [true_and, Bool.true_eq_false, false_or]
      omega

end Conditions

end Scambio
