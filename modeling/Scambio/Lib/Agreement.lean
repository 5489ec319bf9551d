import Mathlib.Algebra.BigOperators.Intervals
import Scambio.Lib.Refresh

/-!
# Agreement — a mdirc that is updated again and again, and a new one (`lib/mdirc.c`)

`Shows` says what a mdirc that was just updated holds, in terms of the directory alone.  `Tracks` is what is
kept between two updates: what was listed is held, up to the removals that are still to be listed.
-/

namespace Scambio

open Library

/-! ## Marks -/

/-- The mark that the patch at index `j` makes for version `v`. -/
def marksAt (J : Patches) (v : Int) (j : Nat) : Multiset Int :=
  match J[j]? with
  | some (some (.add, h)) => markFor v (j + 1) h
  | _ => 0

theorem marksAt_eq_zero {J : Patches} {v : Int} {j : Nat}
    (h : ∀ h, J[j]? = some (some (.add, h)) → markTarget h ≠ some v) : marksAt J v j = 0 := by
  unfold marksAt
  split
  · next header hget => exact if_neg (h header hget)
  · rfl

theorem marksAt_ne_zero {J : Patches} {v : Int} {j : Nat} (h : marksAt J v j ≠ 0) :
    ((j + 1 : Nat) : Int) ∈ marksAt J v j := by
  unfold marksAt at h ⊢
  split at h
  · unfold markFor at h ⊢
    split at h
    · next hmark =>
      rw [if_pos hmark]
      simp
    · exact absurd rfl h
  · exact absurd rfl h

theorem marksMade_listEntry (cursor : MdirCursor) (v w : Int) (action : Action) (h : Header) :
    marksMade v (listEntry cursor w action h) = if action = .add then markFor v w h else 0 := by
  cases action with
  | rem =>
      simp only [listEntry]
      cases headerTarget h <;> rfl
  | add =>
      rw [listEntry_add, marksMade_append]
      cases (localId h).filter (· ≤ cursor.lastListedUnsync) <;> simp [marksMade, callMarks]

theorem marksMade_journalCalls (cursor : MdirCursor) (J : Patches) (v : Int) {n : Nat} (hn : n ≤ J.length) :
    marksMade v (journalCalls cursor (n + 1) (J.drop n)) = ∑ j ∈ Finset.Ico n J.length, marksAt J v j := by
  induction hk : J.length - n generalizing n with
  | zero =>
      have hdrop : J.drop n = [] := by
        rw [List.drop_eq_nil_iff]
        omega
      rw [hdrop, Finset.Ico_eq_empty_of_le (by omega)]
      rfl
  | succ k ih =>
      have hlt : n < J.length := by omega
      have hrest := ih (show n + 1 ≤ J.length by omega) (by omega)
      push_cast at hrest
      rw [List.drop_eq_getElem_cons hlt, Finset.sum_eq_sum_Ico_succ_bot hlt, ← hrest, marksAt,
        List.getElem?_eq_getElem hlt]
      rcases J[n] with _ | ⟨action, h⟩
      · exact (zero_add _).symm
      · rw [journalCalls, marksMade_append, marksMade_listEntry]
        cases action <;> rfl

/-! ## Messages that are added -/

theorem nodup_putVersions_journalCalls (cursor : MdirCursor) (v : Int) (J : Patches) :
    (putVersions (journalCalls cursor v J)).Nodup := by
  induction J generalizing v with
  | nil => exact List.nodup_nil
  | cons e J ih =>
      rcases e with _ | ⟨action, h⟩
      · exact ih (v + 1)
      · have hentry : putVersions (listEntry cursor v action h) = [] ∨
            putVersions (listEntry cursor v action h) = [v] := by
          cases action with
          | rem =>
              simp only [listEntry]
              cases headerTarget h <;> exact .inl rfl
          | add =>
              rw [listEntry_add, putVersions_append]
              by_cases hmsg : IsMessage h
              · cases (localId h).filter (· ≤ cursor.lastListedUnsync) <;> simp [putVersions, hmsg]
              · cases (localId h).filter (· ≤ cursor.lastListedUnsync) <;> simp [putVersions, hmsg]
        rw [journalCalls, putVersions_append]
        rcases hentry with hnil | hone
        · rw [hnil, List.nil_append]
          exact ih (v + 1)
        · rw [hone, List.singleton_append, List.nodup_cons]
          refine ⟨fun hmem => ?_, ih (v + 1)⟩
          rcases mem_putVersions.1 hmem with ⟨h', hput, -⟩
          rcases put_mem_journalCalls.1 hput with ⟨i, -, hi⟩
          omega

section Files

variable [Host]

theorem nodup_putVersions_fileCalls {files : List TmpFile} (h : (files.map TmpFile.version).Nodup) :
    (putVersions (fileCalls files)).Nodup := by
  induction files with
  | nil => exact List.nodup_nil
  | cons f files ih =>
      rw [List.map_cons, List.nodup_cons] at h
      have hcons : fileCalls (f :: files) = f.called true true ++ fileCalls files := List.flatMap_cons
      have hfile : putVersions (f.called true true) = [] ∨ putVersions (f.called true true) = [-f.version] := by
        rw [TmpFile.called_eq, putVersions_append]
        cases f.added with
        | none => cases f.removed <;> exact .inl rfl
        | some header =>
            by_cases hmsg : IsMessage header
            · cases f.removed <;> simp [putVersions, hmsg]
            · cases f.removed <;> simp [putVersions, hmsg]
      rw [hcons, putVersions_append]
      rcases hfile with hnil | hone
      · rw [hnil, List.nil_append]
        exact ih h.2
      · rw [hone, List.singleton_append, List.nodup_cons]
        refine ⟨fun hmem => ?_, ih h.2⟩
        rcases mem_putVersions.1 hmem with ⟨h', hput, -⟩
        rcases put_mem_fileCalls.1 hput with ⟨g, hg, -, hversion⟩
        apply h.1
        rw [Int.neg_inj.1 hversion]
        exact List.mem_map_of_mem hg

/-! ## What a mdirc holds -/

/-- A file removes the version. -/
def Hidden (files : List TmpFile) (v : Int) : Prop :=
  ∃ f ∈ files, f.removed = some v

/-- What is held of a directory: the messages of the journal that no file removes, with all their marks, and
the messages of the files. -/
structure Shows (J : Patches) (files : List TmpFile) (slot : Int → LibMdirc.Slot) : Prop where
  message : ∀ (i : Nat) h, messageAt J i = some h → ¬ Hidden files (i + 1) → slot (i + 1) =
    some (h, ∑ j ∈ Finset.Ico (i + 1) J.length, marksAt J (i + 1) j + (files.map (fileMark (i + 1))).sum)
  hidden : ∀ i : Nat, Hidden files (i + 1) → slot (i + 1) = none
  other : ∀ i : Nat, messageAt J i = none → slot (i + 1) = none
  transient : ∀ f ∈ files, ∀ h, f.added = some h → IsMessage h → slot (-f.version) = some (h, 0)
  gone : ∀ v ≤ 0, (∀ f ∈ files, ∀ h, f.added = some h → IsMessage h → -f.version ≠ v) → slot v = none

theorem Shows.unique {J : Patches} {files : List TmpFile} {slot slot' : Int → LibMdirc.Slot}
    (h : Shows J files slot) (h' : Shows J files slot') (v : Int) : slot v = slot' v := by
  rcases le_or_gt v 0 with hle | hlt
  · by_cases hfile : ∀ f ∈ files, ∀ h, f.added = some h → IsMessage h → -f.version ≠ v
    · rw [h.gone v hle hfile, h'.gone v hle hfile]
    · push Not at hfile
      rcases hfile with ⟨f, hf, header, hadded, hmsg, rfl⟩
      rw [h.transient f hf header hadded hmsg, h'.transient f hf header hadded hmsg]
  · obtain ⟨i, rfl⟩ : ∃ i : Nat, v = i + 1 := ⟨(v - 1).toNat, by omega⟩
    cases hmsg : messageAt J i with
    | none => rw [h.other i hmsg, h'.other i hmsg]
    | some header =>
        by_cases hhidden : Hidden files (i + 1)
        · rw [h.hidden i hhidden, h'.hidden i hhidden]
        · rw [h.message i header hmsg hhidden, h'.message i header hmsg hhidden]

/-! ## Between two updates -/

/-- The directory: numbers of files are distinct and positive; what is removed is in the journal, and what
was removed there is no message any more. -/
structure Refresh.Sound (s : Refresh) : Prop where
  numbers : ∀ f ∈ s.files, 1 ≤ f.version
  distinct : (s.files.map TmpFile.version).Nodup
  removals : ∀ f ∈ s.files, ∀ v, f.removed = some v → 1 ≤ v ∧ v ≤ s.journal.length
  dead : ∀ (i : Nat) (h : Header), s.journal[i]? = some (some (.rem, h)) → ∃ t : Nat, headerTarget h = .ok (t + 1) ∧
    t < s.journal.length ∧ messageAt s.journal t = none
  locals : ∀ (i : Nat) (h : Header) (l : Int), s.journal[i]? = some (some (.add, h)) → localId h = some l → 1 ≤ l

/-- The mdirc, whose cursor is at version `n` of the journal. -/
structure Refresh.Tracks (s : Refresh) (n : Nat) : Prop where
  tidy : s.mdirc.Tidy
  sync : s.mdirc.cursor.lastListedSync = n
  unsync : 0 ≤ s.mdirc.cursor.lastListedUnsync
  le : n ≤ s.journal.length
  past : ∀ f ∈ s.seen, f.version ≤ s.mdirc.cursor.lastListedUnsync
  read : ∀ f ∈ s.seen, ∃ h, f.header = some h
  -- what the files listed before mark or remove was listed too
  early : ∀ f ∈ s.seen, ∀ i : Nat, f.marks = some ((i : Int) + 1) ∨ f.removed = some ((i : Int) + 1) →
    (messageAt s.journal i).isSome → i < n
  hidden : ∀ i : Nat, i < n → (messageAt s.journal i).isSome → Hidden s.seen (i + 1) →
    s.mdirc.slot (i + 1) = none
  message : ∀ (i : Nat) h, messageAt s.journal i = some h → i < n → ¬ Hidden s.seen (i + 1) →
    s.mdirc.slot (i + 1) = some (h, ∑ j ∈ Finset.Ico (i + 1) n, marksAt s.journal (i + 1) j +
      (s.seen.map (fileMark (i + 1))).sum)
  later : ∀ i : Nat, n ≤ i → s.mdirc.slot (i + 1) = none
  -- what is held in excess is about to be removed
  stale : ∀ i : Nat, messageAt s.journal i = none → s.mdirc.slot (i + 1) ≠ none →
    ∃ (j : Nat) (h : Header), n ≤ j ∧ s.journal[j]? = some (some (.rem, h)) ∧ headerTarget h = .ok (i + 1)
  transient : ∀ f ∈ s.seen, ∀ h, f.added = some h → IsMessage h → s.mdirc.slot (-f.version) = some (h, 0)
  former : ∀ v ≤ 0, s.mdirc.slot v ≠ none →
    (∃ f ∈ s.seen, ∃ h, f.added = some h ∧ IsMessage h ∧ v = -f.version) ∨
      ∃ (j : Nat) (h : Header), n ≤ j ∧ s.journal[j]? = some (some (.add, h)) ∧ localId h = some (-v) ∧
        -v ≤ s.mdirc.cursor.lastListedUnsync
  stray : ∀ (j : Nat) (h : Header) (v : Int), n ≤ j → s.journal[j]? = some (some (.add, h)) →
    markTarget h = some v → v ≤ 0 → s.mdirc.slot v = none

/-- What was in `.tmp` and is still to be listed in the journal is not in `.tmp` any more. -/
def Refresh.Tied (s : Refresh) (n : Nat) : Prop :=
  ∀ (j : Nat) (h : Header) (l : Int), n ≤ j → s.journal[j]? = some (some (.add, h)) → localId h = some l →
    ∀ f ∈ s.seen, f.version ≠ l

/-! ## An update -/

section Update

variable {s : Refresh} {n : Nat}

omit [Host] in
theorem messageAt_eq_some {J : Patches} {i : Nat} {h : Header} :
    messageAt J i = some h ↔ J[i]? = some (some (.add, h)) ∧ IsMessage h := by
  unfold messageAt
  split
  · next header hget =>
    rw [Option.ite_none_right_eq_some, hget]
    constructor
    · rintro ⟨hmsg, ⟨⟩⟩
      exact ⟨rfl, hmsg⟩
    · rintro ⟨⟨⟩, hmsg⟩
      exact ⟨hmsg, rfl⟩
  · next hne =>
    constructor
    · intro hcontra
      cases hcontra
    · rintro ⟨hget, -⟩
      exact absurd hget (hne h)

omit [Host] in
/-- The journals add no message before the cursor. -/
theorem putVersions_journalCalls_gt {cursor : MdirCursor} {v w : Int} {J : Patches}
    (h : w ∈ putVersions (journalCalls cursor v J)) : v ≤ w := by
  rcases mem_putVersions.1 h with ⟨header, hput, -⟩
  rcases put_mem_journalCalls.1 hput with ⟨i, -, rfl⟩
  omega

omit [Host] in
/-- The calls before and after the one for a patch that is added. -/
theorem journalCalls_split (cursor : MdirCursor) {J : Patches} {n i : Nat} (hle : n ≤ i) {h : Header}
    (hget : J[i]? = some (some (.add, h))) :
    ∃ before, journalCalls cursor (n + 1) (J.drop n) =
      before ++ .put h (i + 1) :: journalCalls cursor ((i + 1 : Nat) + 1) (J.drop (i + 1)) := by
  rcases List.getElem?_eq_some_iff.1 hget with ⟨hlt, hi⟩
  have hdrop : J.drop n = (J.drop n).take (i - n) ++ some (.add, h) :: J.drop (i + 1) := by
    rw [← hi, ← List.drop_eq_getElem_cons hlt]
    have hsplit := List.take_append_drop (i - n) (J.drop n)
    rw [List.drop_drop, Nat.add_sub_cancel' hle] at hsplit
    exact hsplit.symm
  have hlen : ((J.drop n).take (i - n)).length = i - n := by
    rw [List.length_take, List.length_drop]
    omega
  have hversion : (n : Int) + 1 + ((i - n : Nat) : Int) = i + 1 := by omega
  rw [hdrop, journalCalls_append, hlen, hversion, journalCalls, listEntry_add, ← List.append_assoc,
    ← List.append_assoc, List.append_assoc _ [_]]
  exact ⟨_, rfl⟩

/-- The journals remove what is no message, or what was a message of `.tmp`. -/
theorem Refresh.Sound.rem_journal (h : s.Sound) {cursor : MdirCursor} {v w : Int} {k : Nat}
    (hrem : Callback.rem w ∈ journalCalls cursor v (s.journal.drop k)) :
    (∃ t : Nat, w = t + 1 ∧ messageAt s.journal t = none) ∨
      ∃ (j : Nat) (header : Header) (l : Int), k ≤ j ∧ s.journal[j]? = some (some (.add, header)) ∧
        localId header = some l ∧ 1 ≤ l ∧ w = -l := by
  rcases rem_mem_journalCalls.1 hrem with ⟨i, header, ⟨hget, htarget⟩ | ⟨hget, l, hlocal, -, rfl⟩⟩
  · rw [List.getElem?_drop] at hget
    rcases h.dead _ _ hget with ⟨t, ht, -, hnone⟩
    rw [ht, Except.ok.injEq] at htarget
    exact .inl ⟨t, htarget.symm, hnone⟩
  · rw [List.getElem?_drop] at hget
    exact .inr ⟨k + i, header, l, by omega, hget, hlocal, h.locals _ _ _ hget hlocal, rfl⟩

theorem Refresh.Sound.rem_journal_not_message (h : s.Sound) {cursor : MdirCursor} {v : Int} {k i : Nat}
    (hmsg : (messageAt s.journal i).isSome) :
    Callback.rem (i + 1) ∉ journalCalls cursor v (s.journal.drop k) := by
  intro hrem
  rcases h.rem_journal hrem with ⟨t, ht, hnone⟩ | ⟨-, -, l, -, -, -, hl, hv⟩
  · have hti : t = i := by omega
    rw [hti] at hnone
    simp [hnone] at hmsg
  · omega

/-- The slots once the journals are listed. -/
theorem Refresh.Tracks.journal (h : s.Tracks n) (hs : s.Sound) (hties : s.Tied n) :
    Shows s.journal s.seen fun v =>
      (journalCalls s.mdirc.cursor (n + 1) (s.journal.drop n)).foldl (slotStep v) (s.mdirc.slot v) := by
  obtain ⟨calls, hcalls⟩ : ∃ calls, calls = journalCalls s.mdirc.cursor (n + 1) (s.journal.drop n) := ⟨_, rfl⟩
  have hmarks : ∀ v, marksMade v calls = ∑ j ∈ Finset.Ico n s.journal.length, marksAt s.journal v j := by
    intro v
    rw [hcalls]
    exact marksMade_journalCalls s.mdirc.cursor s.journal v h.le
  have hput : ∀ v ≤ (n : Int), v ∉ putVersions calls := by
    intro v hv hmem
    rw [hcalls] at hmem
    have := putVersions_journalCalls_gt hmem
    omega
  have hrem : ∀ i : Nat, (messageAt s.journal i).isSome → Callback.rem (i + 1) ∉ calls := by
    rw [hcalls]
    exact fun i hmsg => hs.rem_journal_not_message hmsg
  rw [← hcalls]
  -- a message is held, or it is added and marked
  have hmessage : ∀ (i : Nat) header, messageAt s.journal i = some header → ¬ Hidden s.seen (i + 1) →
      calls.foldl (slotStep (i + 1)) (s.mdirc.slot (i + 1)) =
        some (header, ∑ j ∈ Finset.Ico (i + 1) s.journal.length, marksAt s.journal (i + 1) j +
          (s.seen.map (fileMark (i + 1))).sum) := by
    intro i header hmsg hhidden
    have hsome : (messageAt s.journal i).isSome := by rw [hmsg]; rfl
    rcases lt_or_ge i n with hlt | hge
    · rw [slot_foldl_marks (hput _ (by omega)) (hrem i hsome), h.message i header hmsg hlt hhidden, hmarks,
        Option.map_some, add_right_comm, Finset.sum_Ico_consecutive _ (by omega) h.le]
    · have hget := (messageAt_eq_some.1 hmsg).1
      have hlt := (List.getElem?_eq_some_iff.1 hget).1
      rcases journalCalls_split s.mdirc.cursor hge hget with ⟨before, hsplit⟩
      have hnone : (s.seen.map (fileMark (i + 1))).sum = 0 := by
        refine List.sum_eq_zero fun x hx => ?_
        rcases List.mem_map.1 hx with ⟨f, hf, rfl⟩
        refine if_neg fun hmarks => ?_
        have := h.early f hf i (.inl hmarks) hsome
        omega
      rw [hcalls, hsplit, hnone, add_zero, ← marksMade_journalCalls s.mdirc.cursor s.journal _ (by omega)]
      refine slot_foldl_put (messageAt_eq_some.1 hmsg).2 (fun hmem => ?_) (hs.rem_journal_not_message hsome) _
      have := putVersions_journalCalls_gt hmem
      omega
  have hother : ∀ i : Nat, messageAt s.journal i = none →
      calls.foldl (slotStep (i + 1)) (s.mdirc.slot (i + 1)) = none := by
    intro i hmsg
    have hput' : ((i : Int) + 1) ∉ putVersions calls := by
      intro hmem
      rcases mem_putVersions.1 hmem with ⟨header, hmem', hmessage⟩
      rw [hcalls] at hmem'
      rcases put_mem_journalCalls.1 hmem' with ⟨k, hget, hk⟩
      have hki : n + k = i := by omega
      rw [List.getElem?_drop, hki] at hget
      rw [messageAt_eq_some.2 ⟨hget, hmessage⟩] at hmsg
      cases hmsg
    by_cases hslot : s.mdirc.slot (i + 1) = none
    · rw [hslot]
      exact slot_foldl_none hput'
    · rcases h.stale i hmsg hslot with ⟨j, header, hj, hget, htarget⟩
      refine slot_foldl_rem hput' ?_ _
      rw [hcalls]
      refine rem_mem_journalCalls.2 ⟨j - n, header, .inl ⟨?_, htarget⟩⟩
      rw [List.getElem?_drop, Nat.add_sub_cancel' hj]
      exact hget
  -- no patch that is listed now marks a message of `.tmp`
  have hstray : ∀ v ≤ 0, s.mdirc.slot v ≠ none → marksMade v calls = 0 := by
    intro v hv hslot
    rw [hmarks]
    refine Finset.sum_eq_zero fun j hj => marksAt_eq_zero fun header hget hmark => ?_
    exact hslot (h.stray j header v (Finset.mem_Ico.1 hj).1 hget hmark hv)
  refine ⟨hmessage, ?_, hother, ?_, ?_⟩
  · intro i hhidden
    cases hmsg : messageAt s.journal i with
    | none => exact hother i hmsg
    | some header =>
        have hsome : (messageAt s.journal i).isSome := by rw [hmsg]; rfl
        rcases hhidden with ⟨f, hf, hremoved⟩
        have hlt := h.early f hf i (.inr hremoved) hsome
        rw [h.hidden i hlt hsome ⟨f, hf, hremoved⟩]
        exact slot_foldl_none (hput _ (by omega))
  · intro f hf header hadded hmsg
    have hpos := hs.numbers f (List.mem_append_left _ hf)
    have hslot := h.transient f hf header hadded hmsg
    have hkeep : Callback.rem (-f.version) ∉ calls := by
      rw [hcalls]
      intro hmem
      rcases hs.rem_journal hmem with ⟨t, ht, -⟩ | ⟨j, header', l, hj, hget, hlocal, -, hl⟩
      · omega
      · exact hties j header' l hj hget hlocal f hf (Int.neg_inj.1 hl)
    rw [slot_foldl_marks (hput _ (by omega)) hkeep, hstray _ (by omega) (by rw [hslot]; simp), hslot]
    rfl
  · intro v hv hfiles
    by_cases hslot : s.mdirc.slot v = none
    · rw [hslot]
      exact slot_foldl_none (hput _ (by omega))
    · rcases h.former v hv hslot with ⟨f, hf, header, hadded, hmsg, rfl⟩ | ⟨j, header, hj, hget, hlocal, hle⟩
      · exact absurd rfl (hfiles f hf header hadded hmsg)
      · refine slot_foldl_rem (hput _ (by omega)) ?_ _
        rw [hcalls]
        refine rem_mem_journalCalls.2 ⟨j - n, header, .inr ⟨?_, -v, hlocal, hle, (Int.neg_neg v).symm⟩⟩
        rw [List.getElem?_drop, Nat.add_sub_cancel' hj]
        exact hget

theorem putVersions_fileCalls_neg {files : List TmpFile} (hpos : ∀ f ∈ files, 1 ≤ f.version) {v : Int}
    (h : v ∈ putVersions (fileCalls files)) : v < 0 := by
  rcases mem_putVersions.1 h with ⟨header, hput, -⟩
  rcases put_mem_fileCalls.1 hput with ⟨f, hf, -, rfl⟩
  have := hpos f hf
  omega

/-- The call of a file that adds a message, between those of the others. -/
theorem fileCalls_split {files : List TmpFile} {f : TmpFile} (hf : f ∈ files) {h : Header}
    (hadded : f.added = some h) :
    ∃ a b, files = a ++ f :: b ∧ fileCalls files = fileCalls a ++ .put h (-f.version) :: fileCalls b := by
  rcases List.append_of_mem hf with ⟨a, b, rfl⟩
  have hremoved : f.removed = none := by
    rw [TmpFile.added] at hadded
    rw [TmpFile.removed]
    cases haction : f.action with
    | add => rfl
    | rem =>
        rw [haction] at hadded
        cases hadded
  have hcalled : f.called true true = [.put h (-f.version)] := by
    rw [TmpFile.called_eq, hadded, hremoved]
    rfl
  refine ⟨a, b, rfl, ?_⟩
  rw [fileCalls, List.flatMap_append, List.flatMap_cons, hcalled]
  rfl

/-- The slots once the files of `.tmp` are listed too. -/
theorem Shows.list {slot : Int → LibMdirc.Slot} (h : Shows s.journal s.seen slot) (hs : s.Sound)
    (ho : s.Orderly) {files : List TmpFile} (hfiles : files.Perm s.fresh) :
    Shows s.journal s.files fun v => (fileCalls files).foldl (slotStep v) (slot v) := by
  have hmem : ∀ {f}, f ∈ files → f ∈ s.files := fun hf => List.mem_append_right _ (hfiles.mem_iff.1 hf)
  have hput : ∀ v ≥ (0 : Int), v ∉ putVersions (fileCalls files) := by
    intro v hv hmem'
    have := putVersions_fileCalls_neg (fun f hf => hs.numbers f (hmem hf)) hmem'
    omega
  have hrem : ∀ v ≤ (0 : Int), ∀ {l : List TmpFile}, (∀ f ∈ l, f ∈ s.files) → Callback.rem v ∉ fileCalls l := by
    intro v hv l hl hmem'
    rcases rem_mem_fileCalls.1 hmem' with ⟨f, hf, hremoved⟩
    have := hs.removals f (hl f hf) v hremoved
    omega
  have hsum : ∀ v, (files.map (fileMark v)).sum = (s.fresh.map (fileMark v)).sum :=
    fun v => (hfiles.map _).sum_eq
  -- the files do not mark each other
  have hsettled : ∀ f ∈ s.files, ∀ header, f.added = some header → IsMessage header → ∀ {l : List TmpFile},
      (∀ g ∈ l, g ∈ s.files) → marksMade (-f.version) (fileCalls l) = 0 := by
    intro f hf header hadded hmsg l hl
    rw [marksMade_fileCalls]
    refine List.sum_eq_zero fun x hx => ?_
    rcases List.mem_map.1 hx with ⟨g, hg, rfl⟩
    exact if_neg (ho.settled f hf g (hl g hg) header hadded hmsg)
  constructor
  · intro i header hmsg hhidden
    have hseen : ¬ Hidden s.seen (i + 1) := fun ⟨f, hf, hremoved⟩ =>
      hhidden ⟨f, List.mem_append_left _ hf, hremoved⟩
    have hkeep : Callback.rem (i + 1) ∉ fileCalls files := fun hmem' => by
      rcases rem_mem_fileCalls.1 hmem' with ⟨f, hf, hremoved⟩
      exact hhidden ⟨f, hmem hf, hremoved⟩
    rw [slot_foldl_marks (hput _ (by omega)) hkeep, h.message i header hmsg hseen, marksMade_fileCalls, hsum,
      Option.map_some, add_assoc, Refresh.files, List.map_append, List.sum_append]
  · rintro i ⟨f, hf, hremoved⟩
    rcases List.mem_append.1 hf with hf | hf
    · rw [h.hidden i ⟨f, hf, hremoved⟩]
      exact slot_foldl_none (hput _ (by omega))
    · exact slot_foldl_rem (hput _ (by omega)) (rem_mem_fileCalls.2 ⟨f, hfiles.mem_iff.2 hf, hremoved⟩) _
  · intro i hmsg
    rw [h.other i hmsg]
    exact slot_foldl_none (hput _ (by omega))
  · intro f hf header hadded hmsg
    have hpos := hs.numbers f hf
    rcases List.mem_append.1 hf with hseen | hfresh
    · have hnew : -f.version ∉ putVersions (fileCalls files) := by
        intro hmem'
        rcases mem_putVersions.1 hmem' with ⟨header', hput', -⟩
        rcases put_mem_fileCalls.1 hput' with ⟨g, hg, -, hversion⟩
        have hdisj := (List.nodup_append.1 (List.map_append ▸ hs.distinct)).2.2
        refine hdisj f.version (List.mem_map_of_mem hseen) g.version ?_ (Int.neg_inj.1 hversion)
        exact List.mem_map_of_mem (hfiles.mem_iff.1 hg)
      rw [slot_foldl_marks hnew (hrem _ (by omega) fun g hg => hmem hg), h.transient f hseen header hadded hmsg,
        hsettled f hf header hadded hmsg fun g hg => hmem hg]
      rfl
    · rcases fileCalls_split (hfiles.mem_iff.2 hfresh) hadded with ⟨a, b, heq, hsplit⟩
      have hb : ∀ g ∈ b, g ∈ s.files := by
        intro g hg
        apply hmem
        rw [heq]
        exact List.mem_append_right _ (List.mem_cons_of_mem _ hg)
      have hafter : -f.version ∉ putVersions (fileCalls b) := by
        have hnodup : (files.map TmpFile.version).Nodup := by
          rw [(hfiles.map _).nodup_iff]
          exact (List.nodup_append.1 (List.map_append ▸ hs.distinct)).2.1
        have hnodup' := nodup_putVersions_fileCalls hnodup
        rw [hsplit, putVersions_append, putVersions_cons] at hnodup'
        have hdisj := (List.nodup_append.1 (List.nodup_append.1 hnodup').2.1).2.2
        intro hmem'
        refine hdisj _ (mem_putVersions.2 ⟨header, List.mem_singleton_self _, hmsg⟩) _ hmem' rfl
      rw [hsplit, slot_foldl_put hmsg hafter (hrem _ (by omega) hb),
        hsettled f hf header hadded hmsg hb]
  · intro v hv hnone
    have hput' : v ∉ putVersions (fileCalls files) := by
      intro hmem'
      rcases mem_putVersions.1 hmem' with ⟨header, hput', hmsg⟩
      rcases put_mem_fileCalls.1 hput' with ⟨f, hf, hadded, rfl⟩
      exact hnone f (hmem hf) header hadded hmsg rfl
    rw [h.gone v hv fun f hf => hnone f (List.mem_append_left _ hf)]
    exact slot_foldl_none hput'

/-- What an update adds was not held. -/
theorem Refresh.Tracks.putVersions_calls (h : s.Tracks n) (hs : s.Sound) (ho : s.Orderly) {files : List TmpFile}
    (hfiles : files.Perm s.fresh) {calls : List Callback}
    (hcalls : calls = journalCalls s.mdirc.cursor (n + 1) (s.journal.drop n) ++ fileCalls files) :
    (putVersions calls).Nodup ∧ ∀ w ∈ putVersions calls, s.mdirc.slot w = none := by
  have hpos : ∀ f ∈ files, 1 ≤ f.version := fun f hf =>
    hs.numbers f (List.mem_append_right _ (hfiles.mem_iff.1 hf))
  have hnodup : (files.map TmpFile.version).Nodup := by
    rw [(hfiles.map _).nodup_iff]
    exact (List.nodup_append.1 (List.map_append ▸ hs.distinct)).2.1
  rw [hcalls, putVersions_append]
  constructor
  · refine List.nodup_append.2 ⟨nodup_putVersions_journalCalls _ _ _, nodup_putVersions_fileCalls hnodup, ?_⟩
    intro v hv w hw hvw
    have := putVersions_journalCalls_gt hv
    have := putVersions_fileCalls_neg hpos hw
    omega
  · intro w hw
    rcases List.mem_append.1 hw with hw | hw
    · have hge := putVersions_journalCalls_gt hw
      obtain ⟨i, rfl⟩ : ∃ i : Nat, w = i + 1 := ⟨(w - 1).toNat, by omega⟩
      exact h.later i (by omega)
    · rcases mem_putVersions.1 hw with ⟨header, hput, -⟩
      rcases put_mem_fileCalls.1 hput with ⟨f, hf, -, rfl⟩
      have hlt := ho.increasing f (hfiles.mem_iff.1 hf)
      have := hpos f hf
      by_contra hslot
      rcases h.former _ (by omega) hslot with ⟨g, hg, -, -, -, hversion⟩ | ⟨-, -, -, -, -, hle⟩
      · have := h.past g hg
        omega
      · omega

/-- An update leaves what the directory shows, and the next ones can go on from there. -/
theorem Refresh.Tracks.update {maxJnlSize : Nat} (hmax : maxJnlSize < 2 ^ 32) (h : s.Tracks n) (hs : s.Sound)
    (hties : s.Tied n) (ho : s.Orderly) {m : Mdir} {order : List Bytes} {tmp : Except Nat (List (Bytes × Option Bytes))}
    (hg : Given maxJnlSize s m order tmp) (err : Except Nat (List (Bytes × Option Bytes))) :
    Shows s.journal s.files (s.mdirc.mdircUpdate m order tmp err).slot ∧
      ∃ n', (s.update m order tmp err).Tracks n' ∧ (s.update m order tmp err).Tied n' := by
  -- the update is a fold over the versions of the journal and those of the new files
  rcases hg.mdircUpdate hmax h.sync h.le h.past ho err with ⟨files, n', u', hfiles, heq, hle, hafter, hlow, hhigh⟩
  rcases h.putVersions_calls hs ho hfiles rfl with ⟨hnodup, hfresh⟩
  rcases LibMdirc.slots_foldl h.tidy hnodup hfresh with ⟨htidy, hslots⟩
  have hshows : Shows s.journal s.files (s.mdirc.mdircUpdate m order tmp err).slot := by
    have hlist := (h.journal hs hties).list hs ho hfiles
    convert hlist using 1
    funext v
    rw [heq]
    refine (hslots v).trans ?_
    rw [List.foldl_append]
  -- what is past the cursor is no message
  have hnone : ∀ i, n' ≤ i → messageAt s.journal i = none := by
    intro i hi
    cases hmsg : messageAt s.journal i with
    | none => rfl
    | some header => exact absurd (messageAt_eq_some.1 hmsg).1 (hafter i _ hi)
  have hmdirc : (s.update m order tmp err).mdirc = s.mdirc.mdircUpdate m order tmp err := rfl
  have hunsync : (s.mdirc.mdircUpdate m order tmp err).cursor.lastListedUnsync = u' := by rw [heq]
  refine ⟨hshows, n', ?_, fun j header l hj hget => absurd hget (hafter j _ hj)⟩
  constructor
  · rw [hmdirc, heq]
    exact ⟨htidy.nodup, htidy.count⟩
  · rw [hmdirc, heq]
  · rw [hmdirc, hunsync]
    exact h.unsync.trans hlow
  · exact hle
  · intro f hf
    rw [hmdirc, hunsync]
    rcases List.mem_append.1 hf with hseen | hfresh
    · exact (h.past f hseen).trans hlow
    · exact hhigh f hfresh
  · intro f hf
    rcases List.mem_append.1 hf with hseen | hfresh
    · exact h.read f hseen
    · exact ho.readable f hfresh
  · intro f _ i _ hsome
    by_contra hge
    have hsome' : (messageAt s.journal i).isSome := hsome
    rw [hnone i (not_lt.1 hge)] at hsome'
    cases hsome'
  · intro i _ _ hhidden
    exact hshows.hidden i hhidden
  · intro i header hmsg hlt hhidden
    have hrest : ∑ j ∈ Finset.Ico n' s.journal.length, marksAt s.journal (i + 1) j = 0 :=
      Finset.sum_eq_zero fun j hj => marksAt_eq_zero fun header' hget =>
        absurd hget (hafter j _ (Finset.mem_Ico.1 hj).1)
    have hslot := hshows.message i header hmsg hhidden
    rw [← Finset.sum_Ico_consecutive _ (show i + 1 ≤ n' by omega) hle, hrest, add_zero] at hslot
    exact hslot
  · intro i hi
    exact hshows.other i (hnone i hi)
  · intro i hmsg hslot
    exact absurd (hshows.other i hmsg) hslot
  · exact hshows.transient
  · intro v hv hslot
    by_contra hcontra
    push Not at hcontra
    refine hslot (hshows.gone v hv fun f hf header hadded hmsg hversion => ?_)
    exact hcontra.1 f hf header hadded hmsg hversion.symm
  · intro j header v hj hget
    exact absurd hget (hafter j _ hj)

end Update

end Files

end Scambio
