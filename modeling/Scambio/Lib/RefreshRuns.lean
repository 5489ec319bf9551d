import Scambio.Lib.Agreement

/-!
# RefreshRuns — updates at any points of a history (`lib/mdirc.c`)

Each change of a directory keeps `Sound`, `Tracks` and `Tied`, if the mdirc can follow it.  Then an update
of the mdirc agrees with the one update of a new mdirc.
-/

namespace Scambio

open Library

/-! ## Patches that are added and deleted -/

section Patches

variable {J : Patches} {e : Option (Action × Header)} {i t : Nat} {h : Header} {v : Int}

theorem getElem?_snoc {x : Option (Action × Header)} :
    (J ++ [e])[i]? = some x ↔ J[i]? = some x ∨ (i = J.length ∧ e = x) := by
  rcases lt_trichotomy i J.length with hlt | rfl | hgt
  · rw [List.getElem?_append_left hlt]
    constructor
    · exact .inl
    · rintro (hget | ⟨rfl, -⟩)
      · exact hget
      · exact absurd hlt (lt_irrefl _)
  · rw [List.getElem?_concat_length, List.getElem?_eq_none le_rfl]
    simp
  · rw [List.getElem?_eq_none (by simp; omega), List.getElem?_eq_none hgt.le]
    simp
    omega

theorem messageAt_snoc :
    messageAt (J ++ [e]) i = some h ↔ messageAt J i = some h ∨ (i = J.length ∧ e = some (.add, h) ∧ IsMessage h) := by
  rw [messageAt_eq_some, messageAt_eq_some, getElem?_snoc, or_and_right, and_assoc]

theorem messageAt_snoc_isSome : (messageAt (J ++ [e]) i).isSome ↔
    (messageAt J i).isSome ∨ (i = J.length ∧ ∃ h, e = some (.add, h) ∧ IsMessage h) := by
  simp only [Option.isSome_iff_exists, messageAt_snoc]
  constructor
  · rintro ⟨h, hmsg | ⟨hi, he⟩⟩
    · exact .inl ⟨h, hmsg⟩
    · exact .inr ⟨hi, h, he⟩
  · rintro (⟨h, hmsg⟩ | ⟨hi, h, he⟩)
    · exact ⟨h, .inl hmsg⟩
    · exact ⟨h, .inr ⟨hi, he⟩⟩

theorem messageAt_snoc_of_lt (hlt : i < J.length) : messageAt (J ++ [e]) i = messageAt J i := by
  rw [messageAt, List.getElem?_append_left hlt, messageAt]

theorem marksAt_snoc (hlt : i < J.length) : marksAt (J ++ [e]) v i = marksAt J v i := by
  rw [marksAt, List.getElem?_append_left hlt, marksAt]

theorem getElem?_deleted {x : Action × Header} :
    (J.set t none)[i]? = some (some x) ↔ i ≠ t ∧ J[i]? = some (some x) := by
  rw [List.getElem?_set]
  by_cases hit : t = i
  · rw [if_pos hit]
    constructor
    · intro hget
      split at hget <;> cases hget
    · rintro ⟨hne, -⟩
      exact absurd hit.symm hne
  · rw [if_neg hit]
    exact ⟨fun hget => ⟨Ne.symm hit, hget⟩, fun hget => hget.2⟩

theorem messageAt_deleted : messageAt (J.set t none) i = some h ↔ i ≠ t ∧ messageAt J i = some h := by
  rw [messageAt_eq_some, messageAt_eq_some, getElem?_deleted, and_assoc]

theorem messageAt_deleted_isSome :
    (messageAt (J.set t none) i).isSome ↔ i ≠ t ∧ (messageAt J i).isSome := by
  simp only [Option.isSome_iff_exists, messageAt_deleted, exists_and_left]

theorem messageAt_deleted_of_none (hnone : messageAt J i = none) : messageAt (J.set t none) i = none := by
  rw [← Option.not_isSome_iff_eq_none, messageAt_deleted_isSome, hnone]
  simp

theorem marksAt_deleted (hit : i ≠ t) : marksAt (J.set t none) v i = marksAt J v i := by
  rw [marksAt, List.getElem?_set_ne (Ne.symm hit), marksAt]

theorem marksAt_deleted_self : marksAt (J.set t none) v t = 0 :=
  marksAt_eq_zero fun _ hget => absurd rfl (getElem?_deleted.1 hget).1

end Patches

/-! ## The directory -/

/-- What is dropped adds nothing. -/
theorem sum_map_filter_of {α : Type} {l : List α} {p : α → Bool} {f : α → Multiset Int}
    (h : ∀ a ∈ l, p a = false → f a = 0) : ((l.filter p).map f).sum = (l.map f).sum := by
  induction l with
  | nil => rfl
  | cons a l ih =>
      have hl := ih fun b hb => h b (List.mem_cons_of_mem a hb)
      rw [List.map_cons, List.sum_cons]
      cases hp : p a with
      | true => rw [List.filter_cons_of_pos hp, List.map_cons, List.sum_cons, hl]
      | false => rw [List.filter_cons_of_neg (by simp [hp]), hl, h a List.mem_cons_self hp, zero_add]

section Changes

variable [Host] {s : Refresh} {n : Nat}

theorem mem_sum_fileMark {files : List TmpFile} {f : TmpFile} {v : Int} (hf : f ∈ files)
    (hmark : f.marks = some v) : -f.version ∈ (files.map (fileMark v)).sum := by
  rcases List.append_of_mem hf with ⟨a, b, rfl⟩
  rw [List.map_append, List.map_cons, List.sum_append, List.sum_cons, fileMark, if_pos hmark]
  exact Multiset.mem_add.2 (.inr (Multiset.mem_add.2 (.inl (Multiset.mem_singleton_self _))))

namespace Refresh

/-- Some files go. -/
def keep (s : Refresh) (p : TmpFile → Bool) : Refresh :=
  { s with seen := s.seen.filter p, fresh := s.fresh.filter p }

omit [Host] in
theorem files_keep (s : Refresh) (p : TmpFile → Bool) : (s.keep p).files = s.files.filter p :=
  (List.filter_append _ _).symm

theorem Sound.keep (h : s.Sound) (p : TmpFile → Bool) : (s.keep p).Sound := by
  have hsub : ∀ f ∈ (s.keep p).files, f ∈ s.files := by
    intro f hf
    rw [files_keep] at hf
    exact List.mem_of_mem_filter hf
  refine ⟨fun f hf => h.numbers f (hsub f hf), ?_, fun f hf => h.removals f (hsub f hf), h.dead, h.locals⟩
  rw [files_keep]
  exact h.distinct.sublist (List.filter_sublist.map _)

theorem Sound.append (h : s.Sound) {e : Option (Action × Header)}
    (hlocal : ∀ header l, e = some (.add, header) → localId header = some l → 1 ≤ l)
    (hrem : ∀ header, e = some (.rem, header) → ∃ t : Nat, headerTarget header = .ok (t + 1) ∧
      t < s.journal.length ∧ messageAt s.journal t = none) : (s.append e).Sound := by
  have hlen : (s.append e).journal.length = s.journal.length + 1 := by simp [Refresh.append]
  refine ⟨h.numbers, h.distinct, ?_, ?_, ?_⟩
  · intro f hf v hv
    have := h.removals f hf v hv
    rw [hlen]
    push_cast
    omega
  · intro i header hget
    have htarget : ∃ t : Nat, headerTarget header = .ok (t + 1) ∧ t < s.journal.length ∧
        messageAt s.journal t = none := by
      rcases getElem?_snoc.1 hget with hget | ⟨-, he⟩
      · exact h.dead i header hget
      · exact hrem header he
    rcases htarget with ⟨t, ht, hlt, hnone⟩
    refine ⟨t, ht, by omega, ?_⟩
    exact (messageAt_snoc_of_lt hlt).trans hnone
  · intro i header l hget hl
    rcases getElem?_snoc.1 hget with hget | ⟨-, he⟩
    · exact h.locals i header l hget hl
    · exact hlocal header l he hl

theorem Sound.delete (h : s.Sound) (t : Nat) : (s.delete t).Sound := by
  have hlen : (s.delete t).journal.length = s.journal.length := List.length_set
  refine ⟨h.numbers, h.distinct, ?_, ?_, ?_⟩
  · rw [hlen]
    exact h.removals
  · intro i header hget
    rcases h.dead i header (getElem?_deleted.1 hget).2 with ⟨t', ht', hlt, hnone⟩
    exact ⟨t', ht', hlen ▸ hlt, messageAt_deleted_of_none hnone⟩
  · intro i header l hget
    exact h.locals i header l (getElem?_deleted.1 hget).2

theorem Sound.appear (h : s.Sound) {f : TmpFile} (hmay : s.May (.appear f)) : (s.change (.appear f)).Sound := by
  rcases hmay with ⟨hpos, hnew, hremoved⟩
  have hfiles : (s.change (.appear f)).files = s.files ++ [f] := (List.append_assoc _ _ _).symm
  have hmem : ∀ g ∈ (s.change (.appear f)).files, g ∈ s.files ∨ g = f := by
    intro g hg
    rw [hfiles] at hg
    simpa using hg
  refine ⟨?_, ?_, ?_, h.dead, h.locals⟩
  · intro g hg
    rcases hmem g hg with hg | rfl
    · exact h.numbers g hg
    · exact hpos
  · rw [hfiles, List.map_append]
    refine h.distinct.append (List.nodup_singleton _) fun v hv hf => ?_
    rcases List.mem_map.1 hv with ⟨g, hg, rfl⟩
    exact hnew g hg (List.mem_singleton.1 hf)
  · intro g hg
    rcases hmem g hg with hg | rfl
    · exact h.removals g hg
    · exact hremoved

/-! ## The mdirc -/

theorem Tracks.append (h : s.Tracks n) (hs : s.Sound) {e : Option (Action × Header)}
    (htimely : ∀ header, e = some (.add, header) → s.Timely header) : (s.append e).Tracks n := by
  have hkeep : ∀ {i : Nat}, i < n → (messageAt (s.append e).journal i).isSome →
      (messageAt s.journal i).isSome := by
    intro i hlt hsome
    have hi : i < s.journal.length := hlt.trans_le h.le
    have heq : messageAt (s.append e).journal i = messageAt s.journal i := messageAt_snoc_of_lt hi
    rwa [heq] at hsome
  have hgrow : ∀ {j : Nat} {x : Action × Header}, s.journal[j]? = some (some x) →
      (s.append e).journal[j]? = some (some x) := fun hget => getElem?_snoc.2 (.inl hget)
  constructor
  · exact h.tidy
  · exact h.sync
  · exact h.unsync
  · have hlen : (s.append e).journal.length = s.journal.length + 1 := by simp [Refresh.append]
    have := h.le
    omega
  · exact h.past
  · exact h.read
  · intro f hf i hi hsome
    rcases messageAt_snoc_isSome.1 hsome with hsome | ⟨rfl, header, he, hmsg⟩
    · exact h.early f hf i hi hsome
    · -- the new message was neither marked nor removed in advance
      rcases hi with hmarks | hremoved
      · exact absurd hmarks ((htimely header he).1 hmsg f hf)
      · have := hs.removals f (List.mem_append_left _ hf) _ hremoved
        omega
  · intro i hlt hsome
    exact h.hidden i hlt (hkeep hlt hsome)
  · intro i header hmsg hlt hhidden
    have hmsg' : messageAt s.journal i = some header := by
      rw [← hmsg]
      exact (messageAt_snoc_of_lt (hlt.trans_le h.le)).symm
    have hsum : ∑ j ∈ Finset.Ico (i + 1) n, marksAt (s.append e).journal (i + 1) j =
        ∑ j ∈ Finset.Ico (i + 1) n, marksAt s.journal (i + 1) j :=
      Finset.sum_congr rfl fun j hj => marksAt_snoc ((Finset.mem_Ico.1 hj).2.trans_le h.le)
    rw [hsum]
    exact h.message i header hmsg' hlt hhidden
  · exact h.later
  · intro i hmsg hslot
    have hmsg' : messageAt s.journal i = none := by
      rw [← Option.not_isSome_iff_eq_none] at hmsg ⊢
      exact fun hsome => hmsg (messageAt_snoc_isSome.2 (.inl hsome))
    rcases h.stale i hmsg' hslot with ⟨j, header, hj, hget, htarget⟩
    exact ⟨j, header, hj, hgrow hget, htarget⟩
  · exact h.transient
  · intro v hv hslot
    rcases h.former v hv hslot with hseen | ⟨j, header, hj, hget, hlocal⟩
    · exact .inl hseen
    · exact .inr ⟨j, header, hj, hgrow hget, hlocal⟩
  · intro j header v hj hget hmark hv
    rcases getElem?_snoc.1 hget with hget | ⟨-, he⟩
    · exact h.stray j header v hj hget hmark hv
    · exact (htimely header he).2 v hv hmark

/-- A patch is deleted, once the removal of it has come. -/
theorem Tracks.delete (h : s.Tracks n) {t : Nat} (hrem : ∀ header, s.journal[t]? ≠ some (some (.rem, header)))
    (hpending : ∃ (j : Nat) (header : Header), n ≤ j ∧ s.journal[j]? = some (some (.rem, header)) ∧
      headerTarget header = .ok (t + 1)) (huntied : s.Untied t) : (s.delete t).Tracks n := by
  have hkeep : ∀ {j : Nat} {header : Header}, s.journal[j]? = some (some (.rem, header)) →
      (s.delete t).journal[j]? = some (some (.rem, header)) := by
    intro j header hget
    refine getElem?_deleted.2 ⟨?_, hget⟩
    rintro rfl
    exact hrem header hget
  constructor
  · exact h.tidy
  · exact h.sync
  · exact h.unsync
  · exact h.le.trans_eq List.length_set.symm
  · exact h.past
  · exact h.read
  · intro f hf i hi hsome
    exact h.early f hf i hi (messageAt_deleted_isSome.1 hsome).2
  · intro i hlt hsome
    exact h.hidden i hlt (messageAt_deleted_isSome.1 hsome).2
  · intro i header hmsg hlt hhidden
    have hmsg' := (messageAt_deleted.1 hmsg).2
    have hslot := h.message i header hmsg' hlt hhidden
    -- the message is not held with that mark, so that it had not got it
    have hnone : t ∈ Finset.Ico (i + 1) n → marksAt s.journal (i + 1) t = 0 := by
      intro ht
      by_contra hne
      refine huntied.1 i _ (by rw [hmsg']; rfl) hslot ?_
      have hmem := marksAt_ne_zero hne
      push_cast at hmem
      exact Multiset.mem_add.2 (.inl (Multiset.mem_sum.2 ⟨t, ht, hmem⟩))
    have hsum : ∑ j ∈ Finset.Ico (i + 1) n, marksAt (s.delete t).journal (i + 1) j =
        ∑ j ∈ Finset.Ico (i + 1) n, marksAt s.journal (i + 1) j := by
      refine Finset.sum_congr rfl fun j hj => ?_
      by_cases hjt : j = t
      · subst hjt
        rw [hnone hj]
        exact marksAt_deleted_self
      · exact marksAt_deleted hjt
    rw [hsum]
    exact hslot
  · exact h.later
  · intro i hmsg hslot
    by_cases hit : i = t
    · subst hit
      rcases hpending with ⟨j, header, hj, hget, htarget⟩
      exact ⟨j, header, hj, hkeep hget, htarget⟩
    · have hmsg' : messageAt s.journal i = none := by
        rw [← Option.not_isSome_iff_eq_none] at hmsg ⊢
        exact fun hsome => hmsg (messageAt_deleted_isSome.2 ⟨hit, hsome⟩)
      rcases h.stale i hmsg' hslot with ⟨j, header, hj, hget, htarget⟩
      exact ⟨j, header, hj, hkeep hget, htarget⟩
  · exact h.transient
  · intro v hv hslot
    rcases h.former v hv hslot with hseen | ⟨j, header, hj, hget, hlocal, hle⟩
    · exact .inl hseen
    · refine .inr ⟨j, header, hj, getElem?_deleted.2 ⟨?_, hget⟩, hlocal, hle⟩
      rintro rfl
      have hnone := huntied.2 header (-v) hget hlocal
      rw [Int.neg_neg] at hnone
      exact hslot hnone
  · intro j header v hj hget
    exact h.stray j header v hj (getElem?_deleted.1 hget).2

/-- Files go, that held no message back, made no mark that is held, and whose messages are replaced. -/
theorem Tracks.keep (h : s.Tracks n) {p : TmpFile → Bool}
    (hremoved : ∀ f ∈ s.seen, p f = false → ∀ i : Nat, f.removed = some ((i : Int) + 1) →
      messageAt s.journal i = none)
    (hmarks : ∀ f ∈ s.seen, p f = false → f.marks = none ∨ s.Unmarked (-f.version))
    (hadded : ∀ f ∈ s.seen, p f = false → ∀ header, f.added = some header →
      ∃ (j : Nat) (header' : Header), n ≤ j ∧ s.journal[j]? = some (some (.add, header')) ∧
        localId header' = some f.version) : (s.keep p).Tracks n := by
  have hsub : ∀ {f}, f ∈ (s.keep p).seen → f ∈ s.seen := fun hf => List.mem_of_mem_filter hf
  constructor
  · exact h.tidy
  · exact h.sync
  · exact h.unsync
  · exact h.le
  · exact fun f hf => h.past f (hsub hf)
  · exact fun f hf => h.read f (hsub hf)
  · exact fun f hf => h.early f (hsub hf)
  · rintro i hlt hsome ⟨f, hf, hv⟩
    exact h.hidden i hlt hsome ⟨f, hsub hf, hv⟩
  · intro i header hmsg hlt hhidden
    have hmsg : messageAt s.journal i = some header := hmsg
    -- a removal that goes away was of no message of the journal
    have hhidden' : ¬ Hidden s.seen (i + 1) := by
      rintro ⟨f, hf, hv⟩
      cases hp : p f with
      | true => exact hhidden ⟨f, List.mem_filter.2 ⟨hf, hp⟩, hv⟩
      | false =>
          have hnone := hremoved f hf hp i hv
          rw [hnone] at hmsg
          cases hmsg
    have hslot := h.message i header hmsg hlt hhidden'
    -- no mark that counts goes away
    have hsum : ((s.seen.filter p).map (fileMark (i + 1))).sum = (s.seen.map (fileMark (i + 1))).sum := by
      refine sum_map_filter_of fun f hf hp => ?_
      refine if_neg fun hmark => ?_
      rcases hmarks f hf hp with hnone | hunmarked
      · rw [hnone] at hmark
        cases hmark
      · refine hunmarked i _ (by rw [hmsg]; rfl) hslot (Multiset.mem_add.2 (.inr ?_))
        exact mem_sum_fileMark hf hmark
    have hseen : (s.keep p).seen = s.seen.filter p := rfl
    rw [hseen, hsum]
    exact hslot
  · exact h.later
  · exact h.stale
  · exact fun f hf => h.transient f (hsub hf)
  · intro v hv hslot
    rcases h.former v hv hslot with ⟨f, hf, header, hheader, hmsg, rfl⟩ | hpending
    · cases hp : p f with
      | true => exact .inl ⟨f, List.mem_filter.2 ⟨hf, hp⟩, header, hheader, hmsg, rfl⟩
      | false =>
          rcases hadded f hf hp header hheader with ⟨j, header', hj, hget, hlocal⟩
          refine .inr ⟨j, header', hj, hget, ?_⟩
          rw [Int.neg_neg]
          exact ⟨hlocal, h.past f hf⟩
    · exact .inr hpending
  · exact h.stray

/-! ## Histories -/

/-- The directory is sound, and the mdirc tracks it from somewhere in the journal. -/
structure Inv (s : Refresh) : Prop where
  sound : s.Sound
  tracks : ∃ n, s.Tracks n ∧ s.Tied n

/-- A new mdirc has listed nothing. -/
theorem tracks_new (hmdirc : s.mdirc = .new) (hseen : s.seen = []) : s.Tracks 0 := by
  have hslot : ∀ v, s.mdirc.slot v = none := by
    intro v
    rw [hmdirc]
    rfl
  have hempty : ∀ {f}, f ∉ s.seen := by
    intro f
    rw [hseen]
    exact List.not_mem_nil
  constructor
  · rw [hmdirc]
    exact ⟨List.nodup_nil, rfl⟩
  · rw [hmdirc]
    rfl
  · rw [hmdirc]
    exact le_rfl
  · exact Nat.zero_le _
  · exact fun f hf => absurd hf hempty
  · exact fun f hf => absurd hf hempty
  · exact fun f hf => absurd hf hempty
  · exact fun i hlt => absurd hlt (Nat.not_lt_zero i)
  · exact fun i header _ hlt => absurd hlt (Nat.not_lt_zero i)
  · exact fun i _ => hslot _
  · exact fun i _ hne => absurd (hslot _) hne
  · exact fun f hf => absurd hf hempty
  · exact fun v _ hne => absurd (hslot v) hne
  · exact fun j header v _ _ _ _ => hslot v

theorem inv_start : start.Inv := by
  refine ⟨⟨?_, List.nodup_nil, ?_, ?_, ?_⟩, 0, ?_, ?_⟩
  · exact fun f hf => nomatch hf
  · exact fun f hf => nomatch hf
  · exact fun i header hget => nomatch hget
  · exact fun i header l hget => nomatch hget
  · exact tracks_new rfl rfl
  · exact fun j header l _ hget => nomatch hget

theorem Inv.append (h : s.Inv) {e : Option (Action × Header)} (hadd : ∀ header, e = some (.add, header) →
    s.Timely header ∧ s.Foreign header) (hrem : ∀ header, e ≠ some (.rem, header)) : (s.append e).Inv := by
  rcases h.tracks with ⟨n, htracks, hties⟩
  refine ⟨h.sound.append ?_ fun header he => absurd he (hrem header), n,
    htracks.append h.sound fun header he => (hadd header he).1, ?_⟩
  · intro header l he hl
    exact ((hadd header he).2 l hl).1
  · intro j header l hj hget hl
    rcases getElem?_snoc.1 hget with hget | ⟨-, he⟩
    · exact hties j header l hj hget hl
    · exact ((hadd header he).2 l hl).2

omit [Host] in
theorem delete_append {t : Nat} (ht : t < s.journal.length) (e : Option (Action × Header)) :
    (s.delete t).append e = (s.append e).delete t := by
  simp only [Refresh.delete, Refresh.append, List.set_append_left _ _ ht]

/-- A removal comes, and its target is deleted. -/
theorem Inv.remove (h : s.Inv) {header : Header} {t : Nat} (hmay : s.Removable header t) (huntied : s.Untied t) :
    ((s.delete t).append (some (.rem, header))).Inv := by
  rcases h.tracks with ⟨n, htracks, hties⟩
  rcases hmay with ⟨htarget, hlt, hadded⟩
  have hnone : messageAt (s.delete t).journal t = none := by
    rw [← Option.not_isSome_iff_eq_none]
    exact fun hsome => (messageAt_deleted_isSome.1 hsome).1 rfl
  constructor
  · refine (h.sound.delete t).append (fun _ _ he => nomatch he) ?_
    rintro header' ⟨⟩
    exact ⟨t, htarget, hlt.trans_eq List.length_set.symm, hnone⟩
  · refine ⟨n, ?_, ?_⟩
    · rw [delete_append hlt]
      have hget : (s.append (some (.rem, header))).journal[t]? = s.journal[t]? := List.getElem?_append_left hlt
      apply Tracks.delete
      · exact htracks.append h.sound fun _ he => nomatch he
      · intro header'
        rw [hget]
        exact hadded header'
      · exact ⟨s.journal.length, header, htracks.le, List.getElem?_concat_length, htarget⟩
      · constructor
        · intro i x hsome hslot
          rcases messageAt_snoc_isSome.1 hsome with hsome | ⟨-, header', he, -⟩
          · exact huntied.1 i x hsome hslot
          · cases he
        · intro header' l
          rw [hget]
          exact huntied.2 header' l
    · intro j header' l hj hget hl
      rcases getElem?_snoc.1 hget with hget | ⟨-, he⟩
      · exact hties j header' l hj (getElem?_deleted.1 hget).2 hl
      · cases he

/-- A file that adds gets into the journal, and goes. -/
theorem Inv.replace (h : s.Inv) {f : TmpFile} {header : Header} (hf : f ∈ s.files) (hadd : f.action = .add)
    (hlocal : localId header = some f.version) (htimely : s.Timely header) (hunmarked : s.Unmarked (-f.version)) :
    ((s.append (some (.add, header))).keep (· ≠ f)).Inv := by
  rcases h.tracks with ⟨n, htracks, hties⟩
  have hdropped : ∀ {g : TmpFile}, decide (g ≠ f) = false → g = f := by
    intro g hg
    simpa using hg
  have hunmarked' : (s.append (some (.add, header))).Unmarked (-f.version) := by
    intro i x hsome hslot
    rcases messageAt_snoc_isSome.1 hsome with hsome | ⟨rfl, -⟩
    · exact hunmarked i x hsome hslot
    · -- the new message is not held yet
      have hslot' : s.mdirc.slot (s.journal.length + 1) = some x := hslot
      rw [htracks.later _ htracks.le] at hslot'
      cases hslot'
  constructor
  · refine Sound.keep (h.sound.append ?_ ?_) _
    · rintro header' l ⟨⟩ hl
      rw [hlocal, Option.some.injEq] at hl
      exact hl ▸ h.sound.numbers f hf
    · exact fun _ he => nomatch he
  · refine ⟨n, ?_, ?_⟩
    · apply Tracks.keep
      · refine htracks.append h.sound ?_
        rintro header' ⟨⟩
        exact htimely
      · intro g _ hg i hremoved
        rw [hdropped hg, TmpFile.removed, hadd] at hremoved
        cases hremoved
      · intro g _ hg
        rw [hdropped hg]
        exact .inr hunmarked'
      · intro g _ hg _ _
        rw [hdropped hg]
        exact ⟨s.journal.length, header, htracks.le, List.getElem?_concat_length, hlocal⟩
    · intro j header' l hj hget hl g hg
      rcases List.mem_filter.1 hg with ⟨hg, hne⟩
      rcases getElem?_snoc.1 hget with hget | ⟨-, he⟩
      · exact hties j header' l hj hget hl g hg
      · cases he
        rw [hlocal, Option.some.injEq] at hl
        intro hversion
        refine of_decide_eq_true hne ?_
        exact List.inj_on_of_nodup_map h.sound.distinct (List.mem_append_left _ hg) hf (hversion.trans hl.symm)

/-- A file that removes goes, once its target is deleted. -/
theorem Inv.dropRemoval (h : s.Inv) {f : TmpFile} {t : Nat} (hremoved : f.removed = some ((t : Int) + 1))
    (hnone : messageAt s.journal t = none) : (s.keep (· ≠ f)).Inv := by
  rcases h.tracks with ⟨n, htracks, hties⟩
  have hdropped : ∀ {g : TmpFile}, decide (g ≠ f) = false → g = f := by
    intro g hg
    simpa using hg
  have hadded : f.added = none := by
    rw [TmpFile.removed] at hremoved
    rw [TmpFile.added]
    cases haction : f.action with
    | add =>
        rw [haction] at hremoved
        cases hremoved
    | rem => rfl
  refine ⟨h.sound.keep _, n, htracks.keep ?_ ?_ ?_, ?_⟩
  · intro g _ hg i hi
    rw [hdropped hg, hremoved, Option.some.injEq] at hi
    have hti : t = i := by omega
    exact hti ▸ hnone
  · intro g _ hg
    rw [hdropped hg, TmpFile.marks, hadded]
    exact .inl rfl
  · intro g _ hg header hheader
    rw [hdropped hg, hadded] at hheader
    cases hheader
  · intro j header l hj hget hl g hg
    exact hties j header l hj hget hl g (List.mem_of_mem_filter hg)

/-- The changes that a mdirc can follow. -/
theorem Inv.change (h : s.Inv) {e : Change} (hmay : s.May e) (hfit : s.Fit e) : (s.change e).Inv := by
  cases e with
  | blank => exact h.append (fun _ he => nomatch he) (fun _ he => nomatch he)
  | append header =>
      refine h.append ?_ fun _ he => nomatch he
      rintro header' ⟨⟩
      exact hfit
  | remove header t => exact h.remove hmay hfit
  | appear f =>
      rcases h.tracks with ⟨n, ht, hties⟩
      exact ⟨h.sound.appear hmay, n, ⟨ht.tidy, ht.sync, ht.unsync, ht.le, ht.past, ht.read, ht.early, ht.hidden,
        ht.message, ht.later, ht.stale, ht.transient, ht.former, ht.stray⟩, hties⟩
  | replace f header => exact h.replace hmay.1 hmay.2.1 hmay.2.2 hfit.1 hfit.2
  | confirm f header t =>
      rcases hmay with ⟨-, hremoved, hremovable⟩
      have hnone : messageAt ((s.delete t).append (some (.rem, header))).journal t = none := by
        rw [← Option.not_isSome_iff_eq_none]
        intro hsome
        rcases messageAt_snoc_isSome.1 hsome with hsome | ⟨-, header', he, -⟩
        · exact (messageAt_deleted_isSome.1 hsome).1 rfl
        · cases he
      exact (h.remove hremovable hfit).dropRemoval hremoved hnone

end Refresh

variable {maxJnlSize : Nat}

theorem RefreshRun.inv (hmax : maxJnlSize < 2 ^ 32)
    (h : RefreshRun maxJnlSize Refresh.Fit Refresh.Orderly s) : s.Inv := by
  induction h with
  | start => exact Refresh.inv_start
  | change e _ hmay hfit ih => exact ih.change hmay hfit
  | @update s m order tmp err _ hg ho ih =>
      rcases ih.tracks with ⟨n, htracks, hties⟩
      rcases htracks.update hmax ih.sound hties ho hg err with ⟨-, n', htracks', hties'⟩
      have hfiles : (s.update m order tmp err).files = s.files := List.append_nil _
      refine ⟨⟨?_, ?_, ?_, ih.sound.dead, ih.sound.locals⟩, n', htracks', hties'⟩
      · rw [hfiles]
        exact ih.sound.numbers
      · rw [hfiles]
        exact ih.sound.distinct
      · rw [hfiles]
        exact ih.sound.removals

/-- In every history that a mdirc can follow, its next update holds what the one update of a new mdirc
does. -/
theorem refresh_agrees_with_new (hmax : maxJnlSize < 2 ^ 32)
    (h : RefreshRun maxJnlSize Refresh.Fit Refresh.Orderly s) (ho : s.Orderly) {m m' : Mdir}
    {order order' : List Bytes} {tmp tmp' : Except Nat (List (Bytes × Option Bytes))}
    (hg : Given maxJnlSize s m order tmp) (hg' : Given maxJnlSize s m' order' tmp')
    (err err' : Except Nat (List (Bytes × Option Bytes))) :
    (s.mdirc.mdircUpdate m order tmp err).Agrees (LibMdirc.new.mdircUpdate m' order' tmp' err') := by
  have hinv := h.inv hmax
  rcases hinv.tracks with ⟨n, htracks, hties⟩
  rcases htracks.update hmax hinv.sound hties ho hg err with ⟨hshows, n', htracks', -⟩
  -- for a new mdirc all the files are new
  let t : Refresh := { s with seen := [], fresh := s.files, mdirc := .new }
  have htracks₀ : t.Tracks 0 := Refresh.tracks_new rfl rfl
  have hsound : t.Sound :=
    ⟨hinv.sound.numbers, hinv.sound.distinct, hinv.sound.removals, hinv.sound.dead, hinv.sound.locals⟩
  have hties₀ : t.Tied 0 := fun _ _ _ _ _ _ f hf => nomatch hf
  have horderly : t.Orderly := by
    refine ⟨fun f hf => ?_, fun f hf => ?_, ho.settled⟩
    · exact Int.lt_iff_add_one_le.2 (hinv.sound.numbers f hf)
    · rcases List.mem_append.1 hf with hseen | hfresh
      · exact htracks.read f hseen
      · exact ho.readable f hfresh
  rcases htracks₀.update hmax hsound hties₀ horderly ⟨hg'.holds, hg'.order, hg'.tmp⟩ err' with
    ⟨hshows', n'', htracks'', -⟩
  exact htracks'.tidy.agrees htracks''.tidy (hshows.unique hshows')

/-! ## Runs of `mdir_patch` -/

theorem readable_of_recordEntry {r : Bytes} (h : IsDeleted r ∨ (recordEntry r).isSome) : Readable r := by
  rcases h with hdel | hsome
  · exact .inl hdel
  · unfold recordEntry at hsome
    split at hsome
    · next action header hr => exact .inr ⟨action, header, hr⟩
    · cases hsome

/-- The mdir that calls of `mdir_patch` made holds what they wrote, if positional writes land where asked. -/
theorem Run.holdsPatches (hat : Host.appendPwrite = .atOffset) (hmax : maxJnlSize < 2 ^ 32) {m : Mdir}
    {calls : List Call} (h : Run maxJnlSize anyPatch noCrash m calls)
    (hread : ∀ r ∈ written calls, IsDeleted r ∨ (recordEntry r).isSome) :
    HoldsPatches maxJnlSize m ((written calls).map recordEntry) := by
  have hinv : ∃ A, Refines maxJnlSize m A ∧ m.disk.power = none ∧ records A = written calls := by
    refine @Run.invariant _ maxJnlSize _ _ m calls hmax (fun A calls => records A = written calls)
      (fun _ => .inl hat) (fun hc => hc.elim) rfl ?_ (fun hc => hc.elim) h
    intro m A calls sys action header nb href hpow hw _ hroom
    rw [href.records_patch hmax hpow hroom (.inl hat), hw, written_snoc]
  rcases hinv with ⟨A, href, -, hw⟩
  exact ⟨A, href, fun r hr => readable_of_recordEntry (hread r (hw ▸ hr)), by rw [hw]⟩

/-- The files of a mdir with one journal. -/
theorem HoldsPatches.lists {m : Mdir} {J : Patches} {j : Jnl} (h : HoldsPatches maxJnlSize m J)
    (hjnls : m.jnls = [j]) (hlog : m.disk.log j.stem ≠ none) : Lists [j.stem] m.disk := by
  rcases h with ⟨A, ⟨ps, hrep, -⟩, -⟩
  refine lists_singleton hlog fun stem hne => ?_
  by_contra hstem
  rcases hrep.mem_log hstem with ⟨k, hk, rfl⟩
  rw [← hrep.jnls, hjnls, List.mem_singleton] at hk
  exact hne (by rw [hk])

end Changes

/-- A message is listed, then another one while it is in `.tmp`; that one gets into the journal. -/
theorem refresh_agrees_with_new_sample :
    let _ := plainHost
    let h : Header := [⟨ascii "sc-type", ascii "im"⟩]
    let h' : Header := [⟨ascii "sc-type", ascii "im"⟩, ⟨ascii "sc-localid", ascii "1"⟩]
    let f : TmpFile := ⟨.add, 1, headerWrite h, by decide, by decide⟩
    let m₁ := (mdirPatch quietSys 2000 (Mdir.new (ascii "/m/1")) .add h 0).mdir
    let m₂ := (mdirPatch quietSys 2000 m₁ .add h' 0).mdir
    let s₁ := (Refresh.start.change (.append h)).change (.appear f)
    let s₂ := s₁.update m₁ [jnlStem 1] (.ok [f.entry]) (.error ENOENT)
    let s₃ := s₂.change (.replace f h')
    let c := s₃.mdirc.mdircUpdate m₂ [jnlStem 1] (.ok []) (.error ENOENT)
    s₂.mdirc.msgs = [⟨1, h, []⟩, ⟨-1, h, []⟩] ∧ c.msgs = [⟨1, h, []⟩, ⟨2, h', []⟩] ∧
      c.Agrees (LibMdirc.new.mdircUpdate m₂ [jnlStem 1] (.ok []) (.error ENOENT)) := by
  intro _ h h' f m₁ m₂ s₁ s₂ s₃ c
  have patch₁ : Run 2000 anyPatch noCrash m₁ _ :=
    .patch quietSys .add h 0 (.init (ascii "/m/1")) trivial (by decide)
  have patch₂ : Run 2000 anyPatch noCrash m₂ _ := .patch quietSys .add h' 0 patch₁ trivial (by decide)
  have holds₁ := patch₁.holdsPatches rfl (by norm_num) (by decide)
  have holds₂ := patch₂.holdsPatches rfl (by norm_num) (by decide)
  have hmay : (Refresh.start.change (.append h)).May (.appear f) :=
    ⟨by decide, fun g hg => (nomatch hg), fun v hv => (nomatch hv)⟩
  have hfit : Refresh.start.Fit (.append h) := by
    refine ⟨⟨fun _ f hf => (nomatch hf), fun v _ _ => rfl⟩, fun l hl => ?_⟩
    have hnone : localId h = none := by decide
    exact nomatch hnone.symm.trans hl
  have run₁ : RefreshRun 2000 Refresh.Fit Refresh.Orderly s₁ :=
    .change _ (.change _ .start trivial hfit) hmay trivial
  have hheader : f.header = some h := by decide
  have given₁ : Given 2000 s₁ m₁ [jnlStem 1] (.ok [f.entry]) := by
    have hlists := holds₁.lists (show m₁.jnls = [⟨jnlStem 1, 1, 1⟩] by decide) (by decide)
    refine ⟨?_, hlists, .inr ⟨_, [f], rfl, List.Perm.refl _, by decide⟩⟩
    convert holds₁ using 1
    decide
  have hmarks : f.marks = none := by decide
  have horderly : s₁.Orderly := by
    refine ⟨?_, ?_, ?_⟩
    · intro g hg
      rw [List.mem_singleton.1 hg]
      decide
    · intro g hg
      rw [List.mem_singleton.1 hg]
      exact ⟨h, hheader⟩
    · intro g _ g' hg' _ _ _
      rw [List.mem_singleton.1 hg', hmarks]
      exact fun hcontra => nomatch hcontra
  have run₂ : RefreshRun 2000 Refresh.Fit Refresh.Orderly s₂ :=
    .update m₁ [jnlStem 1] (.ok [f.entry]) (.error ENOENT) run₁ given₁ horderly
  have hfit₂ : s₂.Fit (.replace f h') := by
    have htarget : markTarget h' = none := by decide
    have hslot : s₂.mdirc.slot 1 = some (h, 0) := by decide
    refine ⟨⟨fun _ g hg => ?_, fun v _ hv => (nomatch htarget.symm.trans hv)⟩, fun i x hsome hx => ?_⟩
    · rw [List.mem_singleton.1 hg, hmarks]
      exact fun hcontra => nomatch hcontra
    · rcases i with _ | i
      · rw [show ((0 : Nat) : Int) + 1 = 1 from rfl, hslot, Option.some.injEq] at hx
        rw [← hx]
        exact Multiset.notMem_zero _
      · exact nomatch hsome
  have run₃ : RefreshRun 2000 Refresh.Fit Refresh.Orderly s₃ :=
    .change _ run₂ ⟨by decide, rfl, by decide⟩ hfit₂
  have given₃ : Given 2000 s₃ m₂ [jnlStem 1] (.ok []) := by
    have hlists := holds₂.lists (show m₂.jnls = [⟨jnlStem 1, 1, 2⟩] by decide +kernel) (by decide +kernel)
    refine ⟨?_, hlists, .inr ⟨[], [], rfl, ?_, rfl⟩⟩
    · convert holds₂ using 1
      decide
    · have hnil : s₃.files = [] := by decide
      rw [hnil]
  have horderly₃ : s₃.Orderly := by
    have hnil : s₃.files = [] := by decide
    have hfresh : s₃.fresh = [] := (List.append_eq_nil_iff.1 hnil).2
    refine ⟨?_, ?_, ?_⟩
    · rw [hfresh]
      exact fun g hg => nomatch hg
    · rw [hfresh]
      exact fun g hg => nomatch hg
    · rw [hnil]
      exact fun g hg => nomatch hg
  exact ⟨by decide, by decide,
    refresh_agrees_with_new (by norm_num) run₃ horderly₃ given₃ given₃ _ _⟩

/-- A message and a mark on it are listed, and then the mark is removed: the mdirc keeps it. -/
theorem not_refresh_agrees_with_new :
    let _ := plainHost
    ¬ ∀ (maxJnlSize : Nat) (s : Refresh) (m m' : Mdir) (order order' : List Bytes)
      (tmp tmp' err err' : Except Nat (List (Bytes × Option Bytes))), maxJnlSize < 2 ^ 32 →
      RefreshRun maxJnlSize (fun _ _ => True) (fun _ => True) s → Given maxJnlSize s m order tmp →
      Given maxJnlSize s m' order' tmp' →
      (s.mdirc.mdircUpdate m order tmp err).Agrees (LibMdirc.new.mdircUpdate m' order' tmp' err') := by
  intro _ hall
  let h : Header := [⟨ascii "sc-type", ascii "im"⟩]
  let k : Header := [⟨ascii "sc-type", ascii "mark"⟩, ⟨ascii "sc-target", ascii "1"⟩]
  let r : Header := [⟨ascii "sc-target", ascii "2"⟩]
  let m₁ := (mdirPatch quietSys 2000 (Mdir.new (ascii "/m/1")) .add h 0).mdir
  let m₂ := (mdirPatch quietSys 2000 m₁ .add k 0).mdir
  let m₃ := (mdirPatch quietSys 2000 m₂ .rem r 0).mdir
  have patch₂ : Run 2000 anyPatch noCrash m₂ _ :=
    .patch quietSys .add k 0 (.patch quietSys .add h 0 (.init (ascii "/m/1")) trivial (by decide)) trivial
      (by decide)
  have patch₃ : Run 2000 anyPatch noCrash m₃ _ := .patch quietSys .rem r 0 patch₂ trivial (by decide +kernel)
  have holds₂ := patch₂.holdsPatches rfl (by norm_num) (by decide +kernel)
  have holds₃ := patch₃.holdsPatches rfl (by norm_num) (by decide +kernel)
  let s₁ := (Refresh.start.change (.append h)).change (.append k)
  have run₁ : RefreshRun 2000 (fun _ _ => True) (fun _ => True) s₁ :=
    .change _ (.change _ .start trivial trivial) trivial trivial
  have given₁ : Given 2000 s₁ m₂ [jnlStem 1] (.error ENOENT) := by
    have hlists := holds₂.lists (show m₂.jnls = [⟨jnlStem 1, 1, 2⟩] by decide +kernel) (by decide +kernel)
    refine ⟨?_, hlists, .inl ⟨rfl, rfl⟩⟩
    convert holds₂ using 1
    decide +kernel
  let s₂ := (s₁.update m₂ [jnlStem 1] (.error ENOENT) (.error ENOENT)).change (.remove r 1)
  have run₂ : RefreshRun 2000 (fun _ _ => True) (fun _ => True) s₂ := by
    refine .change _ (.update m₂ [jnlStem 1] _ _ run₁ given₁ trivial) ⟨by decide, by decide, ?_⟩ trivial
    intro header hget
    have hk : s₁.journal[1]? = some (some (.add, k)) := rfl
    exact nomatch hk.symm.trans hget
  have given₂ : Given 2000 s₂ m₃ [jnlStem 1] (.error ENOENT) := by
    have hlists := holds₃.lists (show m₃.jnls = [⟨jnlStem 1, 1, 3⟩] by decide +kernel) (by decide +kernel)
    refine ⟨?_, hlists, .inl ⟨rfl, rfl⟩⟩
    convert holds₃ using 1
    decide +kernel
  have hsame := (hall 2000 s₂ m₃ m₃ _ _ _ _ (.error ENOENT) (.error ENOENT) (by norm_num) run₂ given₂ given₂).same
  have hmarks := hsame.map fun x => Multiset.card x.2.2
  revert hmarks
  decide +kernel

end Scambio
