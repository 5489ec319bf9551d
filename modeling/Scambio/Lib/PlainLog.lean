import Scambio.Lib.Readback

/-!
# PlainLog — the patches of a mdir without blanks, folders and marks

What `mdir_patch` makes of plain headers, one after the other, is a list of entries: each version has
the action and the header it was given, and it is deleted if some removal has it for target.  A
removal only ever targets an addition that came before, so that neither a removal nor the last entry
is ever deleted.
-/

namespace Scambio

open Library

/-- The accepted patches, in order: entry `i` is version `i + 1`. -/
abbrev Entries := List (Action × Header)

/-- Some removal has this version for target. -/
def RemovedIn (G : Entries) (v : Int) : Prop :=
  ∃ h, (Action.rem, h) ∈ G ∧ headerTarget h = .ok v

structure PlainEntries (G : Entries) : Prop where
  plain : ∀ e ∈ G, ReadableHeader e.2
  target : ∀ i h, G[i]? = some (Action.rem, h) →
    ∃ n, headerTarget h = .ok ((1 + n : Nat) : Int) ∧ n < i ∧ ∃ h', G[n]? = some (Action.add, h')

theorem removedIn_snoc {G : Entries} {e : Action × Header} {v : Int} :
    RemovedIn (G ++ [e]) v ↔ RemovedIn G v ∨ (e.1 = .rem ∧ headerTarget e.2 = .ok v) := by
  unfold RemovedIn
  constructor
  · rintro ⟨h, hmem, ht⟩
    rcases List.mem_append.1 hmem with hmem | hmem
    · exact .inl ⟨h, hmem, ht⟩
    · obtain rfl := List.mem_singleton.1 hmem
      exact .inr ⟨rfl, ht⟩
  · rintro (⟨h, hmem, ht⟩ | ⟨hrem, ht⟩)
    · exact ⟨h, List.mem_append_left _ hmem, ht⟩
    · refine ⟨e.2, List.mem_append_right _ ?_, ht⟩
      rw [← hrem]
      exact List.mem_singleton_self _

section Entries

variable {G : Entries}

/-- What is removed is an addition, followed by its removal. -/
theorem PlainEntries.removed (h : PlainEntries G) {n : Nat} (hr : RemovedIn G ((1 + n : Nat) : Int)) :
    n + 1 < G.length ∧ ∃ h', G[n]? = some (Action.add, h') := by
  rcases hr with ⟨hd, hmem, ht⟩
  rcases List.getElem?_of_mem hmem with ⟨i, hi⟩
  rcases h.target i hd hi with ⟨n', ht', hlt, hadd⟩
  rw [ht, Except.ok.injEq] at ht'
  obtain rfl : n = n' := by omega
  have := (List.getElem?_eq_some_iff.1 hi).1
  exact ⟨by omega, hadd⟩

theorem PlainEntries.not_removed_rem (h : PlainEntries G) {n : Nat} {hd : Header}
    (hn : G[n]? = some (Action.rem, hd)) : ¬ RemovedIn G ((1 + n : Nat) : Int) := by
  intro hr
  rcases (h.removed hr).2 with ⟨h', hadd⟩
  rw [hn] at hadd
  cases hadd

/-- The last entry is never deleted. -/
theorem PlainEntries.not_removed_last (h : PlainEntries G) :
    ¬ RemovedIn G ((1 + (G.length - 1) : Nat) : Int) := by
  intro hr
  have := (h.removed hr).1
  omega

theorem PlainEntries.snoc (h : PlainEntries G) {e : Action × Header} (hp : ReadableHeader e.2)
    (ht : e.1 = .rem → ∃ n, headerTarget e.2 = .ok ((1 + n : Nat) : Int) ∧
      ∃ h', G[n]? = some (Action.add, h')) : PlainEntries (G ++ [e]) := by
  refine ⟨?_, ?_⟩
  · intro x hx
    rcases List.mem_append.1 hx with hx | hx
    · exact h.plain x hx
    · rw [List.mem_singleton.1 hx]
      exact hp
  · intro i hd hi
    have hkeep : ∀ {n : Nat} {x : Action × Header}, G[n]? = some x → (G ++ [e])[n]? = some x := by
      intro n x hx
      rw [List.getElem?_append_left (List.getElem?_eq_some_iff.1 hx).1, hx]
    by_cases hlt : i < G.length
    · rw [List.getElem?_append_left hlt] at hi
      rcases h.target i hd hi with ⟨n, htn, hn, h', hadd⟩
      exact ⟨n, htn, hn, h', hkeep hadd⟩
    · rw [List.getElem?_append_right (by omega), List.getElem?_singleton] at hi
      split_ifs at hi with hzero
      cases hi
      rcases ht rfl with ⟨n, htn, h', hadd⟩
      have := (List.getElem?_eq_some_iff.1 hadd).1
      exact ⟨n, htn, by omega, h', hkeep hadd⟩

theorem PlainEntries.of_snoc {e : Action × Header} (h : PlainEntries (G ++ [e])) : PlainEntries G := by
  refine ⟨fun x hx => h.plain x (List.mem_append_left _ hx), ?_⟩
  intro i hd hi
  have hlt := (List.getElem?_eq_some_iff.1 hi).1
  rcases h.target i hd (by rw [List.getElem?_append_left hlt, hi]) with ⟨n, ht, hn, x, hx⟩
  rw [List.getElem?_append_left (by omega)] at hx
  exact ⟨n, ht, hn, x, hx⟩

end Entries

/-! ## The records of the entries -/

/-- The records hold the entries: deleted when they are removed, as they were patched otherwise. -/
structure HoldsEntries (R : List Bytes) (G : Entries) : Prop where
  length : R.length = G.length
  entry : ∀ i a h, G[i]? = some (a, h) → ∃ r, R[i]? = some r ∧
    (RemovedIn G ((1 + i : Nat) : Int) → IsDeleted r) ∧
    (¬ RemovedIn G ((1 + i : Nat) : Int) → r = patchRecord a h)

theorem not_isDeleted_patchRecord (action : Action) (h : Header) :
    ¬ IsDeleted (patchRecord action h) := by
  unfold IsDeleted
  rw [readText_patchRecord]
  simp

section Holds

variable {R : List Bytes} {G : Entries}

theorem HoldsEntries.get (h : HoldsEntries R G) {i : Nat} {r : Bytes} (hr : R[i]? = some r) :
    ∃ a hd, G[i]? = some (a, hd) ∧ (RemovedIn G ((1 + i : Nat) : Int) → IsDeleted r) ∧
      (¬ RemovedIn G ((1 + i : Nat) : Int) → r = patchRecord a hd) := by
  have hi := (List.getElem?_eq_some_iff.1 hr).1
  rw [h.length] at hi
  rcases hg : G[i] with ⟨a, hd⟩
  have hget : G[i]? = some (a, hd) := by rw [List.getElem?_eq_getElem hi, hg]
  rcases h.entry i a hd hget with ⟨r', hr', hrest⟩
  rw [hr] at hr'
  cases hr'
  exact ⟨a, hd, hget, hrest⟩

theorem HoldsEntries.isDeleted_iff (h : HoldsEntries R G) {i : Nat} {r : Bytes} (hr : R[i]? = some r) :
    IsDeleted r ↔ RemovedIn G ((1 + i : Nat) : Int) := by
  rcases h.get hr with ⟨a, hd, -, hdel, hkeep⟩
  refine ⟨fun hd' => ?_, hdel⟩
  by_contra hnot
  rw [hkeep hnot] at hd'
  exact not_isDeleted_patchRecord a hd hd'

variable [Host]

theorem HoldsEntries.readRecord (h : HoldsEntries R G) (hG : PlainEntries G) {i : Nat} {r : Bytes}
    {a : Action} {hd : Header} (hr : R[i]? = some r) (hi : G[i]? = some (a, hd))
    (hnot : ¬ RemovedIn G ((1 + i : Nat) : Int)) : readRecord r = some (a, some hd) := by
  rcases h.get hr with ⟨a', hd', hi', -, hkeep⟩
  rw [hi] at hi'
  cases hi'
  rw [hkeep hnot]
  have hplain := hG.plain _ (List.mem_of_getElem? hi)
  exact readRecord_patchRecord hplain.canonical hplain.short a

/-- What an accepted removal has for target. -/
theorem storePrepare_target (sys : Sys) {path : Bytes} {A : List Slot} {header : Header}
    (h : storePrepare sys path A .rem header ≠ none) :
    ∃ n : Nat, headerTarget header = .ok ((1 + n : Nat) : Int) ∧ ∃ r, (records A)[n]? = some r ∧
      (IsDeleted r ∨ ∃ target, Scambio.readRecord r = some (.add, some target)) := by
  cases hrem : storeRemoval sys path A header with
  | refused => simp [storePrepare, hrem] at h
  | already =>
      rcases storeRemoval_already sys hrem with ⟨n, ht, s, action, hs, hr⟩
      exact ⟨n, ht, s.record, by simp [records, hs], .inl (isDeleted_of_readRecord hr)⟩
  | tag n =>
      rcases storeRemoval_tag sys hrem with ⟨ht, s, target, hs, hr⟩
      exact ⟨n, ht, s.record, by simp [records, hs], .inr ⟨target, hr⟩⟩

/-- One plain patch: it is refused and nothing changes, or it becomes the next entry. -/
theorem HoldsEntries.storePatch (sys : Sys) (path : Bytes) {A : List Slot}
    (h : HoldsEntries (records A) G) (hG : PlainEntries G) (action : Action) {header : Header}
    (hp : ReadableHeader header) :
    ((storePatch sys path A action header 0).2 = none ∧
      HoldsEntries (records (storePatch sys path A action header 0).1) G) ∨
    ((storePatch sys path A action header 0).2 = some ((A.length + 1 : Nat) : Int) ∧
      HoldsEntries (records (storePatch sys path A action header 0).1) (G ++ [(action, header)]) ∧
      PlainEntries (G ++ [(action, header)])) := by
  cases hout : (Scambio.storePatch sys path A action header 0).2 with
  | none =>
      refine .inl ⟨rfl, ?_⟩
      rw [hp.refused hout]
      simpa using h
  | some v =>
      rcases storePatch_records sys path A action header 0 with
        ⟨-, hnone, -⟩ | ⟨T, hprep, hrec, hres⟩
      · rw [hout] at hnone
        cases hnone
      · have hv : some v = some ((A.length + 1 : Nat) : Int) := by
          rcases hres with hres | ⟨hres, -⟩
          · rw [← hout, hres]
          · rw [hout] at hres
            cases hres
        rw [List.replicate_zero, List.append_nil] at hprep
        rw [hp.linked] at hrec
        have hlen : T.length = G.length := hprep.length.trans h.length
        -- the target of a removal is an addition that came before
        have htarget : action = .rem → ∃ n, headerTarget header = .ok ((1 + n : Nat) : Int) ∧
            ∃ h', G[n]? = some (Action.add, h') := by
          rintro rfl
          have hacc : storePrepare sys path A .rem header ≠ none := by
            intro hn
            simp [Scambio.storePatch, hn] at hout
          rcases storePrepare_target sys hacc with ⟨n, ht, r, hr, hkind⟩
          refine ⟨n, ht, ?_⟩
          by_cases hremoved : RemovedIn G ((1 + n : Nat) : Int)
          · exact (hG.removed hremoved).2
          · rcases h.get hr with ⟨a, hd, hget, -, hkeep⟩
            rcases hkind with hdel | ⟨target, hread⟩
            · exact absurd ((h.isDeleted_iff hr).1 hdel) hremoved
            · rw [h.readRecord hG hr hget hremoved] at hread
              cases hread
              exact ⟨_, hget⟩
        have hG' : PlainEntries (G ++ [(action, header)]) := hG.snoc hp htarget
        refine .inr ⟨hv, ⟨?_, ?_⟩, hG'⟩
        · rw [hrec, List.length_append, List.length_append, hlen]
          rfl
        · intro i a hd hi
          rw [hrec]
          by_cases hlt : i < G.length
          · rw [List.getElem?_append_left hlt] at hi
            rw [List.getElem?_append_left (by omega)]
            rcases h.entry i a hd hi with ⟨r, hr, hdel, hkeep⟩
            -- the target of this patch has its tag
            have htag : action = .rem → headerTarget header = .ok ((1 + i : Nat) : Int) →
                ∃ r', T[i]? = some r' ∧ IsDeleted r' := by
              intro hact ht
              rcases hprep.target hact with ⟨n, r', ht', hn, hd'⟩
              rw [ht, Except.ok.injEq] at ht'
              obtain rfl : i = n := by omega
              exact ⟨r', hn, hd'⟩
            by_cases hnew : action = .rem ∧ headerTarget header = .ok ((1 + i : Nat) : Int)
            · rcases htag hnew.1 hnew.2 with ⟨r', hr', hd'⟩
              exact ⟨r', hr', fun _ => hd', fun hn => absurd (removedIn_snoc.2 (.inr hnew)) hn⟩
            · have hsame : T[i]? = some r := by
                rcases hprep.keep i with hk | ⟨hact, ht, -⟩
                · rw [hk, hr]
                · exact absurd ⟨hact, ht⟩ hnew
              have hiff : RemovedIn (G ++ [(action, header)]) ((1 + i : Nat) : Int) ↔
                  RemovedIn G ((1 + i : Nat) : Int) := by
                rw [removedIn_snoc]
                simp only [hnew, or_false]
              exact ⟨r, hsame, fun hx => hdel (hiff.1 hx), fun hx => hkeep fun hy => hx (hiff.2 hy)⟩
          · rw [List.getElem?_append_right (by omega), List.getElem?_singleton] at hi
            split_ifs at hi with hzero
            cases hi
            have hil : i = G.length := by omega
            subst hil
            have hlast := hG'.not_removed_last
            rw [List.length_append, List.length_singleton, Nat.add_sub_cancel] at hlast
            refine ⟨patchRecord action header, ?_, fun hx => absurd hx hlast, fun _ => rfl⟩
            rw [List.getElem?_append_right (by omega), hlen]
            simp

end Holds

end Scambio
