import Mathlib.Data.List.Nodup
import Mathlib.Data.List.Perm.Basic
import Mathlib.Data.List.Range
import Mathlib.Data.Nat.ModEq
import Scambio.Library.Interleaving

/-!
# Persist — numbers from a file that processes share (`commons/persist.c`)

A sequence is a counter in a file of its own, which every process opens, maps and locks.  The steps of a process are
those of `persist_ctor` and of `persist_read_inc_sequence` between two calls of the system.  Any of these calls may
fail, and a process may die anywhere.  A counter is written at once or not at all, and a process does not give the
processor to another of its threads between the lock and its release.

* `persistStep`      : the steps;
* `Ranks`            : what was given out, what was lost, and what is still held make the first numbers;
* `sequence_numbers` : no number is given out twice;
* `sequence_stuck`   : a file that was left empty never gives one.
-/

namespace Scambio

open Library

/-- What processes share: the file, which is empty before it has its first counter, and who has locked it.  The rest
is a record: who has created the file, how many counters were written over another one, the numbers that were
returned, those that never will be, and the one that its process has not returned yet. -/
structure SeqFile (ι : Type) where
  content : Option (Option Nat)
  lock : Option ι
  creator : Option ι
  writes : Nat
  issued : List Nat
  lost : List Nat
  pending : Option Nat
  deriving DecidableEq

/-- Where a process is. -/
inductive PersistProc
  | closed
  /-- The file is created, its counter is not written. -/
  | creating
  | opened
  | locked
  | counted (count : Nat)
  /-- The new counter was written, or could not be. -/
  | wrote (count : Nat) (written : Bool)
  deriving DecidableEq, Repr

/-- A call of the system, and whether it succeeds. -/
inductive PersistCall
  | openFile
  | createFile
  | writeDefault (ok : Bool)
  | lockFile
  | readCount
  | writeCount (ok : Bool)
  | unlockFile (ok : Bool)
  /-- The process ends, or closes its descriptor. -/
  | die
  deriving DecidableEq, Repr

def UINT64 : Nat := 2 ^ 64

section Persist

variable {ι : Type} [DecidableEq ι] (defaultValue : Nat)

/-- The number of a process that has written the next one. -/
def PersistProc.number : PersistProc → Option Nat
  | .wrote count true => some count
  | _ => none

/-- Process `i` has died: its lock is released, its number is lost. -/
def SeqFile.release (s : SeqFile ι) (i : ι) (t : PersistProc) : SeqFile ι :=
  { s with
    lock := if s.lock = some i then none else s.lock
    lost := s.lost ++ t.number.toList
    pending := if t.number = none then s.pending else none }

/-- A step of process `i`; `none` where its call blocks, or is not the next one. -/
def persistStep (i : ι) : PersistCall → SeqFile ι × PersistProc → Option (SeqFile ι × PersistProc)
  -- `open_or_create`
  | .openFile, (s, .closed) => if s.content = none then none else some (s, .opened)
  | .createFile, (s, .closed) =>
      if s.content = none then some ({ s with content := some none, creator := some i }, .creating) else none
  | .writeDefault ok, (s, .creating) =>
      if ok then some ({ s with content := some (some defaultValue) }, .opened) else some (s.release i .creating, .closed)
  -- `persist_read_inc_sequence`
  | .lockFile, (s, .opened) =>
      if s.lock = none ∨ s.lock = some i then some ({ s with lock := some i }, .locked) else none
  | .readCount, (s, .locked) =>
      match s.content with
      | some (some count) => some (s, .counted count)
      -- nothing is mapped behind the end of the file
      | _ => some (s.release i .locked, .closed)
  | .writeCount ok, (s, .counted count) =>
      if ok then
        some ({ s with content := some (some ((count + 1) % UINT64)), writes := s.writes + 1, pending := some count },
          .wrote count true)
      else some (s, .wrote count false)
  | .unlockFile ok, (s, .wrote count written) =>
      -- the number is only used if no error is left
      some ({ s with
          lock := if ok then none else s.lock
          issued := if ok ∧ written then s.issued ++ [count] else s.issued
          lost := if ok = false ∧ written then s.lost ++ [count] else s.lost
          pending := none }, .opened)
  | .die, (s, t) => some (s.release i t, .closed)
  | _, _ => none

/-- There is no file yet, and no process has opened it. -/
def persistStart : World ι (SeqFile ι) PersistProc where
  shared :=
    { content := none, lock := none, creator := none, writes := 0, issued := [], lost := [], pending := none }
  threads _ := .closed

/-- Any processes take any steps. -/
def PersistRun (w : World ι (SeqFile ι) PersistProc) : Prop :=
  World.Run (fun i a b => ∃ call, persistStep defaultValue i call a = some b) persistStart w

/-! ## Moves -/

/-- What the steps can do. -/
inductive PersistMove (i : ι) : SeqFile ι × PersistProc → SeqFile ι × PersistProc → Prop
  | openFile {s : SeqFile ι} : s.content ≠ none → PersistMove i (s, .closed) (s, .opened)
  | createFile {s : SeqFile ι} : s.content = none →
      PersistMove i (s, .closed) ({ s with content := some none, creator := some i }, .creating)
  | writeDefault {s : SeqFile ι} :
      PersistMove i (s, .creating) ({ s with content := some (some defaultValue) }, .opened)
  | lockFile {s : SeqFile ι} : s.lock = none ∨ s.lock = some i →
      PersistMove i (s, .opened) ({ s with lock := some i }, .locked)
  | readCount {s : SeqFile ι} {count : Nat} : s.content = some (some count) →
      PersistMove i (s, .locked) (s, .counted count)
  | writeCount {s : SeqFile ι} {count : Nat} :
      PersistMove i (s, .counted count)
        ({ s with content := some (some ((count + 1) % UINT64)), writes := s.writes + 1, pending := some count },
          .wrote count true)
  | notWritten {s : SeqFile ι} {count : Nat} : PersistMove i (s, .counted count) (s, .wrote count false)
  /-- The number is returned. -/
  | issue {s : SeqFile ι} {count : Nat} :
      PersistMove i (s, .wrote count true)
        ({ s with lock := none, issued := s.issued ++ [count], pending := none }, .opened)
  /-- It is returned with an error; `lock` tells if the lock is released. -/
  | lose {s : SeqFile ι} {count : Nat} :
      PersistMove i (s, .wrote count true) ({ s with lost := s.lost ++ [count], pending := none }, .opened)
  | giveUp {s : SeqFile ι} {count : Nat} (unlocked : Bool) :
      PersistMove i (s, .wrote count false)
        ({ s with lock := if unlocked then none else s.lock, pending := none }, .opened)
  | die {s : SeqFile ι} {t : PersistProc} : PersistMove i (s, t) (s.release i t, .closed)

theorem persistMove_of_step {i : ι} {call : PersistCall} {a b : SeqFile ι × PersistProc}
    (h : persistStep defaultValue i call a = some b) : PersistMove defaultValue i a b := by
  unfold persistStep at h
  split at h
  next s =>
    split at h
    · cases h
    next hfile =>
      cases h
      exact .openFile hfile
  next s =>
    split at h
    next hfile =>
      cases h
      exact .createFile hfile
    · cases h
  next ok s =>
    split at h
    · cases h
      exact .writeDefault
    · cases h
      -- the process has left its file empty
      exact .die
  next s =>
    split at h
    next hlock =>
      cases h
      exact .lockFile hlock
    · cases h
  next s =>
    split at h
    next count hcount =>
      cases h
      exact .readCount hcount
    · cases h
      exact .die
  next ok s count =>
    split at h
    · cases h
      exact .writeCount
    · cases h
      exact .notWritten
  next ok s count written =>
    cases h
    cases ok <;> cases written
    · exact .giveUp false
    · exact .lose
    · exact .giveUp true
    · exact .issue
  next s t =>
    cases h
    exact .die
  · cases h

end Persist

/-! ## Numbers -/

section Ranks

variable {ι : Type} (defaultValue : Nat)

/-- The counter after `k` writes. -/
def seqNumber (k : Nat) : Nat :=
  (defaultValue + k) % UINT64

/-- The ranks of the numbers that were given out, in this order, of those that were lost, and of the one that is held:
each of the first ones once. -/
structure Ranks (s : SeqFile ι) (issued lost pending : List Nat) : Prop where
  sorted : issued.Pairwise (· < ·)
  all : (issued ++ (lost ++ pending)).Perm (List.range s.writes)
  issued_eq : s.issued = issued.map (seqNumber defaultValue)
  lost_eq : s.lost = lost.map (seqNumber defaultValue)
  pending_eq : s.pending.toList = pending.map (seqNumber defaultValue)
  last : ∀ k ∈ pending, k + 1 = s.writes

/-- The counter goes on with the ranks, and a number is held only while the file is locked. -/
structure SeqFile.Sound (s : SeqFile ι) : Prop where
  ranks : ∃ issued lost pending, Ranks defaultValue s issued lost pending
  counter : ∀ count, s.content = some (some count) → count = seqNumber defaultValue s.writes
  fresh : (∀ count, s.content ≠ some (some count)) → s.writes = 0
  held : s.lock = none → s.pending = none

/-- What the file owes to a process, from where it is. -/
def PersistProc.Holds (i : ι) (s : SeqFile ι) : PersistProc → Prop
  | .closed => s.lock ≠ some i
  | .creating => s.lock ≠ some i ∧ s.content = some none ∧ s.creator = some i
  | .opened => s.lock = some i → s.pending = none
  | .locked => s.lock = some i ∧ s.pending = none
  | .counted count => s.lock = some i ∧ s.pending = none ∧ s.content = some (some count)
  | .wrote count written =>
      s.lock = some i ∧ (s.pending = if written then some count else none) ∧ ∃ next, s.content = some (some next)

variable {defaultValue} {s s' : SeqFile ι} {issued lost pending : List Nat}

theorem Ranks.congr (h : Ranks defaultValue s issued lost pending) (hwrites : s'.writes = s.writes)
    (hissued : s'.issued = s.issued) (hlost : s'.lost = s.lost) (hpending : s'.pending = s.pending) :
    Ranks defaultValue s' issued lost pending where
  sorted := h.sorted
  all := hwrites ▸ h.all
  issued_eq := hissued.trans h.issued_eq
  lost_eq := hlost.trans h.lost_eq
  pending_eq := hpending ▸ h.pending_eq
  last := hwrites ▸ h.last

theorem Ranks.pending_nil (h : Ranks defaultValue s issued lost pending) (hnone : s.pending = none) : pending = [] := by
  have heq := h.pending_eq
  rw [hnone] at heq
  exact List.map_eq_nil_iff.1 heq.symm

theorem Ranks.pending_singleton (h : Ranks defaultValue s issued lost pending) {count : Nat}
    (hsome : s.pending = some count) : ∃ k, pending = [k] ∧ seqNumber defaultValue k = count ∧ k + 1 = s.writes := by
  have heq := h.pending_eq
  rw [hsome] at heq
  rcases List.map_eq_singleton_iff.1 heq.symm with ⟨k, hk, hcount⟩
  exact ⟨k, hk, hcount, h.last k (hk ▸ List.mem_singleton_self k)⟩

/-- The next counter is written: the number is held. -/
theorem Ranks.write (h : Ranks defaultValue s issued lost []) (hwrites : s'.writes = s.writes + 1)
    (hissued : s'.issued = s.issued) (hlost : s'.lost = s.lost)
    (hpending : s'.pending = some (seqNumber defaultValue s.writes)) :
    Ranks defaultValue s' issued lost [s.writes] where
  sorted := h.sorted
  all := by
    have hall := h.all
    rw [List.append_nil] at hall
    rw [hwrites, List.range_succ, ← List.append_assoc]
    exact hall.append_right _
  issued_eq := hissued.trans h.issued_eq
  lost_eq := hlost.trans h.lost_eq
  pending_eq := by rw [hpending]; rfl
  last := fun k hk => by rw [hwrites, List.mem_singleton.1 hk]

/-- The number that is held is given out: it is the last one. -/
theorem Ranks.issue {k : Nat} (h : Ranks defaultValue s issued lost [k]) (hwrites : s'.writes = s.writes)
    (hissued : s'.issued = s.issued ++ [seqNumber defaultValue k]) (hlost : s'.lost = s.lost)
    (hpending : s'.pending = none) : Ranks defaultValue s' (issued ++ [k]) lost [] where
  sorted := by
    rw [List.pairwise_append]
    refine ⟨h.sorted, List.pairwise_singleton _ _, fun j hj x hx => ?_⟩
    have hlast := h.last k (List.mem_singleton_self k)
    have hlt : j < s.writes := List.mem_range.1 (h.all.subset (List.mem_append_left _ hj))
    -- each rank is there once
    have hne : j ≠ k := by
      have hnodup := h.all.nodup_iff.2 List.nodup_range
      exact (List.nodup_append.1 hnodup).2.2 j hj k (by simp)
    rw [List.mem_singleton.1 hx]
    omega
  all := by
    have hswap : (issued ++ [k] ++ (lost ++ [])).Perm (issued ++ (lost ++ [k])) := by
      rw [List.append_nil, List.append_assoc]
      exact List.perm_append_comm.append_left issued
    rw [hwrites]
    exact hswap.trans h.all
  issued_eq := by rw [hissued, h.issued_eq, List.map_append, List.map_singleton]
  lost_eq := hlost.trans h.lost_eq
  pending_eq := by rw [hpending]; rfl
  last := nofun

/-- The number that is held is lost. -/
theorem Ranks.lose {k : Nat} (h : Ranks defaultValue s issued lost [k]) (hwrites : s'.writes = s.writes)
    (hissued : s'.issued = s.issued) (hlost : s'.lost = s.lost ++ [seqNumber defaultValue k])
    (hpending : s'.pending = none) : Ranks defaultValue s' issued (lost ++ [k]) [] where
  sorted := h.sorted
  all := by
    rw [hwrites, List.append_nil]
    exact h.all
  issued_eq := hissued.trans h.issued_eq
  lost_eq := by rw [hlost, h.lost_eq, List.map_append, List.map_singleton]
  pending_eq := by rw [hpending]; rfl
  last := nofun

theorem seqNumber_succ (k : Nat) : (seqNumber defaultValue k + 1) % UINT64 = seqNumber defaultValue (k + 1) := by
  rw [seqNumber, seqNumber, Nat.mod_add_mod, Nat.add_assoc]

end Ranks

/-! ## Every move keeps the ranks -/

section Moves

variable {ι : Type} [DecidableEq ι] {defaultValue : Nat} {s : SeqFile ι}

omit [DecidableEq ι] in
/-- While no number is held, the lock is free to change. -/
theorem SeqFile.Sound.relock (h : s.Sound defaultValue) (hnone : s.pending = none) (lock : Option ι) :
    ({ s with lock := lock } : SeqFile ι).Sound defaultValue := by
  rcases h.ranks with ⟨issued, lost, pending, hranks⟩
  exact ⟨⟨issued, lost, pending, hranks.congr rfl rfl rfl rfl⟩, h.counter, h.fresh, fun _ => hnone⟩

omit [DecidableEq ι] in
/-- The number that is held is lost. -/
theorem SeqFile.Sound.drop (h : s.Sound defaultValue) {count : Nat} (hsome : s.pending = some count)
    (lock : Option ι) :
    ({ s with lock := lock, lost := s.lost ++ [count], pending := none } : SeqFile ι).Sound defaultValue := by
  rcases h.ranks with ⟨issued, lost, pending, hranks⟩
  rcases hranks.pending_singleton hsome with ⟨k, rfl, rfl, -⟩
  exact ⟨⟨issued, lost ++ [k], [], hranks.lose rfl rfl rfl rfl⟩, h.counter, h.fresh, fun _ => rfl⟩

/-- The end of a process that holds no number. -/
theorem release_quiet {i : ι} {t : PersistProc} (ht : t.number = none) :
    s.release i t = { s with lock := if s.lock = some i then none else s.lock } := by
  rw [SeqFile.release, ht, if_pos rfl, Option.toList_none, List.append_nil]

theorem sound_release (h : s.Sound defaultValue) {i : ι} {t : PersistProc} (ht : t.Holds i s) :
    (s.release i t).Sound defaultValue := by
  -- the lock of another process stays
  have hother : s.lock ≠ some i → ({ s with lock := if s.lock = some i then none else s.lock } : SeqFile ι) = s := by
    intro hne
    rw [if_neg hne]
  cases t with
  | closed =>
      rw [release_quiet rfl, hother ht]
      exact h
  | creating =>
      rw [release_quiet rfl, hother ht.1]
      exact h
  | opened =>
      rw [release_quiet rfl]
      by_cases hlock : s.lock = some i
      · exact h.relock (ht hlock) _
      · rw [hother hlock]
        exact h
  | locked =>
      rw [release_quiet rfl]
      exact h.relock ht.2 _
  | counted count =>
      rw [release_quiet rfl]
      exact h.relock ht.2.1 _
  | wrote count written =>
      cases written with
      | false =>
          rw [release_quiet rfl]
          exact h.relock ht.2.1 _
      | true => exact h.drop ht.2.1 _

theorem release_lock_ne {i : ι} {t : PersistProc} : (s.release i t).lock ≠ some i := by
  rw [SeqFile.release]
  split
  · exact fun h => by cases h
  next hne => exact hne

omit [DecidableEq ι] in
/-- What a process holds is not disturbed where the lock stays its own or not, and what it has found stays. -/
theorem PersistProc.Holds.mono {j : ι} {u : PersistProc} {s' : SeqFile ι} (h : u.Holds j s)
    (hlock : s'.lock = some j ↔ s.lock = some j) (hpending : s.lock = some j → s'.pending = s.pending)
    (hcontent : s.lock = some j → ∀ count, s.content = some (some count) → s'.content = some (some count))
    (hcreator : s.content = some none → s.creator = some j → s'.content = some none ∧ s'.creator = some j) :
    u.Holds j s' := by
  cases u with
  | closed => exact fun heq => h (hlock.1 heq)
  | creating => exact ⟨fun heq => h.1 (hlock.1 heq), hcreator h.2.1 h.2.2⟩
  | opened => exact fun heq => (hpending (hlock.1 heq)).trans (h (hlock.1 heq))
  | locked => exact ⟨hlock.2 h.1, (hpending h.1).trans h.2⟩
  | counted count => exact ⟨hlock.2 h.1, (hpending h.1).trans h.2.1, hcontent h.1 count h.2.2⟩
  | wrote count written =>
      rcases h.2.2 with ⟨next, hnext⟩
      exact ⟨hlock.2 h.1, (hpending h.1).trans h.2.1, next, hcontent h.1 next hnext⟩

omit [DecidableEq ι] in
/-- A process that has not locked the file, before and after, has nothing to lose. -/
theorem PersistProc.Holds.away {j : ι} {u : PersistProc} {s' : SeqFile ι} (h : u.Holds j s) (hne : s.lock ≠ some j)
    (hne' : s'.lock ≠ some j) (hcontent : s'.content = s.content) (hcreator : s'.creator = s.creator) :
    u.Holds j s' := by
  refine h.mono ⟨fun heq => absurd heq hne', fun heq => absurd heq hne⟩ (fun heq => absurd heq hne)
    (fun heq => absurd heq hne) (fun hnone hmine => ?_)
  rw [hcontent, hcreator]
  exact ⟨hnone, hmine⟩

/-- The end of a process that has not locked the file changes nothing. -/
theorem release_away {i : ι} {t : PersistProc} (ht : t.Holds i s) (hne : s.lock ≠ some i) : s.release i t = s := by
  have hquiet : t.number = none := by
    cases t with
    | wrote count written => exact absurd ht.1 hne
    | _ => rfl
  rw [release_quiet hquiet, if_neg hne]

theorem sound_move {i : ι} {t : PersistProc} {r : SeqFile ι × PersistProc} (hdefault : defaultValue < UINT64)
    (hmove : PersistMove defaultValue i (s, t) r) (h : s.Sound defaultValue) (ht : t.Holds i s) :
    r.1.Sound defaultValue := by
  cases hmove with
  | openFile hfile => exact h
  | createFile hfile =>
      rcases h.ranks with ⟨issued, lost, pending, hranks⟩
      -- no counter is there, before and after
      have hwrites : s.writes = 0 := h.fresh (fun count => by rw [hfile]; exact fun heq => by cases heq)
      refine ⟨⟨issued, lost, pending, hranks.congr rfl rfl rfl rfl⟩, fun count hcount => ?_, fun _ => hwrites, h.held⟩
      cases hcount
  | writeDefault =>
      rcases h.ranks with ⟨issued, lost, pending, hranks⟩
      have hwrites : s.writes = 0 := h.fresh (fun count => by rw [ht.2.1]; exact fun heq => by cases heq)
      refine ⟨⟨issued, lost, pending, hranks.congr rfl rfl rfl rfl⟩, fun count heq => ?_, fun _ => hwrites, h.held⟩
      cases heq
      rw [hwrites, seqNumber, Nat.add_zero, Nat.mod_eq_of_lt hdefault]
  | lockFile hlock =>
      -- a number is held by nobody, or by this process, which has returned it
      have hnone : s.pending = none := by
        rcases hlock with hfree | hmine
        · exact h.held hfree
        · exact ht hmine
      exact h.relock hnone _
  | readCount hcount => exact h
  | @writeCount _ count =>
      rcases h.ranks with ⟨issued, lost, pending, hranks⟩
      have hcount := h.counter count ht.2.2
      rw [hranks.pending_nil ht.2.1] at hranks
      subst hcount
      refine ⟨⟨issued, lost, [s.writes], hranks.write rfl rfl rfl rfl⟩, fun count heq => ?_, fun hno => ?_,
        fun hfree => ?_⟩
      · cases heq
        exact seqNumber_succ s.writes
      · exact absurd rfl (hno _)
      · have hmine := ht.1
        rw [show s.lock = none from hfree] at hmine
        cases hmine
  | notWritten => exact h
  | @issue _ count =>
      rcases h.ranks with ⟨issued, lost, pending, hranks⟩
      rcases hranks.pending_singleton ht.2.1 with ⟨k, rfl, rfl, -⟩
      exact ⟨⟨issued ++ [k], lost, [], hranks.issue rfl rfl rfl rfl⟩, h.counter, h.fresh, fun _ => rfl⟩
  | lose => exact h.drop ht.2.1 _
  | giveUp unlocked =>
      have hnone : s.pending = none := ht.2.1
      have hrelock := h.relock hnone (if unlocked then none else s.lock)
      rw [hnone] at hrelock
      exact hrelock
  | die => exact sound_release h ht

theorem holds_move {i : ι} {t : PersistProc} {r : SeqFile ι × PersistProc}
    (hmove : PersistMove defaultValue i (s, t) r) (h : s.Sound defaultValue) (ht : t.Holds i s) :
    r.2.Holds i r.1 := by
  cases hmove with
  | openFile hfile => exact fun hlock => absurd hlock ht
  | createFile hfile => exact ⟨ht, rfl, rfl⟩
  | writeDefault => exact fun hlock => absurd hlock ht.1
  | lockFile hlock =>
      refine ⟨rfl, ?_⟩
      rcases hlock with hfree | hmine
      · exact h.held hfree
      · exact ht hmine
  | readCount hcount => exact ⟨ht.1, ht.2, hcount⟩
  | writeCount => exact ⟨ht.1, rfl, _, rfl⟩
  | notWritten => exact ⟨ht.1, ht.2.1, _, ht.2.2⟩
  | issue => exact fun _ => rfl
  | lose => exact fun _ => rfl
  | giveUp unlocked => exact fun _ => rfl
  | die => exact release_lock_ne

theorem holds_other {i j : ι} {t u : PersistProc} {r : SeqFile ι × PersistProc}
    (hmove : PersistMove defaultValue i (s, t) r) (ht : t.Holds i s) (hji : j ≠ i) (hu : u.Holds j s) :
    u.Holds j r.1 := by
  -- what is locked by `i` is not locked by `j`
  have hnot : s.lock = some i → s.lock ≠ some j := by
    intro hmine hother
    rw [hmine] at hother
    exact hji (Option.some.inj hother).symm
  cases hmove with
  | openFile hfile => exact hu
  | createFile hfile =>
      refine hu.mono Iff.rfl (fun _ => rfl) (fun _ count hcount => ?_) (fun hnone _ => ?_)
      · rw [hfile] at hcount
        cases hcount
      · rw [hfile] at hnone
        cases hnone
  | writeDefault =>
      refine hu.mono Iff.rfl (fun _ => rfl) (fun _ count hcount => ?_) (fun _ hmine => ?_)
      · rw [ht.2.1] at hcount
        cases hcount
      · rw [ht.2.2] at hmine
        exact absurd (Option.some.inj hmine).symm hji
  | lockFile hlock =>
      refine hu.mono ⟨fun heq => ?_, fun heq => ?_⟩ (fun _ => rfl) (fun _ _ => id) (fun hnone hmine => ⟨hnone, hmine⟩)
      · exact absurd (Option.some.inj heq).symm hji
      · rcases hlock with hfree | hmine
        · rw [hfree] at heq
          cases heq
        · exact absurd heq (hnot hmine)
  | readCount hcount => exact hu
  | writeCount =>
      refine hu.mono Iff.rfl (fun hmine => absurd hmine (hnot ht.1)) (fun hmine => absurd hmine (hnot ht.1))
        (fun hnone _ => ?_)
      rw [ht.2.2] at hnone
      cases hnone
  | notWritten => exact hu
  | issue => exact hu.away (hnot ht.1) (fun heq => by cases heq) rfl rfl
  | lose => exact hu.away (hnot ht.1) (hnot ht.1) rfl rfl
  | giveUp unlocked =>
      refine hu.away (hnot ht.1) (fun heq => ?_) rfl rfl
      cases unlocked with
      | false => exact hnot ht.1 heq
      | true => cases heq
  | die =>
      by_cases hmine : s.lock = some i
      · refine hu.away (hnot hmine) (fun heq => ?_) rfl rfl
        rw [SeqFile.release, if_pos hmine] at heq
        cases heq
      · rw [release_away ht hmine]
        exact hu

theorem persist_steady (hdefault : defaultValue < UINT64) :
    World.Steady (PersistMove (ι := ι) defaultValue) (SeqFile.Sound defaultValue) (fun i s t => t.Holds i s) where
  shared := fun _ _ _ _ hmove h ht => sound_move hdefault hmove h ht
  own := fun _ _ _ _ hmove h ht => holds_move hmove h ht
  others := fun _ _ _ _ hmove _ ht _ hji _ hu => holds_other hmove ht hji hu

theorem persist_run (hdefault : defaultValue < UINT64) {w : World ι (SeqFile ι) PersistProc}
    (hrun : PersistRun defaultValue w) :
    w.shared.Sound defaultValue ∧ ∀ i, (w.threads i).Holds i w.shared := by
  have hmoves : World.Run (PersistMove defaultValue) persistStart w :=
    World.Run.mono (fun i a b ⟨call, hstep⟩ => persistMove_of_step defaultValue hstep) hrun
  have hstart : (persistStart (ι := ι)).shared.Sound defaultValue := by
    refine ⟨⟨[], [], [], .nil, .refl _, rfl, rfl, rfl, fun k hk => ?_⟩, fun count hcount => ?_, fun _ => rfl,
      fun _ => rfl⟩
    · cases hk
    · cases hcount
  exact hmoves.invariant (persist_steady hdefault) hstart (fun i hlock => by cases hlock)

end Moves

/-! ## What a sequence gives -/

section Sequence

variable {ι : Type} {defaultValue : Nat}

theorem seqNumber_injOn {k l n : Nat} (hn : n ≤ UINT64) (hk : k < n) (hl : l < n)
    (h : seqNumber defaultValue k = seqNumber defaultValue l) : k = l := by
  have hmod : k ≡ l [MOD UINT64] := Nat.ModEq.add_left_cancel' defaultValue h
  exact hmod.eq_of_lt_of_lt (by omega) (by omega)

theorem Ranks.mem_lt {s : SeqFile ι} {issued lost pending : List Nat}
    (h : Ranks defaultValue s issued lost pending) {k : Nat} (hk : k ∈ issued) : k < s.writes :=
  List.mem_range.1 (h.all.subset (List.mem_append_left _ hk))

theorem Ranks.issued_nodup {s : SeqFile ι} {issued lost pending : List Nat}
    (h : Ranks defaultValue s issued lost pending) (hwrites : s.writes ≤ UINT64) : s.issued.Nodup := by
  rw [h.issued_eq]
  refine List.Nodup.map_on (fun k hk l hl heq => ?_) (h.sorted.imp Nat.ne_of_lt)
  exact seqNumber_injOn hwrites (h.mem_lt hk) (h.mem_lt hl) heq

theorem Ranks.issued_increasing {s : SeqFile ι} {issued lost pending : List Nat}
    (h : Ranks defaultValue s issued lost pending) (hwrites : defaultValue + s.writes ≤ UINT64) :
    s.issued.Pairwise (· < ·) := by
  rw [h.issued_eq, List.pairwise_map]
  refine h.sorted.imp_of_mem (fun hk hl hlt => ?_)
  -- nothing wraps
  have hk' := h.mem_lt hk
  have hl' := h.mem_lt hl
  rw [seqNumber, seqNumber, Nat.mod_eq_of_lt (by omega), Nat.mod_eq_of_lt (by omega)]
  omega

theorem Ranks.numbers {s : SeqFile ι} {issued lost pending : List Nat}
    (h : Ranks defaultValue s issued lost pending) :
    (s.issued ++ (s.lost ++ s.pending.toList)).Perm ((List.range s.writes).map (seqNumber defaultValue)) := by
  rw [h.issued_eq, h.lost_eq, h.pending_eq, ← List.map_append, ← List.map_append]
  exact h.all.map _

/-- A process is between the lock and its release. -/
def PersistProc.Inside : PersistProc → Prop
  | .locked | .counted _ | .wrote _ _ => True
  | _ => False

theorem PersistProc.Holds.lock_of_inside {i : ι} {s : SeqFile ι} {t : PersistProc} (h : t.Holds i s)
    (ht : t.Inside) : s.lock = some i := by
  cases t with
  | locked => exact h.1
  | counted count => exact h.1
  | wrote count written => exact h.1
  | closed | creating | opened => exact ht.elim

variable [DecidableEq ι]

/-- Any processes take numbers from the file, in any order, fail and die anywhere.  Then no number is given out twice
before the counter was written `2 ^ 64` times, later numbers are larger until it wraps, no two processes are between
the lock and its release, and what was given out, what was lost and what is held are together the first numbers. -/
theorem sequence_numbers (hdefault : defaultValue < UINT64) {w : World ι (SeqFile ι) PersistProc}
    (hrun : PersistRun defaultValue w) :
    (w.shared.writes ≤ UINT64 → w.shared.issued.Nodup) ∧
    (defaultValue + w.shared.writes ≤ UINT64 → w.shared.issued.Pairwise (· < ·)) ∧
    (w.shared.issued ++ (w.shared.lost ++ w.shared.pending.toList)).Perm
      ((List.range w.shared.writes).map (seqNumber defaultValue)) ∧
    (∀ i j, (w.threads i).Inside → (w.threads j).Inside → i = j) := by
  rcases persist_run hdefault hrun with ⟨hsound, hholds⟩
  rcases hsound.ranks with ⟨issued, lost, pending, hranks⟩
  refine ⟨hranks.issued_nodup, hranks.issued_increasing, hranks.numbers, fun i j hi hj => ?_⟩
  have hlock := (hholds i).lock_of_inside hi
  rw [(hholds j).lock_of_inside hj] at hlock
  exact (Option.some.inj hlock).symm

/-- Two processes: the first creates the file and takes a number, the second dies with the next one, the first takes
another. -/
def samplePersist : World Bool (SeqFile Bool) PersistProc :=
  persistStart.play (persistStep 5)
    [(false, .createFile), (false, .writeDefault true), (true, .openFile), (false, .lockFile), (true, .lockFile),
      (false, .readCount), (false, .writeCount true), (false, .unlockFile true), (true, .lockFile), (true, .readCount),
      (true, .writeCount true), (true, .die), (false, .lockFile), (false, .readCount), (false, .writeCount true),
      (false, .unlockFile true)]

theorem sequence_numbers_sample :
    samplePersist.shared.issued = [5, 7] ∧ samplePersist.shared.lost = [6] ∧
    samplePersist.shared.issued.Nodup ∧ samplePersist.shared.issued.Pairwise (· < ·) ∧
    ([5, 7] ++ ([6] ++ [])).Perm [5, 6, 7] := by
  rcases sequence_numbers (w := samplePersist) (by decide) (World.run_play _ _ _) with ⟨hnodup, hsorted, hperm, -⟩
  exact ⟨rfl, rfl, hnodup (by decide), hsorted (by decide), hperm⟩

/-- A process that has found no counter yet, and has none to write. -/
def PersistProc.Waiting : PersistProc → Prop
  | .closed | .opened | .locked => True
  | _ => False

theorem waiting_steady :
    World.Steady (PersistMove (ι := ι) defaultValue) (fun s => s.content = some none ∧ s.issued = [])
      (fun _ _ t => t.Waiting) where
  shared := by
    intro i s t r hmove h ht
    cases hmove with
    | openFile | lockFile | readCount | die => exact h
    | createFile hfile =>
        rw [hfile] at h
        cases h.1
    | writeDefault | writeCount | notWritten | issue | lose | giveUp => exact ht.elim
  own := by
    intro i s t r hmove h ht
    cases hmove with
    | openFile | lockFile | die => exact trivial
    | createFile hfile =>
        rw [hfile] at h
        cases h.1
    | readCount hcount =>
        rw [h.1] at hcount
        cases hcount
    | writeDefault | writeCount | notWritten | issue | lose | giveUp => exact ht.elim
  others := fun _ _ _ _ _ _ _ _ _ _ hu => hu

/-- A process has created the file, and has stopped before it could write the first counter.  Whatever is done
then, the file stays empty, and no number is ever given out. -/
theorem sequence_stuck (hdefault : defaultValue < UINT64) {w w' : World ι (SeqFile ι) PersistProc}
    (hrun : PersistRun defaultValue w) (hfile : w.shared.content = some none)
    (hcreator : ∀ i, w.threads i ≠ .creating)
    (hmore : World.Run (fun i a b => ∃ call, persistStep defaultValue i call a = some b) w w') :
    w'.shared.content = some none ∧ w'.shared.issued = [] := by
  rcases persist_run hdefault hrun with ⟨hsound, hholds⟩
  rcases hsound.ranks with ⟨issued, lost, pending, hranks⟩
  have hwrites : w.shared.writes = 0 := hsound.fresh (fun count heq => by rw [hfile] at heq; cases heq)
  have hissued : w.shared.issued = [] := by
    have hnumbers := hranks.numbers
    rw [hwrites] at hnumbers
    exact (List.append_eq_nil_iff.1 hnumbers.eq_nil).1
  have hwaiting : ∀ i, (w.threads i).Waiting := by
    intro i
    have hi := hholds i
    cases ht : w.threads i with
    | closed | opened | locked => exact trivial
    | creating => exact absurd ht (hcreator i)
    | counted count =>
        rw [ht, PersistProc.Holds, hfile] at hi
        cases hi.2.2
    | wrote count written =>
        rw [ht, PersistProc.Holds, hfile] at hi
        rcases hi.2.2 with ⟨next, hnext⟩
        cases hnext
  have hmoves : World.Run (PersistMove defaultValue) w w' :=
    World.Run.mono (fun i a b ⟨call, hstep⟩ => persistMove_of_step defaultValue hstep) hmore
  exact (hmoves.invariant waiting_steady ⟨hfile, hissued⟩ hwaiting).1

/-- The disk is full when the first process writes its counter. -/
def sampleStuck : World Bool (SeqFile Bool) PersistProc :=
  persistStart.play (persistStep 5) [(false, .createFile), (true, .openFile), (false, .writeDefault false)]

/-- Both try again, and die where they read the counter. -/
def sampleStuckAgain : World Bool (SeqFile Bool) PersistProc :=
  sampleStuck.play (persistStep 5)
    [(true, .lockFile), (true, .readCount), (false, .openFile), (false, .lockFile), (false, .readCount)]

theorem sequence_stuck_sample :
    sampleStuckAgain.shared.content = some none ∧ sampleStuckAgain.shared.issued = [] :=
  sequence_stuck (w := sampleStuck) (by decide) (World.run_play _ _ _) rfl (by decide) (World.run_play _ _ _)

end Sequence

end Scambio
