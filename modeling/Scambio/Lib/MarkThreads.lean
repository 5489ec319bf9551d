import Scambio.Library.Splice
import Mathlib.Tactic.MkIffOfInductiveProp

/-!
# MarkThreads — the lists that the mark index keeps

The `last_mark` of an index entry is both the head of the list of marks of its version and the link to
the next mark of the version that it marks itself.  A new mark is put right after its target, so each
version is followed by its marks, newest first, but each mark is followed by its own marks, and the
last one by whatever followed the version.

`Threads` is the invariant: what is met from each version, and `MarksListed` tells exactly when that
is the list of its marks.
-/

namespace Scambio

open Library

/-! ## Entries -/

/-- What the creation of a version means for the marks: the version it is a mark of, and the version
after which the index puts it, 0 for none. -/
structure MarkEntry where
  target : Int
  link : Int
  deriving DecidableEq, Repr

/-- The versions of the marks of `t`, newest first. -/
def marksIn (E : List MarkEntry) (t : Int) : List Int :=
  (((E.zipIdx 1).filter fun x => decide (x.1.target = t)).map fun x => (x.2 : Int)).reverse

/-- The index puts version `w` after version `p`. -/
def Linked (E : List MarkEntry) (p w : Int) : Prop :=
  ∃ i e, E[i]? = some e ∧ w = ((i + 1 : Nat) : Int) ∧ e.link = p ∧ p ≠ 0

/-- Nothing follows the marks of `v`: it was put nowhere, or it is the oldest mark of a version that
is so itself. -/
inductive Oldest (K : Int → Int → Prop) : Int → Prop
  | root {v : Int} : (∀ p, ¬ K p v) → Oldest K v
  | first {p v : Int} : K p v → (∀ w, K p w → v ≤ w) → Oldest K p → Oldest K v

/-- The marks of `t` are what the index puts after `t`, none of them is marked, and nothing else
follows. -/
@[mk_iff]
structure MarksListed (E : List MarkEntry) (t : Int) : Prop where
  linked : ∀ w ∈ marksIn E t, Linked E t w
  added : ∀ w, Linked E t w → w ∈ marksIn E t
  leaves : ∀ x ∈ marksIn E t, ∀ w, ¬ Linked E x w
  oldest : Oldest (Linked E) t

/-- Links go to earlier versions, and a mark is put after its own target. -/
def EntriesOk (E : List MarkEntry) : Prop :=
  ∀ (i : Nat) (e : MarkEntry), E[i]? = some e → e.link ≠ 0 →
    1 ≤ e.link ∧ e.link ≤ i ∧ (e.target = e.link ∨ e.target = 0)

/-! ## One more entry -/

section Snoc

variable {E : List MarkEntry} {e : MarkEntry} {p v w x : Int}

theorem mem_marksIn {t : Int} :
    x ∈ marksIn E t ↔ ∃ i e, E[i]? = some e ∧ x = ((i + 1 : Nat) : Int) ∧ e.target = t := by
  simp only [marksIn, List.mem_reverse, List.mem_map, List.mem_filter, decide_eq_true_eq, Prod.exists,
    List.mk_mem_zipIdx_iff_le_and_getElem?_sub]
  constructor
  · rintro ⟨e, k, ⟨⟨hk, hget⟩, htgt⟩, rfl⟩
    exact ⟨k - 1, e, hget, by omega, htgt⟩
  · rintro ⟨i, e, hget, rfl, htgt⟩
    exact ⟨e, i + 1, ⟨⟨by omega, by simpa using hget⟩, htgt⟩, rfl⟩

theorem marksIn_snoc (t : Int) :
    marksIn (E ++ [e]) t =
      if e.target = t then ((E.length + 1 : Nat) : Int) :: marksIn E t else marksIn E t := by
  by_cases ht : e.target = t
  · simp [marksIn, List.zipIdx_append, ht, Nat.add_comm]
  · simp [marksIn, List.zipIdx_append, ht]

theorem marksIn_le {t : Int} (h : x ∈ marksIn E t) : x ≤ E.length := by
  rcases mem_marksIn.1 h with ⟨i, e, hget, rfl, -⟩
  have := (List.getElem?_eq_some_iff.1 hget).1
  omega

theorem linked_snoc :
    Linked (E ++ [e]) p x ↔
      Linked E p x ∨ (x = ((E.length + 1 : Nat) : Int) ∧ e.link = p ∧ p ≠ 0) := by
  constructor
  · rintro ⟨i, f, hget, rfl, hlink, hp⟩
    by_cases hi : i < E.length
    · rw [List.getElem?_append_left hi] at hget
      exact .inl ⟨i, f, hget, rfl, hlink, hp⟩
    · have hlt := (List.getElem?_eq_some_iff.1 hget).1
      simp only [List.length_append, List.length_singleton] at hlt
      have hie : i = E.length := by omega
      subst hie
      simp only [List.getElem?_concat_length, Option.some.injEq] at hget
      subst hget
      exact .inr ⟨rfl, hlink, hp⟩
  · rintro (⟨i, f, hget, rfl, hlink, hp⟩ | ⟨rfl, hlink, hp⟩)
    · have hlt := (List.getElem?_eq_some_iff.1 hget).1
      exact ⟨i, f, by rw [List.getElem?_append_left hlt, hget], rfl, hlink, hp⟩
    · exact ⟨E.length, e, by simp, rfl, hlink, hp⟩

theorem EntriesOk.linked (h : EntriesOk E) (hl : Linked E p x) : 1 ≤ p ∧ p < x ∧ x ≤ E.length := by
  rcases hl with ⟨i, e, hget, rfl, rfl, hp⟩
  have hlt := (List.getElem?_eq_some_iff.1 hget).1
  have hok := h i e hget hp
  omega

theorem EntriesOk.snoc (h : EntriesOk E)
    (he : e.link ≠ 0 → 1 ≤ e.link ∧ e.link ≤ E.length ∧ (e.target = e.link ∨ e.target = 0)) :
    EntriesOk (E ++ [e]) := by
  intro i f hget hne
  by_cases hi : i < E.length
  · rw [List.getElem?_append_left hi] at hget
    exact h i f hget hne
  · have hlt := (List.getElem?_eq_some_iff.1 hget).1
    simp only [List.length_append, List.length_singleton] at hlt
    have hie : i = E.length := by omega
    subst hie
    simp only [List.getElem?_concat_length, Option.some.injEq] at hget
    subst hget
    exact he hne

/-- A mark that is put somewhere is put after its target. -/
theorem EntriesOk.link_eq (h : EntriesOk E) {t : Int} (ht : t ≠ 0) (hx : x ∈ marksIn E t)
    (hl : Linked E p x) : p = t := by
  rcases mem_marksIn.1 hx with ⟨i, e, hget, rfl, rfl⟩
  rcases hl with ⟨k, f, hget', heq, rfl, hp⟩
  have hik : i = k := by omega
  subst hik
  rw [hget, Option.some.injEq] at hget'
  subst hget'
  rcases (h i e hget hp).2.2 with hok | hok
  · exact hok.symm
  · exact absurd hok ht

/-- A later link does not change what follows an earlier version. -/
theorem oldest_snoc (h : EntriesOk E) (hv : v ≤ E.length) :
    Oldest (Linked (E ++ [e])) v ↔ Oldest (Linked E) v := by
  constructor
  · intro ho
    induction ho with
    | root hroot => exact .root fun p hp => hroot p (linked_snoc.2 (.inl hp))
    | @first p v hlink hmin _ ih =>
        rcases linked_snoc.1 hlink with hlink | ⟨hv', -⟩
        · have hr := h.linked hlink
          exact .first hlink (fun w hw => hmin w (linked_snoc.2 (.inl hw))) (ih (by omega))
        · omega
  · intro ho
    induction ho with
    | @root v hroot =>
        refine .root fun p hp => ?_
        rcases linked_snoc.1 hp with hp | ⟨hv', -⟩
        · exact hroot p hp
        · omega
    | @first p v hlink hmin _ ih =>
        have hr := h.linked hlink
        refine .first (linked_snoc.2 (.inl hlink)) (fun w hw => ?_) (ih (by omega))
        rcases linked_snoc.1 hw with hw | ⟨rfl, -⟩
        · exact hmin w hw
        · omega

end Snoc

/-! ## Threads -/

/-- What is met from version `v`: only versions put after another one, the marks of `v` exactly when
they are well listed, and nothing at all when `v` has no mark and nothing follows. -/
structure ThreadOf (E : List MarkEntry) (v : Int) (l : List Int) : Prop where
  links : ∀ x ∈ l, ∃ p, Linked E p x
  marks : l = marksIn E v ↔ MarksListed E v
  empty : l = [] ↔ (∀ w, ¬ Linked E v w) ∧ Oldest (Linked E) v

structure Threads (next : Int → Option Int) (E : List MarkEntry) : Prop where
  ok : EntriesOk E
  walk : ∀ v : Int, 1 ≤ v → v ≤ E.length → ∃ l, Walk next v l ∧ ThreadOf E v l

section Step

variable {E : List MarkEntry} {e : MarkEntry} {v : Int} {l : List Int}
  {next next' : Int → Option Int}

theorem ThreadOf.not_mem (hok : EntriesOk E) (h : ThreadOf E v l) :
    ((E.length + 1 : Nat) : Int) ∉ l := by
  intro hw
  rcases h.links _ hw with ⟨p, hp⟩
  have := hok.linked hp
  omega

theorem not_mem_marksIn (t : Int) : ((E.length + 1 : Nat) : Int) ∉ marksIn E t := by
  intro hw
  have := marksIn_le hw
  omega

theorem MarksListed.of_nil {t : Int} (hnil : ∀ w ∈ marksIn E t, Linked E t w)
    (hnone : ∀ w, ¬ Linked E t w) (hold : Oldest (Linked E) t) : MarksListed E t :=
  ⟨hnil, fun w hw => absurd hw (hnone w), fun x hx => absurd (hnil x hx) (hnone x), hold⟩

theorem marksIn_eq_nil_iff {t : Int} (hnone : ∀ w, ¬ Linked E t w) :
    marksIn E t = [] ↔ ∀ w ∈ marksIn E t, Linked E t w := by
  rw [List.eq_nil_iff_forall_not_mem]
  exact forall_congr' fun w => ⟨fun h hw => absurd hw h, fun h hw => hnone w (h hw)⟩

theorem linked_snoc_unlinked (he : e.link = 0) : Linked (E ++ [e]) = Linked E := by
  funext p x
  refine propext (linked_snoc.trans ⟨?_, .inl⟩)
  rintro (hl | ⟨-, rfl, hp⟩)
  · exact hl
  · exact absurd he hp

/-- A version that is put nowhere leaves the threads as they are. -/
theorem ThreadOf.unlinked (hok : EntriesOk E) (he : e.link = 0) (h : ThreadOf E v l) :
    ThreadOf (E ++ [e]) v l := by
  have hK := linked_snoc_unlinked (E := E) he
  refine ⟨by rw [hK]; exact h.links, ?_, by rw [hK]; exact h.empty⟩
  by_cases ht : e.target = v
  · -- a mark of `v` that is not in its list
    rw [marksIn_snoc, if_pos ht]
    constructor
    · rintro rfl
      exact absurd List.mem_cons_self (h.not_mem hok)
    · intro hm
      have hl := hm.linked ((E.length + 1 : Nat) : Int) (by rw [marksIn_snoc, if_pos ht]; simp)
      rw [hK] at hl
      have := hok.linked hl
      omega
  · rw [marksListed_iff, hK, marksIn_snoc, if_neg ht, ← marksListed_iff]
    exact h.marks

theorem ThreadOf.fresh (hok : EntriesOk E) (he : e.link = 0) :
    ThreadOf (E ++ [e]) ((E.length + 1 : Nat) : Int) [] := by
  have hK := linked_snoc_unlinked (E := E) he
  have hnone : ∀ x, ¬ Linked (E ++ [e]) ((E.length + 1 : Nat) : Int) x := by
    intro x hx
    rw [hK] at hx
    have := hok.linked hx
    omega
  have hroot : Oldest (Linked (E ++ [e])) ((E.length + 1 : Nat) : Int) := by
    refine .root fun p hp => ?_
    rw [hK] at hp
    have := hok.linked hp
    omega
  refine ⟨by simp, ?_, ⟨fun _ => ⟨hnone, hroot⟩, fun _ => rfl⟩⟩
  rw [eq_comm, marksIn_eq_nil_iff hnone]
  exact ⟨fun hnil => .of_nil hnil hnone hroot, fun hm => hm.linked⟩

/-- A new version that is put nowhere. -/
theorem Threads.unlinked (h : Threads next E) (he : e.link = 0)
    (hnext : ∀ v : Int, 1 ≤ v → v ≤ E.length → next' v = next v)
    (hnew : next' ((E.length + 1 : Nat) : Int) = none) : Threads next' (E ++ [e]) := by
  refine ⟨h.ok.snoc (fun hne => absurd he hne), fun v hlo hhi => ?_⟩
  simp only [List.length_append, List.length_singleton] at hhi
  by_cases hv : v ≤ E.length
  · rcases h.walk v hlo hv with ⟨l, hwalk, hth⟩
    refine ⟨l, hwalk.congr (hnext v hlo hv) fun x hx => ?_, hth.unlinked h.ok he⟩
    rcases hth.links x hx with ⟨p, hp⟩
    have := h.ok.linked hp
    exact hnext x (by omega) (by omega)
  · have hvw : v = ((E.length + 1 : Nat) : Int) := by omega
    subst hvw
    exact ⟨[], .stop hnew, ThreadOf.fresh h.ok he⟩

end Step

/-! ## A new mark -/

section Link

variable {E : List MarkEntry} {e : MarkEntry} {v : Int} {l : List Int}
  {next : Int → Option Int} (hok : EntriesOk E) (hlo : 1 ≤ e.link) (hhi : e.link ≤ E.length)
  (htgt : e.target = e.link ∨ e.target = 0)

include hlo in
theorem linked_snoc_linked {p x : Int} :
    Linked (E ++ [e]) p x ↔ Linked E p x ∨ (x = ((E.length + 1 : Nat) : Int) ∧ e.link = p) := by
  rw [linked_snoc]
  refine or_congr_right (and_congr_right fun _ => ⟨And.left, fun h => ⟨h, ?_⟩⟩)
  omega

include hlo in
theorem linked_snoc_of_ne {p x : Int} (hp : p ≠ e.link) :
    Linked (E ++ [e]) p x ↔ Linked E p x := by
  rw [linked_snoc_linked hlo]
  exact ⟨fun h => h.resolve_right fun hr => hp hr.2.symm, .inl⟩

include hlo in
theorem linked_snoc_last : Linked (E ++ [e]) e.link ((E.length + 1 : Nat) : Int) :=
  (linked_snoc_linked hlo).2 (.inr ⟨rfl, rfl⟩)

include hok hlo htgt hhi in
/-- The target is followed by the new mark, then by what followed it. -/
theorem ThreadOf.link_at (h : ThreadOf E e.link l) :
    ThreadOf (E ++ [e]) e.link (((E.length + 1 : Nat) : Int) :: l) := by
  have hlast := linked_snoc_last (E := E) hlo
  refine ⟨?_, ?_, ⟨fun hnil => by simp at hnil, fun hr => absurd hlast (hr.1 _)⟩⟩
  · intro x hx
    rcases List.mem_cons.1 hx with rfl | hx
    · exact ⟨_, hlast⟩
    · rcases h.links x hx with ⟨q, hq⟩
      exact ⟨q, linked_snoc.2 (.inl hq)⟩
  · rcases htgt with ht | ht
    · -- an addition: its version heads the list of the marks too
      have hmem : ∀ x, x ∈ marksIn (E ++ [e]) e.link ↔
          x = ((E.length + 1 : Nat) : Int) ∨ x ∈ marksIn E e.link := by
        intro x
        rw [marksIn_snoc, if_pos ht, List.mem_cons]
      rw [marksIn_snoc, if_pos ht, List.cons.injEq, and_iff_right rfl, h.marks]
      constructor
      · intro hm
        refine ⟨?_, ?_, ?_, (oldest_snoc hok hhi).2 hm.oldest⟩
        · intro x hx
          rcases (hmem x).1 hx with rfl | hx
          · exact hlast
          · exact linked_snoc.2 (.inl (hm.linked x hx))
        · intro x hx
          rcases (linked_snoc_linked hlo).1 hx with hx | ⟨rfl, -⟩
          · exact (hmem x).2 (.inr (hm.added x hx))
          · exact (hmem _).2 (.inl rfl)
        · intro x hx y hy
          rcases (hmem x).1 hx with rfl | hx
          · rw [linked_snoc_of_ne hlo (by omega)] at hy
            have := hok.linked hy
            omega
          · have hr := hok.linked (hm.linked x hx)
            rw [linked_snoc_of_ne hlo (by omega)] at hy
            exact hm.leaves x hx y hy
      · intro hm
        refine ⟨?_, ?_, ?_, (oldest_snoc hok hhi).1 hm.oldest⟩
        · intro x hx
          have hle := marksIn_le hx
          exact ((linked_snoc_linked hlo).1 (hm.linked x ((hmem x).2 (.inr hx)))).resolve_right
            fun hr => by omega
        · intro x hx
          have hr := hok.linked hx
          exact ((hmem x).1 (hm.added x (linked_snoc.2 (.inl hx)))).resolve_left (by omega)
        · intro x hx y hy
          exact hm.leaves x ((hmem x).2 (.inr hx)) y (linked_snoc.2 (.inl hy))
    · -- a removal: it is no mark of its target
      rw [marksIn_snoc, if_neg (by omega)]
      constructor
      · intro heq
        exact absurd (heq ▸ List.mem_cons_self) (not_mem_marksIn e.link)
      · intro hm
        have hx := hm.added _ hlast
        rw [marksIn_snoc, if_neg (by omega)] at hx
        exact absurd hx (not_mem_marksIn e.link)

include hok hlo htgt hhi in
/-- The new mark is followed by what followed its target. -/
theorem ThreadOf.link_new (h : ThreadOf E e.link l) :
    ThreadOf (E ++ [e]) ((E.length + 1 : Nat) : Int) l := by
  have hnone : ∀ x, ¬ Linked (E ++ [e]) ((E.length + 1 : Nat) : Int) x := by
    intro x hx
    rw [linked_snoc_of_ne hlo (by omega)] at hx
    have := hok.linked hx
    omega
  have hold : Oldest (Linked (E ++ [e])) ((E.length + 1 : Nat) : Int) ↔ l = [] := by
    rw [h.empty]
    constructor
    · intro ho
      cases ho with
      | root hroot => exact absurd (linked_snoc_last hlo) (hroot _)
      | @first p _ hlink hmin hp =>
          rcases (linked_snoc_linked hlo).1 hlink with hlink | ⟨-, rfl⟩
          · have := hok.linked hlink
            omega
          · refine ⟨fun x hx => ?_, (oldest_snoc hok hhi).1 hp⟩
            have hx1 := hok.linked hx
            have hx2 := hmin x (linked_snoc.2 (.inl hx))
            omega
    · rintro ⟨hno, hp⟩
      refine .first (linked_snoc_last hlo) (fun x hx => ?_) ((oldest_snoc hok hhi).2 hp)
      rcases (linked_snoc_linked hlo).1 hx with hx | ⟨rfl, -⟩
      · exact absurd hx (hno x)
      · exact Int.le_refl _
  refine ⟨?_, ?_, ⟨fun hl => ⟨hnone, hold.2 hl⟩, fun hr => hold.1 hr.2⟩⟩
  · intro x hx
    rcases h.links x hx with ⟨q, hq⟩
    exact ⟨q, linked_snoc.2 (.inl hq)⟩
  · constructor
    · intro heq
      have hnil : l = [] := by
        refine List.eq_nil_iff_forall_not_mem.2 fun x hx => ?_
        rcases h.links x hx with ⟨q, hq⟩
        rw [heq, marksIn_snoc, if_neg (by omega)] at hx
        -- an earlier mark of a version that was not there is in no list
        have hqw := hok.link_eq (by omega) hx hq
        have := hok.linked hq
        omega
      rw [hnil] at heq
      exact .of_nil ((marksIn_eq_nil_iff hnone).1 heq.symm) hnone (hold.2 hnil)
    · intro hm
      rw [hold.1 hm.oldest, (marksIn_eq_nil_iff hnone).2 hm.linked]

include hok hlo htgt in
/-- The marks of another version than the target, by the same links. -/
theorem marksListed_snoc_iff (hv : 1 ≤ v) (hle : v ≤ E.length) (hne : v ≠ e.link) :
    MarksListed (E ++ [e]) v ↔ MarksListed E v ∧ e.link ∉ marksIn E v := by
  have hM : marksIn (E ++ [e]) v = marksIn E v := by
    rw [marksIn_snoc, if_neg (by omega)]
  have hK : ∀ x, Linked (E ++ [e]) v x ↔ Linked E v x := fun x => linked_snoc_of_ne hlo hne
  rw [marksListed_iff, marksListed_iff, hM, oldest_snoc hok hle]
  simp only [hK]
  constructor
  · rintro ⟨hlinked, hadded, hleaves, hold⟩
    refine ⟨⟨hlinked, hadded, ?_, hold⟩, fun hp => hleaves _ hp _ (linked_snoc_last hlo)⟩
    exact fun x hx y hy => hleaves x hx y (linked_snoc.2 (.inl hy))
  · rintro ⟨⟨hlinked, hadded, hleaves, hold⟩, hp⟩
    refine ⟨hlinked, hadded, fun x hx y hy => ?_, hold⟩
    rw [linked_snoc_of_ne hlo (fun hxp => hp (hxp ▸ hx))] at hy
    exact hleaves x hx y hy

include hok hlo htgt in
theorem ThreadOf.link_other (hv : 1 ≤ v) (hle : v ≤ E.length) (hne : v ≠ e.link) (hl : e.link ∉ l)
    (h : ThreadOf E v l) : ThreadOf (E ++ [e]) v l := by
  refine ⟨?_, ?_, ?_⟩
  · intro x hx
    rcases h.links x hx with ⟨q, hq⟩
    exact ⟨q, linked_snoc.2 (.inl hq)⟩
  · rw [marksListed_snoc_iff hok hlo htgt hv hle hne, ← h.marks, marksIn_snoc, if_neg (by omega)]
    exact ⟨fun heq => ⟨heq, heq ▸ hl⟩, And.left⟩
  · simp only [oldest_snoc hok hle, linked_snoc_of_ne hlo hne]
    exact h.empty

include hok hlo htgt in
/-- A thread through the target goes through the new mark, that is no mark of its version. -/
theorem ThreadOf.link_through (hv : 1 ≤ v) (hle : v ≤ E.length) (hne : v ≠ e.link) (hl : e.link ∈ l)
    (h : ThreadOf E v l) {l' : List Int} (hmem : ((E.length + 1 : Nat) : Int) ∈ l')
    (hsub : ∀ x ∈ l', x = ((E.length + 1 : Nat) : Int) ∨ x ∈ l) : ThreadOf (E ++ [e]) v l' := by
  refine ⟨?_, ?_, ?_⟩
  · intro x hx
    rcases hsub x hx with rfl | hx
    · exact ⟨_, linked_snoc_last hlo⟩
    · rcases h.links x hx with ⟨q, hq⟩
      exact ⟨q, linked_snoc.2 (.inl hq)⟩
  · rw [marksListed_snoc_iff hok hlo htgt hv hle hne, ← h.marks, marksIn_snoc, if_neg (by omega)]
    constructor
    · intro heq
      exact absurd (heq ▸ hmem) (not_mem_marksIn v)
    · rintro ⟨heq, hp⟩
      exact absurd (heq ▸ hl) hp
  · simp only [oldest_snoc hok hle, linked_snoc_of_ne hlo hne, ← h.empty]
    constructor
    · rintro rfl
      simp at hmem
    · rintro rfl
      simp at hl

include hlo hhi htgt in
/-- A new version that is put after its target. -/
theorem Threads.linked (h : Threads next E) :
    Threads (splice next e.link ((E.length + 1 : Nat) : Int)) (E ++ [e]) := by
  have hpw : e.link ≠ ((E.length + 1 : Nat) : Int) := by omega
  rcases h.walk e.link hlo hhi with ⟨lp, hwalkp, hthp⟩
  have hwp := hthp.not_mem h.ok
  refine ⟨h.ok.snoc fun _ => ⟨hlo, hhi, htgt⟩, fun v hv hle => ?_⟩
  simp only [List.length_append, List.length_singleton] at hle
  by_cases hvw : v = ((E.length + 1 : Nat) : Int)
  · subst hvw
    exact ⟨lp, hwalkp.splice_new hwp, hthp.link_new h.ok hlo hhi htgt⟩
  · have hle' : v ≤ E.length := by omega
    by_cases hvp : v = e.link
    · subst hvp
      exact ⟨_, hwalkp.splice_at hpw hwp, hthp.link_at h.ok hlo hhi htgt⟩
    · rcases h.walk v hv hle' with ⟨l, hwalk, hth⟩
      have hw := hth.not_mem h.ok
      by_cases hpl : e.link ∈ l
      · rcases hwalk.splice_of_mem hpw hvw hpl hw with ⟨l', hwalk', hmem, hsub⟩
        exact ⟨l', hwalk', hth.link_through h.ok hlo htgt hv hle' hvp hpl hmem hsub⟩
      · exact ⟨l, hwalk.splice_of_not_mem hvp hvw hpl hw,
          hth.link_other h.ok hlo htgt hv hle' hvp hpl⟩

end Link

end Scambio
