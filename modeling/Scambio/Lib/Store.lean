import Scambio.Lib.JournalLayout
import Scambio.Lib.Mdir

/-!
# Store — the journals of a mdir as one list of slots

A mdir is meant to be one sequence of patches numbered from 1, whatever journals they lie in.  Here
the contents of the journals are `parts : List (List Slot)` and the sequence is their concatenation.

* `layout`     : which part the files of a given stem hold;
* `OnDisk`     : the directory holds exactly the given parts;
* `Laid`       : so does the list of journals in memory;
* `Rep`        : moreover, everything stays in the range of the C types.

Reading, finding and appending are then described on the concatenation alone.
-/

namespace Scambio

open Library

/-! ## Parts and their journals -/

/-- The journal that starts at version `v` and holds `p`. -/
def partJnl (v : Nat) (p : List Slot) : Jnl :=
  { stem := jnlStem v, version := v, nbPatches := p.length }

def journalsOf : Nat → List (List Slot) → List Jnl
  | _, [] => []
  | v, p :: ps => partJnl v p :: journalsOf (v + p.length) ps

/-- The part kept in the files of a given stem. -/
def layout : Nat → List (List Slot) → Bytes → Option (List Slot)
  | _, [] => fun _ => none
  | v, p :: ps => Function.update (layout (v + p.length) ps) (jnlStem v) (some p)

/-- No part is empty: journals have distinct first versions. -/
def Full (ps : List (List Slot)) : Prop :=
  ∀ p ∈ ps, p ≠ []

theorem Full.tail {p : List Slot} {ps : List (List Slot)} (h : Full (p :: ps)) : Full ps :=
  fun q hq => h q (by simp [hq])

theorem Full.head_pos {p : List Slot} {ps : List (List Slot)} (h : Full (p :: ps)) : 0 < p.length :=
  List.length_pos_iff.2 (h p (by simp))

theorem jnlStem_injective {v w : Nat} (h : jnlStem v = jnlStem w) : v = w :=
  printPadded_injective h

theorem jnlStem_after {p : List Slot} {ps : List (List Slot)} (h : Full (p :: ps)) (v : Nat) :
    jnlStem ((v + (p :: ps).flatten.length : Nat)) ≠ jnlStem v := by
  intro he
  have hpos := h.head_pos
  have hv := jnlStem_injective he
  simp only [List.flatten_cons, List.length_append] at hv
  omega

theorem add_length_cons (v : Nat) (p : List Slot) (ps : List (List Slot)) :
    v + (p :: ps).flatten.length = v + p.length + ps.flatten.length := by
  simp [Nat.add_assoc]

theorem journalsOf_append (v : Nat) (ps qs : List (List Slot)) :
    journalsOf v (ps ++ qs) = journalsOf v ps ++ journalsOf (v + ps.flatten.length) qs := by
  induction ps generalizing v with
  | nil => simp [journalsOf]
  | cons p ps ih => simp [journalsOf, ih, Nat.add_assoc]

theorem journalsOf_append_nil (v : Nat) (ps : List (List Slot)) :
    journalsOf v (ps ++ [[]]) = journalsOf v ps ++ [partJnl (v + ps.flatten.length) []] := by
  rw [journalsOf_append]
  rfl

theorem mem_journalsOf {v : Nat} {ps : List (List Slot)} {j : Jnl} :
    j ∈ journalsOf v ps ↔
      ∃ ps₁ p ps₂, ps = ps₁ ++ p :: ps₂ ∧ j = partJnl (v + ps₁.flatten.length) p := by
  induction ps generalizing v with
  | nil => simp [journalsOf]
  | cons q ps ih =>
      constructor
      · intro hj
        rcases List.mem_cons.1 hj with rfl | hj
        · exact ⟨[], q, ps, rfl, rfl⟩
        · rcases ih.1 hj with ⟨ps₁, p, ps₂, rfl, rfl⟩
          exact ⟨q :: ps₁, p, ps₂, rfl, by simp [Nat.add_assoc]⟩
      · rintro ⟨ps₁, p, ps₂, heq, rfl⟩
        rcases ps₁ with _ | ⟨r, ps₁⟩
        · simp only [List.nil_append, List.cons.injEq] at heq
          simp [journalsOf, heq.1]
        · simp only [List.cons_append, List.cons.injEq] at heq
          refine List.mem_cons_of_mem _ (ih.2 ⟨ps₁, p, ps₂, heq.2, ?_⟩)
          simp [heq.1, Nat.add_assoc]

/-! ## Which files hold which part -/

theorem layout_fresh {ps : List (List Slot)} (hfull : Full ps) (v : Nat) :
    layout v ps (jnlStem ((v + ps.flatten.length : Nat))) = none := by
  induction ps generalizing v with
  | nil => rfl
  | cons p ps ih =>
      rw [layout, Function.update_of_ne (jnlStem_after hfull v), add_length_cons]
      exact ih hfull.tail _

theorem layout_at {ps₁ : List (List Slot)} (hfull : Full ps₁) (v : Nat) (p : List Slot)
    (ps₂ : List (List Slot)) :
    layout v (ps₁ ++ p :: ps₂) (jnlStem ((v + ps₁.flatten.length : Nat))) = some p := by
  induction ps₁ generalizing v with
  | nil => simp [layout]
  | cons q ps₁ ih =>
      rw [List.cons_append, layout, Function.update_of_ne (jnlStem_after hfull v), add_length_cons]
      exact ih hfull.tail _

/-- Replacing one part replaces its files and no other. -/
theorem layout_replace {ps₁ : List (List Slot)} (hfull : Full ps₁) (v : Nat) {p q : List Slot}
    {ps₂ : List (List Slot)} (hlen : q.length = p.length ∨ ps₂ = []) :
    layout v (ps₁ ++ q :: ps₂) = Function.update (layout v (ps₁ ++ p :: ps₂))
      (jnlStem ((v + ps₁.flatten.length : Nat))) (some q) := by
  induction ps₁ generalizing v with
  | nil =>
      have htail : layout (v + q.length) ps₂ = layout (v + p.length) ps₂ := by
        rcases hlen with hlen | rfl
        · rw [hlen]
        · rfl
      simp [layout, htail]
  | cons r ps₁ ih =>
      rw [List.cons_append, List.cons_append, layout, layout, ih hfull.tail, ← add_length_cons,
        Function.update_comm (jnlStem_after hfull v)]

/-- A new journal after all the others. -/
theorem layout_snoc {ps : List (List Slot)} (hfull : Full ps) (v : Nat) (p : List Slot) :
    layout v (ps ++ [p]) =
      Function.update (layout v ps) (jnlStem ((v + ps.flatten.length : Nat))) (some p) := by
  induction ps generalizing v with
  | nil => rfl
  | cons q ps ih =>
      rw [List.cons_append, layout, layout, ih hfull.tail, ← add_length_cons,
        Function.update_comm (jnlStem_after hfull v)]

/-! ## Positions in the concatenation -/

theorem exists_part {ps : List (List Slot)} {n : Nat} (h : n < ps.flatten.length) :
    ∃ ps₁ p ps₂ i, ps = ps₁ ++ p :: ps₂ ∧ i < p.length ∧ n = ps₁.flatten.length + i := by
  induction ps generalizing n with
  | nil => simp at h
  | cons q ps ih =>
      by_cases hn : n < q.length
      · exact ⟨[], q, ps, n, rfl, hn, by simp⟩
      · rw [List.flatten_cons, List.length_append] at h
        rcases ih (n := n - q.length) (by omega) with ⟨ps₁, p, ps₂, i, rfl, hi, heq⟩
        refine ⟨q :: ps₁, p, ps₂, i, rfl, hi, ?_⟩
        simp only [List.flatten_cons, List.length_append]
        omega

theorem getElem?_part (ps₁ : List (List Slot)) (p : List Slot) (ps₂ : List (List Slot)) {i : Nat}
    (hi : i < p.length) :
    (ps₁ ++ p :: ps₂).flatten[ps₁.flatten.length + i]? = p[i]? := by
  rw [List.flatten_append, List.getElem?_append_right (Nat.le_add_right _ _), Nat.add_sub_cancel_left,
    List.flatten_cons, List.getElem?_append_left hi]

theorem set_part (ps₁ : List (List Slot)) (p : List Slot) (ps₂ : List (List Slot)) {i : Nat}
    (hi : i < p.length) (s : Slot) :
    (ps₁ ++ p.set i s :: ps₂).flatten =
      (ps₁ ++ p :: ps₂).flatten.set (ps₁.flatten.length + i) s := by
  rw [List.flatten_append, List.flatten_append, List.set_append_right _ _ (Nat.le_add_right _ _),
    Nat.add_sub_cancel_left, List.flatten_cons, List.flatten_cons, List.set_append_left _ _ hi]

theorem partJnl_holds {v : Nat} {p : List Slot} {x : Int} :
    (partJnl v p).holds x = true ↔ (v : Int) ≤ x ∧ x < v + p.length := by
  exact decide_eq_true_iff

theorem find_journalsOf_none {v : Nat} {ps : List (List Slot)} {x : Int}
    (h : x < v ∨ (v + ps.flatten.length : Nat) ≤ x) :
    (journalsOf v ps).find? (fun j => j.holds x) = none := by
  rw [List.find?_eq_none]
  intro j hj hx
  rcases mem_journalsOf.1 hj with ⟨ps₁, p, ps₂, rfl, rfl⟩
  rw [partJnl_holds] at hx
  simp only [List.flatten_append, List.flatten_cons, List.length_append] at h
  omega

theorem find_journalsOf {v : Nat} {ps : List (List Slot)} {n : Nat} (h : n < ps.flatten.length) :
    ∃ j, (journalsOf v ps).find? (fun j => j.holds ((v + n : Nat) : Int)) = some j ∧
      j ∈ journalsOf v ps ∧ j.holds ((v + n : Nat) : Int) = true := by
  rcases exists_part h with ⟨ps₁, p, ps₂, i, rfl, hi, rfl⟩
  have hj : partJnl (v + ps₁.flatten.length) p ∈ journalsOf v (ps₁ ++ p :: ps₂) :=
    mem_journalsOf.2 ⟨ps₁, p, ps₂, rfl, rfl⟩
  have hx : (partJnl (v + ps₁.flatten.length) p).holds ((v + (ps₁.flatten.length + i) : Nat) : Int) = true := by
    rw [partJnl_holds]
    omega
  cases hfind : (journalsOf v (ps₁ ++ p :: ps₂)).find?
      (fun j => j.holds ((v + (ps₁.flatten.length + i) : Nat) : Int)) with
  | none => exact absurd hx (List.find?_eq_none.1 hfind _ hj)
  | some k => exact ⟨k, rfl, List.mem_of_find?_eq_some hfind, by simpa using List.find?_some hfind⟩

/-! ## The directory -/

/-- The directory holds the journals of the given parts and nothing else; only the last one may be
empty. -/
structure OnDisk (d : Disk) (ps : List (List Slot)) : Prop where
  log : d.log = fun stem => (layout 1 ps stem).map logBytes
  idx : d.idx = fun stem => (layout 1 ps stem).map idxBytes
  full : Full ps.dropLast

theorem map_update {α β : Type} [DecidableEq α] (f : α → Option (List Slot)) (g : List Slot → β)
    (a : α) (q : List Slot) :
    (fun x => (Function.update f a (some q) x).map g) =
      Function.update (fun x => (f x).map g) a (some (g q)) := by
  funext x
  by_cases hx : x = a
  · subst hx
    simp
  · simp [hx]

section OnDisk

variable {d : Disk} {ps ps₁ ps₂ : List (List Slot)} {p q : List Slot}

theorem OnDisk.full_before (h : OnDisk d (ps₁ ++ p :: ps₂)) : Full ps₁ := by
  have hfull := h.full
  rw [List.dropLast_append_of_ne_nil (by simp)] at hfull
  exact fun q hq => hfull q (by simp [hq])

theorem OnDisk.holds (h : OnDisk d (ps₁ ++ p :: ps₂)) :
    JnlHolds d (partJnl (1 + ps₁.flatten.length) p) p := by
  have hat := layout_at h.full_before 1 p ps₂
  refine ⟨?_, ?_, rfl⟩
  · rw [h.log]
    exact congrArg (Option.map logBytes) hat
  · rw [h.idx]
    exact congrArg (Option.map idxBytes) hat

theorem OnDisk.pay (h : OnDisk d ps) (n : Nat) : OnDisk (d.pay n) ps :=
  ⟨h.log, h.idx, h.full⟩

theorem OnDisk.put (h : OnDisk d (ps₁ ++ p :: ps₂)) (hlen : q.length = p.length ∨ ps₂ = []) :
    OnDisk (d.put (jnlStem ((1 + ps₁.flatten.length : Nat))) q) (ps₁ ++ q :: ps₂) := by
  have hlay := layout_replace h.full_before 1 hlen
  refine ⟨?_, ?_, ?_⟩
  · rw [hlay, map_update, ← h.log]
    rfl
  · rw [hlay, map_update, ← h.idx]
    rfl
  · have hfull := h.full
    rw [List.dropLast_append_of_ne_nil (by simp)] at hfull ⊢
    rcases ps₂ with _ | ⟨r, ps₂⟩
    · simpa using hfull
    · have hlen' : q.length = p.length := by simpa using hlen
      intro s hs
      simp only [List.dropLast_cons_cons, List.mem_append, List.mem_cons] at hs
      rcases hs with hs | rfl | hs
      · exact hfull s (by simp [hs])
      · have hp : p ≠ [] := hfull p (by simp)
        rw [← List.length_pos_iff] at hp ⊢
        omega
      · exact hfull s (by simp [hs])

/-- Opening the files of the journal that comes next. -/
theorem OnDisk.creat (h : OnDisk d ps) (hfull : Full ps) (hmay : d.mayCreat = true) :
    OnDisk (d.creat (jnlStem ((1 + ps.flatten.length : Nat)))) (ps ++ [[]]) := by
  have hnone := layout_fresh hfull 1
  have hsnoc := layout_snoc hfull 1 []
  generalize jnlStem ((1 + ps.flatten.length : Nat)) = stem at hnone hsnoc ⊢
  refine ⟨?_, ?_, by simpa using hfull⟩
  · rw [hsnoc, map_update, ← h.log]
    simp [Disk.creat, hmay, Disk.logOf, h.log, hnone]
  · rw [hsnoc, map_update, ← h.idx]
    simp [Disk.creat, hmay, Disk.idxOf, h.idx, hnone]

end OnDisk

/-! ## New journals -/

theorem parseVersion_jnlStem {v : Nat} (hv : v < 2 ^ 63) : parseVersion (jnlStem v) = .ok (v : Int) := by
  have hscan : strtoull (jnlStem v ++ ascii ".log") = (v, ascii ".log") :=
    strtoull_printPadded (by omega) (by decide +kernel)
  simp [parseVersion, hscan, toInt64_of_lt hv]

/-- A journal that starts after the end of all the others goes last. -/
theorem jnlInsert_last {j : Jnl} {js : List Jnl}
    (h : ∀ k ∈ js, k.version < j.version ∧ k.version + k.nbPatches ≤ j.version) :
    jnlInsert j js = some (js ++ [j]) := by
  induction js with
  | nil => rfl
  | cons k js ih =>
      have hk := h k (by simp)
      have hrest := ih fun l hl => h l (by simp [hl])
      rw [jnlInsert, if_neg (by omega), if_neg (by omega), hrest]
      rfl

theorem journalsOf_before {ps : List (List Slot)} (hfull : Full ps) {v : Nat} {k : Jnl}
    (hk : k ∈ journalsOf v ps) :
    k.version < ((v + ps.flatten.length : Nat) : Int) ∧
      k.version + k.nbPatches ≤ ((v + ps.flatten.length : Nat) : Int) := by
  rcases mem_journalsOf.1 hk with ⟨ps₁, p, ps₂, rfl, rfl⟩
  have hp : 0 < p.length := List.length_pos_iff.2 (hfull p (by simp))
  simp only [partJnl, List.flatten_append, List.flatten_cons, List.length_append]
  omega

/-- `jnl_new_empty` on the version that comes next. -/
theorem jnlNew_next {path : Bytes} {d : Disk} {ps : List (List Slot)} (h : OnDisk d ps)
    (hfull : Full ps) (hmay : d.mayCreat = true) (hv : 1 + ps.flatten.length < 2 ^ 63) :
    jnlNew path d (journalsOf 1 ps) (jnlStem ((1 + ps.flatten.length : Nat))) =
      (d.creat (jnlStem ((1 + ps.flatten.length : Nat))),
        .ok (journalsOf 1 (ps ++ [[]]), partJnl (1 + ps.flatten.length) [])) := by
  have hnone := layout_fresh hfull 1
  have hidx : (d.creat (jnlStem ((1 + ps.flatten.length : Nat)))).idxOf
      (jnlStem ((1 + ps.flatten.length : Nat))) = [] := by
    generalize jnlStem ((1 + ps.flatten.length : Nat)) = stem at hnone ⊢
    simp [Disk.creat, hmay, Disk.idxOf, h.idx, hnone]
  have hins := jnlInsert_last (j := partJnl (1 + ps.flatten.length) [])
    fun k hk => journalsOf_before hfull hk
  rw [← journalsOf_append_nil] at hins
  simp only [jnlNew, parseVersion_jnlStem hv, hidx]
  simp [fetchNbPatches, partJnl] at hins ⊢
  simp [hins]

end Scambio
