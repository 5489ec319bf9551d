import Scambio.Lib.Readback

/-!
# ReadNext — the next patch after a version (`mdir_read_next`)

On the slots of a mdir, `mdir_read_next` gives the first patch after the given version that is not
deleted; versions below the first one count as the one before it.
-/

namespace Scambio

open Library

/-! ## The journal of the next version -/

/-- Among consecutive journals, the first that holds a version or starts after it is the one that
holds it. -/
theorem next_journalsOf {v : Nat} {ps : List (List Slot)} {n : Nat} (h : n < ps.flatten.length) :
    (journalsOf v ps).find? (fun j => j.holds ((v + n : Nat) : Int) ||
        decide (j.version > ((v + n : Nat) : Int))) =
      (journalsOf v ps).find? fun j => j.holds ((v + n : Nat) : Int) := by
  induction ps generalizing v n with
  | nil => rfl
  | cons p ps ih =>
      have hversion : (partJnl v p).version = (v : Int) := rfl
      have hlate : decide ((partJnl v p).version > ((v + n : Nat) : Int)) = false := by
        rw [hversion, decide_eq_false_iff_not]
        omega
      by_cases hin : (partJnl v p).holds ((v + n : Nat) : Int) = true
      · simp only [journalsOf, List.find?_cons, hin, Bool.true_or]
      · have hout : (partJnl v p).holds ((v + n : Nat) : Int) = false := by simpa using hin
        simp only [journalsOf, List.find?_cons, hout, hlate, Bool.or_false]
        rw [partJnl_holds] at hin
        rw [List.flatten_cons, List.length_append] at h
        have hcast : v + n = v + p.length + (n - p.length) := by omega
        rw [hcast]
        exact ih (by omega)

theorem next_journalsOf_none {v : Nat} {ps : List (List Slot)} {x : Int}
    (h : ((v + ps.flatten.length : Nat) : Int) ≤ x) :
    (journalsOf v ps).find? (fun j => j.holds x || decide (j.version > x)) = none := by
  rw [List.find?_eq_none]
  intro j hj
  rcases mem_journalsOf.1 hj with ⟨ps₁, p, ps₂, rfl, rfl⟩
  have hlen : (ps₁ ++ p :: ps₂).flatten.length =
      ps₁.flatten.length + (p.length + ps₂.flatten.length) := by
    simp only [List.flatten_append, List.flatten_cons, List.length_append]
  rw [hlen] at h
  have hout : ¬ (partJnl (v + ps₁.flatten.length) p).holds x = true := by
    rw [partJnl_holds]
    omega
  have hlate : ¬ (partJnl (v + ps₁.flatten.length) p).version > x := by
    simp only [partJnl]
    omega
  rw [Bool.or_eq_true, decide_eq_true_eq]
  exact fun h => h.elim hout hlate

theorem sum_nbPatches (v : Nat) (ps : List (List Slot)) :
    ((journalsOf v ps).map Jnl.nbPatches).sum = ps.flatten.length := by
  induction ps generalizing v with
  | nil => rfl
  | cons p ps ih =>
      rw [journalsOf, List.map_cons, List.sum_cons, ih, List.flatten_cons, List.length_append]
      rfl

section Next

variable {maxJnlSize : Nat} {m : Mdir} {A : List Slot}

/-- There is no next version after the last one. -/
theorem Refines.getNextVersion_none (h : Refines maxJnlSize m A) {w : Int} (hw : (A.length : Int) ≤ w) :
    getNextVersion m w = none := by
  rcases h with ⟨ps, hrep, rfl⟩
  rw [getNextVersion, hrep.jnls, next_journalsOf_none (by push_cast; omega)]

/-- The next version is the one after, and its text is that of its slot. -/
theorem Refines.getNextVersion_some [Host] (hmax : maxJnlSize < 2 ^ 32) (h : Refines maxJnlSize m A)
    {n : Nat} {r : Bytes} (hr : (records A)[n]? = some r) {w : Int}
    (hw : w = n ∨ n = 0 ∧ w < 0) :
    ∃ j, getNextVersion m w = some (((1 + n : Nat) : Int), j) ∧
      (jnlReadText m.disk j (((1 + n : Nat) : Int) - j.version).toNat).toOption = readText r := by
  rcases h with ⟨ps, hrep, rfl⟩
  simp only [records, List.getElem?_map] at hr
  rcases Option.map_eq_some_iff.1 hr with ⟨s, hs, rfl⟩
  have hn : n < ps.flatten.length := (List.getElem?_eq_some_iff.1 hs).1
  rcases hrep.find hn with ⟨j, hfind, hj, hin⟩
  rcases hrep.jnlRead hmax hj hin with ⟨t, ht, -, htext⟩
  rw [hs] at ht
  cases ht
  rcases hw with rfl | ⟨rfl, hneg⟩
  · refine ⟨j, ?_, htext⟩
    have hnext := next_journalsOf (v := 1) hn
    rw [← hrep.jnls, hfind] at hnext
    have hcast : (n : Int) + 1 = ((1 + n : Nat) : Int) := by push_cast; omega
    rw [getNextVersion, hcast, hnext]
    simp only [hin, if_true]
  · -- below the first version: the first journal starts after it
    rcases hrep.locate hj hin with ⟨ps₁, p, ps₂, i, rfl, rfl, hi, hzero⟩
    have hps₁ : ps₁.flatten.length = 0 := by omega
    have hnil : ps₁ = [] := by
      rcases ps₁ with _ | ⟨q, qs⟩
      · rfl
      · have hfull := hrep.disk.full_before
        have hpos := hfull.head_pos
        rw [List.flatten_cons, List.length_append] at hps₁
        omega
    subst hnil
    refine ⟨partJnl 1 p, ?_, htext⟩
    have hout : (partJnl 1 p).holds (w + 1) = false := by
      rw [← Bool.not_eq_true, partJnl_holds]
      omega
    have hlate : (partJnl 1 p).version > w + 1 := by
      simp only [partJnl]
      omega
    rw [getNextVersion, hrep.jnls]
    simp only [List.nil_append, journalsOf, List.find?_cons, hout, hlate, decide_true, Bool.or_true,
      Bool.false_eq_true, if_false]
    rfl

/-! ## The next patch that is not deleted -/

variable [Host]

/-- The loop of `mdir_read_next` goes through deleted slots up to the first one that is not. -/
theorem Refines.readNextLoop (hmax : maxJnlSize < 2 ^ 32) (h : Refines maxJnlSize m A) {n k : Nat}
    {r : Bytes} {action : Action} {hd : Header} (hr : (records A)[k]? = some r)
    (hread : readRecord r = some (action, some hd)) (hnk : n ≤ k)
    (hdel : ∀ i, n ≤ i → i < k → ∃ r, (records A)[i]? = some r ∧ IsDeleted r)
    {fuel : Nat} (hfuel : k - n < fuel) {w : Int} (hw : w = n ∨ n = 0 ∧ w < 0) :
    mdirReadNextLoop m fuel w = .ok (some (((1 + k : Nat) : Int), action, hd)) := by
  obtain ⟨fuel, rfl⟩ : ∃ f, fuel = f + 1 := ⟨fuel - 1, by omega⟩
  induction hd' : k - n generalizing n w fuel with
  | zero =>
      obtain rfl : n = k := by omega
      rcases h.getNextVersion_some hmax hr hw with ⟨j, hnext, htext⟩
      unfold readRecord at hread
      split at hread
      · cases hread
      · cases hread
      · next act text ht =>
          rcases Option.map_eq_some_iff.1 hread with ⟨⟨hd₁, len⟩, hp, heq⟩
          cases heq
          rw [ht] at htext
          simp only [mdirReadNextLoop, hnext, eq_ok_of_toOption htext, eq_ok_of_toOption hp]
  | succ d ih =>
      rcases hdel n le_rfl (by omega) with ⟨r', hr', hdel'⟩
      rcases h.getNextVersion_some hmax hr' hw with ⟨j, hnext, htext⟩
      rw [show readText r' = some (.add, none) from hdel'] at htext
      obtain ⟨f, rfl⟩ : ∃ f, fuel = f + 1 := ⟨fuel - 1, by omega⟩
      rw [mdirReadNextLoop]
      simp only [hnext, eq_ok_of_toOption htext]
      have hw' : ((1 + n : Nat) : Int) = ((n + 1 : Nat) : Int) := by push_cast; omega
      exact ih (by omega) (fun i hlo hhi => hdel i (by omega) hhi) (.inl hw') f (by omega) (by omega)

theorem Refines.mdirReadNext (hmax : maxJnlSize < 2 ^ 32) (h : Refines maxJnlSize m A) {n k : Nat}
    {r : Bytes} {action : Action} {hd : Header} (hr : (records A)[k]? = some r)
    (hread : readRecord r = some (action, some hd)) (hnk : n ≤ k)
    (hdel : ∀ i, n ≤ i → i < k → ∃ r, (records A)[i]? = some r ∧ IsDeleted r)
    {w : Int} (hw : w = n ∨ n = 0 ∧ w < 0) :
    mdirReadNext m w = .ok (some (((1 + k : Nat) : Int), action, hd)) := by
  refine h.readNextLoop hmax hr hread hnk hdel ?_ hw
  have hk := (List.getElem?_eq_some_iff.1 hr).1
  rcases h with ⟨ps, hrep, rfl⟩
  rw [records_length] at hk
  rw [hrep.jnls, sum_nbPatches]
  omega

omit [Host] in
/-- Nothing can be read from an empty journal. -/
theorem jnlReadText_empty {d : Disk} {j : Jnl} (h : JnlHolds d j []) (i : Nat) :
    ∃ e, jnlReadText d j i = .error e := by
  have hidx : ∀ nb, 0 < nb → jnlIdxRead d j i nb = .error (.push 0 (ascii "EOF")) := by
    intro nb hnb
    rw [jnlIdxRead, h.idxOf, idxBytes_nil, readFrom, if_neg (by omega), if_neg (by omega),
      if_neg (by simp; omega)]
  have hsize : jnlOffsetSize d j i = .error (.push 0 (ascii "EOF")) := by
    simp only [jnlOffsetSize, hidx 2 (by decide), hidx 1 (by decide), ite_self]
  exact ⟨_, by rw [jnlReadText, hsize]⟩

/-- A mdir without patches has no next one, whatever the version. -/
theorem Refines.mdirReadNext_empty (h : Refines maxJnlSize m []) (w : Int)
    (x : Int × Action × Header) : Scambio.mdirReadNext m w ≠ .ok (some x) := by
  rcases h with ⟨ps, hrep, hflat⟩
  intro hread
  rw [Scambio.mdirReadNext, mdirReadNextLoop] at hread
  split at hread
  · cases hread
  · next next j hnext =>
      -- the only journal there can be was just opened
      have hj : j ∈ journalsOf 1 ps := by
        unfold getNextVersion at hnext
        split at hnext
        · cases hnext
        · next k hfind =>
            cases hnext
            rw [← hrep.jnls]
            exact List.mem_of_find?_eq_some hfind
      rcases mem_journalsOf.1 hj with ⟨ps₁, p, ps₂, rfl, rfl⟩
      have hp : p = [] := List.flatten_eq_nil_iff.1 hflat p (by simp)
      subst hp
      rcases jnlReadText_empty hrep.disk.holds (next - (partJnl (1 + ps₁.flatten.length) []).version).toNat
        with ⟨e, he⟩
      rw [he] at hread
      simp only at hread
      split_ifs at hread
      cases hread

end Next

end Scambio
