import Scambio.Lib.MarkIndex
import Scambio.Lib.MarkThreads

/-!
# MarkChains — following the marks of a version

With positional writes that land where asked, `mdirPatch` keeps the threads of `MarkThreads` in the
index files.  `markChain_iff` says for which versions following `last_mark` until 0 gives the marks of
the version, newest first.
-/

namespace Scambio

open Library

/-! ## Following the index -/

/-- The `last_mark` of the index entry of a version. -/
def lastMarkOf (m : Mdir) (version : Int) : Except Err Int :=
  match jnlGetByVersion m.jnls version with
  | .error e => .error e
  | .ok j =>
      match jnlIdxRead m.disk j (version - j.version).toNat 1 with
      | .error e => .error e
      | .ok ies => .ok (ies.getD 0 ⟨0, 0⟩).lastMark

/-- Following `last_mark` from a version until 0 meets exactly the given versions. -/
inductive MarkChain (m : Mdir) : Int → List Int → Prop
  | stop {v : Int} : lastMarkOf m v = .ok 0 → MarkChain m v []
  | step {v w : Int} {l : List Int} : lastMarkOf m v = .ok w → w ≠ 0 → MarkChain m w l →
      MarkChain m v (w :: l)

theorem MarkChain.unique {m : Mdir} {v : Int} {l l' : List Int} (h : MarkChain m v l)
    (h' : MarkChain m v l') : l = l' := by
  induction h generalizing l' with
  | stop hstop =>
      cases h' with
      | stop _ => rfl
      | step hstep hne _ =>
          rw [hstop, Except.ok.injEq] at hstep
          exact absurd hstep.symm hne
  | step hstep hne _ ih =>
      cases h' with
      | stop hstop =>
          rw [hstep, Except.ok.injEq] at hstop
          exact absurd hstop hne
      | step hstep' _ hrest =>
          rw [hstep, Except.ok.injEq] at hstep'
          subst hstep'
          rw [ih hrest]

/-! ## What the calls mean for the marks -/

/-- An addition of type mark is a mark of its target.  The index puts a mark after its target when the
call succeeds, unless it is its own target. -/
def Call.markEntry (c : Call) : MarkEntry :=
  { target := if c.action = .add then isMarkFor c.left else 0
    link := if c.result.toOption.isSome ∧ isMarkFor c.left ≠ c.after then isMarkFor c.left else 0 }

/-- The versions that a call creates: its blanks, and its own when it gets as far as the append. -/
def Call.markEntries (c : Call) : List MarkEntry :=
  List.replicate c.nbDeleted ⟨0, 0⟩ ++ if c.appended then [c.markEntry] else []

def markEntries (calls : List Call) : List MarkEntry :=
  calls.flatMap Call.markEntries

/-- The versions of the additions of type mark whose target is `t`, newest first. -/
def marksOf (calls : List Call) (t : Int) : List Int :=
  marksIn (markEntries calls) t

theorem markEntries_snoc (calls : List Call) (c : Call) :
    markEntries (calls ++ [c]) = markEntries calls ++ c.markEntries := by
  simp [markEntries]

/-! ## Slots -/

/-- The version that the slots put after another one. -/
def nextMark (A : List Slot) (v : Int) : Option Int :=
  if v < 1 then none
  else
    match A[(v - 1).toNat]? with
    | none => none
    | some s => if s.mark = 0 then none else some s.mark

theorem nextMark_of_marks {A B : List Slot} (h : A.map Slot.mark = B.map Slot.mark) :
    nextMark A = nextMark B := by
  funext v
  have hget : ∀ i : Nat, A[i]?.map Slot.mark = B[i]?.map Slot.mark := by
    intro i
    rw [← List.getElem?_map, ← List.getElem?_map, h]
  unfold nextMark
  have hv := hget (v - 1).toNat
  cases hA : A[(v - 1).toNat]? with
  | none =>
      rw [hA, Option.map_none, eq_comm, Option.map_eq_none_iff] at hv
      rw [hv]
  | some s =>
      rw [hA, Option.map_some, eq_comm, Option.map_eq_some_iff] at hv
      rcases hv with ⟨t, ht, hmark⟩
      simp only [ht, hmark]

theorem nextMark_append {A B : List Slot} {v : Int} (hv : v ≤ A.length) :
    nextMark (A ++ B) v = nextMark A v := by
  unfold nextMark
  split_ifs with hlow
  · rfl
  · rw [List.getElem?_append_left (by omega)]

theorem nextMark_last (A : List Slot) (r : Bytes) :
    nextMark (A ++ [⟨r, 0⟩]) ((A.length + 1 : Nat) : Int) = none := by
  have hidx : (((A.length + 1 : Nat) : Int) - 1).toNat = A.length := by omega
  unfold nextMark
  split_ifs with hlow
  · rfl
  · rw [hidx]
    simp

/-- A patch that is put nowhere. -/
theorem Threads.append {A : List Slot} {E : List MarkEntry} (h : Threads (nextMark A) E)
    (hlen : E.length = A.length) (r : Bytes) {e : MarkEntry} (he : e.link = 0) :
    Threads (nextMark (A ++ [⟨r, 0⟩])) (E ++ [e]) := by
  refine h.unlinked he (fun v _ hv => nextMark_append (by omega)) ?_
  rw [hlen]
  exact nextMark_last A r

theorem Threads.blanks {A : List Slot} {E : List MarkEntry} (h : Threads (nextMark A) E)
    (hlen : E.length = A.length) (nb : Nat) :
    Threads (nextMark (A ++ List.replicate nb blankSlot)) (E ++ List.replicate nb ⟨0, 0⟩) := by
  induction nb with
  | zero => simpa using h
  | succ nb ih =>
      rw [List.replicate_succ', List.replicate_succ', ← List.append_assoc, ← List.append_assoc]
      exact ih.append (by simp [hlen]) blankRecord rfl

/-- The two writes of the mark index put the last patch after its target. -/
theorem nextMark_storeMark {A : List Slot} {r : Bytes} {t : Nat} {s : Slot} (ht : A[t]? = some s) :
    nextMark (storeSetMark (storeSetMark (A ++ [⟨r, 0⟩]) t ((A.length + 1 : Nat) : Int)) A.length s.mark) =
      splice (nextMark A) ((1 + t : Nat) : Int) ((A.length + 1 : Nat) : Int) := by
  have htl := (List.getElem?_eq_some_iff.1 ht).1
  funext v
  by_cases hvw : v = ((A.length + 1 : Nat) : Int)
  · subst hvw
    have hidx : (((A.length + 1 : Nat) : Int) - 1).toNat = A.length := by omega
    have hidx' : (((1 + t : Nat) : Int) - 1).toNat = t := by omega
    rw [splice_new]
    unfold nextMark
    rw [if_neg (by omega), if_neg (by omega), hidx, hidx', ht]
    simp [storeSetMark]
  · by_cases hvt : v = ((1 + t : Nat) : Int)
    · subst hvt
      have hidx' : (((1 + t : Nat) : Int) - 1).toNat = t := by omega
      rw [splice_at hvw]
      unfold nextMark
      rw [if_neg (by omega), hidx']
      simp only [storeSetMark, List.getElem?_modify, List.getElem?_append_left htl, ht,
        if_neg (Nat.ne_of_gt htl)]
      simp
      omega
    · rw [splice_of_ne hvt hvw]
      unfold nextMark
      split_ifs with hlow
      · rfl
      · have h1 : A.length ≠ (v - 1).toNat := by omega
        have h2 : t ≠ (v - 1).toNat := by omega
        simp only [storeSetMark, List.getElem?_modify, if_neg h1, if_neg h2]
        by_cases hv : (v - 1).toNat < A.length
        · rw [List.getElem?_append_left hv]
          cases A[(v - 1).toNat]? <;> rfl
        · have hnone : A[(v - 1).toNat]? = none := List.getElem?_eq_none (by omega)
          have hnone' : (A ++ [(⟨r, 0⟩ : Slot)])[(v - 1).toNat]? = none :=
            List.getElem?_eq_none (by rw [List.length_append, List.length_singleton]; omega)
          rw [hnone, hnone']
          rfl

/-! ## One patch -/

section Patch

variable [Host] {sys : Sys} {path : Bytes} {A B : List Slot} {action : Action} {header : Header}
  {nb : Nat}

theorem storePrepare_marks (h : storePrepare sys path A action header = some B) :
    B.map Slot.mark = A.map Slot.mark := by
  have hdel : ∀ n, (storeDelete A n).map Slot.mark = A.map Slot.mark := by
    intro n
    refine List.ext_getElem? fun i => ?_
    simp only [storeDelete, List.getElem?_map, List.getElem?_modify]
    cases A[i]? with
    | none => rfl
    | some s => by_cases hi : n = i <;> simp [hi]
  unfold storePrepare at h
  split at h
  · split at h
    · cases h
    · cases h
      rfl
    · cases h
      exact hdel _
  · split at h
    · cases h
    · cases h
      rfl

/-- What a patch does to the slots: blanks when it is refused, else its own slot with no mark, or put
after its target. -/
theorem storePatch_slots (sys : Sys) (path : Bytes) (A : List Slot) (action : Action) (header : Header) (nb : Nat) :
    storePatch sys path A action header nb = (A ++ List.replicate nb blankSlot, none) ∨
    ∃ B r, storePrepare sys path (A ++ List.replicate nb blankSlot) action header = some B ∧
      (((storePatch sys path A action header nb).1 = B ++ [⟨r, 0⟩] ∧
          ((storePatch sys path A action header nb).2 = none ∨
            isMarkFor (linkedHeader sys path action header) = 0)) ∨
        ∃ t s, isMarkFor (linkedHeader sys path action header) = ((1 + t : Nat) : Int) ∧
          (B ++ [⟨r, 0⟩])[t]? = some s ∧
          (storePatch sys path A action header nb).1 =
            storeSetMark (storeSetMark (B ++ [⟨r, 0⟩]) t ((B.length + 1 : Nat) : Int)) B.length s.mark ∧
          (storePatch sys path A action header nb).2.isSome = true) := by
  unfold storePatch
  simp only
  cases hp : storePrepare sys path (A ++ List.replicate nb blankSlot) action header with
  | none => exact .inl rfl
  | some B =>
      refine .inr ⟨B, patchRecord action (linkedHeader sys path action header), rfl, ?_⟩
      simp only
      split_ifs with hc
      · unfold storeMark
        simp only
        by_cases hzero : isMarkFor (linkedHeader sys path action header) = 0
        · simp only [if_pos hzero]
          exact .inl ⟨trivial, .inr hzero⟩
        · by_cases hlow : isMarkFor (linkedHeader sys path action header) < 1
          · simp only [if_neg hzero, if_pos hlow]
            exact .inl ⟨trivial, .inl trivial⟩
          · obtain ⟨t, ht⟩ : ∃ t : Nat,
                isMarkFor (linkedHeader sys path action header) = ((1 + t : Nat) : Int) :=
              ⟨(isMarkFor (linkedHeader sys path action header) - 1).toNat, by omega⟩
            have hidx : (((1 + t : Nat) : Int) - 1).toNat = t := by omega
            rw [ht] at hlow ⊢
            simp only [if_neg hlow, hidx]
            rw [if_neg (by omega)]
            cases hs : (B ++ [⟨patchRecord action (linkedHeader sys path action header), 0⟩])[t]? with
            | none => exact .inl ⟨rfl, .inl rfl⟩
            | some s => exact .inr ⟨t, s, rfl, hs, by simp, rfl⟩
      · exact .inl ⟨rfl, .inl rfl⟩

variable {maxJnlSize : Nat} {m : Mdir} {E : List MarkEntry}

/-- One patch keeps the threads. -/
theorem Threads.patch (hmax : maxJnlSize < 2 ^ 32) (href : Refines maxJnlSize m A)
    (hpow : m.disk.power = none) (hroom : RoomFor sys m action header nb)
    (hmark : MarksSafe sys m action header nb) (hlen : E.length = A.length)
    (h : Threads (nextMark A) E) :
    (E ++ (callOf maxJnlSize sys m action header nb).markEntries).length =
        (storePatch sys m.path A action header nb).1.length ∧
      Threads (nextMark (storePatch sys m.path A action header nb).1)
        (E ++ (callOf maxJnlSize sys m action header nb).markEntries) := by
  rcases href.callOf hmax hpow hroom hmark with ⟨href', hres, -, -, hleft⟩
  have hafter := href'.lastVersion
  have hbefore := href.lastVersion
  have hblanks := h.blanks hlen nb
  set c := callOf maxJnlSize sys m action header nb with hc
  have hcleft : c.left = linkedHeader sys m.path action header := hleft
  have hcres : c.result.toOption = (storePatch sys m.path A action header nb).2 := hres
  have hcafter : c.after = (storePatch sys m.path A action header nb).1.length := hafter
  have hcbefore : c.before = A.length := hbefore
  have hcnb : c.nbDeleted = nb := rfl
  have hcact : c.action = action := rfl
  -- a refused call leaves the blanks only
  rcases storePatch_slots sys m.path A action header nb with hrefused | ⟨B, r, hprep, hcase⟩
  · have happ : c.appended = false := by
      simp only [Call.appended, hcafter, hcbefore, hcnb, hrefused, List.length_append,
        List.length_replicate, decide_eq_false_iff_not]
      omega
    rw [Call.markEntries, happ, hrefused, hcnb]
    simpa [hlen] using hblanks
  · have hlenB := storePrepare_length sys hprep
    have hnext : nextMark B = nextMark (A ++ List.replicate nb blankSlot) :=
      nextMark_of_marks (storePrepare_marks hprep)
    rw [← hnext] at hblanks
    simp only [List.length_append, List.length_replicate] at hlenB
    have hlenE : (E ++ List.replicate nb (⟨0, 0⟩ : MarkEntry)).length = B.length := by
      simp [hlen, hlenB]
    have hlen1 : (storePatch sys m.path A action header nb).1.length = B.length + 1 := by
      rcases hcase with ⟨hs, -⟩ | ⟨t, s, -, -, hs, -⟩
      · rw [hs]
        simp
      · rw [hs]
        simp [storeSetMark]
    have happ : c.appended = true := by
      simp only [Call.appended, hcafter, hcbefore, hcnb, hlen1, hlenB, decide_eq_true_eq]
      omega
    have hE : E ++ c.markEntries = (E ++ List.replicate nb ⟨0, 0⟩) ++ [c.markEntry] := by
      rw [Call.markEntries, happ, hcnb]
      simp
    rw [hE]
    refine ⟨by rw [List.length_append, hlenE, List.length_singleton, hlen1], ?_⟩
    -- a record that no mark is set for starts a thread of its own
    have hunlinked : c.markEntry.link = 0 →
        Threads (nextMark (B ++ [⟨r, 0⟩])) (E ++ List.replicate nb ⟨0, 0⟩ ++ [c.markEntry]) :=
      hblanks.append hlenE r
    rcases hcase with ⟨hs, hnone⟩ | ⟨t, s, ht, hget, hs, hsome⟩
    · rw [hs]
      refine hunlinked ?_
      simp only [Call.markEntry, hcres, hcleft]
      rcases hnone with hnone | hzero
      · simp [hnone]
      · simp [hzero]
    · rw [hs]
      have htl := (List.getElem?_eq_some_iff.1 hget).1
      simp only [List.length_append, List.length_singleton] at htl
      by_cases hself : t = B.length
      · -- a patch that marks itself gets back the mark it had
        subst hself
        have hsame : nextMark (storeSetMark (storeSetMark (B ++ [⟨r, 0⟩]) B.length
            ((B.length + 1 : Nat) : Int)) B.length s.mark) = nextMark (B ++ [⟨r, 0⟩]) := by
          simp only [List.getElem?_concat_length, Option.some.injEq] at hget
          subst hget
          refine nextMark_of_marks (List.ext_getElem? fun i => ?_)
          simp only [storeSetMark, List.getElem?_map, List.getElem?_modify]
          by_cases hi : B.length = i
          · subst hi
            simp
          · cases (B ++ [(⟨r, 0⟩ : Slot)])[i]? <;> simp [hi]
        rw [hsame]
        refine hunlinked ?_
        simp only [Call.markEntry, hcleft, ht, hcafter, hlen1]
        rw [if_neg]
        rintro ⟨-, hne⟩
        exact hne (by omega)
      · have hlink : c.markEntry.link = ((1 + t : Nat) : Int) := by
          simp only [Call.markEntry, hcres, hcleft, ht, hcafter, hlen1]
          rw [if_pos ⟨hsome, by omega⟩]
        have htgt : c.markEntry.target = c.markEntry.link ∨ c.markEntry.target = 0 := by
          rw [hlink]
          simp only [Call.markEntry, hcact, hcleft, ht]
          cases action <;> simp
        rw [List.getElem?_append_left (by omega)] at hget
        have hth := hblanks.linked (e := c.markEntry) (by omega) (by omega) htgt
        rw [hlenE, hlink, ← nextMark_storeMark (r := r) hget] at hth
        exact hth

end Patch

/-! ## Every run -/

theorem Refines.lastMarkOf {maxJnlSize : Nat} {m : Mdir} {A : List Slot} (h : Refines maxJnlSize m A)
    {n : Nat} {s : Slot} (hs : A[n]? = some s) : lastMarkOf m ((1 + n : Nat) : Int) = .ok s.mark := by
  have hn := (List.getElem?_eq_some_iff.1 hs).1
  rcases h with ⟨ps, hrep, rfl⟩
  rcases hrep.find hn with ⟨j, hfind, hj, hin⟩
  rcases hrep.locate hj hin with ⟨ps₁, p, ps₂, i, rfl, rfl, hi, rfl⟩
  have hindex : (((1 + (ps₁.flatten.length + i) : Nat) : Int) -
      (partJnl (1 + ps₁.flatten.length) p).version).toNat = i := by
    simp only [partJnl]
    omega
  have hread := jnlIdxRead_spec hrep.disk.holds (hrep.fits.part (by simp)) (i := i) (n := 1)
    (by decide) (by omega)
  have h0 := getD_indexEntries (n := 1) (by decide : 0 < 1) hi ⟨0, 0⟩
  simp only [Nat.add_zero] at h0
  rw [getElem?_part ps₁ p ps₂ hi, List.getElem?_eq_getElem hi, Option.some.injEq] at hs
  simp only [Scambio.lastMarkOf, jnlGetByVersion, hfind, hindex, hread, h0, hs]

/-- Following the slots is following the index. -/
theorem Refines.markChain {maxJnlSize : Nat} {m : Mdir} {A : List Slot} (h : Refines maxJnlSize m A)
    {v : Int} {l : List Int} (hv : 1 ≤ v ∧ v ≤ A.length) (hl : ∀ x ∈ l, 1 ≤ x ∧ x ≤ A.length)
    (hwalk : Walk (nextMark A) v l) : MarkChain m v l := by
  have hlast : ∀ {v : Int}, 1 ≤ v ∧ v ≤ A.length → ∃ s, A[(v - 1).toNat]? = some s ∧
      Scambio.lastMarkOf m v = .ok s.mark ∧
      nextMark A v = if s.mark = 0 then none else some s.mark := by
    intro v hv
    have hlt : (v - 1).toNat < A.length := by omega
    have hget := List.getElem?_eq_getElem hlt
    have hmark := h.lastMarkOf hget
    rw [show ((1 + (v - 1).toNat : Nat) : Int) = v by omega] at hmark
    refine ⟨_, hget, hmark, ?_⟩
    rw [nextMark, if_neg (by omega), hget]
  induction hwalk with
  | stop hstop =>
      rcases hlast hv with ⟨s, -, hmark, hnext⟩
      rw [hstop] at hnext
      have hzero : s.mark = 0 := by
        by_contra hne
        simp [hne] at hnext
      rw [hzero] at hmark
      exact .stop hmark
  | @step v w l hstep _ ih =>
      rcases hlast hv with ⟨s, -, hmark, hnext⟩
      rw [hstep] at hnext
      by_cases hzero : s.mark = 0
      · simp [hzero] at hnext
      · rw [if_neg hzero, Option.some.injEq] at hnext
        subst hnext
        exact .step hmark hzero (ih (hl _ (by simp)) fun x hx => hl x (by simp [hx]))

section Run

variable [Host] {maxJnlSize : Nat} {m : Mdir} {calls : List Call}

/-- Following `last_mark` from a version gives its marks, newest first, exactly when they were all put
after it, none of them is marked and nothing else follows. -/
theorem markChain_iff (hat : Host.appendPwrite = .atOffset) (hmax : maxJnlSize < 2 ^ 32)
    (run : Run maxJnlSize anyPatch noCrash m calls) {t : Int} (hlo : 1 ≤ t)
    (hhi : t ≤ mdirLastVersion m) :
    MarkChain m t (marksOf calls t) ↔ MarksListed (markEntries calls) t := by
  have hinv : ∃ A, Refines maxJnlSize m A ∧ m.disk.power = none ∧
      (markEntries calls).length = A.length ∧ Threads (nextMark A) (markEntries calls) := by
    refine Run.invariant (P := fun A calls => (markEntries calls).length = A.length ∧
      Threads (nextMark A) (markEntries calls)) hmax (fun _ => .inl hat) (fun hc => hc.elim) ?_ ?_
      (fun hc => hc.elim) run
    · refine ⟨rfl, ⟨fun i e he => by simp [markEntries] at he, fun v hv hle => ?_⟩⟩
      simp only [markEntries, List.flatMap_nil, List.length_nil] at hle
      omega
    · intro m A calls sys action header nb href hpow hP _ hroom
      rw [markEntries_snoc]
      exact hP.2.patch hmax href hpow hroom (.inl hat) hP.1
  rcases hinv with ⟨A, href, -, hlen, hth⟩
  rw [href.lastVersion] at hhi
  rcases hth.walk t hlo (by omega) with ⟨l, hwalk, hthread⟩
  have hchain : MarkChain m t l := by
    refine href.markChain ⟨hlo, hhi⟩ (fun x hx => ?_) hwalk
    rcases hthread.links x hx with ⟨p, hp⟩
    have := hth.ok.linked hp
    omega
  rw [← hthread.marks, marksOf]
  exact ⟨fun h => hchain.unique h, fun h => h ▸ hchain⟩

omit [Host] in
/-- Two marks on the first patch are listed, newest first. -/
theorem markChain_iff_sample :
    let _ := plainHost
    let h : Header := [⟨ascii "sc-type", ascii "im"⟩]
    let k : Header := [⟨ascii "sc-type", ascii "mark"⟩, ⟨ascii "sc-target", ascii "1"⟩]
    let m₁ := (mdirPatch quietSys 2 (Mdir.new (ascii "/m/1")) .add h 0).mdir
    let m₂ := (mdirPatch quietSys 2 m₁ .add k 0).mdir
    let m₃ := (mdirPatch quietSys 2 m₂ .add k 0).mdir
    MarkChain m₃ 1 [3, 2] := by
  intro _ h k m₁ m₂ m₃
  have run₁ : Run 2 anyPatch noCrash m₁ _ :=
    Run.patch quietSys .add h 0 (Run.init (ascii "/m/1")) trivial (by decide)
  have run₂ : Run 2 anyPatch noCrash m₂ _ :=
    Run.patch quietSys .add k 0 run₁ trivial (by decide)
  have run₃ : Run 2 anyPatch noCrash m₃ _ :=
    Run.patch quietSys .add k 0 run₂ trivial (by decide +kernel)
  have hentries : markEntries ([] ++ [callOf 2 quietSys (Mdir.new (ascii "/m/1")) .add h 0] ++
      [callOf 2 quietSys m₁ .add k 0] ++ [callOf 2 quietSys m₂ .add k 0]) =
      [⟨0, 0⟩, ⟨1, 1⟩, ⟨1, 1⟩] := by decide +kernel
  have hlisted : MarksListed [⟨0, 0⟩, ⟨1, 1⟩, ⟨1, 1⟩] 1 := by
    -- the two marks are both linked to the first record
    have hlinked : ∀ {p w : Int}, Linked [⟨0, 0⟩, ⟨1, 1⟩, ⟨1, 1⟩] p w ↔ p = 1 ∧ (w = 2 ∨ w = 3) := by
      intro p w
      constructor
      · rintro ⟨_ | _ | _ | i, e, hget, rfl, rfl, hp⟩
        · cases hget
          exact absurd rfl hp
        · cases hget
          simp
        · cases hget
          simp
        · simp at hget
      · rintro ⟨rfl, rfl | rfl⟩
        · exact ⟨1, ⟨1, 1⟩, rfl, rfl, rfl, by decide⟩
        · exact ⟨2, ⟨1, 1⟩, rfl, rfl, rfl, by decide⟩
    have hmarks : marksIn [⟨0, 0⟩, ⟨1, 1⟩, ⟨1, 1⟩] 1 = [3, 2] := by decide
    refine ⟨fun w hw => ?_, fun w hw => ?_, fun x hx w hw => ?_, .root fun p hp => ?_⟩
    · rw [hmarks] at hw
      rw [hlinked]
      simp only [List.mem_cons, List.not_mem_nil, or_false] at hw
      exact ⟨rfl, hw.symm⟩
    · rw [hmarks]
      rcases (hlinked.1 hw).2 with rfl | rfl <;> decide
    · rw [hmarks] at hx
      rw [(hlinked.1 hw).1] at hx
      exact absurd hx (by decide)
    · have := (hlinked.1 hp).2
      omega
  have hchain := (markChain_iff rfl (by norm_num) run₃ (t := 1) (by decide) (by decide +kernel)).2
    (hentries ▸ hlisted)
  have hmarks : marksOf ([] ++ [callOf 2 quietSys (Mdir.new (ascii "/m/1")) .add h 0] ++
      [callOf 2 quietSys m₁ .add k 0] ++ [callOf 2 quietSys m₂ .add k 0]) 1 = [3, 2] := by
    rw [marksOf, hentries]
    decide
  rw [hmarks] at hchain
  exact hchain

omit [Host] in
/-- A mark on a mark shows up among the marks of the first patch. -/
theorem markChain_mark_of_mark :
    ¬ ∀ (_ : Host), Host.appendPwrite = .atOffset → ∀ (maxJnlSize : Nat) (m : Mdir)
      (calls : List Call), maxJnlSize < 2 ^ 32 → Run maxJnlSize anyPatch noCrash m calls →
      ∀ t, 1 ≤ t → t ≤ mdirLastVersion m → MarkChain m t (marksOf calls t) := by
  intro hall
  let _ := plainHost
  let h : Header := [⟨ascii "sc-type", ascii "im"⟩]
  let k₁ : Header := [⟨ascii "sc-type", ascii "mark"⟩, ⟨ascii "sc-target", ascii "1"⟩]
  let k₂ : Header := [⟨ascii "sc-type", ascii "mark"⟩, ⟨ascii "sc-target", ascii "2"⟩]
  let m₁ := (mdirPatch quietSys 2000 (Mdir.new (ascii "/m/1")) .add h 0).mdir
  let m₂ := (mdirPatch quietSys 2000 m₁ .add k₁ 0).mdir
  let m₃ := (mdirPatch quietSys 2000 m₂ .add k₂ 0).mdir
  have run₁ : Run 2000 anyPatch noCrash m₁ _ :=
    Run.patch quietSys .add h 0 (Run.init (ascii "/m/1")) trivial (by decide)
  have run₂ : Run 2000 anyPatch noCrash m₂ _ :=
    Run.patch quietSys .add k₁ 0 run₁ trivial (by decide)
  have run₃ : Run 2000 anyPatch noCrash m₃ _ :=
    Run.patch quietSys .add k₂ 0 run₂ trivial (by decide +kernel)
  have hchain := hall plainHost rfl 2000 m₃ _ (by norm_num) run₃ 1 (by decide) (by decide +kernel)
  have hmarks : marksOf ([] ++ [callOf 2000 quietSys (Mdir.new (ascii "/m/1")) .add h 0] ++
      [callOf 2000 quietSys m₁ .add k₁ 0] ++ [callOf 2000 quietSys m₂ .add k₂ 0]) 1 = [2] := by
    decide +kernel
  rw [hmarks] at hchain
  have htwo : lastMarkOf m₃ 2 = .ok 3 := eq_ok_of_toOption (by decide +kernel)
  cases hchain with
  | step _ _ hrest =>
      cases hrest with
      | stop hstop =>
          rw [htwo] at hstop
          cases hstop

end Run

end Scambio
