import Scambio.Lib.Readback

/-!
# MarkIndex — the index files and the marks

The mark index is rewritten in place in a file that is otherwise only appended to.  Where positional
writes on such a descriptor land at its end, that rewrite adds entries that no patch has.  As long as
no patch gets to write the mark index, on any host:

* the index of every journal holds exactly its patches (`IndexHolds`);
* the patches are those that the calls wrote (`written`);
* a reload finds the same journals.
-/

namespace Scambio

open Library

/-! ## What the calls wrote -/

/-- The call got as far as the append. -/
def Call.appended (c : Call) : Bool :=
  decide (c.after = c.before + c.nbDeleted + 1)

/-- The records after one more call: its blanks, the tag of the target of a removal, its own record. -/
def writtenStep (R : List Bytes) (c : Call) : List Bytes :=
  let R := R ++ List.replicate c.nbDeleted blankRecord
  if c.appended then
    match c.action, headerTarget c.header with
    | .rem, .ok toDel => R.modify (toDel - 1).toNat tagDeleted ++ [patchRecord c.action c.left]
    | _, _ => R ++ [patchRecord c.action c.left]
  else R

def written (calls : List Call) : List Bytes :=
  calls.foldl writtenStep []

theorem written_snoc (calls : List Call) (c : Call) :
    written (calls ++ [c]) = writtenStep (written calls) c := by
  simp [written]

theorem tagDeleted_of_isDeleted {r : Bytes} (h : IsDeleted r) : tagDeleted r = r := by
  unfold IsDeleted readText readTag at h
  split_ifs at h
  rcases r with _ | ⟨tag, _ | ⟨nl, rest⟩⟩
  · simp [Except.toOption] at h
  · simp [Except.toOption] at h
  · simp only at h
    split_ifs at h with _ _ htag <;> simp [Except.toOption] at h
    rw [htag]
    rfl

/-- The tag is put on the target, whether or not it was there already. -/
theorem Prepared.eq_modify {header : Header} {R T : List Bytes} {n : Nat}
    (h : Prepared .rem header R T) (htgt : headerTarget header = .ok ((1 + n : Nat) : Int)) :
    T = R.modify n tagDeleted := by
  refine List.ext_getElem? fun i => ?_
  rw [List.getElem?_modify]
  by_cases hi : n = i
  · subst hi
    rcases h.target rfl with ⟨k, r, hk, hr, hdel⟩
    rw [htgt, Except.ok.injEq] at hk
    have hnk : k = n := by omega
    subst hnk
    rcases h.keep k with hkeep | ⟨-, -, r', hr', ht⟩
    · rw [← hkeep, hr]
      simp [tagDeleted_of_isDeleted hdel]
    · rw [hr', ht]
      simp
  · rcases h.keep i with hkeep | ⟨-, hk, -⟩
    · rw [hkeep]
      simp [hi]
    · rw [htgt, Except.ok.injEq] at hk
      omega

theorem Prepared.eq_of_add {header : Header} {R T : List Bytes} (h : Prepared .add header R T) :
    T = R := by
  refine List.ext_getElem? fun i => ?_
  rcases h.keep i with hkeep | ⟨hrem, -⟩
  · exact hkeep
  · cases hrem

section Written

variable [Host] {maxJnlSize : Nat} {m : Mdir} {A : List Slot} {sys : Sys} {action : Action}
  {header : Header} {nb : Nat}

/-- A patch leaves the records that its call writes. -/
theorem Refines.records_patch (hmax : maxJnlSize < 2 ^ 32) (h : Refines maxJnlSize m A)
    (hpow : m.disk.power = none) (hroom : RoomFor sys m action header nb)
    (hmark : MarksSafe sys m action header nb) :
    records (storePatch sys m.path A action header nb).1 =
      writtenStep (records A) (Scambio.callOf maxJnlSize sys m action header nb) := by
  rcases h.callOf hmax hpow hroom hmark with ⟨href, -, -, -, hleft⟩
  have hafter := href.lastVersion
  have hbefore := h.lastVersion
  rw [← records_length] at hafter
  rcases storePatch_records sys m.path A action header nb with ⟨hrec, -, -⟩ | ⟨T, hprep, hrec, -⟩
  · have happ : (Scambio.callOf maxJnlSize sys m action header nb).appended = false := by
      simp only [Call.appended, Scambio.callOf, hafter, hbefore, hrec, List.length_append,
        List.length_replicate, records_length, decide_eq_false_iff_not]
      omega
    simp only [hrec, Scambio.writtenStep, happ, if_false, Bool.false_eq_true]
    rfl
  · have happ : (Scambio.callOf maxJnlSize sys m action header nb).appended = true := by
      simp only [Call.appended, Scambio.callOf, hafter, hbefore, hrec, List.length_append,
        List.length_replicate, records_length, List.length_singleton, hprep.length,
        decide_eq_true_eq]
      omega
    simp only [hrec, Scambio.writtenStep, happ, if_true]
    simp only [Scambio.callOf, hleft]
    cases action with
    | add => rw [hprep.eq_of_add]
    | rem =>
        rcases hprep.target rfl with ⟨n, -, htgt, -⟩
        have hidx : (((1 + n : Nat) : Int) - 1).toNat = n := by omega
        simp only [htgt, hidx, hprep.eq_modify htgt]

end Written

/-! ## The index -/

section Index

variable [Host]

/-- The files of journal `j` hold exactly the patches of the given records. -/
structure IndexHolds (d : Disk) (j : Jnl) (rs : List Bytes) : Prop where
  log : d.log j.stem = some rs.flatten
  nb : rs.length = j.nbPatches
  size : (d.idx j.stem).map List.length = some (16 * j.nbPatches)
  offsets : ∀ i, i < j.nbPatches → ∃ mark, jnlIdxRead d j i 1 = .ok [⟨offset rs i, mark⟩]
  read : ∀ i r, rs[i]? = some r → (jnlRead d j i).toOption = readRecord r

/-- Every journal holds its patches and no more, the patches are those that were written, and a reload
finds the same journals. -/
def IndexSurvives (m : Mdir) (calls : List Call) : Prop :=
  ∃ rss, List.Forall₂ (IndexHolds m.disk) m.jnls rss ∧ rss.flatten = written calls ∧
    ∀ order, Lists order m.disk → (mdirReload ErrBuf.new m (.ok order)).2.jnls = m.jnls

theorem IndexSurvives.size {m : Mdir} {calls : List Call} (h : IndexSurvives m calls) {j : Jnl}
    (hj : j ∈ m.jnls) : (m.disk.idx j.stem).map List.length = some (16 * j.nbPatches) := by
  rcases h with ⟨rss, hall, -, -⟩
  rcases List.getElem_of_mem hj with ⟨i, hi, rfl⟩
  exact (List.Forall₂.get hall hi (hall.length_eq ▸ hi)).size

theorem JnlHolds.indexHolds {d : Disk} {j : Jnl} {p : List Slot} (h : JnlHolds d j p) (hf : Fits p)
    (hlt : p.length < 2 ^ 32) : IndexHolds d j (records p) := by
  refine ⟨h.log, by rw [records_length, h.nb], ?_, ?_, ?_⟩
  · rw [h.idx, Option.map_some, length_idxBytes, h.nb]
  · intro i hi
    rw [h.nb] at hi
    have hent : (indexEntries p)[i]? = some ⟨offset (records p) i, p[i].mark⟩ := by
      rw [getElem?_indexEntries, List.getElem?_eq_getElem hi, Option.map_some]
    have hdrop : ((indexEntries p).drop i).take 1 = [⟨offset (records p) i, p[i].mark⟩] := by
      rw [List.take_one, List.head?_drop, hent, Option.toList_some]
    exact ⟨p[i].mark, by rw [jnlIdxRead_spec h hf (by decide) (by omega), hdrop]⟩
  · intro i r hr
    rw [records, List.getElem?_map] at hr
    rcases Option.map_eq_some_iff.1 hr with ⟨s, hs, rfl⟩
    rcases List.getElem?_eq_some_iff.1 hs with ⟨hi, rfl⟩
    exact jnlRead_spec h hf hlt hi

theorem indexHolds_of_parts {d : Disk} (v : Nat) {ps : List (List Slot)}
    (h : ∀ ps₁ p ps₂, ps = ps₁ ++ p :: ps₂ →
      JnlHolds d (partJnl (v + ps₁.flatten.length) p) p ∧ Fits p ∧ p.length < 2 ^ 32) :
    List.Forall₂ (IndexHolds d) (journalsOf v ps) (ps.map records) := by
  induction ps generalizing v with
  | nil => exact .nil
  | cons p ps ih =>
      rcases h [] p ps rfl with ⟨hhold, hfits, hlt⟩
      refine .cons (hhold.indexHolds hfits hlt) (ih (v + p.length) fun ps₁ q ps₂ heq => ?_)
      have hq := h (p :: ps₁) q ps₂ (by rw [heq]; rfl)
      rw [add_length_cons] at hq
      exact hq

theorem Refines.indexSurvives {maxJnlSize : Nat} (hmax : maxJnlSize < 2 ^ 32) {m : Mdir}
    {A : List Slot} (h : Refines maxJnlSize m A) {calls : List Call}
    (hw : records A = written calls) : IndexSurvives m calls := by
  have hreload : ∀ order, Lists order m.disk →
      (mdirReload ErrBuf.new m (.ok order)).2.jnls = m.jnls :=
    fun order hord => (h.reload hmax hord).2.2
  rcases h with ⟨ps, hrep, rfl⟩
  refine ⟨ps.map records, ?_, ?_, hreload⟩
  · rw [hrep.jnls]
    refine indexHolds_of_parts 1 fun ps₁ p ps₂ heq => ?_
    subst heq
    have hp : p ∈ ps₁ ++ p :: ps₂ := by simp
    exact ⟨hrep.disk.holds, hrep.fits.part hp, hrep.part_lt hmax hp⟩
  · rw [← hw]
    simp [records, List.map_flatten]
    rfl

/-- The call does not write the mark index. -/
def marksUnwritten (sys : Sys) (m : Mdir) (action : Action) (header : Header) (nbDeleted : Nat) :
    Prop :=
  ¬ MarksWritten sys m action header nbDeleted

theorem PlainHeader.marksUnwritten {header : Header} (hp : PlainHeader header) (sys : Sys) (m : Mdir)
    (action : Action) (nb : Nat) : marksUnwritten sys m action header nb :=
  hp.not_marksWritten sys m action nb

/-- As long as no call writes the mark index, the index files survive, wherever positional writes
land. -/
theorem index_survives_of_run {maxJnlSize : Nat} (hmax : maxJnlSize < 2 ^ 32) {m : Mdir}
    {calls : List Call} (run : Run maxJnlSize marksUnwritten noCrash m calls) :
    IndexSurvives m calls := by
  have hinv : ∃ A, Refines maxJnlSize m A ∧ m.disk.power = none ∧ records A = written calls := by
    refine Run.invariant (P := fun A calls => records A = written calls) hmax (fun hok => .inr hok)
      (fun hc => hc.elim) rfl ?_ (fun hc => hc.elim) run
    intro m A calls sys action header nb href hpow hw hok hroom
    rw [href.records_patch hmax hpow hroom (.inr hok), hw, written_snoc]
  rcases hinv with ⟨A, href, -, hw⟩
  exact href.indexSurvives hmax hw

omit [Host] in
/-- A patch and a removal of it, on a host whose positional writes land at the end of the file. -/
theorem index_survives_of_run_sample :
    let _ := linuxHost
    let h : Header := [⟨ascii "sc-type", ascii "im"⟩]
    let r : Header := [⟨ascii "sc-target", ascii "1"⟩]
    let m₁ := (mdirPatch quietSys 2000 (Mdir.new (ascii "/m/1")) .add h 0).mdir
    let m₂ := (mdirPatch quietSys 2000 m₁ .rem r 0).mdir
    IndexSurvives m₂ [callOf 2000 quietSys (Mdir.new (ascii "/m/1")) .add h 0,
      callOf 2000 quietSys m₁ .rem r 0] := by
  intro _ h r m₁ m₂
  have hh : PlainHeader h := ⟨by decide, by decide, by decide⟩
  have hr : PlainHeader r := ⟨by decide, by decide, by decide⟩
  have run₁ : Run 2000 marksUnwritten noCrash m₁ _ :=
    Run.patch quietSys .add h 0 (Run.init (ascii "/m/1")) (hh.marksUnwritten _ _ _ _)
      (by decide)
  have run₂ : Run 2000 marksUnwritten noCrash m₂ _ :=
    Run.patch quietSys .rem r 0 run₁ (hr.marksUnwritten _ _ _ _) (by decide)
  exact index_survives_of_run (by norm_num) run₂

/-- A call of any kind. -/
def anyPatch (_ : Sys) (_ : Mdir) (_ : Action) (_ : Header) (_ : Nat) : Prop :=
  True

omit [Host] in
/-- A mark on the first patch adds two entries to the index of the journal. -/
theorem index_not_survives_mark :
    ¬ ∀ (_ : Host), Host.appendPwrite = .atEnd →
      ∀ (maxJnlSize : Nat) (m : Mdir) (calls : List Call), maxJnlSize < 2 ^ 32 →
        Run maxJnlSize anyPatch noCrash m calls → IndexSurvives m calls := by
  intro hall
  let _ := linuxHost
  let h : Header := [⟨ascii "sc-type", ascii "im"⟩]
  let k : Header := [⟨ascii "sc-type", ascii "mark"⟩, ⟨ascii "sc-target", ascii "1"⟩]
  let m₁ := (mdirPatch quietSys 2000 (Mdir.new (ascii "/m/1")) .add h 0).mdir
  let m₂ := (mdirPatch quietSys 2000 m₁ .add k 0).mdir
  have run₁ : Run 2000 anyPatch noCrash m₁ _ :=
    Run.patch quietSys .add h 0 (Run.init (ascii "/m/1")) trivial (by decide)
  have run₂ : Run 2000 anyPatch noCrash m₂ _ :=
    Run.patch quietSys .add k 0 run₁ trivial (by decide)
  have hj : (⟨jnlStem 1, 1, 2⟩ : Jnl) ∈ m₂.jnls := by decide +kernel
  have hsize := (hall linuxHost rfl 2000 m₂ _ (by norm_num) run₂).size hj
  revert hsize
  decide +kernel

end Index

end Scambio
