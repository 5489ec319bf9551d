import Scambio.Lib.HeaderText
import Scambio.Lib.Runs

/-!
# Readback — what was patched is what is read

For canonical headers, that are neither of type dir nor mark, the history of a run determines what
`mdir_read` returns for each version: the action and the fields given to the call that created it, or
no header for blanks and removed patches.  A name or a value of more than 1000 characters is written
but not read back, since it has no room in the buffer of `parse`.
-/

namespace Scambio

open Library

/-! ## Records of canonical headers -/

/-- A canonical header is parsed back from a buffer that starts with its text if and only if its names and
values have room in the buffer of `parse`; the parser stops before the blank line. -/
theorem headerParse_headerDump_iff [Host] {h : Header} (hh : CanonicalHeader h) (tail : Bytes) :
    headerParse (cstr (headerDump h ++ tail)) = .ok (h, (headerDump h).length - 1) ↔ ShortHeader h := by
  rw [cstr_append (zero_not_mem_headerDump hh)]
  refine ⟨fun hok => ?_, fun hs => headerParse_dump_append hh hs (cstr tail)⟩
  by_contra hs
  rw [headerParse_dump_overrun hh hs] at hok
  cases hok

theorem headerParse_headerDump_iff_sample :
    let _ := plainHost
    let h : Header := [⟨ascii "sc-type", ascii "im"⟩, ⟨ascii "from", ascii "a b"⟩]
    headerParse (cstr (headerDump h ++ ascii " folded: no\n")) = .ok (h, 22) ↔ ShortHeader h := by
  intro _ h
  have hh : CanonicalHeader h := by decide
  exact headerParse_headerDump_iff hh _

/-- A field with a value of one character too many. -/
def longField : HeaderField :=
  ⟨ascii "a", List.replicate 1001 97⟩

theorem canonical_longField : CanonicalHeader [longField] := by
  intro hf hmem
  rw [List.mem_singleton.1 hmem]
  refine ⟨by decide, by decide, by decide, cleanText_of_words ?_ ?_ ?_⟩
  · exact List.cons_ne_nil _ _
  · intro c hc
    rw [List.eq_of_mem_replicate hc]
    rfl
  · intro hzero
    cases List.eq_of_mem_replicate hzero

theorem not_short_longField : ¬ ShortHeader [longField] := by
  intro hs
  have hvalue := (hs longField (List.mem_singleton_self _)).value
  rw [longField, List.length_replicate] at hvalue
  exact absurd hvalue (by decide)

/-- Its text ends the process of those who parse it. -/
theorem not_headerParse_headerDump :
    CanonicalHeader [longField] ∧
      ∀ (host : Host) (tail : Bytes), @headerParse host (cstr (headerDump [longField] ++ tail)) = .error overrun := by
  refine ⟨canonical_longField, fun host tail => ?_⟩
  rw [cstr_append (zero_not_mem_headerDump canonical_longField)]
  exact headerParse_dump_overrun canonical_longField not_short_longField (cstr tail)

theorem headerDump_suffix (h : Header) : ∃ pre, (ascii "\n") ++ headerDump h = pre ++ ascii "\n\n" := by
  rcases List.eq_nil_or_concat h with rfl | ⟨fs, hf, rfl⟩
  · exact ⟨[], by decide⟩
  · refine ⟨ascii "\n" ++ (fs.flatMap fieldDump ++ (hf.name ++ ascii ": " ++ hf.value)), ?_⟩
    simp [headerDump, fieldDump, ascii]

/-- The log text of any patch is well formed. -/
theorem readText_patchRecord (action : Action) (h : Header) :
    readText (patchRecord action h) = some (action, some (headerDump h)) := by
  have hlen : 1 ≤ (headerDump h).length := by simp [headerDump, ascii]
  rcases headerDump_suffix h with ⟨pre, hpre⟩
  have hsuf : ∀ tag, (ascii "\n\n") <:+ tag :: (ascii "\n" ++ headerDump h) :=
    fun tag => ⟨tag :: pre, by rw [hpre, List.cons_append]⟩
  cases action with
  | add =>
      have hrec : patchRecord .add h = 43 :: 10 :: headerDump h := rfl
      have hs : (ascii "\n\n") <:+ 43 :: 10 :: headerDump h := hsuf 43
      rw [readText, hrec, if_neg (by simp only [List.length_cons]; omega)]
      simp [readTag, hs, Except.toOption]
  | rem =>
      have hrec : patchRecord .rem h = 45 :: 10 :: headerDump h := rfl
      have hs : (ascii "\n\n") <:+ 45 :: 10 :: headerDump h := hsuf 45
      rw [readText, hrec, if_neg (by simp only [List.length_cons]; omega)]
      simp [readTag, hs, Except.toOption]

theorem readRecord_patchRecord [Host] {h : Header} (hh : CanonicalHeader h) (hs : ShortHeader h)
    (action : Action) : readRecord (patchRecord action h) = some (action, some h) := by
  have hparse := headerParse_dump_append hh hs []
  rw [List.append_nil] at hparse
  simp [readRecord, readText_patchRecord, cstr_of_not_mem (zero_not_mem_headerDump hh), hparse,
    Except.toOption]

theorem readRecord_patchRecord_overrun [Host] {h : Header} (hh : CanonicalHeader h) (hs : ¬ ShortHeader h)
    (action : Action) : readRecord (patchRecord action h) = none := by
  have hparse := headerParse_dump_overrun hh hs []
  rw [List.append_nil] at hparse
  simp [readRecord, readText_patchRecord, cstr_of_not_mem (zero_not_mem_headerDump hh), hparse,
    Except.toOption]

/-! ## Runs of plain patches -/

/-- A canonical header that is neither a folder nor a mark. -/
structure PlainHeader (h : Header) : Prop where
  canonical : CanonicalHeader h
  not_dir : headerHasType h SC_DIR_TYPE = false
  not_mark : headerHasType h SC_MARK_TYPE = false

/-- A plain header that is read back as it was written. -/
structure ReadableHeader (h : Header) : Prop extends PlainHeader h where
  short : ShortHeader h

def plainPatch (_ : Sys) (_ : Mdir) (_ : Action) (header : Header) (_ : Nat) : Prop :=
  PlainHeader header

def noCrash (_ : Sys) (_ : Mdir) (_ : Action) (_ : Header) (_ : Nat) (_ : Power) : Prop :=
  False

theorem PlainHeader.linked {h : Header} (hp : PlainHeader h) (sys : Sys) (path : Bytes)
    (action : Action) : linkedHeader sys path action h = h := by
  cases action with
  | rem => rfl
  | add => simp [linkedHeader, storePrepareAdd, headerIsDirectory, hp.not_dir]

theorem PlainHeader.isMarkFor {h : Header} (hp : PlainHeader h) : isMarkFor h = 0 := by
  simp [Scambio.isMarkFor, hp.not_mark]

/-- A plain patch does not touch the mark index. -/
theorem PlainHeader.not_marksWritten [Host] {h : Header} (hp : PlainHeader h) (sys : Sys) (m : Mdir)
    (action : Action) (nb : Nat) : ¬ MarksWritten sys m action h nb := by
  rintro ⟨-, -, hlow, -⟩
  rw [hp.linked, hp.isMarkFor] at hlow
  exact absurd hlow (by decide)

/-- A plain patch that adds is never refused. -/
theorem PlainHeader.storePatch_add [Host] {h : Header} (hp : PlainHeader h) (sys : Sys) (path : Bytes)
    (A : List Slot) (nb : Nat) :
    storePatch sys path A .add h nb =
      (A ++ List.replicate nb blankSlot ++ [(⟨patchRecord .add h, 0⟩ : Slot)], some ((A.length + nb + 1 : Nat) : Int)) := by
  simp only [storePatch, storePrepare, storePrepareAdd, storeConfirm, storeMark, hp.linked, hp.isMarkFor,
    headerIsDirectory, hp.not_dir, Bool.false_eq_true, if_false, if_true, List.length_append,
    List.length_replicate, List.length_singleton]

section Readback

variable [Host] {maxJnlSize : Nat} {m : Mdir} {calls : List Call}

/-- A plain patch that is not refused succeeds. -/
theorem PlainHeader.refused {h : Header} (hp : PlainHeader h) {sys : Sys} {path : Bytes}
    {A : List Slot} {action : Action} {nb : Nat} (hnone : (storePatch sys path A action h nb).2 = none) :
    records (storePatch sys path A action h nb).1 = records A ++ List.replicate nb blankRecord := by
  rcases (storePatch_eq_none sys).1 hnone with hprep | hconf | hmark
  · rw [storePatch_refused sys hprep]
    simp [records, blankSlot]
  · rw [hp.linked] at hconf
    cases action <;> simp [storeConfirm, headerIsDirectory, hp.not_dir] at hconf
  · rw [hp.linked] at hmark
    exact absurd hp.isMarkFor hmark.1

omit [Host] in
/-- Every record is the one of a call or a deleted one. -/
def Accounted (R : List Bytes) (calls : List Call) : Prop :=
  ∀ i r, R[i]? = some r → IsDeleted r ∨ ∃ c ∈ calls, c.result = .ok ((1 + i : Nat) : Int)

omit [Host] in
theorem Accounted.mono {R : List Bytes} {calls calls' : List Call} (h : Accounted R calls)
    (hsub : calls ⊆ calls') : Accounted R calls' := by
  intro i r hr
  rcases h i r hr with hdel | ⟨c, hc, hres⟩
  · exact .inl hdel
  · exact .inr ⟨c, hsub hc, hres⟩

omit [Host] in
theorem Accounted.blanks {R : List Bytes} {calls : List Call} (h : Accounted R calls) (nb : Nat) :
    Accounted (R ++ List.replicate nb blankRecord) calls := by
  intro i r hr
  by_cases hi : i < R.length
  · rw [List.getElem?_append_left hi] at hr
    exact h i r hr
  · rw [List.getElem?_append_right (by omega), List.getElem?_replicate] at hr
    split_ifs at hr
    cases hr
    exact .inl isDeleted_blank

omit [Host] in
theorem Accounted.prepared {R T : List Bytes} {calls : List Call} {action : Action} {header : Header}
    (h : Accounted R calls) (hprep : Prepared action header R T) : Accounted T calls := by
  intro i r hr
  rcases hprep.keep i with hkeep | ⟨hrem, htgt, -⟩
  · exact h i r (hkeep ▸ hr)
  · rcases hprep.target hrem with ⟨n, r', htgt', hn, hdel⟩
    rw [htgt, Except.ok.injEq] at htgt'
    have hin : i = n := by omega
    rw [hin, hn] at hr
    cases hr
    exact .inl hdel

theorem Accounted.step (hmax : maxJnlSize < 2 ^ 32) {A : List Slot} (h : Refines maxJnlSize m A)
    (hpow : m.disk.power = none) (hacc : Accounted (records A) calls) {sys : Sys} {action : Action}
    {header : Header} {nb : Nat} (hp : PlainHeader header) (hroom : RoomFor sys m action header nb)
    (hmark : MarksSafe sys m action header nb) :
    Accounted (records (storePatch sys m.path A action header nb).1)
      (calls ++ [callOf maxJnlSize sys m action header nb]) := by
  have hsub : calls ⊆ calls ++ [callOf maxJnlSize sys m action header nb] :=
    List.subset_append_left _ _
  cases hout : (storePatch sys m.path A action header nb).2 with
  | none =>
      rw [hp.refused hout]
      exact (hacc.blanks nb).mono hsub
  | some v =>
      rcases storePatch_records sys m.path A action header nb with
        ⟨-, hnone, -⟩ | ⟨T, hprep, hrec, hres⟩
      · rw [hout] at hnone
        cases hnone
      · rw [hrec]
        intro i r hr
        have hlen : T.length = A.length + nb := by
          rw [hprep.length]
          simp [records]
        by_cases hi : i < T.length
        · rw [List.getElem?_append_left hi] at hr
          exact ((hacc.blanks nb).prepared hprep).mono hsub i r hr
        · right
          have hi' := (List.getElem?_eq_some_iff.1 hr).1
          simp only [List.length_append, List.length_singleton] at hi'
          refine ⟨_, List.mem_append_right _ (List.mem_singleton_self _), ?_⟩
          have href := (h.callOf hmax hpow hroom hmark).2.1
          rcases hres with hres | ⟨hres, -⟩
          · rw [hres] at href
            have hv : A.length + nb + 1 = 1 + i := by omega
            rw [hv] at href
            cases hr' : (mdirPatch sys maxJnlSize m action header nb).result with
            | error e => simp [hr', Except.toOption] at href
            | ok w =>
                rw [hr'] at href
                simp only [Except.toOption, Option.some.injEq] at href
                rw [← href]
                exact hr'
          · rw [hout] at hres
            cases hres

/-- What a run of plain patches keeps. -/
structure PlainHistory (A : List Slot) (calls : List Call) : Prop where
  history : History (records A) calls
  accounted : Accounted (records A) calls
  plain : ∀ c ∈ calls, PlainHeader c.header ∧ c.left = c.header

theorem Run.plain (hat : Host.appendPwrite = .atOffset) (hmax : maxJnlSize < 2 ^ 32)
    (h : Run maxJnlSize plainPatch noCrash m calls) :
    ∃ A, Refines maxJnlSize m A ∧ m.disk.power = none ∧ PlainHistory A calls := by
  refine Run.invariant hmax (fun _ => .inl hat) (fun hc => hc.elim) ?_ ?_ (fun hc => hc.elim) h
  · exact ⟨History.init, fun i r hr => by simp [records] at hr, by simp⟩
  · intro m A calls sys action header nb href hpow hP hplain hroom
    have hmark : MarksSafe sys m action header nb := .inl hat
    refine ⟨hP.history.step hmax href hpow hroom hmark,
      hP.accounted.step hmax href hpow hplain hroom hmark, ?_⟩
    intro c hc
    rcases List.mem_append.1 hc with hc | hc
    · exact hP.plain c hc
    · have hleft := (href.callOf hmax hpow hroom hmark).2.2.2.2
      rw [PlainHeader.linked hplain] at hleft
      rw [List.mem_singleton.1 hc]
      exact ⟨hplain, hleft⟩

omit [Host] in
theorem eq_ok_of_toOption {α : Type} {x : Except Err α} {a : α} (h : x.toOption = some a) :
    x = .ok a := by
  cases x with
  | error e => cases h
  | ok b =>
      cases h
      rfl

/-- What is read at any later time: the version of a call as the action and fields given to it, if these
are short and no later removal took it; the others as deleted. -/
theorem Run.readback (hat : Host.appendPwrite = .atOffset) (hmax : maxJnlSize < 2 ^ 32)
    (h : Run maxJnlSize plainPatch noCrash m calls) {v : Int} (hlo : 1 ≤ v) (hhi : v ≤ mdirLastVersion m) :
    (∀ k c, calls[k]? = some c → c.result = .ok v → ¬ RemovedAfter calls k v →
      (mdirRead m v = .ok (c.action, some c.header) ↔ ShortHeader c.header)) ∧
    (((∀ c ∈ calls, c.result ≠ .ok v) ∨
        ∃ k c, calls[k]? = some c ∧ c.result = .ok v ∧ RemovedAfter calls k v) →
      ∃ action, mdirRead m v = .ok (action, none)) := by
  rcases h.plain hat hmax with ⟨A, href, -, hP⟩
  have hlast := href.lastVersion
  have hread : ∀ {r : Bytes}, (records A)[(v - 1).toNat]? = some r →
      (Scambio.mdirRead m v).toOption = readRecord r := by
    intro r hr
    have hcast : v = ((1 + (v - 1).toNat : Nat) : Int) := by omega
    rw [hcast]
    exact href.mdirRead hmax hr
  refine ⟨?_, ?_⟩
  · intro k c hk hres hrem
    rcases hP.history k c v hk hres with ⟨-, -, ⟨r, hr, -, hown⟩, -⟩
    rcases hP.plain c (List.mem_of_getElem? hk) with ⟨hplain, hleft⟩
    have hrecord := hread hr
    rw [hown hrem, hleft] at hrecord
    refine ⟨fun hok => ?_, fun hs => eq_ok_of_toOption ?_⟩
    · by_contra hs
      rw [readRecord_patchRecord_overrun hplain.canonical hs, hok] at hrecord
      cases hrecord
    · rw [hrecord, readRecord_patchRecord hplain.canonical hs]
  -- an erased record reads as an addition without header
  · have hdel : ∀ r, (records A)[(v - 1).toNat]? = some r → IsDeleted r →
        ∃ action, Scambio.mdirRead m v = .ok (action, none) := by
      intro r hr hd
      refine ⟨.add, eq_ok_of_toOption ?_⟩
      rw [hread hr, readRecord_of_isDeleted hd]
    rintro (hnone | ⟨k, c, hk, hres, hrem⟩)
    -- a record whose version no call returned is an erased one
    · have hlt : (v - 1).toNat < (records A).length := by
        rw [records_length]
        omega
      have hr := List.getElem?_eq_getElem hlt
      rcases hP.accounted _ _ hr with hd | ⟨c, hc, hres⟩
      · exact hdel _ hr hd
      · refine absurd hres ?_
        have hcast : ((1 + (v - 1).toNat : Nat) : Int) = v := by omega
        rw [hcast]
        exact hnone c hc
    · rcases hP.history k c v hk hres with ⟨-, -, ⟨r, hr, hd, -⟩, -⟩
      exact hdel r hr (hd hrem)

/-- Each successful call returns the next version after its blanks, and at any later time that version,
unless a later removal took it, reads as the action and fields given to the call if and only if these
are short; all other versions read as deleted. -/
theorem mdirRead_of_run (hat : Host.appendPwrite = .atOffset) (hmax : maxJnlSize < 2 ^ 32)
    (h : Run maxJnlSize plainPatch noCrash m calls) :
    (∀ c ∈ calls, ∀ v, c.result = .ok v →
      v = c.before + c.nbDeleted + 1 ∧ 1 ≤ v ∧ v ≤ mdirLastVersion m) ∧
    ∀ v, 1 ≤ v → v ≤ mdirLastVersion m →
      (∀ k c, calls[k]? = some c → c.result = .ok v → ¬ RemovedAfter calls k v →
        (mdirRead m v = .ok (c.action, some c.header) ↔ ShortHeader c.header)) ∧
      (((∀ c ∈ calls, c.result ≠ .ok v) ∨
          ∃ k c, calls[k]? = some c ∧ c.result = .ok v ∧ RemovedAfter calls k v) →
        ∃ action, mdirRead m v = .ok (action, none)) := by
  refine ⟨fun c hc v hres => ?_, fun v hlo hhi => h.readback hat hmax hlo hhi⟩
  rcases h.plain hat hmax with ⟨A, href, -, hP⟩
  have hlast := href.lastVersion
  rcases List.getElem?_of_mem hc with ⟨k, hk⟩
  rcases hP.history k c v hk hres with ⟨hver, hnn, ⟨r, hr, -⟩, -⟩
  have hlt := (List.getElem?_eq_some_iff.1 hr).1
  rw [records_length] at hlt
  omega

omit [Host] in
/-- Two patches, the second with two blanks and in a second journal, then a removal of the first. -/
theorem mdirRead_of_run_sample :
    let _ := plainHost
    let h : Header := [⟨ascii "sc-type", ascii "im"⟩, ⟨ascii "from", ascii "a b"⟩]
    let r : Header := [⟨ascii "sc-target", ascii "1"⟩]
    let m₁ := (mdirPatch quietSys 1 (Mdir.new (ascii "/m/1")) .add h 0).mdir
    let m₂ := (mdirPatch quietSys 1 m₁ .add h 2).mdir
    let m₃ := (mdirPatch quietSys 1 m₂ .rem r 0).mdir
    mdirRead m₃ 4 = .ok (.add, some h) ∧ ∃ action, mdirRead m₃ 1 = .ok (action, none) := by
  intro _ h r m₁ m₂ m₃
  have hh : PlainHeader h := ⟨by decide, by decide, by decide⟩
  have hr : PlainHeader r := ⟨by decide, by decide, by decide⟩
  have run₁ : Run 1 plainPatch noCrash m₁ _ :=
    Run.patch quietSys .add h 0 (Run.init (ascii "/m/1")) hh (by decide)
  have run₂ : Run 1 plainPatch noCrash m₂ _ :=
    Run.patch quietSys .add h 2 run₁ hh (by decide)
  have run₃ : Run 1 plainPatch noCrash m₃ _ :=
    Run.patch quietSys .rem r 0 run₂ hr (by decide)
  have hread := (mdirRead_of_run rfl (by norm_num) run₃).2
  have htarget : headerTarget r = .ok 1 := eq_ok_of_toOption (by decide)
  refine ⟨((hread 4 (by decide) (by decide)).1 1 _ rfl
      (eq_ok_of_toOption (by decide)) ?_).2 (by decide),
    (hread 1 (by decide) (by decide)).2 (.inr ⟨0, _, rfl,
      eq_ok_of_toOption (by decide), 2, _, by decide, rfl, rfl, htarget, 5,
      eq_ok_of_toOption (by decide)⟩)⟩
  rintro ⟨k, c, hk, hget, -, ht, -⟩
  obtain rfl : k = 2 := by
    have := (List.getElem?_eq_some_iff.1 hget).1
    simp only [List.length_append, List.length_singleton, List.length_nil] at this
    omega
  cases hget
  rw [show (callOf 1 quietSys m₂ .rem r 0).header = r from rfl, htarget] at ht
  cases ht

omit [Host] in
/-- The record of a patch with a long value is there, but `mdir_read` does not return from it. -/
theorem not_mdirRead_of_run :
    let _ := plainHost
    ∃ m c, Run 2000 plainPatch noCrash m [c] ∧ c.result = .ok 1 ∧ mdirLastVersion m = 1 ∧
      mdirRead m 1 ≠ .ok (c.action, some c.header) := by
  intro _
  have hp : PlainHeader [longField] := ⟨canonical_longField, by decide, by decide⟩
  have hroom : RoomFor quietSys (Mdir.new (ascii "/m/1")) .add [longField] 0 := by decide +kernel
  have run : Run 2000 plainPatch noCrash _ [_] := Run.patch quietSys .add [longField] 0 (Run.init (ascii "/m/1")) hp hroom
  rcases (refines_new 2000 (ascii "/m/1")).callOf (by norm_num) rfl hroom (.inl rfl) with ⟨href, hres, -⟩
  rw [hp.storePatch_add] at href hres
  have hok : (callOf 2000 quietSys (Mdir.new (ascii "/m/1")) .add [longField] 0).result = .ok 1 :=
    eq_ok_of_toOption hres
  refine ⟨_, _, run, hok, href.lastVersion, fun hread => not_short_longField ?_⟩
  refine ((run.readback rfl (by norm_num) le_rfl href.lastVersion.ge).1 0 _ rfl hok fun hrem => ?_).1 hread
  rcases hrem with ⟨k, c, hk, hget, -⟩
  rw [List.getElem?_eq_none (Nat.succ_le_of_lt hk)] at hget
  cases hget

end Readback

end Scambio
