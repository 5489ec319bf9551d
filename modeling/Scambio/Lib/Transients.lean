import Mathlib.Data.List.Perm.Basic
import Scambio.Lib.Listing

/-!
# Transients — the patches that wait in `.tmp` (`lib/mdir.c`)

`mdir_patch_request` draws a number, then creates the file of the patch.  Processes do so side by side, so
that files do not come in the order of their numbers.  A reader lists them with a cursor that holds the
greatest number it has met, whatever the order of the directory is.

`put` and `rem` tell if the callbacks are given or NULL.
-/

namespace Scambio

open Library

section Model

variable [Host]

/-! ## Listing with callbacks that may be NULL -/

omit [Host] in
/-- The callbacks of `synch_list` are all guarded: a NULL one is not called, and nothing else changes. -/
def Callback.given (put rem : Bool) : Callback → Bool
  | .put _ _ => put
  | .rem _ => rem
  | .err _ _ => true

def synchListWith (put rem : Bool) (m : Mdir) (cursor : MdirCursor) : ListResult :=
  let r := synchList m cursor
  { r with calls := r.calls.filter (Callback.given put rem) }

omit [Host] in
/-- What `transient_list` calls for a patch. -/
def transientCalls (put rem : Bool) (action : Action) (h : Header) (version : Int) : List Callback :=
  if action = .rem ∧ rem = true then
    match headerTarget h with
    | .ok target => [.rem target]
    | .error _ => []
  else if put then [.put h (-version)] else []

/-- The loop of `transient_list`; `start` is the last transient version listed before. -/
def transientListLoopWith (put rem : Bool) (path : Bytes) (start : Int) :
    List (Bytes × Option Bytes) → MdirCursor → ListResult
  | [], cursor => ⟨cursor, [], .ok ()⟩
  | (name, file) :: files, cursor =>
      match actionOfName name with
      | none => transientListLoopWith put rem path start files cursor
      | some action =>
          match mdirStr2version (name.drop 1) with
          | .error _ => transientListLoopWith put rem path start files cursor
          | .ok version =>
              if version ≤ start then transientListLoopWith put rem path start files cursor
              else
                let cursor :=
                  if version > cursor.lastListedUnsync then { cursor with lastListedUnsync := version }
                  else cursor
                match headerFromFile ErrBuf.new file (snprintfPath (path ++ ascii "/.tmp/" ++ name)) with
                | (eb, none) => ⟨cursor, [], .error (eb.errStack.headD (.push 0 []))⟩
                | (_, some h) =>
                    (transientListLoopWith put rem path start files cursor).after
                      (transientCalls put rem action h version)

/-- With both callbacks, this is the loop of `transientList`. -/
theorem transientListLoopWith_true (path : Bytes) (start : Int) (files : List (Bytes × Option Bytes))
    (cursor : MdirCursor) :
    transientListLoopWith true true path start files cursor = transientListLoop path start files cursor := by
  induction files generalizing cursor with
  | nil => rfl
  | cons file files ih =>
      rcases file with ⟨name, file⟩
      simp only [transientListLoopWith, transientListLoop, ih]
      cases actionOfName name with
      | none => rfl
      | some action => cases action <;> simp only [transientCalls] <;> rfl

/-- What `synch_list` and then `transient_list` report, in `mdir_patch_list` after the reload.  The second
comes only if the first succeeds, and none if both callbacks are NULL. -/
def patchListParts (put rem : Bool) (m : Mdir) (cursor : MdirCursor) (unsyncOnly : Bool)
    (tmp : List (Bytes × Option Bytes)) : ListResult × Option ListResult :=
  if put || rem then
    let synch := if unsyncOnly then ⟨cursor, [], .ok ()⟩ else synchListWith put rem m cursor
    match synch.result with
    | .error _ => (synch, none)
    | .ok () =>
        (synch, some (transientListLoopWith put rem m.path synch.cursor.lastListedUnsync tmp synch.cursor))
  else (⟨cursor, [], .ok ()⟩, none)

theorem synchListWith_true (m : Mdir) (cursor : MdirCursor) :
    synchListWith true true m cursor = synchList m cursor := by
  have hall : ∀ c : Callback, c.given true true = true := by
    intro c
    cases c <;> rfl
  rw [synchListWith, List.filter_eq_self.2 fun c _ => hall c]

/-- With both callbacks, these are the parts of `mdirPatchList`. -/
theorem mdirPatchList_eq_parts (m : Mdir) (cursor : MdirCursor) (unsyncOnly : Bool) (order : List Bytes)
    (tmp : List (Bytes × Option Bytes)) (err : Except Nat (List (Bytes × Option Bytes))) {m' : Mdir}
    (hm : m' = (mdirReload ErrBuf.new m (.ok order)).2) {synch : ListResult} {transient : Option ListResult}
    (hparts : patchListParts true true m' cursor unsyncOnly tmp = (synch, transient)) :
    mdirPatchList m cursor unsyncOnly order (.ok tmp) err =
      match transient.map (ListResult.after synch.calls) with
      | none => (m', synch)
      | some t =>
          match t.result with
          | .error _ => (m', t)
          | .ok () =>
              let r := errList m'.path err
              (m', ⟨t.cursor, t.calls ++ r.1, r.2⟩) := by
  simp only [patchListParts, Bool.or_self, if_true, synchListWith_true, transientListLoopWith_true] at hparts
  rw [mdirPatchList, ← hm]
  simp only
  cases hresult : (if unsyncOnly = true then ⟨cursor, [], .ok ()⟩ else synchList m' cursor : ListResult).result with
  | error e =>
      rw [hresult] at hparts
      cases hparts
      rfl
  | ok u =>
      rw [hresult] at hparts
      cases hparts
      rfl

/-! ## Files and processes -/

omit [Host] in
theorem toInt64_range (n : Nat) : -2 ^ 63 ≤ toInt64 n ∧ toInt64 n < 2 ^ 63 := by
  unfold toInt64
  simp only [Int.bmod_def]
  split <;> omega

end Model

/-- A file of `.tmp`. -/
@[ext]
structure TmpFile where
  action : Action
  version : Int
  text : Bytes
  version_ge : -2 ^ 63 ≤ version
  version_lt : version < 2 ^ 63

instance : DecidableEq TmpFile :=
  fun _ _ => decidable_of_iff _ TmpFile.ext_iff.symm

/-- Its name and contents in the directory. -/
def TmpFile.entry (f : TmpFile) : Bytes × Option Bytes :=
  ((match f.action with | .add => 43 | .rem => 45) :: printInt f.version, some f.text)

/-- A process in `mdir_patch_request` that has drawn its number. -/
structure Drawn where
  action : Action
  header : Header
  count : Nat
  deriving DecidableEq, Repr

def Drawn.file (d : Drawn) : TmpFile :=
  { action := d.action, version := toInt64 d.count, text := headerWrite d.header
    version_ge := (toInt64_range d.count).1, version_lt := (toInt64_range d.count).2 }

/-- The sequence of transient versions, the processes that have drawn, the files that were in `.tmp` when it
was last listed and those that came since, the cursor of the reader and the calls of `transient_list`. -/
structure TmpState where
  next : Nat
  drawn : List Drawn
  seen : List TmpFile
  fresh : List TmpFile
  cursor : MdirCursor
  calls : List Callback

namespace TmpState

def start (next : Nat) : TmpState :=
  { next := next, drawn := [], seen := [], fresh := [], cursor := .new, calls := [] }

/-- `persist_read_inc_sequence`. -/
def draw (s : TmpState) (action : Action) (header : Header) : TmpState :=
  { s with
    next := (s.next + 1) % 2 ^ 64
    drawn := s.drawn ++ [{ action := action, header := header, count := s.next }] }

/-- The file is opened with O_EXCL, and written. -/
def create (s : TmpState) (i : Nat) : TmpState :=
  match s.drawn[i]? with
  | none => s
  | some d =>
      let s := { s with drawn := s.drawn.eraseIdx i }
      if d.file.entry.1 ∈ (s.seen ++ s.fresh).map (fun f => f.entry.1) then s
      else { s with fresh := s.fresh ++ [d.file] }

variable [Host]

/-- `mdir_patch_list` when `readdir` gives `order`. -/
def list (put rem : Bool) (s : TmpState) (m : Mdir) (unsyncOnly : Bool)
    (order : List (Bytes × Option Bytes)) : TmpState :=
  match patchListParts put rem m s.cursor unsyncOnly order with
  | (synch, none) => { s with cursor := synch.cursor }
  | (_, some t) =>
      { s with cursor := t.cursor, calls := s.calls ++ t.calls, seen := s.seen ++ s.fresh, fresh := [] }

end TmpState

section Spec

variable [Host]

/-- The header of a file, if it can be read. -/
def TmpFile.header (f : TmpFile) : Option Header :=
  (headerRead f.text).1.toOption

/-- What has to be called for a file: `put_cb` for an addition, `rem_cb` with the target for a removal. -/
def TmpFile.due (put rem : Bool) (f : TmpFile) : Option (List Callback) :=
  match f.action with
  | .add => if put then f.header.map fun h => [.put h (-f.version)] else some []
  | .rem =>
      if rem then f.header.bind fun h => (headerTarget h).toOption.map fun target => [.rem target]
      else some []

/-- Each file that was seen was reported once, through its callback, and nothing else was. -/
structure TmpState.Reported (put rem : Bool) (s : TmpState) : Prop where
  defined : ∀ f ∈ s.seen, (f.due put rem).isSome = true
  once : s.calls.Perm (s.seen.flatMap fun f => (f.due put rem).getD [])

/-- What comes to `.tmp` between two listings: if its number is not greater than those listed, its callback
is NULL; else its header can be read (with its target), and it is not a removal that `put_cb` would
get. -/
structure TmpFile.Fit (put rem : Bool) (last : Int) (f : TmpFile) : Prop where
  late : f.version ≤ last → (f.action = .add → put = false) ∧ (f.action = .rem → rem = false)
  readable : last < f.version → ∃ h, f.header = some h ∧
    (f.action = .rem → rem = true → ∃ target, headerTarget h = .ok target)
  removal : last < f.version → f.action = .rem → rem = true ∨ put = false

def TmpState.Fit (put rem : Bool) (s : TmpState) : Prop :=
  ∀ f ∈ s.fresh, f.Fit put rem s.cursor.lastListedUnsync

/-- The runs of the processes and of a reader, whose listings start in states that satisfy `ok`.  `readdir`
may give the files in any order, with other entries. -/
inductive TmpRun (put rem : Bool) (ok : TmpState → Prop) : TmpState → Prop
  | start (next : Nat) : TmpRun put rem ok (TmpState.start next)
  | draw {s : TmpState} (action : Action) (header : Header) :
      TmpRun put rem ok s → TmpRun put rem ok (s.draw action header)
  | create {s : TmpState} (i : Nat) : TmpRun put rem ok s → TmpRun put rem ok (s.create i)
  | list {s : TmpState} (m : Mdir) (unsyncOnly : Bool) (files : List TmpFile)
      (order : List (Bytes × Option Bytes)) : TmpRun put rem ok s → files.Perm (s.seen ++ s.fresh) →
      order.filter (fun e => (actionOfName e.1).isSome) = files.map TmpFile.entry → ok s →
      TmpRun put rem ok (s.list put rem m unsyncOnly order)

/-! ## One listing -/

omit [Host] in
theorem actionOfName_entry (f : TmpFile) : actionOfName f.entry.1 = some f.action := by
  rcases f with ⟨action, version, text, hge, hlt⟩
  cases action <;> rfl

omit [Host] in
theorem mdirStr2version_entry (f : TmpFile) : mdirStr2version (f.entry.1.drop 1) = .ok f.version := by
  rw [TmpFile.entry, List.drop_one, List.tail_cons, mdirStr2version,
    sscanfInt64_printInt f.version_ge f.version_lt]

variable {put rem : Bool} {path : Bytes} {start : Int}

theorem loop_other {e : Bytes × Option Bytes} (h : actionOfName e.1 = none)
    (order : List (Bytes × Option Bytes)) (cursor : MdirCursor) :
    transientListLoopWith put rem path start (e :: order) cursor =
      transientListLoopWith put rem path start order cursor := by
  rcases e with ⟨name, file⟩
  simp only [transientListLoopWith, h]

theorem loop_old {f : TmpFile} (h : f.version ≤ start) (order : List (Bytes × Option Bytes))
    (cursor : MdirCursor) :
    transientListLoopWith put rem path start (f.entry :: order) cursor =
      transientListLoopWith put rem path start order cursor := by
  have haction := actionOfName_entry f
  have hversion := mdirStr2version_entry f
  rcases hentry : f.entry with ⟨name, file⟩
  rw [hentry] at haction hversion
  simp only [transientListLoopWith, haction, hversion, if_pos h]

theorem loop_new {f : TmpFile} (h : start < f.version) {header : Header} (hread : f.header = some header)
    (order : List (Bytes × Option Bytes)) (cursor : MdirCursor) :
    transientListLoopWith put rem path start (f.entry :: order) cursor =
      (transientListLoopWith put rem path start order
        (if f.version > cursor.lastListedUnsync then { cursor with lastListedUnsync := f.version }
          else cursor)).after (transientCalls put rem f.action header f.version) := by
  have haction := actionOfName_entry f
  have hversion := mdirStr2version_entry f
  have hfile : ∀ name, headerFromFile ErrBuf.new (some f.text) name = (ErrBuf.new, some header) := by
    intro name
    rw [TmpFile.header] at hread
    cases hr : headerRead f.text with
    | mk r rest =>
        rw [hr] at hread
        cases r with
        | error e => cases hread
        | ok h =>
            cases hread
            simp only [headerFromFile, hr]
            rfl
  have hentry : f.entry = (f.entry.1, some f.text) := rfl
  rw [hentry, transientListLoopWith]
  simp only [haction, hversion, if_neg (not_le.2 h), hfile]

/-- What `transient_list` calls for a file that it comes to. -/
def TmpFile.called (put rem : Bool) (f : TmpFile) : List Callback :=
  (f.header.map fun h => transientCalls put rem f.action h f.version).getD []

/-- The loop calls for each new file once, and leaves the cursor at the greatest number. -/
theorem loop_spec {files : List TmpFile} {order : List (Bytes × Option Bytes)}
    (horder : order.filter (fun e => (actionOfName e.1).isSome) = files.map TmpFile.entry)
    (hread : ∀ f ∈ files, start < f.version → ∃ h, f.header = some h) (cursor : MdirCursor) :
    (transientListLoopWith put rem path start order cursor).calls =
        (files.filter fun f => decide (start < f.version)).flatMap (TmpFile.called put rem) ∧
      cursor.lastListedUnsync ≤
        (transientListLoopWith put rem path start order cursor).cursor.lastListedUnsync ∧
      ∀ f ∈ files, start < f.version →
        f.version ≤ (transientListLoopWith put rem path start order cursor).cursor.lastListedUnsync := by
  induction order generalizing files cursor with
  | nil =>
      cases files with
      | nil => exact ⟨rfl, le_rfl, fun f hf => nomatch hf⟩
      | cons f files => cases horder
  | cons e order ih =>
      cases haction : actionOfName e.1 with
      | none =>
          rw [List.filter_cons_of_neg (by simp [haction])] at horder
          rw [loop_other haction]
          exact ih horder hread cursor
      | some action =>
          rw [List.filter_cons_of_pos (by simp [haction])] at horder
          cases files with
          | nil => cases horder
          | cons f files =>
              rcases List.cons.inj horder with ⟨rfl, htail⟩
              have hread' : ∀ g ∈ files, start < g.version → ∃ h, g.header = some h :=
                fun g hg => hread g (List.mem_cons_of_mem f hg)
              rcases le_or_gt f.version start with hold | hnew
              · rw [loop_old hold, List.filter_cons_of_neg (by simpa using hold)]
                rcases ih htail hread' cursor with ⟨hcalls, hle, hall⟩
                refine ⟨hcalls, hle, fun g hg hg' => ?_⟩
                rcases List.mem_cons.1 hg with rfl | hg
                · exact absurd hg' (not_lt.2 hold)
                · exact hall g hg hg'
              · rcases hread f List.mem_cons_self hnew with ⟨h, hh⟩
                have hcalled : f.called put rem = transientCalls put rem f.action h f.version := by
                  rw [TmpFile.called, hh, Option.map_some, Option.getD_some]
                rw [loop_new hnew hh, List.filter_cons_of_pos (by simpa using hnew), List.flatMap_cons, hcalled]
                -- the cursor only grows, and is at or past this file
                obtain ⟨cursor', hcursor⟩ : ∃ c, c = if f.version > cursor.lastListedUnsync then
                    { cursor with lastListedUnsync := f.version } else cursor := ⟨_, rfl⟩
                rw [← hcursor]
                have hle' : cursor.lastListedUnsync ≤ cursor'.lastListedUnsync ∧
                    f.version ≤ cursor'.lastListedUnsync := by
                  rw [hcursor]
                  split
                  · next hgt => exact ⟨hgt.le, le_rfl⟩
                  · next hle => exact ⟨le_rfl, not_lt.1 hle⟩
                rcases ih htail hread' cursor' with ⟨hcalls, hle, hall⟩
                refine ⟨congrArg _ hcalls, hle'.1.trans hle, fun g hg hg' => ?_⟩
                rcases List.mem_cons.1 hg with rfl | hg
                · exact hle'.2.trans hle
                · exact hall g hg hg'

/-- A new file that fits is called for as it is due. -/
theorem called_of_fit {f : TmpFile} {last : Int} (h : f.Fit put rem last) (hnew : last < f.version) :
    f.due put rem = some (f.called put rem) := by
  rcases h.readable hnew with ⟨header, hheader, htarget⟩
  have hremoval := h.removal hnew
  rw [TmpFile.due, TmpFile.called, hheader]
  cases haction : f.action with
  | add => cases put <;> rfl
  | rem =>
      cases rem with
      | true =>
          rcases htarget haction rfl with ⟨target, ht⟩
          simp [transientCalls, ht, Except.toOption]
      | false =>
          have hput := (hremoval haction).resolve_left (by decide)
          simp [transientCalls, hput]

/-- Nothing is due for a file that comes late, if it fits. -/
theorem due_of_late {f : TmpFile} {last : Int} (h : f.Fit put rem last) (hold : f.version ≤ last) :
    f.due put rem = some [] := by
  rcases h.late hold with ⟨hadd, hrem⟩
  rw [TmpFile.due]
  cases haction : f.action with
  | add => simp [hadd haction]
  | rem => simp [hrem haction]

theorem synchListJnl_lastListedUnsync (d : Disk) (j : Jnl) (n index : Nat) (cursor : MdirCursor) :
    (synchListJnl d j n index cursor).cursor.lastListedUnsync = cursor.lastListedUnsync := by
  induction n generalizing index cursor with
  | zero => rfl
  | succ n ih =>
      rw [synchListJnl]
      split
      · rfl
      · exact ih _ _
      · exact ih _ _

/-- The journals do not move the cursor among the transient patches. -/
theorem synchList_lastListedUnsync (m : Mdir) (cursor : MdirCursor) :
    (synchList m cursor).cursor.lastListedUnsync = cursor.lastListedUnsync := by
  have hloop : ∀ (jnls : List Jnl) (from' : Int) (cursor : MdirCursor),
      (synchListLoop m.disk jnls from' cursor).cursor.lastListedUnsync = cursor.lastListedUnsync := by
    intro jnls
    induction jnls with
    | nil => exact fun _ _ => rfl
    | cons j jnls ih =>
        intro from' cursor
        rw [synchListLoop]
        split
        · exact ih _ _
        · simp only
          split
          · exact synchListJnl_lastListedUnsync m.disk j _ _ cursor
          · exact (ih _ _).trans (synchListJnl_lastListedUnsync m.disk j _ _ cursor)
  exact hloop m.jnls _ cursor

/-- What `mdir_patch_list` does with the cursor before it comes to `.tmp`. -/
theorem patchListParts_cases (m : Mdir) (cursor : MdirCursor) (unsyncOnly : Bool)
    (tmp : List (Bytes × Option Bytes)) :
    (∃ synch, patchListParts put rem m cursor unsyncOnly tmp = (synch, none) ∧
      synch.cursor.lastListedUnsync = cursor.lastListedUnsync) ∨
    ∃ synch, patchListParts put rem m cursor unsyncOnly tmp =
        (synch, some (transientListLoopWith put rem m.path cursor.lastListedUnsync tmp synch.cursor)) ∧
      synch.cursor.lastListedUnsync = cursor.lastListedUnsync := by
  unfold patchListParts
  split
  · obtain ⟨synch, hsynch⟩ : ∃ synch : ListResult,
        synch = if unsyncOnly = true then ⟨cursor, [], .ok ()⟩ else synchListWith put rem m cursor := ⟨_, rfl⟩
    have hcursor : synch.cursor.lastListedUnsync = cursor.lastListedUnsync := by
      rw [hsynch]
      split
      · rfl
      · exact synchList_lastListedUnsync m cursor
    simp only [← hsynch]
    cases synch.result with
    | error e => exact .inl ⟨synch, rfl, hcursor⟩
    | ok u => exact .inr ⟨synch, by rw [hcursor], hcursor⟩
  · exact .inl ⟨_, rfl, rfl⟩

/-! ## Runs -/

/-- All that was seen is reported, and the cursor is past it. -/
structure TmpState.Inv (put rem : Bool) (s : TmpState) : Prop where
  reported : s.Reported put rem
  past : ∀ f ∈ s.seen, f.version ≤ s.cursor.lastListedUnsync

omit [Host] in
/-- What is dropped gives nothing. -/
theorem flatMap_filter_of {l : List TmpFile} {p : TmpFile → Bool} {f g : TmpFile → List Callback}
    (h : ∀ a ∈ l, g a = if p a = true then f a else []) : (l.filter p).flatMap f = l.flatMap g := by
  induction l with
  | nil => rfl
  | cons a l ih =>
      have hl := ih fun b hb => h b (List.mem_cons_of_mem a hb)
      rw [List.flatMap_cons, h a List.mem_cons_self]
      cases hp : p a with
      | true => rw [List.filter_cons_of_pos hp, List.flatMap_cons, hl, if_pos rfl]
      | false =>
          rw [List.filter_cons_of_neg (by simp [hp]), hl, if_neg (by decide), List.nil_append]

theorem TmpState.Inv.list {s : TmpState} (h : s.Inv put rem) (hfit : s.Fit put rem) (m : Mdir)
    (unsyncOnly : Bool) {files : List TmpFile} {order : List (Bytes × Option Bytes)}
    (hfiles : files.Perm (s.seen ++ s.fresh))
    (horder : order.filter (fun e => (actionOfName e.1).isSome) = files.map TmpFile.entry) :
    (s.list put rem m unsyncOnly order).Inv put rem := by
  unfold TmpState.list
  rcases @patchListParts_cases _ put rem m s.cursor unsyncOnly order with ⟨synch, hparts, hcursor⟩ |
    ⟨synch, hparts, hcursor⟩
  · rw [hparts]
    refine ⟨⟨h.reported.defined, h.reported.once⟩, fun f hf => ?_⟩
    rw [hcursor]
    exact h.past f hf
  rw [hparts]
  -- only the files that came since the last listing are new
  have hfresh : ∀ f ∈ files, s.cursor.lastListedUnsync < f.version → f ∈ s.fresh := by
    intro f hf hnew
    rcases List.mem_append.1 (hfiles.mem_iff.1 hf) with hseen | hfresh
    · exact absurd hnew (not_lt.2 (h.past f hseen))
    · exact hfresh
  have hread : ∀ f ∈ files, s.cursor.lastListedUnsync < f.version → ∃ h, f.header = some h := by
    intro f hf hnew
    rcases (hfit f (hfresh f hf hnew)).readable hnew with ⟨header, hheader, -⟩
    exact ⟨header, hheader⟩
  rcases @loop_spec _ put rem m.path s.cursor.lastListedUnsync files order horder hread synch.cursor with
    ⟨hcalls, hle, hall⟩
  rw [hcursor] at hle
  have hdue : ∀ f ∈ s.fresh, f.due put rem =
      some (if s.cursor.lastListedUnsync < f.version then f.called put rem else []) := by
    intro f hf
    split
    · next hnew => exact called_of_fit (hfit f hf) hnew
    · next hold => exact due_of_late (hfit f hf) (not_lt.1 hold)
  constructor
  · constructor
    · intro f hf
      rcases List.mem_append.1 hf with hseen | hfresh
      · exact h.reported.defined f hseen
      · rw [hdue f hfresh]
        rfl
    · have hseen : s.seen.filter (fun f => decide (s.cursor.lastListedUnsync < f.version)) = [] := by
        rw [List.filter_eq_nil_iff]
        intro f hf
        simpa using h.past f hf
      have hnew : (files.filter fun f => decide (s.cursor.lastListedUnsync < f.version)).flatMap
            (TmpFile.called put rem) |>.Perm (s.fresh.flatMap fun f => (f.due put rem).getD []) := by
        calc
          (files.filter fun f => decide (s.cursor.lastListedUnsync < f.version)).flatMap
                (TmpFile.called put rem)
              |>.Perm (((s.seen ++ s.fresh).filter fun f =>
                decide (s.cursor.lastListedUnsync < f.version)).flatMap (TmpFile.called put rem)) :=
            (hfiles.filter _).flatMap_right _
          _ = (s.fresh.filter fun f => decide (s.cursor.lastListedUnsync < f.version)).flatMap
                (TmpFile.called put rem) := by rw [List.filter_append, hseen, List.nil_append]
          _ = s.fresh.flatMap fun f => (f.due put rem).getD [] := by
            refine flatMap_filter_of fun f hf => ?_
            rw [hdue f hf, Option.getD_some]
            simp only [decide_eq_true_eq]
      rw [List.flatMap_append]
      exact h.reported.once.append (hcalls ▸ hnew)
  · intro f hf
    rcases List.mem_append.1 hf with hseen | hfresh
    · exact (h.past f hseen).trans hle
    · rcases le_or_gt f.version s.cursor.lastListedUnsync with hold | hnew
      · exact hold.trans hle
      · exact hall f (hfiles.mem_iff.2 (List.mem_append_right _ hfresh)) hnew

theorem TmpRun.inv {s : TmpState} (h : TmpRun put rem (TmpState.Fit put rem) s) : s.Inv put rem := by
  induction h with
  | start next =>
      refine ⟨⟨?_, List.Perm.nil⟩, ?_⟩ <;> intro f hf <;> cases hf
  | draw action header _ ih => exact ⟨⟨ih.reported.defined, ih.reported.once⟩, ih.past⟩
  | @create s i _ ih =>
      unfold TmpState.create
      split
      · exact ih
      · simp only
        split
        · exact ⟨⟨ih.reported.defined, ih.reported.once⟩, ih.past⟩
        · exact ⟨⟨ih.reported.defined, ih.reported.once⟩, ih.past⟩
  | list m unsyncOnly files order _ hfiles horder hfit ih => exact ih.list hfit m unsyncOnly hfiles horder

/-- In every run whose listings find files that fit, what was in `.tmp` at the last listing has been reported
once, through the right callback. -/
theorem transients_reported_once {s : TmpState} (h : TmpRun put rem (TmpState.Fit put rem) s) :
    s.Reported put rem :=
  h.inv.reported

end Spec

/-- An addition is requested and listed, for a reader without `rem_cb`. -/
theorem transients_reported_once_sample :
    let _ := plainHost
    let h : Header := [⟨ascii "from", ascii "a"⟩]
    let s := ((TmpState.start 1).draw .add h).create 0
    (s.list true false (Mdir.new (ascii "/m/1")) false (s.fresh.map TmpFile.entry)).calls = [.put h (-1)] ∧
      (s.list true false (Mdir.new (ascii "/m/1")) false (s.fresh.map TmpFile.entry)).Reported true false := by
  intro _ h s
  have hfresh : s.fresh = [Drawn.file ⟨.add, h, 1⟩] := by decide
  have hfit : s.Fit true false := by
    intro f hf
    rw [hfresh, List.mem_singleton] at hf
    subst hf
    refine ⟨fun hle => absurd hle (by decide), fun _ => ⟨h, by decide, ?_⟩, ?_⟩
    · intro hrem
      cases hrem
    · intro _ hrem
      cases hrem
  have hrun : TmpRun true false (TmpState.Fit true false) s := .create 0 (.draw .add h (.start 1))
  refine ⟨by decide, transients_reported_once (.list _ false s.fresh _ hrun ?_ ?_ hfit)⟩
  · exact List.Perm.refl _
  · decide

/-- Two processes draw 1 and 2; the file of the second comes first and is listed, and then the file of the
first is never reported. -/
theorem not_transients_reported_once :
    let _ := plainHost
    ¬ ∀ (put rem : Bool) (s : TmpState), TmpRun put rem (fun _ => True) s → s.Reported put rem := by
  intro _ hall
  let h : Header := [⟨ascii "from", ascii "a"⟩]
  let s₁ := (((TmpState.start 1).draw .add h).draw .add h).create 1
  have run₁ : TmpRun true true (fun _ => True) s₁ := .create 1 (.draw .add h (.draw .add h (.start 1)))
  let s₂ := (s₁.list true true (Mdir.new (ascii "/m/1")) false (s₁.fresh.map TmpFile.entry)).create 0
  have run₂ : TmpRun true true (fun _ => True) s₂ := by
    refine .create 0 (.list _ false s₁.fresh _ run₁ (List.Perm.refl _) ?_ trivial)
    decide
  have run₃ := TmpRun.list (Mdir.new (ascii "/m/1")) false (s₂.seen ++ s₂.fresh)
    ((s₂.seen ++ s₂.fresh).map TmpFile.entry) run₂ (List.Perm.refl _) (by decide) trivial
  have hlen := (hall true true _ run₃).once.length_eq
  revert hlen
  decide

end Scambio
