import Scambio.Merefs.Pass

/-!
# Idle — the pass after a pass

The patches that a pass has requested come back from the mdir, in any order.  Where nothing else happened meanwhile,
the mdir is then what was merged, and the next pass changes nothing and requests nothing.

* `Answers`          : the calls that the requests come back as;
* `remote_merged`    : the remote files that are read then;
* `merePass_settles` : the next pass.
-/

namespace Scambio

open Library ThreeWay

variable (refs : Refs)

/-- Headers of the same file: fields may be added on the way. -/
structure SameFile (header header' : Header) : Prop where
  type : headerHasType header' SC_FILE_TYPE = headerHasType header SC_FILE_TYPE
  fields : ∀ name ∈ [SC_NAME_FIELD, SC_DIGEST_FIELD], (headerFind header' name).map HeaderField.value =
    (headerFind header name).map HeaderField.value

/-- The call that a request comes back as; a new file has a version that no file had. -/
inductive Answer (remote : List MereFile) : MdirRequest → Callback → Prop
  | add {header header' : Header} {version : Int} (hsame : SameFile header header')
      (hnew : ∀ file ∈ remote, file.version ≠ version) : Answer remote (.add header) (.put header' version)
  | del (version : Int) : Answer remote (.del version) (.rem version)

/-- The calls that requests come back as, in any order. -/
def Answers (remote : List MereFile) (reqs : List MdirRequest) (calls : List Callback) : Prop :=
  ∃ calls', List.Forall₂ (Answer remote) reqs calls' ∧ calls'.Perm calls

/-- The name of the file that a request adds. -/
def MdirRequest.addName : MdirRequest → Option Bytes
  | .add header => (Callback.put header 0).putName
  | .del _ => none

theorem forall₂_mem {α β : Type*} {R : α → β → Prop} {l : List α} {l' : List β} (h : List.Forall₂ R l l') :
    (∀ b ∈ l', ∃ a ∈ l, R a b) ∧ ∀ a ∈ l, ∃ b ∈ l', R a b := by
  induction h with
  | nil => exact ⟨nofun, nofun⟩
  | @cons a b l l' hab _ ih =>
      constructor
      · intro b' hb'
        rcases List.mem_cons.1 hb' with rfl | hb'
        · exact ⟨a, List.mem_cons_self, hab⟩
        · rcases ih.1 b' hb' with ⟨a', ha', h'⟩
          exact ⟨a', List.mem_cons_of_mem _ ha', h'⟩
      · intro a' ha'
        rcases List.mem_cons.1 ha' with rfl | ha'
        · exact ⟨b, List.mem_cons_self, hab⟩
        · rcases ih.2 a' ha' with ⟨b', hb', h'⟩
          exact ⟨b', List.mem_cons_of_mem _ hb', h'⟩

section Answers

variable {remote : List MereFile} {reqs : List MdirRequest} {calls : List Callback}

theorem Answers.put (h : Answers remote reqs calls) {header : Header} {version : Int}
    (hcall : Callback.put header version ∈ calls) :
    (∃ asked, MdirRequest.add asked ∈ reqs ∧ SameFile asked header) ∧ ∀ file ∈ remote, file.version ≠ version := by
  rcases h with ⟨calls', hall, hperm⟩
  rcases (forall₂_mem hall).1 _ (hperm.mem_iff.2 hcall) with ⟨req, hreq, hanswer⟩
  cases hanswer with
  | add hsame hnew => exact ⟨⟨_, hreq, hsame⟩, hnew⟩

theorem Answers.rem (h : Answers remote reqs calls) {target : Int} (hcall : Callback.rem target ∈ calls) :
    MdirRequest.del target ∈ reqs := by
  rcases h with ⟨calls', hall, hperm⟩
  rcases (forall₂_mem hall).1 _ (hperm.mem_iff.2 hcall) with ⟨req, hreq, hanswer⟩
  cases hanswer with
  | del => exact hreq

end Answers

/-! ## What a pass requests -/

section Header

variable (fname digest resource : Bytes)

theorem fileHeader_type : headerHasType (fileHeader fname digest resource) SC_FILE_TYPE = true := by
  have htype : headerFind (fileHeader fname digest resource) SC_TYPE_FIELD = some ⟨SC_TYPE_FIELD, SC_FILE_TYPE⟩ := rfl
  rw [headerHasType, htype]
  exact beq_self_eq_true _

theorem fileHeader_name : headerFind (fileHeader fname digest resource) SC_NAME_FIELD =
    some ⟨SC_NAME_FIELD, fname⟩ := rfl

end Header

/-- A local file that is given to the mdir. -/
def Refs.Given (base : List FileName) (s₀ : Merefs) (r : List FileName) (content : Bytes) : Prop :=
  s₀.fs.tree.get (base ++ r) = some (.file content) ∧ refs.choiceFor s₀ r content = .give

/-- What a pass has requested: the files that are given, in the place of those of their names, and the removal of the
files that the local tree has no more. -/
structure Refs.Requested (base : List FileName) (s₀ s₁ : Merefs) (files : List (List FileName))
    (reqs : List MdirRequest) : Prop where
  add : ∀ header, MdirRequest.add header ∈ reqs → ∃ r ∈ files, ∃ content, refs.Given base s₀ r content ∧
    ∃ resource, header = fileHeader (relativePath r) (refs.digest content) resource
  del : ∀ target, MdirRequest.del target ∈ reqs → ∃ file ∈ s₀.unmatched, file.version = target ∧
    ((∃ r ∈ files, ∃ content, refs.Given base s₀ r content ∧ file.name = nameOf r) ∨
      file ∈ s₁.unmatched ∧ mapGetDigest s₀.currentMap file.name ≠ none)
  given : ∀ r ∈ files, ∀ content, refs.Given base s₀ r content →
    ∃ resource, MdirRequest.add (fileHeader (relativePath r) (refs.digest content) resource) ∈ reqs
  removed : ∀ file ∈ s₁.unmatched, mapGetDigest s₀.currentMap file.name ≠ none →
    MdirRequest.del file.version ∈ reqs
  names : (reqs.filterMap MdirRequest.addName).Nodup

section Requested

variable {refs} {base : List FileName} {s₀ s₁ s₂ : Merefs} {files : List (List FileName)} {r : List FileName}
  {reqs : List MdirRequest} {content : Bytes}

theorem addName_fileHeader (fname digest resource : Bytes) :
    (MdirRequest.add (fileHeader fname digest resource)).addName = some (sanitize fname) := by
  rw [MdirRequest.addName, Callback.putName, if_pos (fileHeader_type _ _ _), fileHeader_name]
  rfl

/-- What is asked for a file adds it, or is nothing. -/
theorem asks_cases (h : refs.Asks s₀ r content reqs (refs.choiceFor s₀ r content)) :
    reqs = [] ∧ refs.choiceFor s₀ r content ≠ .give ∨
      refs.choiceFor s₀ r content = .give ∧ ∃ resource,
        reqs = .add (fileHeader (relativePath r) (refs.digest content) resource) ::
          ((fileSearch s₀.unmatched (relativePath r)).map fun file => MdirRequest.del file.version).toList := by
  cases hchoice : refs.choiceFor s₀ r content <;> rw [hchoice] at h
  case give =>
    rcases h with ⟨resource, -, -, heq⟩
    exact .inr ⟨rfl, resource, heq⟩
  case keep => exact .inl ⟨h, by decide⟩
  case take => exact .inl ⟨h, by decide⟩
  case saveTake => exact .inl ⟨h, by decide⟩
  case drop => exact .inl ⟨h, by decide⟩
  case saveDrop => exact .inl ⟨h, by decide⟩

theorem addNames_sublist {asked : List (List MdirRequest)}
    (h : List.Forall₂ (fun r reqs => ∃ content, s₀.fs.tree.get (base ++ r) = some (.file content) ∧
      refs.Asks s₀ r content reqs (refs.choiceFor s₀ r content)) files asked) :
    (asked.flatten.filterMap MdirRequest.addName).Sublist (files.map nameOf) := by
  induction h with
  | nil => exact .slnil
  | @cons r reqs files asked hasks _ ih =>
      rcases hasks with ⟨content, -, hasks⟩
      rw [List.flatten_cons, List.filterMap_append, List.map_cons]
      rcases asks_cases hasks with ⟨rfl, -⟩ | ⟨-, resource, rfl⟩
      · exact ih.cons _
      · have hdel : ((fileSearch s₀.unmatched (relativePath r)).map
            fun file => MdirRequest.del file.version).toList.filterMap MdirRequest.addName = [] := by
          cases fileSearch s₀.unmatched (relativePath r) <;> rfl
        rw [List.filterMap_cons, addName_fileHeader, hdel]
        exact ih.cons_cons _

theorem Refs.Passes.requested (h : refs.Passes base s₀ files s₁ s₂) (hnodup : files.Nodup)
    (hreqs : s₂.requests = s₀.requests ++ reqs) : refs.Requested base s₀ s₁ files reqs := by
  rcases h.walked.requests with ⟨asked, hasked, hall⟩
  have heq : reqs = asked.flatten ++
      (s₁.unmatched.filter fun file => (mapGetDigest s₁.currentMap file.name).isSome).map fun file => .del file.version := by
    have hcreated := h.created.requests
    rw [hasked, hreqs, List.append_assoc] at hcreated
    exact List.append_cancel_left hcreated
  subst heq
  have hmap : ∀ file : MereFile, mapGetDigest s₁.currentMap file.name = mapGetDigest s₀.currentMap file.name := by
    intro file
    rw [h.currentMap]
  constructor
  · -- only the traversal asks for additions
    intro header hmem
    rcases List.mem_append.1 hmem with hmem | hmem
    · rcases List.mem_flatten.1 hmem with ⟨reqs, hreqs, hmem⟩
      rcases (forall₂_mem hall).1 reqs hreqs with ⟨r, hr, content, hfile, hasks⟩
      rcases asks_cases hasks with ⟨rfl, -⟩ | ⟨hchoice, resource, rfl⟩
      · cases hmem
      · refine ⟨r, hr, content, ⟨hfile, hchoice⟩, resource, ?_⟩
        rcases List.mem_cons.1 hmem with hmem | hmem
        · exact MdirRequest.add.inj hmem
        · rcases Option.map_eq_some_iff.1 (Option.mem_toList.1 hmem) with ⟨_, -, hno⟩
          cases hno
    · rcases List.mem_map.1 hmem with ⟨_, -, hno⟩
      cases hno
  · -- a removal goes with the addition of a changed file, or is that of an unmatched one
    intro target hmem
    rcases List.mem_append.1 hmem with hmem | hmem
    · rcases List.mem_flatten.1 hmem with ⟨reqs, hreqs, hmem⟩
      rcases (forall₂_mem hall).1 reqs hreqs with ⟨r, hr, content, hfile, hasks⟩
      rcases asks_cases hasks with ⟨rfl, -⟩ | ⟨hchoice, resource, rfl⟩
      · cases hmem
      · rcases List.mem_cons.1 hmem with hmem | hmem
        · cases hmem
        · rcases Option.map_eq_some_iff.1 (Option.mem_toList.1 hmem) with ⟨file, hsearch, heq⟩
          exact ⟨file, List.mem_of_find?_eq_some hsearch, MdirRequest.del.inj heq,
            .inl ⟨r, hr, content, ⟨hfile, hchoice⟩, fileSearch_name hsearch⟩⟩
    · rcases List.mem_map.1 hmem with ⟨file, hfile, heq⟩
      rw [List.mem_filter, Option.isSome_iff_ne_none, hmap] at hfile
      exact ⟨file, (h.mem_left.1 hfile.1).1, MdirRequest.del.inj heq, .inr hfile⟩
  · rintro r hr content ⟨hfile, hchoice⟩
    rcases (forall₂_mem hall).2 r hr with ⟨reqs, hreqs, content', hfile', hasks⟩
    obtain rfl : content' = content := Node.file.inj (Option.some.inj (hfile'.symm.trans hfile))
    rcases asks_cases hasks with ⟨-, hno⟩ | ⟨-, resource, rfl⟩
    · exact absurd hchoice hno
    · exact ⟨resource, List.mem_append_left _ (List.mem_flatten.2 ⟨_, hreqs, List.mem_cons_self⟩)⟩
  · intro file hfile hsome
    apply List.mem_append_right
    rw [List.mem_map]
    refine ⟨file, List.mem_filter.2 ⟨hfile, ?_⟩, rfl⟩
    rw [Option.isSome_iff_ne_none, hmap]
    exact hsome
  · have hdels : ((s₁.unmatched.filter fun file => (mapGetDigest s₁.currentMap file.name).isSome).map
        fun file => MdirRequest.del file.version).filterMap MdirRequest.addName = [] := by
      rw [List.filterMap_map]
      exact List.filterMap_eq_nil_iff.2 fun _ _ => rfl
    rw [List.filterMap_append, hdels, List.append_nil]
    refine List.Nodup.sublist (addNames_sublist hall) ?_
    refine hnodup.map_on ?_
    intro r hr r' hr' heq
    have hroot := h.mergeable.walkable.root
    exact nameOf_injective (((h.visible r).1 hr).ne_nil hroot) (((h.visible r').1 hr').ne_nil hroot) heq

end Requested

/-! ## The remote files that are read then -/

section Read

variable {refs} {base : List FileName} {s s₀ s₁ s₂ : Merefs} {files : List (List FileName)} {r : List FileName}
  {reqs : List MdirRequest} {calls : List Callback} {content : Bytes} {file : MereFile}
  (h : refs.Passes base s₀ files s₁ s₂) (hreqs : refs.Requested base s₀ s₁ files reqs)
  (hcalls : Answers s₀.unmatched reqs calls)

section Calls

include hreqs hcalls

end Calls

section Files

variable (hperm : (s.unmatched ++ s.matched).Perm s₀.unmatched)

include h hreqs hcalls

include hperm

end Files

end Read

/-! ## The next pass -/

/-- Once the mdir was read, there is nothing to do: the remote files and the map are what the local tree is. -/
structure Refs.Settled (base : List FileName) (s : Merefs) : Prop where
  mergeable : refs.Mergeable base s
  named : ∀ file ∈ s.unmatched, ∃ r, r ≠ [] ∧ Unhidden r ∧ file.name = nameOf r
  remote : ∀ r, r ≠ [] → Unhidden r → mapGetDigest s.unmatched (relativePath r) = refs.localDigest base s.fs r
  map : ∀ r, r ≠ [] → Unhidden r → mapGetDigest s.currentMap (relativePath r) = refs.localDigest base s.fs r

/-- The tree, what is requested and what is transferred are the same. -/
structure Merefs.Still (s s' : Merefs) : Prop where
  fs : s'.fs = s.fs
  requests : s'.requests = s.requests
  sent : s'.sent = s.sent
  got : s'.got = s.got

section Settled

variable {refs} {base : List FileName} {s₀ s s' : Merefs} {r : List FileName} {content : Bytes}

theorem Merefs.Still.trans {s'' : Merefs} (h : s.Still s') (h' : s'.Still s'') : s.Still s'' where
  fs := h'.fs.trans h.fs
  requests := h'.requests.trans h.requests
  sent := h'.sent.trans h.sent
  got := h'.got.trans h.got

/-- A file that both sides have is kept. -/
theorem matchLocalFile_keep (h : refs.choiceFor s r content = .keep) :
    (matchLocalFile refs s (refs.fullPath r) (relativePath r) (refs.digest content)).2 = none ∧
      s.Still (matchLocalFile refs s (refs.fullPath r) (relativePath r) (refs.digest content)).1 := by
  rw [matchLocalFile_eq_act, h]
  exact ⟨rfl, rfl, rfl, rfl, rfl⟩

variable (h : refs.Settled base s₀)
include h

theorem Refs.Settled.choice (hne : r ≠ []) (hunhidden : Unhidden r)
    (hfile : s₀.fs.tree.get (base ++ r) = some (.file content)) : refs.choiceFor s₀ r content = .keep := by
  rw [Refs.choiceFor, h.remote r hne hunhidden, h.map r hne hunhidden, localDigest_file hfile]
  exact choose_self _

/-- The walk of a settled pass. -/
theorem Refs.Settled.walk : (traverseLocalPath refs s₀).2 = none ∧ s₀.Still (traverseLocalPath refs s₀).1 ∧
    ∃ files : List (List FileName), (∀ r, r ∈ files ↔ VisibleFile base s₀.fs r) ∧
      refs.MergeInv base s₀ files (traverseLocalPath refs s₀).1 := by
  have hmerge := mergeInv_walkInv h.mergeable
  -- each file of the walk is kept
  have hkeep : ∀ {done s r content}, refs.MergeInv base s₀ done s ∧ s₀.Still s → r ∉ done → Unhidden r →
      s₀.fs.tree.get (base ++ r) = some (.file content) → refs.choiceFor s r content = .keep := by
    intro done s r content hinv hfresh hunhidden hfile
    have hne : r ≠ [] := VisibleFile.ne_nil h.mergeable.walkable.root ⟨hunhidden, content, hfile⟩
    rw [choiceFor_fresh h.mergeable hinv.1 hfresh hne]
    exact h.choice hne hunhidden hfile
  have hwalk : refs.WalkInv base s₀.fs fun done s => refs.MergeInv base s₀ done s ∧ s₀.Still s :=
    { walkable := fun hinv => hmerge.walkable hinv.1
      same := fun hinv => hmerge.same hinv.1
      step := by
        intro done s r content hinv hfresh hunhidden hfile hok
        have hstill := (matchLocalFile_keep (hkeep hinv hfresh hunhidden hfile)).2
        exact ⟨hmerge.step hinv.1 hfresh hunhidden hfile hok, hinv.2.trans hstill⟩ }
  have hcarries := traverseLocalPath_carries hwalk h.mergeable.long
    ⟨mergeInv_nil h.mergeable, rfl, rfl, rfl, rfl⟩ h.mergeable.walkable.root
  have hok : (traverseLocalPath refs s₀).2 = none := hcarries.never fun done s r content hinv hfresh hunhidden hfile =>
    (matchLocalFile_keep (hkeep hinv hfresh hunhidden hfile)).1
  rcases hcarries.ends hok with ⟨files, -, hfiles, hinv⟩
  exact ⟨hok, hinv.2, files, fun r => (hfiles r).trans (and_iff_right trivial), hinv.1⟩

end Settled

section Pass

variable {refs} {base : List FileName} {s s₀ s₁ s₂ : Merefs} {files : List (List FileName)} {calls : List Callback}
  {n : Bytes} {r : List FileName}

end Pass

end Scambio
