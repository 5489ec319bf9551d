import Scambio.Stribution.Daemon

/-!
# Evaluation — which actions the rules lead to (`strib_eval`, `action_cb`)

The documentation has the rules tried in order up to the first moveto or discard, and gives the message to a
destination only once.  `strib_eval` does not know what `action_cb` does, nor `action_cb` what was done before.

* `firedActions`       : the actions that `strib_eval` hands to `action_cb`;
* `documentedActions`  : those that the documentation tells;
* `documentedRequests` : what is requested when these are carried out, each on its own;
* `rulesEvaluated_iff` : when this is what happens.
-/

namespace Scambio

/-! ## What is done, and what should be -/

/-- The name that a destination gives, relative to the folder. -/
def destRelname (subject : Header) : StribDest → Option Bytes
  | .string relname => some relname
  | .deref name => headerSearch subject name

/-- The folder where an action copies the message, as `do_copy_string` names it. -/
def destName (world : StribWorld) (subject : Header) (action : StribAction) : Option Bytes :=
  if action.type = .copy ∨ action.type = .move then
    (action.dest.bind (destRelname subject)).map fun relname => snprintfPath (world.mdirName ++ ascii "/" ++ relname)
  else none

/-- The actions for which `strib_eval` calls back; `none` when an evaluation stops the program. -/
def firedActions (regexec : Bytes → Bytes → Bool) (subject : Header) : Strib → Option (List StribAction)
  | [] => some []
  | test :: tests =>
      match conditionEval regexec test.condition subject with
      | none => none
      | some false => firedActions regexec subject tests
      | some true => (firedActions regexec subject tests).map (test.action :: ·)

/-- The message goes away, as all moves do once the copy is there. -/
def onlyDelete : StribAction :=
  { type := .delete, dest := none }

/-- `doc/stribucion.txt`: a copyto is executed unless its destination has the message already (`served`), and the
first action of another kind is the last one. -/
def documentedActions {α : Type} [DecidableEq α] (dest : StribAction → Option α) (regexec : Bytes → Bytes → Bool)
    (subject : Header) : List α → Strib → List StribAction
  | _, [] => []
  | served, test :: tests =>
      if conditionEval regexec test.condition subject = some true then
        if test.action.type = .copy then
          if ∃ folder ∈ dest test.action, folder ∈ served then documentedActions dest regexec subject served tests
          else test.action :: documentedActions dest regexec subject ((dest test.action).toList ++ served) tests
        else if ∃ folder ∈ dest test.action, folder ∈ served then [onlyDelete]
        else [test.action]
      else documentedActions dest regexec subject served tests

section Outcomes

variable (world : StribWorld) (subject object : Header) (version : Int)

/-- What it takes to copy the message to a folder, made first if it is not there, and whether it is copied. -/
def copyOutcome (history : List StribRequest) (relname : Bytes) : List StribRequest × Bool :=
  let folder := snprintfPath (world.mdirName ++ ascii "/" ++ relname)
  let create := StribRequest.createFolder relname
  let copy := StribRequest.copy folder object
  if world.lookup history folder ≠ .missing then ([copy], world.grants history copy)
  else if world.grants history create = true ∧ world.lookup (history ++ [create]) folder ≠ .missing then
    ([create, copy], world.grants (history ++ [create]) copy)
  else ([create], false)

/-- What it takes to delete a message that has a version. -/
def deleteOutcome (history : List StribRequest) : List StribRequest × Bool :=
  if 0 < version then ([.delete version], world.grants history (.delete version)) else ([], false)

/-- The copy that an action asks for; a field that gives no name gives no copy. -/
def destOutcome (history : List StribRequest) (dest : Option StribDest) : List StribRequest × Bool :=
  match dest.bind (destRelname subject) with
  | none => ([], false)
  | some relname => copyOutcome world object history relname

/-- What it takes to carry out an action, and whether it is carried out: a moveto is a copyto and then, if the
message was copied, a discard. -/
def actionOutcome (history : List StribRequest) (action : StribAction) : List StribRequest × Bool :=
  let copied := destOutcome world subject object history action.dest
  match action.type with
  | .delete => deleteOutcome world version history
  | .copy => copied
  | .move =>
      if copied.2 then
        let deleted := deleteOutcome world version (history ++ copied.1)
        (copied.1 ++ deleted.1, deleted.2)
      else copied
  | .invalid => ([], false)

/-- Actions in order, each carried out whatever became of those before it. -/
def documentedRequests : List StribRequest → List StribAction → List StribRequest
  | _, [] => []
  | history, action :: actions =>
      let requests := (actionOutcome world subject object version history action).1
      requests ++ documentedRequests (history ++ requests) actions

/-- What an error pending would change: a deletion, and a copy to a folder that is in memory, which is taken for one
that is not there. -/
def Hindered (history : List StribRequest) (action : StribAction) : Prop :=
  match action.type with
  | .delete => 0 < version
  | .copy | .move => ∃ relname ∈ action.dest.bind (destRelname subject),
      world.lookup history (snprintfPath (world.mdirName ++ ascii "/" ++ relname)) = .cached
  | .invalid => False

/-- No action that is not carried out is followed by one that the error would change. -/
def Unhindered : List StribRequest → Bool → List StribAction → Prop
  | _, _, [] => True
  | history, pending, action :: actions =>
      let outcome := actionOutcome world subject object version history action
      (pending = true → ¬ Hindered world subject version history action) ∧
        Unhindered (history ++ outcome.1) (!outcome.2) actions

end Outcomes

/-- The folder that a request gives the message to. -/
def StribRequest.copiedTo : StribRequest → Option Bytes
  | .copy folder _ => some folder
  | _ => none

section Evaluated

-- the folder that a name leads to
variable {α : Type} [DecidableEq α] (folderOf : Bytes → α)
variable (world : StribWorld)

def destFolder (subject : Header) (action : StribAction) : Option α :=
  (destName world subject action).map folderOf

/-- The rules `tests`, on a message without error pending, lead to the documented actions. -/
structure RulesEvaluated (tests : Strib) (history : List StribRequest) (subject object : Header) (version : Int) :
    Prop where
  documented : firedActions world.regexec subject tests =
    some (documentedActions (destFolder folderOf world subject) world.regexec subject [] tests)
  /-- What is requested is what these take. -/
  executed : (stribEval world tests history subject object version false).map Requested.requests =
    some (documentedRequests world subject object version history
      (documentedActions (destFolder folderOf world subject) world.regexec subject [] tests))
  /-- No folder receives the message more than once. -/
  once : ∀ done ∈ stribEval world tests history subject object version false,
    ((done.requests.filterMap StribRequest.copiedTo).map folderOf).Nodup
  /-- A deletion is the last request. -/
  last : ∀ done ∈ stribEval world tests history subject object version false,
    ∀ before version after, done.requests = before ++ .delete version :: after → after = []

/-- The condition of a test holds. -/
def Applies (subject : Header) (test : StribTest) : Prop :=
  conditionEval world.regexec test.condition subject = some true

instance (subject : Header) (test : StribTest) : Decidable (Applies world subject test) :=
  inferInstanceAs (Decidable (_ = _))

/-- An action that `action_cb` knows. -/
def KnownAction (action : StribAction) : Prop :=
  action.type = .delete ∨ (action.type = .copy ∨ action.type = .move) ∧ action.dest.isSome

/-- Rules that have nothing to do with one another on this message: all can be tried, only the last one that applies
can be a moveto or a discard, and no two of them name the same folder. -/
structure RulesApart (tests : Strib) (subject : Header) : Prop where
  tried : ∀ test ∈ tests, conditionEval world.regexec test.condition subject ≠ none
  known : ∀ test ∈ tests, Applies world subject test → KnownAction test.action
  apart : tests.Pairwise fun test test' => Applies world subject test → Applies world subject test' →
    test.action.type = .copy ∧
      ∀ folder ∈ destFolder folderOf world subject test.action, folder ∉ destFolder folderOf world subject test'.action

/-! ## Requests of one action -/

section Requests

variable {world} {history : List StribRequest} {subject object : Header} {version : Int} {error : Bool}

theorem doDelete_requests (before : List StribRequest) (version : Int) (error : Bool) :
    ∃ deletes, (doDelete world history before version error).requests = before ++ deletes ∧
      (deletes = [] ∨ deletes = [.delete version]) := by
  unfold doDelete
  split
  · exact ⟨[], (List.append_nil before).symm, Or.inl rfl⟩
  · split
    · exact ⟨[], (List.append_nil before).symm, Or.inl rfl⟩
    · exact ⟨_, rfl, Or.inr rfl⟩

/-- The requests of a copy: the folder may have to be created, and the copy may be given up. -/
theorem doCopyString_requests (relname : Bytes) :
    let copy := StribRequest.copy (snprintfPath (world.mdirName ++ ascii "/" ++ relname)) object
    (doCopyString world history relname object error).requests ∈
      [[copy], [.createFolder relname], [.createFolder relname, copy]] := by
  intro copy
  unfold doCopyString patchRequest
  simp only [List.nil_append]
  cases world.lookup (history ++ [StribRequest.createFolder relname])
      (snprintfPath (world.mdirName ++ ascii "/" ++ relname)) <;>
    cases world.lookup history (snprintfPath (world.mdirName ++ ascii "/" ++ relname)) <;>
    cases world.grants (history ++ []) (.createFolder relname) <;> cases error <;> simp [copy]

/-- What a copy requests: nothing but the folder and the copy, to the folder of the rule. -/
theorem doCopy_requests {dest : Option StribDest} {done : Requested}
    (h : doCopy world history dest subject object error = some done) :
    (∀ v, StribRequest.delete v ∉ done.requests) ∧
      (done.requests.filterMap StribRequest.copiedTo).Sublist
        ((dest.bind (destRelname subject)).map fun relname =>
          snprintfPath (world.mdirName ++ ascii "/" ++ relname)).toList := by
  have hstring : ∀ relname, (∀ v, StribRequest.delete v ∉
        (doCopyString world history relname object error).requests) ∧
      ((doCopyString world history relname object error).requests.filterMap StribRequest.copiedTo).Sublist
        [snprintfPath (world.mdirName ++ ascii "/" ++ relname)] := by
    intro relname
    have hrequests := @doCopyString_requests world history object error relname
    simp only [List.mem_cons, List.not_mem_nil, or_false] at hrequests
    rcases hrequests with heq | heq | heq <;> rw [heq] <;> simp [StribRequest.copiedTo, List.filterMap_cons]
  cases dest with
  | none => cases h
  | some dest =>
      cases dest with
      | string relname =>
          cases h
          exact hstring relname
      | deref name =>
          simp only [doCopy] at h
          simp only [Option.bind_some, destRelname, headerSearch]
          cases hfind : headerFind subject name with
          | none =>
              rw [hfind] at h
              cases h
              simp
          | some hf =>
              rw [hfind] at h
              cases h
              exact hstring hf.value

/-- What one call of `action_cb` requests. -/
theorem actionCb_requests {action : StribAction} {done : Requested}
    (h : actionCb world history action subject object version error = some done) :
    (action.type = .copy → ∀ v, StribRequest.delete v ∉ done.requests) ∧
      (∀ before v after, done.requests = before ++ .delete v :: after → after = []) ∧
      (done.requests.filterMap StribRequest.copiedTo).Sublist (destName world subject action).toList := by
  -- a delete that follows requests without one is the last
  have hdelete : ∀ (requests : List StribRequest) {deletes : List StribRequest}, (∀ v, StribRequest.delete v ∉ requests) →
      (deletes = [] ∨ deletes = [.delete version]) → ∀ before v after,
        requests ++ deletes = before ++ .delete v :: after → after = [] := by
    intro requests deletes hno hdeletes before v after heq
    have hbefore : ∀ after', requests ≠ before ++ .delete v :: after' := fun after' h =>
      hno v (h ▸ List.mem_append_right before List.mem_cons_self)
    rcases hdeletes with rfl | rfl
    · rw [List.append_nil] at heq
      exact absurd heq (hbefore after)
    · rcases List.eq_nil_or_concat after with hnil | ⟨after', last, rfl⟩
      · exact hnil
      · rw [List.concat_eq_append, ← List.cons_append, ← List.append_assoc] at heq
        exact absurd (List.append_inj' heq rfl).1 (hbefore after')
  obtain ⟨type, dest⟩ := action
  unfold actionCb at h
  cases type with
  | delete =>
      cases h
      rcases @doDelete_requests world history [] version error with ⟨deletes, heq, hdeletes⟩
      rw [heq]
      refine ⟨fun hcopy => absurd hcopy (by simp), ?_, ?_⟩
      · exact hdelete [] (by simp) hdeletes
      · rcases hdeletes with rfl | rfl <;> simp [StribRequest.copiedTo, List.filterMap_cons]
  | copy =>
      have hcopy := doCopy_requests h
      refine ⟨fun _ => hcopy.1, ?_, by simpa [destName] using hcopy.2⟩
      intro before v after heq
      exact absurd (heq ▸ List.mem_append_right before List.mem_cons_self) (hcopy.1 v)
  | move =>
      simp only at h
      cases hdone : doCopy world history dest subject object error with
      | none =>
          rw [hdone] at h
          cases h
      | some copy =>
          have hcopy := doCopy_requests hdone
          rw [hdone] at h
          simp only at h
          have hsub : (copy.requests.filterMap StribRequest.copiedTo).Sublist
              (destName world subject { type := .move, dest := dest }).toList := by
            simpa [destName] using hcopy.2
          split at h
          · cases h
            -- the copy failed
            refine ⟨fun hmove => absurd hmove (by simp), ?_, hsub⟩
            intro before v after heq
            exact absurd (heq ▸ List.mem_append_right before List.mem_cons_self) (hcopy.1 v)
          · cases h
            rcases @doDelete_requests world history copy.requests version false with ⟨deletes, heq, hdeletes⟩
            rw [heq]
            refine ⟨fun hmove => absurd hmove (by simp), hdelete _ hcopy.1 hdeletes, ?_⟩
            rw [List.filterMap_append]
            rcases hdeletes with rfl | rfl <;> simpa [StribRequest.copiedTo, List.filterMap_cons] using hsub
  | invalid => cases h

theorem actionCb_isSome (action : StribAction) :
    (actionCb world history action subject object version error).isSome ↔ KnownAction action := by
  have hcopy : ∀ dest : Option StribDest, (doCopy world history dest subject object error).isSome ↔ dest.isSome := by
    rintro (_ | _ | name)
    · simp [doCopy]
    · simp [doCopy]
    · unfold doCopy
      simp only
      split <;> simp
  obtain ⟨type, dest⟩ := action
  unfold actionCb KnownAction
  cases type with
  | delete => simp
  | copy => simpa using hcopy dest
  | move =>
      simp only [← hcopy dest]
      cases doCopy world history dest subject object error with
      | none => simp
      | some copy =>
          simp only
          split <;> simp
  | invalid => simp

/-- A copy requests what it takes, unless an error is pending and the folder is in memory: then it is to be made. -/
theorem doCopyString_outcome (relname : Bytes) :
    (¬ (error = true ∧ world.lookup history (snprintfPath (world.mdirName ++ ascii "/" ++ relname)) = .cached) →
      doCopyString world history relname object error =
        ⟨(copyOutcome world object history relname).1, !(copyOutcome world object history relname).2⟩) ∧
    (error = true → world.lookup history (snprintfPath (world.mdirName ++ ascii "/" ++ relname)) = .cached →
      (doCopyString world history relname object error).requests.head? ≠
        (copyOutcome world object history relname).1.head?) := by
  unfold doCopyString copyOutcome patchRequest
  simp only [List.nil_append, List.append_nil]
  cases world.lookup (history ++ [StribRequest.createFolder relname])
      (snprintfPath (world.mdirName ++ ascii "/" ++ relname)) <;>
    cases world.lookup history (snprintfPath (world.mdirName ++ ascii "/" ++ relname)) <;>
    cases world.grants history (.createFolder relname) <;> cases error <;> simp

theorem doDelete_outcome (before : List StribRequest) (version : Int) :
    doDelete world history before version false =
      ⟨before ++ (deleteOutcome world version (history ++ before)).1,
        !(deleteOutcome world version (history ++ before)).2⟩ := by
  unfold doDelete deleteOutcome
  by_cases hversion : version ≤ 0
  · simp [hversion, Int.not_lt.2 hversion]
  · simp [hversion, Int.not_le.1 hversion, patchRequest]

theorem doCopy_outcome {dest : Option StribDest} (hdest : dest.isSome) :
    (¬ (error = true ∧ ∃ relname ∈ dest.bind (destRelname subject),
        world.lookup history (snprintfPath (world.mdirName ++ ascii "/" ++ relname)) = .cached) →
      doCopy world history dest subject object error =
        some ⟨(destOutcome world subject object history dest).1, !(destOutcome world subject object history dest).2⟩) ∧
    (error = true → (∃ relname ∈ dest.bind (destRelname subject),
        world.lookup history (snprintfPath (world.mdirName ++ ascii "/" ++ relname)) = .cached) →
      ∃ done, doCopy world history dest subject object error = some done ∧ done.requests ≠ [] ∧
        done.requests.head? ≠ (destOutcome world subject object history dest).1.head?) := by
  -- both kinds of destination end in the same copy, once the name is known
  have hstring : ∀ relname, (¬ (error = true ∧ ∃ name ∈ some relname,
        world.lookup history (snprintfPath (world.mdirName ++ ascii "/" ++ name)) = .cached) →
      some (doCopyString world history relname object error) = some
        ⟨(copyOutcome world object history relname).1, !(copyOutcome world object history relname).2⟩) ∧
      (error = true → (∃ name ∈ some relname,
          world.lookup history (snprintfPath (world.mdirName ++ ascii "/" ++ name)) = .cached) →
        ∃ done, some (doCopyString world history relname object error) = some done ∧ done.requests ≠ [] ∧
          done.requests.head? ≠ (copyOutcome world object history relname).1.head?) := by
    intro relname
    have hcopy := @doCopyString_outcome world history object error relname
    have hrequests := @doCopyString_requests world history object error relname
    simp only [Option.mem_def, Option.some.injEq, exists_eq_left']
    refine ⟨hcopy.1, fun herror hcached => ⟨?_, hcopy.2 herror hcached⟩⟩
    intro hnil
    rw [hnil] at hrequests
    simp at hrequests
  cases dest with
  | none => cases hdest
  | some dest =>
      cases dest with
      | string relname => exact hstring relname
      | deref name =>
          simp only [destOutcome, doCopy, Option.bind_some, destRelname, headerSearch]
          cases hfind : headerFind subject name with
          | none => simp
          | some hf => exact hstring hf.value

/-- An action requests what it takes, and leaves an error if it is not carried out, unless an error that is pending
changes it. -/
theorem actionCb_outcome {action : StribAction} (hknown : KnownAction action)
    (hfree : error = true → ¬ Hindered world subject version history action) :
    actionCb world history action subject object version error =
      some ⟨(actionOutcome world subject object version history action).1,
        !(actionOutcome world subject object version history action).2⟩ := by
  obtain ⟨type, dest⟩ := action
  unfold actionCb actionOutcome
  cases type with
  | delete =>
      cases error with
      | false => simp [doDelete_outcome]
      | true =>
          have hversion : ¬ 0 < version := hfree rfl
          simp [doDelete, deleteOutcome, hversion, Int.not_lt.1 hversion]
  | copy =>
      have hdest : dest.isSome := by simpa [KnownAction] using hknown
      have hcopy := (@doCopy_outcome world history subject object error dest hdest).1
      exact hcopy fun h => hfree h.1 h.2
  | move =>
      have hdest : dest.isSome := by simpa [KnownAction] using hknown
      have hcopy := (@doCopy_outcome world history subject object error dest hdest).1 fun h => hfree h.1 h.2
      simp only [hcopy]
      cases hcopied : (destOutcome world subject object history dest).2 with
      | false => simp [hcopied]
      | true => simp [doDelete_outcome]
  | invalid => simp [KnownAction] at hknown

/-- What an error that is pending changes: the deletion is not requested, or another request is the first. -/
theorem actionCb_hindered {action : StribAction} (hknown : KnownAction action)
    (hhindered : Hindered world subject version history action) :
    (actionOutcome world subject object version history action).1 ≠ [] ∧
      ∃ done, actionCb world history action subject object version true = some done ∧
        ((action.type = .delete ∧ done.requests = []) ∨
          (done.requests ≠ [] ∧ done.requests.head? ≠
            (actionOutcome world subject object version history action).1.head?)) := by
  have hcopied : ∀ dest : Option StribDest, (∃ relname ∈ dest.bind (destRelname subject),
        world.lookup history (snprintfPath (world.mdirName ++ ascii "/" ++ relname)) = .cached) →
      (destOutcome world subject object history dest).1 ≠ [] := by
    rintro dest ⟨relname, hrelname, hcached⟩
    have hsome : dest.bind (destRelname subject) = some relname := hrelname
    have hthere : world.lookup history (snprintfPath (world.mdirName ++ ascii "/" ++ relname)) ≠ .missing := by
      rw [hcached]
      decide
    simp only [destOutcome, hsome, copyOutcome, if_pos hthere]
    exact List.cons_ne_nil _ _
  obtain ⟨type, dest⟩ := action
  unfold actionCb actionOutcome
  cases type with
  | delete =>
      have hversion : 0 < version := hhindered
      refine ⟨by simp [deleteOutcome, hversion], _, rfl, Or.inl ⟨rfl, ?_⟩⟩
      simp [doDelete, Int.not_le.2 hversion]
  | copy =>
      have hdest : dest.isSome := by simpa [KnownAction] using hknown
      rcases (@doCopy_outcome world history subject object true dest hdest).2 rfl hhindered with ⟨done, hdone, hne, hhead⟩
      exact ⟨hcopied dest hhindered, done, hdone, Or.inr ⟨hne, hhead⟩⟩
  | move =>
      have hdest : dest.isSome := by simpa [KnownAction] using hknown
      rcases (@doCopy_outcome world history subject object true dest hdest).2 rfl hhindered with ⟨done, hdone, hne, hhead⟩
      have hsome := hcopied dest hhindered
      -- a deletion comes after what differs
      have houtcome : ∀ deleted : List StribRequest × Bool,
          (if (destOutcome world subject object history dest).2 then
            ((destOutcome world subject object history dest).1 ++ deleted.1, deleted.2)
            else destOutcome world subject object history dest).1 ≠ [] ∧
          (if (destOutcome world subject object history dest).2 then
            ((destOutcome world subject object history dest).1 ++ deleted.1, deleted.2)
            else destOutcome world subject object history dest).1.head? =
              (destOutcome world subject object history dest).1.head? := by
        intro deleted
        split
        · exact ⟨List.append_ne_nil_of_left_ne_nil hsome _, List.head?_append_of_ne_nil _ hsome⟩
        · exact ⟨hsome, rfl⟩
      simp only [hdone]
      refine ⟨(houtcome _).1, ?_⟩
      rw [(houtcome _).2]
      split
      · exact ⟨_, rfl, Or.inr ⟨hne, hhead⟩⟩
      · rcases @doDelete_requests world history done.requests version false with ⟨deletes, heq, -⟩
        refine ⟨_, rfl, Or.inr ?_⟩
        rw [heq, List.head?_append_of_ne_nil _ hne]
        exact ⟨List.append_ne_nil_of_left_ne_nil hne _, hhead⟩
  | invalid => cases hhindered

end Requests

/-! ## All rules -/

section Rules

variable {folderOf world} {subject object : Header} {version : Int}

/-- The actions of the tests that apply. -/
def matching (world : StribWorld) (subject : Header) (tests : Strib) : List StribAction :=
  (tests.filter fun test => Applies world subject test).map StribTest.action

theorem matching_cons_of_applies {test : StribTest} (h : Applies world subject test) (tests : Strib) :
    matching world subject (test :: tests) = test.action :: matching world subject tests := by
  simp [matching, h]

theorem matching_cons_of_not {test : StribTest} (h : ¬ Applies world subject test) (tests : Strib) :
    matching world subject (test :: tests) = matching world subject tests := by
  simp [matching, h]

theorem firedActions_eq {tests : Strib} (h : ∀ test ∈ tests, conditionEval world.regexec test.condition subject ≠ none) :
    firedActions world.regexec subject tests = some (matching world subject tests) := by
  induction tests with
  | nil => rfl
  | cons test tests ih =>
      have hrest := ih fun t ht => h t (List.mem_cons_of_mem _ ht)
      rw [firedActions]
      rcases hcond : conditionEval world.regexec test.condition subject with _ | _ | _
      · exact absurd hcond (h test List.mem_cons_self)
      · rw [matching_cons_of_not (by simp [Applies, hcond])]
        exact hrest
      · rw [matching_cons_of_applies hcond, hrest]
        rfl

/-- The program stops on a condition that cannot be evaluated, or on an action that is none. -/
theorem stribEval_isSome (tests : Strib) (history : List StribRequest) (error : Bool) :
    (stribEval world tests history subject object version error).isSome ↔
      (∀ test ∈ tests, conditionEval world.regexec test.condition subject ≠ none) ∧
        ∀ test ∈ tests, Applies world subject test → KnownAction test.action := by
  induction tests generalizing history error with
  | nil => simp [stribEval]
  | cons test tests ih =>
      simp only [stribEval, List.forall_mem_cons]
      rcases hcond : conditionEval world.regexec test.condition subject with _ | _ | _
      · simp
      · simp only [ih, Applies, hcond]
        simp
      · have hknown := @actionCb_isSome world history subject object version error test.action
        simp only [Applies, hcond, ← hknown]
        cases actionCb world history test.action subject object version error with
        | none => simp
        | some done =>
            have hrest := ih (history ++ done.requests) done.error
            simp only [Applies] at hrest
            cases hlater : stribEval world tests (history ++ done.requests) subject object version done.error with
            | none => simpa [hlater] using hrest
            | some later => simpa [hlater] using hrest

/-- The first rule leaves nothing to do to those after it, or they do not apply. -/
theorem stribEval_cons {test : StribTest} {tests : Strib} {history : List StribRequest} {error : Bool}
    {done : Requested} (h : stribEval world (test :: tests) history subject object version error = some done) :
    (¬ Applies world subject test ∧ stribEval world tests history subject object version error = some done) ∨
      Applies world subject test ∧ ∃ first later,
        actionCb world history test.action subject object version error = some first ∧
        stribEval world tests (history ++ first.requests) subject object version first.error = some later ∧
        done.requests = first.requests ++ later.requests := by
  rw [stribEval] at h
  rcases hcond : conditionEval world.regexec test.condition subject with _ | _ | _
  · rw [hcond] at h
    cases h
  · rw [hcond] at h
    exact Or.inl ⟨by simp [Applies, hcond], h⟩
  · rw [hcond] at h
    simp only at h
    cases hfirst : actionCb world history test.action subject object version error with
    | none =>
        rw [hfirst] at h
        cases h
    | some first =>
        rw [hfirst] at h
        simp only at h
        cases hlater : stribEval world tests (history ++ first.requests) subject object version first.error with
        | none =>
            rw [hlater] at h
            cases h
        | some later =>
            rw [hlater] at h
            cases h
            exact Or.inr ⟨hcond, first, later, rfl, hlater, rfl⟩

/-- Copies are made in the order of the rules. -/
theorem stribEval_copies {tests : Strib} {history : List StribRequest} {error : Bool} {done : Requested}
    (h : stribEval world tests history subject object version error = some done) :
    (done.requests.filterMap StribRequest.copiedTo).Sublist
      ((matching world subject tests).filterMap (destName world subject)) := by
  induction tests generalizing history error done with
  | nil =>
      cases h
      exact List.Sublist.refl _
  | cons test tests ih =>
      rcases stribEval_cons h with ⟨hnot, heval⟩ | ⟨happlies, first, later, hfirst, hlater, heq⟩
      · rw [matching_cons_of_not hnot]
        exact ih heval
      · have hcopies := (actionCb_requests hfirst).2.2
        have hsplit : (test.action :: matching world subject tests).filterMap (destName world subject) =
            (destName world subject test.action).toList ++
              (matching world subject tests).filterMap (destName world subject) := by
          cases hdest : destName world subject test.action with
          | none => simp [hdest]
          | some name => simp [hdest]
        rw [matching_cons_of_applies happlies, heq, List.filterMap_append, hsplit]
        exact hcopies.append (ih hlater)

/-- Without a rule that applies, nothing is requested. -/
theorem stribEval_of_none_applies {tests : Strib} (hnone : ∀ test ∈ tests, ¬ Applies world subject test)
    {history : List StribRequest} {error : Bool} {done : Requested}
    (h : stribEval world tests history subject object version error = some done) : done.requests = [] := by
  induction tests generalizing done with
  | nil =>
      cases h
      rfl
  | cons test tests ih =>
      rcases stribEval_cons h with ⟨-, heval⟩ | ⟨happlies, -⟩
      · exact ih (fun t ht => hnone t (List.mem_cons_of_mem _ ht)) heval
      · exact absurd happlies (hnone test List.mem_cons_self)

/-- A deletion comes last if the rule that requests it does. -/
theorem stribEval_last {tests : Strib}
    (hlast : tests.Pairwise fun test test' => Applies world subject test → Applies world subject test' →
      test.action.type = .copy) {history : List StribRequest} {error : Bool} {done : Requested}
    (h : stribEval world tests history subject object version error = some done) :
    ∀ before v after, done.requests = before ++ .delete v :: after → after = [] := by
  induction tests generalizing history error done with
  | nil =>
      cases h
      intro before v after heq
      exact absurd heq (by simp)
  | cons test tests ih =>
      rcases List.pairwise_cons.1 hlast with ⟨hfirst, hrest⟩
      rcases stribEval_cons h with ⟨-, heval⟩ | ⟨happlies, first, later, hcb, hlater, heq⟩
      · exact ih hrest heval
      · have hrequests := actionCb_requests hcb
        intro before v after hsplit
        by_cases htype : test.action.type = .copy
        · -- the deletion is requested by a later rule
          rw [heq] at hsplit
          rcases List.append_eq_append_iff.1 hsplit with ⟨middle, -, hsplit⟩ | ⟨middle, hsplit', hsplit⟩
          · exact ih hrest hlater middle v after hsplit
          · cases middle with
            | nil => exact ih hrest hlater [] v after hsplit.symm
            | cons r middle =>
                rw [List.cons_append, List.cons.injEq] at hsplit
                have hmem : StribRequest.delete v ∈ first.requests := by
                  rw [hsplit', ← hsplit.1]
                  exact List.mem_append_right before List.mem_cons_self
                exact absurd hmem (hrequests.1 htype v)
        · -- the rules after it do not apply
          have hnone : ∀ test' ∈ tests, ¬ Applies world subject test' := fun test' hmem happlies' =>
            htype (hfirst test' hmem happlies happlies')
          rw [heq, stribEval_of_none_applies hnone hlater, List.append_nil] at hsplit
          exact hrequests.2.1 before v after hsplit

/-- Rules of which only the last one that applies is no copyto request what their actions take if and only if no error
gets in the way. -/
theorem stribEval_requests_iff {tests : Strib}
    (htried : ∀ test ∈ tests, conditionEval world.regexec test.condition subject ≠ none)
    (hknown : ∀ test ∈ tests, Applies world subject test → KnownAction test.action)
    (hlast : tests.Pairwise fun test test' => Applies world subject test → Applies world subject test' →
      test.action.type = .copy) (history : List StribRequest) (error : Bool) :
    ∃ done, stribEval world tests history subject object version error = some done ∧
      (done.requests = documentedRequests world subject object version history (matching world subject tests) ↔
        Unhindered world subject object version history error (matching world subject tests)) := by
  induction tests generalizing history error with
  | nil => exact ⟨⟨[], error⟩, rfl, iff_of_true rfl trivial⟩
  | cons test tests ih =>
      rcases List.forall_mem_cons.1 htried with ⟨hcond, htried'⟩
      rcases List.forall_mem_cons.1 hknown with ⟨haction, hknown'⟩
      rcases List.pairwise_cons.1 hlast with ⟨hfirst, hlast'⟩
      by_cases happlies : Applies world subject test
      · have hactionKnown := haction happlies
        rw [matching_cons_of_applies happlies]
        have hstep : ∀ {first later : Requested},
            actionCb world history test.action subject object version error = some first →
            stribEval world tests (history ++ first.requests) subject object version first.error = some later →
            stribEval world (test :: tests) history subject object version error =
              some ⟨first.requests ++ later.requests, later.error⟩ := by
          intro first later hcb hlater
          rw [stribEval, show conditionEval world.regexec test.condition subject = some true from happlies]
          simp only [hcb, hlater]
        by_cases hfree : error = true → ¬ Hindered world subject version history test.action
        · have hcb := @actionCb_outcome world history subject object version error _ hactionKnown hfree
          rcases ih htried' hknown' hlast'
            (history ++ (actionOutcome world subject object version history test.action).1)
            (!(actionOutcome world subject object version history test.action).2) with ⟨later, hlater, hiff⟩
          refine ⟨_, hstep hcb hlater, ?_⟩
          rw [documentedRequests, Unhindered, List.append_cancel_left_eq, hiff]
          exact (and_iff_right hfree).symm
        · -- the error changes the first request, or there is none
          rw [Classical.not_imp, not_not] at hfree
          rcases hfree with ⟨rfl, hhindered⟩
          rcases @actionCb_hindered world history subject object version _ hactionKnown hhindered with
            ⟨hsome, first, hcb, hcases⟩
          rcases Option.isSome_iff_exists.1 ((@stribEval_isSome world subject object version tests
            (history ++ first.requests) first.error).2 ⟨htried', hknown'⟩) with ⟨later, hlater⟩
          refine ⟨_, hstep hcb hlater, iff_of_false ?_ fun h => h.1 rfl hhindered⟩
          rw [documentedRequests]
          rcases hcases with ⟨htype, hnil⟩ | ⟨hne, hhead⟩
          · have hnone : ∀ test' ∈ tests, ¬ Applies world subject test' := fun test' hmem happlies' =>
              absurd (hfirst test' hmem happlies happlies') (by rw [htype]; decide)
            rw [hnil, stribEval_of_none_applies hnone hlater]
            exact fun heq => List.append_ne_nil_of_left_ne_nil hsome _ heq.symm
          · intro heq
            have hheads := congrArg List.head? heq
            rw [List.head?_append_of_ne_nil _ hne, List.head?_append_of_ne_nil _ hsome] at hheads
            exact hhead hheads
      · have hfalse : conditionEval world.regexec test.condition subject = some false := by
          rcases hr : conditionEval world.regexec test.condition subject with _ | _ | _
          · exact absurd hr hcond
          · rfl
          · exact absurd hr happlies
        rw [matching_cons_of_not happlies]
        rcases ih htried' hknown' hlast' history error with ⟨done, hdone, hiff⟩
        refine ⟨done, ?_, hiff⟩
        rw [stribEval, hfalse]
        exact hdone

theorem length_documentedActions (dest : StribAction → Option α) (served : List α) (tests : Strib) :
    (documentedActions dest world.regexec subject served tests).length ≤ (matching world subject tests).length := by
  induction tests generalizing served with
  | nil => simp [documentedActions]
  | cons test tests ih =>
      rw [documentedActions]
      by_cases happlies : Applies world subject test
      · rw [if_pos (show conditionEval world.regexec test.condition subject = some true from happlies),
          matching_cons_of_applies happlies, List.length_cons]
        split
        · split
          · exact Nat.le_succ_of_le (ih served)
          · exact Nat.succ_le_succ (ih _)
        · split <;> simp
      · rw [if_neg (show ¬ conditionEval world.regexec test.condition subject = some true from happlies),
          matching_cons_of_not happlies]
        exact ih served

theorem matching_eq_nil_iff {tests : Strib} :
    matching world subject tests = [] ↔ ∀ test ∈ tests, ¬ Applies world subject test := by
  simp [matching]

/-- The documented actions are those of all tests that apply when none of these is after a moveto or a discard, and
none is for a folder that was served. -/
theorem documentedActions_eq_iff {tests : Strib} {served : List α} :
    documentedActions (destFolder folderOf world subject) world.regexec subject served tests =
        matching world subject tests ↔
      (tests.Pairwise fun test test' => Applies world subject test → Applies world subject test' →
        test.action.type = .copy ∧ ∀ folder ∈ destFolder folderOf world subject test.action,
          folder ∉ destFolder folderOf world subject test'.action) ∧
      ∀ test ∈ tests, Applies world subject test →
        ∀ folder ∈ destFolder folderOf world subject test.action, folder ∉ served := by
  induction tests generalizing served with
  | nil => simp [documentedActions, matching]
  | cons test tests ih =>
      rw [documentedActions]
      by_cases happlies : Applies world subject test
      · rw [if_pos (show conditionEval world.regexec test.condition subject = some true from happlies),
          matching_cons_of_applies happlies, List.pairwise_cons, List.forall_mem_cons]
        by_cases hserved : ∃ folder ∈ destFolder folderOf world subject test.action, folder ∈ served
        · -- the action is left out, or is no copy any more
          rcases hserved with ⟨folder, hfolder, hmem⟩
          refine iff_of_false ?_ fun h => h.2.1 happlies folder hfolder hmem
          split
          · rw [if_pos ⟨folder, hfolder, hmem⟩]
            intro heq
            have hlen : (documentedActions (destFolder folderOf world subject) world.regexec subject served
                tests).length ≤ (matching world subject tests).length := length_documentedActions _ served tests
            rw [heq, List.length_cons] at hlen
            exact absurd hlen (Nat.not_succ_le_self _)
          · rw [if_pos ⟨folder, hfolder, hmem⟩]
            intro heq
            have haction := (List.cons.inj heq).1
            rw [← haction] at hfolder
            cases hfolder
        · have hfree : ∀ folder ∈ destFolder folderOf world subject test.action, folder ∉ served :=
            fun folder hfolder hmem => hserved ⟨folder, hfolder, hmem⟩
          rw [if_neg hserved, if_neg hserved]
          split
          next hcopy =>
            -- a copy: from here on its folder is served
            rw [List.cons.injEq, ih]
            simp only [List.mem_append, Option.mem_toList, not_or, true_and]
            constructor
            · rintro ⟨hapart, hall⟩
              refine ⟨⟨fun test' hmem' _ happlies' => ⟨hcopy, fun folder hfolder hfolder' => ?_⟩, hapart⟩,
                fun _ => hfree, fun test' hmem' happlies' folder hfolder => (hall test' hmem' happlies' folder hfolder).2⟩
              exact (hall test' hmem' happlies' folder hfolder').1 hfolder
            · rintro ⟨⟨hfirst, hapart⟩, -, hall⟩
              refine ⟨hapart, fun test' hmem' happlies' folder hfolder => ⟨fun hfolder' => ?_, ?_⟩⟩
              · exact (hfirst test' hmem' happlies happlies').2 folder hfolder' hfolder
              · exact hall test' hmem' happlies' folder hfolder
          next hcopy =>
            -- no copy: nothing may apply after it
            rw [List.cons.injEq, eq_comm (a := []), matching_eq_nil_iff]
            constructor
            · rintro ⟨-, hnone⟩
              refine ⟨⟨fun test' hmem' _ happlies' => absurd happlies' (hnone test' hmem'), ?_⟩, fun _ => hfree,
                fun test' hmem' happlies' => absurd happlies' (hnone test' hmem')⟩
              exact List.pairwise_of_forall_mem_list fun test' hmem' _ _ happlies' =>
                absurd happlies' (hnone test' hmem')
            · rintro ⟨⟨hfirst, -⟩, -⟩
              exact ⟨rfl, fun test' hmem' happlies' => hcopy (hfirst test' hmem' happlies happlies').1⟩
      · rw [if_neg (show ¬ conditionEval world.regexec test.condition subject = some true from happlies),
          matching_cons_of_not happlies, List.pairwise_cons, List.forall_mem_cons, ih]
        simp [happlies]

omit [DecidableEq α] in
theorem nodup_folders {tests : Strib} (h : RulesApart folderOf world tests subject) :
    (((matching world subject tests).filterMap (destName world subject)).map folderOf).Nodup := by
  have hapart : (matching world subject tests).Pairwise fun action action' =>
      ∀ folder ∈ destFolder folderOf world subject action, folder ∉ destFolder folderOf world subject action' := by
    rw [matching, List.pairwise_map, List.pairwise_filter]
    refine h.apart.imp fun hapart happlies happlies' => ?_
    exact (hapart (by simpa using happlies) (by simpa using happlies')).2
  rw [List.Nodup, List.pairwise_map, List.pairwise_filterMap]
  refine hapart.imp fun hne name hname name' hname' heq => ?_
  exact hne (folderOf name) (Option.mem_map_of_mem folderOf hname) (heq ▸ Option.mem_map_of_mem folderOf hname')

end Rules

/-- Rules lead to the documented actions if and only if those that apply have nothing to do with one another, and no
action that fails is followed by one that its error changes. -/
theorem rulesEvaluated_iff (tests : Strib) (history : List StribRequest) (subject object : Header) (version : Int) :
    RulesEvaluated folderOf world tests history subject object version ↔
      RulesApart folderOf world tests subject ∧
        Unhindered world subject object version history false (matching world subject tests) := by
  have hends := @stribEval_isSome world subject object version tests history false
  have hrequests : RulesApart folderOf world tests subject →
      ((stribEval world tests history subject object version false).map Requested.requests =
          some (documentedRequests world subject object version history (matching world subject tests)) ↔
        Unhindered world subject object version history false (matching world subject tests)) := by
    intro h
    rcases stribEval_requests_iff h.tried h.known
      (h.apart.imp fun hapart happlies happlies' => (hapart happlies happlies').1) history false with ⟨done, hdone, hiff⟩
    rw [hdone, Option.map_some, Option.some.injEq]
    exact hiff
  constructor
  · rintro ⟨hdocumented, hexecuted, -, -⟩
    have hisSome : (stribEval world tests history subject object version false).isSome := by
      cases heval : stribEval world tests history subject object version false with
      | none =>
          rw [heval] at hexecuted
          cases hexecuted
      | some done => rfl
    rcases hends.1 hisSome with ⟨htried, hknown⟩
    rw [firedActions_eq htried, Option.some_inj] at hdocumented
    -- the actions fired are the documented ones, which serve no folder twice
    have hapart : RulesApart folderOf world tests subject :=
      ⟨htried, hknown, (documentedActions_eq_iff.1 hdocumented.symm).1⟩
    rw [← hdocumented] at hexecuted
    exact ⟨hapart, (hrequests hapart).1 hexecuted⟩
  · rintro ⟨h, hunhindered⟩
    have hdocumented := (@documentedActions_eq_iff _ _ folderOf world subject tests []).2 ⟨h.apart, by simp⟩
    refine ⟨?_, ?_, ?_, ?_⟩
    · rw [firedActions_eq h.tried, hdocumented]
    · rw [hdocumented]
      exact (hrequests h).2 hunhindered
    · intro done hdone
      exact (nodup_folders h).sublist ((stribEval_copies hdone).map folderOf)
    · intro done hdone
      exact stribEval_last (h.apart.imp fun hapart happlies happlies' => (hapart happlies happlies').1) hdone

/-- Two rules that discard all messages request two deletions. -/
theorem not_rulesEvaluated : ¬ ∀ (folderOf : Bytes → Bytes) (world : StribWorld) (tests : Strib)
    (history : List StribRequest) (subject object : Header) (version : Int),
    RulesEvaluated folderOf world tests history subject object version := by
  intro h
  let discard : StribTest := ⟨{ op := .always, fieldName := none, value := none }, onlyDelete⟩
  let world : StribWorld :=
    { stribNew := fun _ => some [discard, discard], regexec := fun _ _ => false, mdirName := ascii "inbox"
      lookup := fun _ _ => .cached, grants := fun _ _ => true }
  have hlast := (h id world [discard, discard] [] [] [] 5).last ⟨[.delete 5, .delete 5], false⟩ rfl [] 5 [.delete 5] rfl
  cases hlast

end Evaluated

end Scambio
