import Scambio.Library.Search
import Scambio.Commons.Auth

/-!
# Groups — who is in a group (`commons/auth.c`)

`is_in_group_rec` goes down the alias fields of the users, which it loads on the way and marks with the
number of the check.  This is a depth-first search, so that the answer should be whether the user can be
reached from the group.  But an alias that cannot be loaded makes the whole search fail wherever it
stands, and `if_unknown` is then the answer although the group is known.

The answer is right, in whatever order the aliases are written, exactly if no such alias can be reached
without passing the user (`groupOk_iff`).
-/

namespace Scambio

open Library

def SC_ALIAS_FIELD : Bytes := ascii "sc-alias"

/-- The name of everybody. -/
def starName : Bytes := ascii "*"

/-- The fields that `header_find(group->header, SC_ALIAS_FIELD, ...)` finds one after the other. -/
def userAliases (h : Header) : List Bytes :=
  (h.filter fun hf => strcaseeq hf.name SC_ALIAS_FIELD).map HeaderField.value

/-- What `header_from_file` gets from the directory of the users.  Many names can lead to a file, but the
files are in finite number, and so are the aliases that they hold. -/
structure UserFiles where
  header : Bytes → Option Header
  aliases : List Bytes
  mem_aliases : ∀ name h, header name = some h → ∀ a ∈ userAliases h, a ∈ aliases

/-- `struct mdir_user`. -/
structure MdirUser where
  name : Bytes
  header : Header
  tag : Nat
  deriving DecidableEq, Repr

/-- The loaded users, and the counter of `mdir_user_is_in_group`. -/
structure AuthState where
  users : List MdirUser
  tag : Nat
  deriving DecidableEq, Repr

/-- `mdir_user_load`: the list with the user, and the user. -/
def mdirUserLoad (files : UserFiles) (users : List MdirUser) (name : Bytes) :
    Option (List MdirUser × MdirUser) :=
  match users.find? fun m => decide (m.name = name) with
  | some user => some (users, user)
  | none =>
      (files.header name).map fun header =>
        let user := { name := name, header := header, tag := 0 }
        (user :: users, user)

/-- `group->tag = tag`. -/
def setTag (users : List MdirUser) (name : Bytes) (tag : Nat) : List MdirUser :=
  users.map fun m => if m.name = name then { m with tag := tag } else m

/-- The loop over the aliases. -/
def anyAlias (rec : Bytes → List MdirUser → Option (List MdirUser × Option Bool)) :
    List Bytes → List MdirUser → Option (List MdirUser × Option Bool)
  | [], users => some (users, some false)
  | a :: as, users =>
      match rec a users with
      | none => none
      | some (users, none) => some (users, none)
      | some (users, some true) => some (users, some true)
      | some (users, some false) => anyAlias rec as users

/-- `is_in_group_rec`, with the users as it leaves them; its answer is `none` when an error is raised, and
all is `none` when it goes deeper than `fuel`.  A name is loaded once, so that a user is known by it. -/
def isInGroupRec (files : UserFiles) (user : Bytes) (tag : Nat) :
    Nat → Bytes → List MdirUser → Option (List MdirUser × Option Bool)
  | 0, _, _ => none
  | fuel + 1, groupname, users =>
      if groupname = starName then some (users, some true)
      else
        match mdirUserLoad files users groupname with
        | none => some (users, none)
        | some (users, group) =>
            if user = group.name then some (users, some true)
            else if group.tag = tag then some (users, some false)
            else anyAlias (isInGroupRec files user tag fuel) (userAliases group.header)
              (setTag users group.name tag)

/-- `mdir_user_is_in_group`. -/
def mdirUserIsInGroup (files : UserFiles) (fuel : Nat) (st : AuthState) (user groupname : Bytes)
    (ifUnknown : Bool) : Option (AuthState × Bool) :=
  let tag := (st.tag + 1) % 2 ^ 32
  (isInGroupRec files user tag fuel groupname st.users).map fun r =>
    ({ users := r.1, tag := tag }, r.2.getD ifUnknown)

/-- The user is loaded. -/
def AuthState.Loaded (st : AuthState) (user : Bytes) : Prop :=
  ∃ m ∈ st.users, m.name = user

/-- What a process does with the users between its start and any moment, `n` checks later. -/
inductive AuthRun (files : UserFiles) : Nat → AuthState → Prop
  | init : AuthRun files 0 { users := [], tag := 0 }
  | load {n : Nat} {st : AuthState} {name : Bytes} {users : List MdirUser} {user : MdirUser}
      (run : AuthRun files n st) (hload : mdirUserLoad files st.users name = some (users, user)) :
      AuthRun files n { st with users := users }
  | check {n fuel : Nat} {st st' : AuthState} {user groupname : Bytes} {ifUnknown ans : Bool}
      (run : AuthRun files n st) (huser : st.Loaded user)
      (hcheck : mdirUserIsInGroup files fuel st user groupname ifUnknown = some (st', ans)) :
      AuthRun files (n + 1) st'

/-! ## The users as a graph -/

/-- The aliases of a name that can be loaded. -/
def UserFiles.succs (files : UserFiles) (name : Bytes) : Option (List Bytes) :=
  (files.header name).map userAliases

/-- The names that make a search successful. -/
def isGoal (user name : Bytes) : Bool :=
  decide (name = starName) || decide (name = user)

/-- The users in memory are those of the files, each one once, with the tag of a check at most `tag`. -/
structure UsersSound (files : UserFiles) (tag : Nat) (users : List MdirUser) : Prop where
  headers : ∀ m ∈ users, files.header m.name = some m.header
  nodup : (users.map MdirUser.name).Nodup
  tags : ∀ m ∈ users, m.tag ≤ tag

/-- The marks of the search are the users with this tag. -/
structure Marked (files : UserFiles) (user : Bytes) (tag : Nat) (users : List MdirUser)
    (marks : List Bytes) : Prop where
  sound : UsersSound files tag users
  loaded : ∃ m ∈ users, m.name = user
  marked : ∀ x, x ∈ marks ↔ ∃ m ∈ users, m.name = x ∧ m.tag = tag

theorem eq_of_name {users : List MdirUser} (hnodup : (users.map MdirUser.name).Nodup) {m m' : MdirUser}
    (hm : m ∈ users) (hm' : m' ∈ users) (hname : m.name = m'.name) : m = m' :=
  List.inj_on_of_nodup_map hnodup hm hm' hname

theorem mem_setTag {users : List MdirUser} {name : Bytes} {tag : Nat} {m : MdirUser} :
    m ∈ setTag users name tag ↔
      ∃ m₀ ∈ users, m = if m₀.name = name then { m₀ with tag := tag } else m₀ := by
  simp only [setTag, List.mem_map, eq_comm]

theorem map_name_setTag (users : List MdirUser) (name : Bytes) (tag : Nat) :
    (setTag users name tag).map MdirUser.name = users.map MdirUser.name := by
  rw [setTag, List.map_map]
  apply List.map_congr_left
  intro m _
  simp only [Function.comp_apply]
  split <;> rfl

theorem UsersSound.setTag {files : UserFiles} {tag : Nat} {users : List MdirUser} (h : UsersSound files tag users)
    (name : Bytes) : UsersSound files tag (setTag users name tag) := by
  refine ⟨fun m hm => ?_, by rw [map_name_setTag]; exact h.nodup, fun m hm => ?_⟩
  · rcases mem_setTag.1 hm with ⟨m₀, hm₀, rfl⟩
    split <;> exact h.headers m₀ hm₀
  · rcases mem_setTag.1 hm with ⟨m₀, hm₀, rfl⟩
    split
    · exact le_rfl
    · exact h.tags m₀ hm₀

theorem Marked.setTag {files : UserFiles} {user : Bytes} {tag : Nat} {users : List MdirUser}
    {marks : List Bytes} (h : Marked files user tag users marks) {group : MdirUser} (hg : group ∈ users) :
    Marked files user tag (setTag users group.name tag) (group.name :: marks) := by
  refine ⟨h.sound.setTag _, ?_, fun x => ?_⟩
  · rcases h.loaded with ⟨m, hm, hname⟩
    have hmem : m.name ∈ (Scambio.setTag users group.name tag).map MdirUser.name := by
      rw [map_name_setTag]
      exact List.mem_map_of_mem hm
    rcases List.mem_map.1 hmem with ⟨m', hm', hname'⟩
    exact ⟨m', hm', hname'.trans hname⟩
  · rw [List.mem_cons, h.marked]
    constructor
    · rintro (rfl | ⟨m, hm, rfl, htag⟩)
      · exact ⟨{ group with tag := tag }, mem_setTag.2 ⟨group, hg, by simp⟩, rfl, rfl⟩
      · refine ⟨if m.name = group.name then { m with tag := tag } else m, mem_setTag.2 ⟨m, hm, rfl⟩, ?_, ?_⟩
        · split <;> rfl
        · split
          · rfl
          · exact htag
    · rintro ⟨m, hm, rfl, htag⟩
      rcases mem_setTag.1 hm with ⟨m₀, hm₀, rfl⟩
      by_cases hname : m₀.name = group.name
      · left
        rw [if_pos hname]
        exact hname
      · right
        rw [if_neg hname] at htag ⊢
        exact ⟨m₀, hm₀, rfl, htag⟩

/-! ## The code searches the graph -/

/-- `mdir_user_load` finds the user in the list, or adds it in front, or fails. -/
theorem mdirUserLoad_cases (files : UserFiles) (users : List MdirUser) (name : Bytes) :
    (∃ group ∈ users, group.name = name ∧ mdirUserLoad files users name = some (users, group)) ∨
      (∀ m ∈ users, m.name ≠ name) ∧
        (files.header name = none ∧ mdirUserLoad files users name = none ∨
          ∃ header, files.header name = some header ∧
            mdirUserLoad files users name =
              some (⟨name, header, 0⟩ :: users, ⟨name, header, 0⟩)) := by
  unfold mdirUserLoad
  cases hfind : users.find? fun m => decide (m.name = name) with
  | some group =>
      exact .inl ⟨group, List.mem_of_find?_eq_some hfind, by simpa using List.find?_some hfind, rfl⟩
  | none =>
      refine .inr ⟨by simpa using hfind, ?_⟩
      cases hheader : files.header name with
      | none => exact .inl ⟨rfl, rfl⟩
      | some header => exact .inr ⟨header, rfl, rfl⟩

theorem UsersSound.cons {files : UserFiles} {tag : Nat} {users : List MdirUser}
    (h : UsersSound files tag users) {name : Bytes} {header : Header} (hnew : ∀ m ∈ users, m.name ≠ name)
    (hheader : files.header name = some header) : UsersSound files tag (⟨name, header, 0⟩ :: users) := by
  refine ⟨fun m hm => ?_, ?_, fun m hm => ?_⟩
  · rcases List.mem_cons.1 hm with rfl | hm
    · exact hheader
    · exact h.headers m hm
  · rw [List.map_cons, List.nodup_cons]
    refine ⟨fun hmem => ?_, h.nodup⟩
    rcases List.mem_map.1 hmem with ⟨m, hm, hname⟩
    exact hnew m hm hname
  · rcases List.mem_cons.1 hm with rfl | hm
    · exact Nat.zero_le _
    · exact h.tags m hm

theorem UsersSound.load {files : UserFiles} {tag : Nat} {users users' : List MdirUser}
    (h : UsersSound files tag users) {name : Bytes} {group : MdirUser}
    (hload : mdirUserLoad files users name = some (users', group)) : UsersSound files tag users' := by
  rcases mdirUserLoad_cases files users name with
    ⟨_, -, -, hfound⟩ | ⟨hnew, ⟨-, hfail⟩ | ⟨header, hheader, hadd⟩⟩
  · rw [hload] at hfound
    cases hfound
    exact h
  · rw [hload] at hfail
    cases hfail
  · rw [hload] at hadd
    cases hadd
    exact h.cons hnew hheader

/-- A name that is loaded stands for a user with its header, and the marks are the same. -/
theorem Marked.load {files : UserFiles} {user : Bytes} {tag : Nat} {users : List MdirUser}
    {marks : List Bytes} (h : Marked files user tag users marks) (htag : 0 < tag) (name : Bytes) :
    (files.header name = none ∧ mdirUserLoad files users name = none) ∨
      ∃ users' group, mdirUserLoad files users name = some (users', group) ∧ group ∈ users' ∧
        group.name = name ∧ files.header name = some group.header ∧ Marked files user tag users' marks := by
  rcases mdirUserLoad_cases files users name with
    ⟨group, hmem, hname, hload⟩ | ⟨hnew, hfail | ⟨header, hheader, hload⟩⟩
  · exact .inr ⟨users, group, hload, hmem, hname, hname ▸ h.sound.headers group hmem, h⟩
  · exact .inl hfail
  · refine .inr ⟨_, _, hload, List.mem_cons_self, rfl, hheader, h.sound.cons hnew hheader, ?_, fun x => ?_⟩
    · rcases h.loaded with ⟨m, hm, hname⟩
      exact ⟨m, List.mem_cons_of_mem _ hm, hname⟩
    · rw [h.marked]
      constructor
      · rintro ⟨m, hm, hname, hmtag⟩
        exact ⟨m, List.mem_cons_of_mem _ hm, hname, hmtag⟩
      · rintro ⟨m, hm, hname, hmtag⟩
        rcases List.mem_cons.1 hm with rfl | hm
        · -- a new user has the tag of no check
          simp only at hmtag
          omega
        · exact ⟨m, hm, hname, hmtag⟩

/-- The answer of `is_in_group_rec` for each outcome of the search. -/
def groupAnswer : SearchResult → Option Bool
  | .found => some true
  | .exhausted => some false
  | .failed => none

/-- The search and the code do the same. -/
inductive Agree (files : UserFiles) (user : Bytes) (tag : Nat) :
    Option (List Bytes × SearchResult) → Option (List MdirUser × Option Bool) → Prop
  | deeper : Agree files user tag none none
  | done {users : List MdirUser} {marks : List Bytes} (o : SearchResult)
      (h : Marked files user tag users marks) :
      Agree files user tag (some (marks, o)) (some (users, groupAnswer o))

section Agree

variable {files : UserFiles} {user : Bytes} {tag : Nat}

theorem anyAlias_agree {visit : Bytes → List Bytes → Option (List Bytes × SearchResult)}
    {rec : Bytes → List MdirUser → Option (List MdirUser × Option Bool)}
    (hvisit : ∀ a users marks, Marked files user tag users marks →
      Agree files user tag (visit a marks) (rec a users)) {as : List Bytes} {users : List MdirUser}
    {marks : List Bytes} (h : Marked files user tag users marks) :
    Agree files user tag (searchAll visit as marks) (anyAlias rec as users) := by
  induction as generalizing users marks with
  | nil => exact .done .exhausted h
  | cons a as ih =>
      have ha := hvisit a users marks h
      rw [searchAll, anyAlias]
      generalize visit a marks = r at ha
      generalize rec a users = r' at ha
      cases ha with
      | deeper => exact .deeper
      | done o h' =>
          cases o with
          | found => exact .done .found h'
          | exhausted => exact ih h'
          | failed => exact .done .failed h'

theorem isInGroupRec_agree (htag : 0 < tag) (fuel : Nat) (groupname : Bytes) {users : List MdirUser}
    {marks : List Bytes} (h : Marked files user tag users marks) :
    Agree files user tag (search files.succs (isGoal user) fuel groupname marks)
      (isInGroupRec files user tag fuel groupname users) := by
  induction fuel generalizing groupname users marks with
  | zero => exact .deeper
  | succ fuel ih =>
      rw [search, isInGroupRec]
      by_cases hstar : groupname = starName
      · have hgoal : isGoal user groupname = true := by simp [isGoal, hstar]
        rw [if_pos hgoal, if_pos hstar]
        exact .done .found h
      · rw [if_neg hstar]
        by_cases hself : groupname = user
        · have hgoal : isGoal user groupname = true := by simp [isGoal, hself]
          rw [if_pos hgoal]
          rcases h.load htag groupname with
            ⟨hnone, -⟩ | ⟨users', group, hload, -, hname, -, h'⟩
          · rcases h.loaded with ⟨m, hm, hname⟩
            rw [hself, ← hname, h.sound.headers m hm] at hnone
            cases hnone
          · rw [hload]
            simp only [hname, hself, if_true]
            exact .done .found h'
        · have hgoal : ¬ isGoal user groupname = true := by simp [isGoal, hstar, hself]
          rw [if_neg hgoal]
          rcases h.load htag groupname with
            ⟨hnone, hload⟩ | ⟨users', group, hload, hmem, hname, hheader, h'⟩
          · simp only [UserFiles.succs, hnone, hload, Option.map_none]
            exact .done .failed h
          · have hother : ¬ user = group.name := fun he => hself (by rw [he, hname])
            simp only [UserFiles.succs, hheader, hload, Option.map_some, hother, if_false]
            by_cases hseen : group.tag = tag
            · have hmark : groupname ∈ marks := (h'.marked groupname).2 ⟨group, hmem, hname, hseen⟩
              rw [if_pos hmark, if_pos hseen]
              exact .done .exhausted h'
            · have hmark : groupname ∉ marks := by
                intro hmark
                rcases (h'.marked groupname).1 hmark with ⟨m, hm, hmname, hmtag⟩
                have hsame := eq_of_name h'.sound.nodup hm hmem (hmname.trans hname.symm)
                exact hseen (hsame ▸ hmtag)
              rw [if_neg hmark, if_neg hseen, ← hname]
              exact anyAlias_agree (fun a users marks h => @ih a users marks h) (h'.setTag hmem)

end Agree

/-! ## Runs -/

theorem UsersSound.marked {files : UserFiles} {n : Nat} {users : List MdirUser} (h : UsersSound files n users)
    {user : Bytes} (huser : ∃ m ∈ users, m.name = user) : Marked files user (n + 1) users [] := by
  refine ⟨⟨h.headers, h.nodup, fun m hm => (h.tags m hm).trans (Nat.le_succ n)⟩, huser, fun x => ?_⟩
  refine iff_of_false List.not_mem_nil ?_
  rintro ⟨m, hm, -, htag⟩
  have := h.tags m hm
  omega

/-- A check is a search without marks. -/
theorem mdirUserIsInGroup_agree {files : UserFiles} {n fuel : Nat} {st : AuthState}
    (htag : st.tag = n) (hsound : UsersSound files n st.users) (hn : n + 1 < 2 ^ 32) {user : Bytes}
    (huser : st.Loaded user) (groupname : Bytes) (ifUnknown : Bool) :
    (search files.succs (isGoal user) fuel groupname [] = none ∧
      mdirUserIsInGroup files fuel st user groupname ifUnknown = none) ∨
    ∃ marks o users, search files.succs (isGoal user) fuel groupname [] = some (marks, o) ∧
      mdirUserIsInGroup files fuel st user groupname ifUnknown =
        some ({ users := users, tag := n + 1 }, (groupAnswer o).getD ifUnknown) ∧
      Marked files user (n + 1) users marks := by
  have hagree := isInGroupRec_agree (Nat.succ_pos n) fuel groupname (hsound.marked huser)
  have hmod : (st.tag + 1) % 2 ^ 32 = n + 1 := by
    rw [htag]
    exact Nat.mod_eq_of_lt hn
  simp only [mdirUserIsInGroup, hmod]
  generalize search files.succs (isGoal user) fuel groupname [] = r at hagree
  generalize isInGroupRec files user (n + 1) fuel groupname st.users = r' at hagree
  cases hagree with
  | deeper => exact .inl ⟨rfl, rfl⟩
  | done o h => exact .inr ⟨_, o, _, rfl, rfl, h⟩

/-- As long as the counter has not wrapped no user has the tag of a check to come. -/
theorem AuthRun.sound {files : UserFiles} {n : Nat} {st : AuthState} (h : AuthRun files n st)
    (hn : n < 2 ^ 32) : st.tag = n ∧ UsersSound files n st.users := by
  induction h with
  | init => exact ⟨rfl, ⟨by simp, by simp, by simp⟩⟩
  | load _ hload ih => exact ⟨(ih hn).1, (ih hn).2.load hload⟩
  | check _ huser hcheck ih =>
      rcases ih (by omega) with ⟨htag, hsound⟩
      rcases mdirUserIsInGroup_agree htag hsound hn huser _ _ with
        ⟨-, hnone⟩ | ⟨marks, o, users, -, hsome, hmarked⟩
      · rw [hcheck] at hnone
        cases hnone
      · rw [hcheck] at hsome
        cases hsome
        exact ⟨rfl, hmarked.sound⟩

/-! ## Who is in a group -/

/-- An alias field of a user that can be loaded. -/
def AliasOf (files : UserFiles) (a b : Bytes) : Prop :=
  ∃ h, files.header a = some h ∧ b ∈ userAliases h

/-- The user, or the name of everybody, can be reached from the group. -/
def InGroup (files : UserFiles) (user groupname : Bytes) : Prop :=
  ∃ name, (name = user ∨ name = starName) ∧ Relation.ReflTransGen (AliasOf files) groupname name

/-- A name that cannot be loaded can be reached from the group before the user is, and before the name of
everybody. -/
def UnknownAhead (files : UserFiles) (user groupname : Bytes) : Prop :=
  ∃ name, files.header name = none ∧ name ≠ user ∧ name ≠ starName ∧
    Relation.ReflTransGen (fun a b => AliasOf files a b ∧ a ≠ user ∧ a ≠ starName) groupname name

/-- The same files, with the fields of each in any order. -/
def Reorders (files files' : UserFiles) : Prop :=
  ∀ name, (files.header name = none ∧ files'.header name = none) ∨
    ∃ h h', files.header name = some h ∧ files'.header name = some h' ∧ h.Perm h'

/-- In whatever order the aliases are written, after any run of fewer than 2^32 checks, this one included,
the check ends and tells whether the user is in the group. -/
def GroupOk (files : UserFiles) (user groupname : Bytes) : Prop :=
  ∀ files', Reorders files files' → ∀ n st, AuthRun files' n st → n + 1 < 2 ^ 32 → st.Loaded user →
    ∀ ifUnknown, ∃ ans : Bool, (ans = true ↔ InGroup files user groupname) ∧
      ∀ fuel, files'.aliases.length + 2 ≤ fuel →
        ∃ st', mdirUserIsInGroup files' fuel st user groupname ifUnknown = some (st', ans)

theorem isGoal_eq_false {user name : Bytes} : isGoal user name = false ↔ name ≠ user ∧ name ≠ starName := by
  simp [isGoal, and_comm]

theorem expands_iff {files : UserFiles} {user a b : Bytes} :
    Expands files.succs (isGoal user) a b ↔ AliasOf files a b ∧ a ≠ user ∧ a ≠ starName := by
  rw [Expands, isGoal_eq_false, UserFiles.succs, AliasOf, and_comm]
  simp only [Option.map_eq_some_iff, exists_exists_and_eq_and]

theorem fails_iff {files : UserFiles} {user name : Bytes} :
    Fails files.succs (isGoal user) name ↔
      files.header name = none ∧ name ≠ user ∧ name ≠ starName := by
  rw [Fails, isGoal_eq_false, UserFiles.succs, Option.map_eq_none_iff, and_comm]

theorem unknownAhead_iff {files : UserFiles} {user groupname : Bytes} :
    UnknownAhead files user groupname ↔
      ∃ name, Reaches files.succs (isGoal user) groupname name ∧ Fails files.succs (isGoal user) name := by
  have hexp : Expands files.succs (isGoal user) =
      fun a b => AliasOf files a b ∧ a ≠ user ∧ a ≠ starName := by
    funext a b
    exact propext expands_iff
  simp only [UnknownAhead, fails_iff, Reaches, hexp]
  constructor
  · rintro ⟨name, hnone, huser, hstar, hreach⟩
    exact ⟨name, hreach, hnone, huser, hstar⟩
  · rintro ⟨name, hreach, hnone, huser, hstar⟩
    exact ⟨name, hnone, huser, hstar, hreach⟩

/-- On the way to the user the search stops at the first goal. -/
theorem inGroup_iff {files : UserFiles} {user groupname : Bytes} :
    InGroup files user groupname ↔
      ∃ name, Reaches files.succs (isGoal user) groupname name ∧ isGoal user name = true := by
  have hgoal : ∀ name, isGoal user name = true ↔ name = user ∨ name = starName := by
    intro name
    simp [isGoal, or_comm]
  constructor
  · rintro ⟨name, hname, hreach⟩
    induction hreach using Relation.ReflTransGen.head_induction_on with
    | refl => exact ⟨name, .refl, (hgoal name).2 hname⟩
    | @head a b hstep _ ih =>
        by_cases ha : isGoal user a = true
        · exact ⟨a, .refl, ha⟩
        · rcases ih with ⟨y, hreach, hy⟩
          have hexp := expands_iff.2 ⟨hstep, isGoal_eq_false.1 (by simpa using ha)⟩
          exact ⟨y, .head hexp hreach, hy⟩
  · rintro ⟨name, hreach, hname⟩
    exact ⟨name, (hgoal name).1 hname,
      Relation.ReflTransGen.mono (fun a b hab => (expands_iff.1 hab).1) _ _ hreach⟩

/-! ## Orders -/

theorem mem_userAliases_of_perm {h h' : Header} (hperm : h.Perm h') {a : Bytes} :
    a ∈ userAliases h ↔ a ∈ userAliases h' :=
  ((hperm.filter _).map _).mem_iff

theorem Reorders.aliasOf {files files' : UserFiles} (h : Reorders files files') {a b : Bytes} :
    AliasOf files a b ↔ AliasOf files' a b := by
  rcases h a with ⟨hnone, hnone'⟩ | ⟨ha, ha', hsome, hsome', hperm⟩
  · simp [AliasOf, hnone, hnone']
  · simp [AliasOf, hsome, hsome', mem_userAliases_of_perm hperm]

theorem Reorders.header_eq_none {files files' : UserFiles} (h : Reorders files files') {name : Bytes} :
    files.header name = none ↔ files'.header name = none := by
  rcases h name with ⟨hnone, hnone'⟩ | ⟨ha, ha', hsome, hsome', -⟩
  · simp [hnone, hnone']
  · simp [hsome, hsome']

theorem Reorders.inGroup {files files' : UserFiles} (h : Reorders files files') {user groupname : Bytes} :
    InGroup files user groupname ↔ InGroup files' user groupname := by
  have halias : AliasOf files = AliasOf files' := by
    funext a b
    exact propext h.aliasOf
  rw [InGroup, InGroup, halias]

theorem Reorders.unknownAhead {files files' : UserFiles} (h : Reorders files files')
    {user groupname : Bytes} : UnknownAhead files user groupname ↔ UnknownAhead files' user groupname := by
  have halias : AliasOf files = AliasOf files' := by
    funext a b
    exact propext h.aliasOf
  simp only [UnknownAhead, halias, h.header_eq_none]

/-- A header with one of its aliases written first. -/
theorem exists_alias_first {h : Header} {a : Bytes} (ha : a ∈ userAliases h) :
    ∃ h' as, h.Perm h' ∧ userAliases h' = a :: as := by
  rcases List.mem_map.1 ha with ⟨hf, hmem, rfl⟩
  rcases List.mem_filter.1 hmem with ⟨hmem, hname⟩
  refine ⟨hf :: h.erase hf, userAliases (h.erase hf), List.perm_cons_erase hmem, ?_⟩
  simp [userAliases, hname]

/-- The files in the order that leads straight to the nearest name that cannot be loaded. -/
theorem exists_worst_order (files : UserFiles) (user : Bytes) :
    ∃ files', Reorders files files' ∧
      ∀ n name, Nearest files.succs (isGoal user) (n + 1) name →
        ∃ a as, files'.succs name = some (a :: as) ∧ Nearest files.succs (isGoal user) n a := by
  -- in each file an alias on a shortest way is moved to the front
  have hpick : ∀ name h, files.header name = some h → ∃ h', h.Perm h' ∧
      ∀ n, Nearest files.succs (isGoal user) (n + 1) name →
        ∃ a as, userAliases h' = a :: as ∧ Nearest files.succs (isGoal user) n a := by
    intro name h hname
    by_cases hnear : ∃ n, Nearest files.succs (isGoal user) (n + 1) name
    · rcases hnear with ⟨n, hn⟩
      rcases hn.step with ⟨a, ⟨-, as, has, hmem⟩, hnext⟩
      rw [UserFiles.succs, hname, Option.map_some, Option.some.injEq] at has
      rcases exists_alias_first (h := h) (has ▸ hmem) with ⟨h', as', hperm, hfirst⟩
      refine ⟨h', hperm, fun m hm => ?_⟩
      have hsame : n + 1 = m + 1 := hn.unique hm
      exact ⟨a, as', hfirst, (Nat.succ_injective hsame) ▸ hnext⟩
    · exact ⟨h, .refl h, fun n hn => absurd ⟨n, hn⟩ hnear⟩
  -- one order for all files
  choose pick hperm hfirst using hpick
  let header' : Bytes → Option Header := fun name =>
    match hname : files.header name with
    | none => none
    | some h => some (pick name h hname)
  have hheader : ∀ name h (hname : files.header name = some h), header' name = some (pick name h hname) := by
    intro name h hname
    simp only [header']
    split
    · next hnone =>
      rw [hname] at hnone
      cases hnone
    · next h' hname' =>
      rw [hname] at hname'
      cases hname'
      rfl
  have hnone : ∀ name, files.header name = none → header' name = none := by
    intro name hname
    simp only [header']
    split
    · rfl
    · next h' hname' =>
      rw [hname] at hname'
      cases hname'
  let files' : UserFiles :=
    { header := header', aliases := files.aliases
      mem_aliases := by
        intro name h' hname' a ha
        cases hname : files.header name with
        | none =>
            rw [hnone name hname] at hname'
            cases hname'
        | some h =>
            rw [hheader name h hname] at hname'
            cases hname'
            exact files.mem_aliases name h hname a
              ((mem_userAliases_of_perm (hperm name h hname)).2 ha) }
  refine ⟨files', fun name => ?_, fun n name hnear => ?_⟩
  · cases hname : files.header name with
    | none => exact .inl ⟨rfl, hnone name hname⟩
    | some h => exact .inr ⟨h, pick name h hname, rfl, hheader name h hname, hperm name h hname⟩
  · rcases hnear.step with ⟨a, ⟨-, as, has, -⟩, -⟩
    rcases Option.map_eq_some_iff.1 has with ⟨h, hname, -⟩
    rcases hfirst name h hname n hnear with ⟨a, as, hfirst, hnext⟩
    refine ⟨a, as, ?_, hnext⟩
    rw [UserFiles.succs, show files'.header name = _ from hheader name h hname, Option.map_some, hfirst]

/-! ## When the answer is right -/

/-- The search goes no deeper than there are aliases. -/
theorem searchFiles_total (files : UserFiles) (user groupname : Bytes) {fuel : Nat}
    (hfuel : files.aliases.length + 2 ≤ fuel) :
    ∃ r, search files.succs (isGoal user) fuel groupname [] = some r := by
  have huniv : ∀ x ys, files.succs x = some ys → ∀ y ∈ ys, y ∈ groupname :: files.aliases := by
    intro x ys hys y hy
    rcases Option.map_eq_some_iff.1 hys with ⟨h, hh, rfl⟩
    exact List.mem_cons_of_mem _ (files.mem_aliases x h hh y hy)
  have hle : unmarked (groupname :: files.aliases) [] ≤ _ := unmarked_le_length []
  rw [List.length_cons] at hle
  exact search_total huniv List.mem_cons_self (by omega)

/-- A user as the permissions see it. -/
def UserFiles.user (files : UserFiles) (name : Bytes) : User where
  name := name
  isInGroupRec groupname :=
    (search files.succs (isGoal name) (files.aliases.length + 2) groupname []).bind fun r => groupAnswer r.2

/-- The permissions are checked with the answers of the code, whatever was checked before. -/
theorem mdirUserIsInGroup_eq {files : UserFiles} {n : Nat} {st : AuthState} (run : AuthRun files n st)
    (hn : n + 1 < 2 ^ 32) {user : Bytes} (huser : st.Loaded user) (groupname : Bytes) (ifUnknown : Bool) :
    ∃ st', mdirUserIsInGroup files (files.aliases.length + 2) st user groupname ifUnknown =
      some (st', userIsInGroup (files.user user) groupname ifUnknown) := by
  rcases run.sound (by omega) with ⟨htag, hsound⟩
  rcases searchFiles_total files user groupname le_rfl with ⟨⟨marks, o⟩, hsearch⟩
  rcases mdirUserIsInGroup_agree htag hsound hn huser groupname ifUnknown with
    ⟨hnone, -⟩ | ⟨marks', o', users, hsome, hcheck, -⟩
  · rw [hsearch] at hnone
    cases hnone
  · have hanswer : userIsInGroup (files.user user) groupname ifUnknown =
        (groupAnswer o').getD ifUnknown := by
      simp [userIsInGroup, UserFiles.user, hsome]
    exact ⟨_, hanswer ▸ hcheck⟩

section Check

variable {files : UserFiles} {user groupname : Bytes}

/-- Where nothing unknown is ahead the check ends with the right answer. -/
theorem check_of_known {n fuel : Nat} {st : AuthState} (run : AuthRun files n st) (hn : n + 1 < 2 ^ 32)
    (huser : st.Loaded user) (hknown : ¬ UnknownAhead files user groupname)
    (hfuel : files.aliases.length + 2 ≤ fuel) (ifUnknown : Bool) :
    ∃ st' ans, mdirUserIsInGroup files fuel st user groupname ifUnknown = some (st', ans) ∧
      (ans = true ↔ InGroup files user groupname) := by
  rcases run.sound (by omega) with ⟨htag, hsound⟩
  rcases searchFiles_total files user groupname hfuel with ⟨⟨marks, o⟩, hsearch⟩
  rcases mdirUserIsInGroup_agree htag hsound hn huser groupname ifUnknown with
    ⟨hnone, -⟩ | ⟨marks', o', users, hsome, hcheck, -⟩
  · rw [hsearch] at hnone
    cases hnone
  · rw [hsearch] at hsome
    cases hsome
    refine ⟨_, _, hcheck, ?_⟩
    have hends := search_ends hsearch
    rw [inGroup_iff]
    cases o with
    | found => exact iff_of_true rfl hends
    | exhausted =>
        refine iff_of_false (by simp [groupAnswer]) ?_
        rintro ⟨name, hreach, hgoal⟩
        rcases search_exhausted hsearch with ⟨hexp, hmem⟩
        rw [(hexp.reaches hmem hreach).2.1] at hgoal
        cases hgoal
    | failed => exact absurd (unknownAhead_iff.2 hends) hknown

/-- Where something unknown is ahead there is an order of the aliases for which the answer is `if_unknown`. -/
theorem check_of_unknown (huser : files.header user ≠ none) (hunknown : UnknownAhead files user groupname) :
    ∃ files' st, Reorders files files' ∧ AuthRun files' 0 st ∧ st.Loaded user ∧
      ∃ fuel, files'.aliases.length + 2 ≤ fuel ∧ ∀ ifUnknown, ∃ st',
        mdirUserIsInGroup files' fuel st user groupname ifUnknown = some (st', ifUnknown) := by
  rcases unknownAhead_iff.1 hunknown with ⟨name, hreach, hfails⟩
  rcases exists_nearest hreach hfails with ⟨n, hnear⟩
  rcases exists_worst_order files user with ⟨files', horder, hfirst⟩
  cases hheader : files'.header user with
  | none => exact absurd (horder.header_eq_none.2 hheader) huser
  | some header =>
      have hload : mdirUserLoad files' [] user = some ([⟨user, header, 0⟩], ⟨user, header, 0⟩) := by
        simp [mdirUserLoad, hheader]
      have run : AuthRun files' 0 { users := [⟨user, header, 0⟩], tag := 0 } := .load .init hload
      have hloaded : AuthState.Loaded { users := [⟨user, header, 0⟩], tag := 0 } user :=
        ⟨_, List.mem_singleton_self _, rfl⟩
      have hzero : ∀ x, Nearest files.succs (isGoal user) 0 x → files'.succs x = none := by
        intro x hx
        cases hx.1 with
        | zero hfail =>
            rw [UserFiles.succs, horder.header_eq_none.1 (fails_iff.1 hfail).1]
            rfl
      have hfail := search_fails_along hzero hfirst hnear [] (by simp)
        (show n < files'.aliases.length + 2 + n by omega)
      rcases hfail with ⟨marks, hfail⟩
      refine ⟨files', _, horder, run, hloaded, files'.aliases.length + 2 + n, by omega, fun ifUnknown => ?_⟩
      rcases run.sound (by omega) with ⟨htag, hsound⟩
      rcases mdirUserIsInGroup_agree htag hsound (by omega) hloaded groupname ifUnknown with
        ⟨hnone, -⟩ | ⟨marks', o', users, hsome, hcheck, -⟩
      · rw [hfail] at hnone
        cases hnone
      · rw [hfail] at hsome
        cases hsome
        exact ⟨_, hcheck⟩

end Check

/-- Group membership is reachability exactly if nothing unknown can be reached before the user. -/
theorem groupOk_iff (files : UserFiles) (user groupname : Bytes) (huser : files.header user ≠ none) :
    GroupOk files user groupname ↔ ¬ UnknownAhead files user groupname := by
  constructor
  · intro hok hunknown
    rcases check_of_unknown huser hunknown with ⟨files', st, horder, run, hloaded, fuel, hfuel, hcheck⟩
    have hanswer : ∀ ifUnknown : Bool, (ifUnknown = true ↔ InGroup files user groupname) := by
      intro ifUnknown
      rcases hok files' horder 0 st run (by decide) hloaded ifUnknown with ⟨ans, hans, hall⟩
      rcases hall fuel hfuel with ⟨st', hst'⟩
      rcases hcheck ifUnknown with ⟨st'', hst''⟩
      rw [hst''] at hst'
      cases hst'
      exact hans
    exact absurd ((hanswer false).2 ((hanswer true).1 rfl)) Bool.false_ne_true
  · intro hknown files' horder n st run hn hloaded ifUnknown
    rw [horder.unknownAhead] at hknown
    classical
    refine ⟨decide (InGroup files user groupname), by simp, fun fuel hfuel => ?_⟩
    rcases check_of_known run hn hloaded hknown hfuel ifUnknown with ⟨st', ans, hcheck, hans⟩
    refine ⟨st', ?_⟩
    rw [hcheck, Option.some.injEq, Prod.mk.injEq]
    refine ⟨rfl, ?_⟩
    rw [Bool.eq_iff_iff, hans, decide_eq_true_iff, horder.inGroup]

/-- The group "staff" has "ghost", whom nobody knows, and then "alice". -/
def staffFiles (first second : Bytes) : UserFiles where
  header name :=
    if name = ascii "staff" then some [⟨SC_ALIAS_FIELD, first⟩, ⟨SC_ALIAS_FIELD, second⟩]
    else if name = ascii "alice" then some []
    else none
  aliases := [first, second]
  mem_aliases := by
    intro name h hname a ha
    split at hname
    · cases hname
      have hself : strcaseeq SC_ALIAS_FIELD SC_ALIAS_FIELD = true := by decide
      simpa [userAliases, hself] using ha
    · split at hname
      · cases hname
        cases ha
      · cases hname

theorem aliasOf_staff {first second a b : Bytes} (h : AliasOf (staffFiles first second) a b) :
    a = ascii "staff" ∧ (b = first ∨ b = second) := by
  rcases h with ⟨header, hheader, hb⟩
  have hmem := (staffFiles first second).mem_aliases a header hheader b hb
  simp only [staffFiles] at hheader hmem
  split at hheader
  · next ha => exact ⟨ha, by simpa using hmem⟩
  · split at hheader
    · cases hheader
      cases hb
    · cases hheader

/-- Two names of people whom everybody knows. -/
theorem groupOk_staff :
    GroupOk (staffFiles (ascii "alice") (ascii "staff")) (ascii "alice") (ascii "staff") := by
  refine (groupOk_iff _ _ _ (by decide)).2 ?_
  rintro ⟨name, hnone, -, -, hreach⟩
  have hknown : name = ascii "staff" ∨ name = ascii "alice" := by
    cases hreach with
    | refl => exact .inl rfl
    | tail _ hstep =>
        rcases (aliasOf_staff hstep.1).2 with rfl | rfl
        · exact .inr rfl
        · exact .inl rfl
  rcases hknown with rfl | rfl
  · exact absurd hnone (by decide)
  · exact absurd hnone (by decide)

/-- Alice is one of the staff, and the answer is no. -/
theorem not_groupOk :
    ¬ ∀ files user groupname, files.header user ≠ none → files.header groupname ≠ none →
      GroupOk files user groupname := by
  intro h
  let files := staffFiles (ascii "ghost") (ascii "alice")
  have hok := h files (ascii "alice") (ascii "staff") (by decide) (by decide)
  have horder : Reorders files files := by
    intro name
    cases hname : files.header name with
    | none => exact .inl ⟨rfl, rfl⟩
    | some header => exact .inr ⟨header, header, rfl, rfl, .refl _⟩
  let st : AuthState := { users := [⟨ascii "alice", [], 0⟩], tag := 0 }
  have hload : mdirUserLoad files [] (ascii "alice") = some (st.users, ⟨ascii "alice", [], 0⟩) := by
    decide
  have run : AuthRun files 0 st := .load .init hload
  rcases hok files horder 0 st run (by decide) ⟨_, List.mem_singleton_self _, rfl⟩ false with
    ⟨ans, hans, hall⟩
  rcases hall 4 (by decide) with ⟨st', hst'⟩
  have hcheck : (mdirUserIsInGroup files 4 st (ascii "alice") (ascii "staff") false).map Prod.snd =
      some false := by
    decide
  rw [hst'] at hcheck
  cases hcheck
  have hin : InGroup files (ascii "alice") (ascii "staff") := by
    refine ⟨ascii "alice", .inl rfl, .single ⟨_, rfl, ?_⟩⟩
    decide
  exact absurd (hans.2 hin) Bool.false_ne_true

end Scambio
