import Mathlib.Data.List.Basic
import Mathlib.Data.List.Induction

/-!
# FileTree — directories, files and symbolic links

A tree gives the node at each path from the root, a path being a list of names; what it must be (a node stands
in a directory, there are finitely many names) is part of it.  A path of the system is a list of steps, which
`resolve` follows from a directory, links included; the operations act on the entry that the last step names.

* `resolve`   : the path of the node that the steps lead to;
* `place`     : the path of the entry that the last step names;
* `mkdir`, `unlink`, `write`, `symlink`, `rename` : the tree after the operation, and the entry;
* `*_frame`   : what an operation leaves as it was.
-/

namespace Scambio.Library

/-- `τ` is the text of a link. -/
inductive Node (β τ : Type*)
  | dir
  | file (content : β)
  | link (target : τ)
  deriving DecidableEq, Repr

/-- What a component of a path asks for. -/
inductive Step (α : Type*)
  | stay
  | up
  | down (name : α)
  deriving DecidableEq, Repr

/-- What a node is, whatever a file holds. -/
def Node.kind {β τ : Type*} : Node β τ → Node Unit τ
  | .dir => .dir
  | .file _ => .file ()
  | .link target => .link target

inductive FsErr
  | noent
  | notdir
  | isdir
  | exist
  | notempty
  | inval
  | loop
  | nametoolong
  deriving DecidableEq, Repr

structure FileTree (α β τ : Type*) where
  get : List α → Option (Node β τ)
  names : List α
  root : get [] = some .dir
  parent : ∀ p a, get (p ++ [a]) ≠ none → get p = some .dir
  named : ∀ p a, get (p ++ [a]) ≠ none → a ∈ names

namespace FileTree

variable {α β τ : Type*}

def empty : FileTree α β τ where
  get := fun p => match p with
    | [] => some .dir
    | _ :: _ => none
  names := []
  root := rfl
  parent := by
    intro p a h
    cases p <;> exact absurd rfl h
  named := by
    intro p a h
    cases p <;> exact absurd rfl h

variable (t : FileTree α β τ)

theorem get_of_ancestor {t : FileTree α β τ} {p q : List α} (h : p <+: q) (hne : p ≠ q) (hq : t.get q ≠ none) :
    t.get p = some .dir := by
  rcases h with ⟨r, rfl⟩
  induction r using List.reverseRecOn with
  | nil => exact absurd (List.append_nil p).symm hne
  | append_singleton r a ih =>
      rw [← List.append_assoc] at hq
      have hparent := t.parent _ _ hq
      by_cases hr : r = []
      · rw [hr, List.append_nil] at hparent
        exact hparent
      · refine ih ?_ ?_
        · intro heq
          exact hr (List.append_right_eq_self.1 heq.symm)
        · rw [hparent]
          exact Option.some_ne_none _

/-- Nothing stands below what is not a directory. -/
theorem get_below {t : FileTree α β τ} {p q : List α} (h : p <+: q) (hne : p ≠ q) (hp : t.get p ≠ some .dir) :
    t.get q = none := by
  by_contra hq
  exact hp (get_of_ancestor h hne hq)

/-! ## Following a path -/

/-- Where a walk without links ends. -/
inductive Walked (α τ : Type*)
  | arrived (path : List α)
  /-- A link, in a directory, and the steps that are left. -/
  | linked (dir : List α) (target : τ) (rest : List (Step α))
  | failed (e : FsErr)

def walk : List α → List (Step α) → Walked α τ
  | cur, [] => .arrived cur
  | cur, s :: ss =>
      match t.get cur with
      | some .dir =>
          match s with
          | .stay => walk cur ss
          | .up => walk cur.dropLast ss
          | .down a =>
              match t.get (cur ++ [a]) with
              | none => .failed .noent
              -- the walk stops at a link, which the caller may follow
              | some (.link target) => .linked cur target ss
              | some _ => walk (cur ++ [a]) ss
      | some _ => .failed .notdir
      | none => .failed .noent

section Links

variable (follow : τ → Bool × List (Step α))

/-- The path that steps from `cur` lead to, through `links` links at most; `follow` reads a link: whether it is
absolute, and its steps. -/
def resolve : Nat → List α → List (Step α) → Except FsErr (List α)
  | links, cur, ss =>
      match t.walk cur ss with
      | .arrived p => .ok p
      | .failed e => .error e
      | .linked dir target rest =>
          match links with
          | 0 => .error .loop
          | links + 1 => resolve links (if (follow target).1 then [] else dir) ((follow target).2 ++ rest)

/-- The path of the entry that the last step names; it need not exist, but its directory does. -/
def place (links : Nat) (cur : List α) (ss : List (Step α)) : Except FsErr (List α) :=
  match ss.getLast? with
  | some (.down a) =>
      match t.resolve follow links cur ss.dropLast with
      | .error e => .error e
      | .ok p => if t.get p matches some .dir then .ok (p ++ [a]) else .error .notdir
  | _ =>
      match t.resolve follow links cur ss with
      | .error e => .error e
      | .ok _ => .error .isdir

end Links

/-! ## Where steps head for -/

theorem walk_cons (cur : List α) (s : Step α) (ss : List (Step α)) :
    t.walk cur (s :: ss) =
      match t.get cur with
      | some .dir =>
          match s with
          | .stay => t.walk cur ss
          | .up => t.walk cur.dropLast ss
          | .down a =>
              match t.get (cur ++ [a]) with
              | none => .failed .noent
              | some (.link target) => .linked cur target ss
              | some _ => t.walk (cur ++ [a]) ss
      | some _ => .failed .notdir
      | none => .failed .noent := by
  cases s <;> rfl

/-- The text of the link at a path. -/
def linkAt (p : List α) : Option τ :=
  match t.get p with
  | some (.link target) => some target
  | _ => none

/-- There is no link at these paths. -/
def NoLinks (P : List α → Prop) : Prop :=
  ∀ p, P p → t.linkAt p = none

theorem linkAt_eq_some {t : FileTree α β τ} {p : List α} {target : τ} :
    t.linkAt p = some target ↔ t.get p = some (.link target) := by
  unfold linkAt
  split
  next hlink => rw [hlink, Option.some.injEq, Option.some.injEq, Node.link.injEq]
  next hno => exact ⟨nofun, fun h => absurd h (hno target)⟩

theorem linkAt_of_dir {t : FileTree α β τ} {p : List α} (h : t.get p = some .dir) : t.linkAt p = none := by
  rw [linkAt, h]

/-- The walk when nothing is missing on its way. -/
def heads : List α → List (Step α) → Walked α τ
  | cur, [] => .arrived cur
  | cur, .stay :: ss => heads cur ss
  | cur, .up :: ss => heads cur.dropLast ss
  | cur, .down a :: ss =>
      match t.linkAt (cur ++ [a]) with
      | some target => .linked cur target ss
      | none => heads (cur ++ [a]) ss

section Heading

variable (follow : τ → Bool × List (Step α))

/-- The path that steps head for, through `links` links at most. -/
def headsFor : Nat → List α → List (Step α) → Option (List α)
  | links, cur, ss =>
      match t.heads cur ss with
      | .arrived p => some p
      | .failed _ => none
      | .linked dir target rest =>
          match links with
          | 0 => none
          | links + 1 => headsFor links (if (follow target).1 then [] else dir) ((follow target).2 ++ rest)

/-- The path of the entry that steps head for; a link at its place is not followed. -/
def entryFor (links : Nat) (cur : List α) (ss : List (Step α)) : Option (List α) :=
  match ss.getLast? with
  | some (.down a) => (t.headsFor follow links cur ss.dropLast).map (· ++ [a])
  | _ => t.headsFor follow links cur ss

end Heading

/-- Where steps lead by themselves. -/
def lexical : List α → List (Step α) → List α
  | cur, [] => cur
  | cur, .stay :: ss => lexical cur ss
  | cur, .up :: ss => lexical cur.dropLast ss
  | cur, .down a :: ss => lexical (cur ++ [a]) ss

theorem lexical_append (cur : List α) (ss ss' : List (Step α)) :
    lexical cur (ss ++ ss') = lexical (lexical cur ss) ss' := by
  induction ss generalizing cur with
  | nil => rfl
  | cons s ss ih => cases s <;> exact ih _

/-- The names that steps go down to. -/
def downs : List (Step α) → List α
  | [] => []
  | .down a :: ss => a :: downs ss
  | .up :: ss => downs ss
  | .stay :: ss => downs ss

theorem downs_append (ss ss' : List (Step α)) : downs (ss ++ ss') = downs ss ++ downs ss' := by
  induction ss with
  | nil => rfl
  | cons s ss ih =>
      cases s with
      | stay => exact ih
      | up => exact ih
      | down a => exact congrArg (a :: ·) ih

theorem downs_stays (n : Nat) : downs (List.replicate n (.stay : Step α)) = [] := by
  induction n with
  | zero => rfl
  | succ n ih => exact ih

theorem mem_lexical {cur : List α} {ss : List (Step α)} {a : α} (h : a ∈ lexical cur ss) : a ∈ cur ∨ a ∈ downs ss := by
  induction ss generalizing cur with
  | nil => exact .inl h
  | cons s ss ih =>
      cases s with
      | stay => exact ih h
      | up => exact (ih h).imp (List.dropLast_subset cur ·) id
      | down b =>
          rcases ih h with hmem | hmem
          · rcases List.mem_append.1 hmem with hmem | hmem
            · exact .inl hmem
            · exact .inr (List.mem_singleton.1 hmem ▸ List.mem_cons_self)
          · exact .inr (List.mem_cons_of_mem b hmem)

theorem length_lexical_le (cur : List α) (ss : List (Step α)) :
    (lexical cur ss).length ≤ cur.length + (downs ss).length := by
  induction ss generalizing cur with
  | nil => exact Nat.le_refl _
  | cons s ss ih =>
      cases s with
      | stay => exact ih cur
      | up =>
          have hstep := ih cur.dropLast
          rw [List.length_dropLast] at hstep
          rw [lexical, downs]
          omega
      | down b =>
          have hstep := ih (cur ++ [b])
          rw [List.length_append, List.length_singleton] at hstep
          rw [lexical, downs, List.length_cons]
          omega

/-- Without links, steps lead where they say. -/
theorem heads_lexical {t : FileTree α β τ} (ht : ∀ p, t.linkAt p = none) (cur : List α) (ss : List (Step α)) :
    t.heads cur ss = .arrived (lexical cur ss) := by
  induction ss generalizing cur with
  | nil => rfl
  | cons s ss ih =>
      cases s with
      | stay => exact ih cur
      | up => exact ih cur.dropLast
      | down a =>
          rw [heads, ht]
          exact ih (cur ++ [a])

/-- Steps that do not go up stay below. -/
theorem heads_below {t : FileTree α β τ} {cur : List α} (ht : t.NoLinks (cur <+: ·)) {ss : List (Step α)}
    (hss : .up ∉ ss) : t.heads cur ss = .arrived (lexical cur ss) ∧ cur <+: lexical cur ss := by
  induction ss generalizing cur with
  | nil => exact ⟨rfl, List.prefix_rfl⟩
  | cons s ss ih =>
      have hrest : .up ∉ ss := fun hmem => hss (List.mem_cons_of_mem s hmem)
      cases s with
      | stay => exact ih ht hrest
      | up => exact absurd List.mem_cons_self hss
      | down a =>
          have hpre : cur <+: cur ++ [a] := List.prefix_append cur [a]
          rcases ih (fun p hp => ht p (hpre.trans hp)) hrest with ⟨harrived, hbelow⟩
          refine ⟨?_, hpre.trans hbelow⟩
          rw [heads, ht _ hpre]
          exact harrived

theorem heads_append {t : FileTree α β τ} (cur : List α) (ss ss' : List (Step α)) :
    t.heads cur (ss ++ ss') =
      match t.heads cur ss with
      | .arrived p => t.heads p ss'
      | .linked dir target rest => .linked dir target (rest ++ ss')
      | .failed e => .failed e := by
  induction ss generalizing cur with
  | nil => rfl
  | cons s ss ih =>
      cases s with
      | stay => exact ih _
      | up => exact ih _
      | down a =>
          rw [List.cons_append, heads, heads]
          split
          · rfl
          · exact ih _

theorem walk_append {t : FileTree α β τ} (cur : List α) (ss ss' : List (Step α)) :
    t.walk cur (ss ++ ss') =
      match t.walk cur ss with
      | .arrived p => t.walk p ss'
      | .linked dir target rest => .linked dir target (rest ++ ss')
      | .failed e => .failed e := by
  induction ss generalizing cur with
  | nil => rfl
  | cons s ss ih =>
      rw [List.cons_append, walk_cons, walk_cons]
      split
      · cases s with
        | stay => exact ih _
        | up => exact ih _
        | down a =>
            simp only
            split
            · rfl
            · rfl
            · exact ih _
      · rfl
      · rfl

/-- A walk that does not fail goes where its steps head for. -/
theorem heads_of_walk {t : FileTree α β τ} {cur : List α} {ss : List (Step α)} (h : ∀ e, t.walk cur ss ≠ .failed e) :
    t.heads cur ss = t.walk cur ss := by
  induction ss generalizing cur with
  | nil => rfl
  | cons s ss ih =>
      rw [walk_cons] at h ⊢
      split at h
      · cases s with
        | stay => exact ih h
        | up => exact ih h
        | down a =>
            simp only at h ⊢
            split at h
            · exact absurd rfl (h _)
            next target hlink => rw [heads, linkAt_eq_some.2 hlink]
            next n hno hn =>
              have hnone : t.linkAt (cur ++ [a]) = none := by
                rw [Option.eq_none_iff_forall_ne_some]
                intro target hlink
                exact hno target (Option.some.inj (hn.symm.trans (linkAt_eq_some.1 hlink)))
              rw [heads, hnone]
              exact ih h
      · exact absurd rfl (h _)
      · exact absurd rfl (h _)

/-- What a walk goes on from is a directory. -/
theorem get_of_walk {t : FileTree α β τ} {cur : List α} {ss : List (Step α)} (hss : ss ≠ [])
    (h : ∀ e, t.walk cur ss ≠ .failed e) : t.get cur = some .dir := by
  cases ss with
  | nil => exact absurd rfl hss
  | cons s ss =>
      rw [walk_cons] at h
      split at h
      next hdir => exact hdir
      · exact absurd rfl (h _)
      · exact absurd rfl (h _)

section Resolved

variable {t} {follow : τ → Bool × List (Step α)} {links : Nat} {cur p q : List α} {ss ss' : List (Step α)}

theorem headsFor_of_resolve (h : t.resolve follow links cur ss = .ok p) :
    t.headsFor follow links cur ss = some p := by
  fun_induction resolve with
  | case1 links cur ss q hq =>
      cases h
      rw [headsFor, heads_of_walk (by rw [hq]; exact nofun), hq]
  | case2 => cases h
  | case3 => cases h
  | case4 cur ss dir target rest hlink links ih =>
      rw [headsFor, heads_of_walk (by rw [hlink]; exact nofun), hlink]
      exact ih h

theorem entryFor_of_place (h : t.place follow links cur ss = .ok p) : t.entryFor follow links cur ss = some p := by
  unfold place at h
  unfold entryFor
  split at h
  · split at h
    · cases h
    next q hq =>
      split at h
      · cases h
        rw [headsFor_of_resolve hq, Option.map_some]
      · cases h
  next => split at h <;> cases h

theorem headsFor_append (h : t.headsFor follow links cur ss = some p) (h' : t.heads p ss' = .arrived q) :
    t.headsFor follow links cur (ss ++ ss') = some q := by
  fun_induction headsFor t follow links cur ss with
  | case1 links cur ss r hr =>
      cases h
      rw [headsFor, heads_append, hr]
      simp only [h']
  | case2 => cases h
  | case3 => cases h
  | case4 cur ss dir target rest hlink links ih =>
      rw [headsFor, heads_append, hlink]
      simp only [← List.append_assoc]
      exact ih h

theorem headsFor_stays (n : Nat) :
    t.headsFor follow links cur (ss ++ List.replicate n .stay) = t.headsFor follow links cur ss := by
  have hstays : ∀ (p : List α) (n : Nat), t.heads p (List.replicate n .stay) = .arrived p := by
    intro p n
    induction n with
    | zero => rfl
    | succ n ih => exact ih
  fun_induction headsFor t follow links cur ss with
  | case1 links cur ss r hr =>
      rw [headsFor, heads_append, hr]
      simp only [hstays]
  | case2 links cur ss e he => rw [headsFor, heads_append, he]
  | case3 cur ss dir target rest hlink => rw [headsFor, heads_append, hlink]
  | case4 cur ss dir target rest hlink links ih =>
      rw [headsFor, heads_append, hlink]
      simp only [← List.append_assoc]
      exact ih

/-- A path goes on from where its beginning leads. -/
theorem resolve_append (h : t.resolve follow links cur (ss ++ ss') = .ok p) :
    ∃ q links', t.resolve follow links cur ss = .ok q ∧ t.resolve follow links' q ss' = .ok p := by
  fun_induction resolve t follow links cur ss with
  | case1 links cur ss r hr =>
      refine ⟨r, links, rfl, ?_⟩
      rw [resolve, walk_append, hr] at h
      rw [resolve]
      exact h
  | case2 links cur ss e he =>
      rw [resolve, walk_append, he] at h
      cases h
  | case3 cur ss dir target rest hlink =>
      rw [resolve, walk_append, hlink] at h
      cases h
  | case4 cur ss dir target rest hlink links ih =>
      rw [resolve, walk_append, hlink] at h
      simp only [← List.append_assoc] at h
      exact ih h

/-- A path goes on from where its beginning leads, when no link is met after it. -/
theorem resolve_append_of_walk (h : t.resolve follow links cur ss = .ok q) (h' : t.walk q ss' = .arrived p) :
    t.resolve follow links cur (ss ++ ss') = .ok p := by
  fun_induction resolve t follow links cur ss with
  | case1 links cur ss r hr =>
      cases h
      rw [resolve, walk_append, hr]
      simp only [h']
  | case2 => cases h
  | case3 => cases h
  | case4 cur ss dir target rest hlink links ih =>
      rw [resolve, walk_append, hlink]
      simp only [← List.append_assoc]
      exact ih h

theorem walk_stays (hdir : t.get cur = some .dir) (n : Nat) :
    t.walk cur (List.replicate n .stay) = .arrived cur := by
  induction n with
  | zero => rfl
  | succ n ih =>
      rw [List.replicate_succ, walk_cons, hdir]
      exact ih

theorem get_of_resolve (hss : ss ≠ []) (h : t.resolve follow links cur ss = .ok p) : t.get cur = some .dir := by
  apply get_of_walk hss
  intro e he
  rw [resolve, he] at h
  cases h

/-- What a path goes through is a directory. -/
theorem resolve_through (hss : ss' ≠ []) (h : t.resolve follow links cur (ss ++ ss') = .ok p) :
    ∃ q, t.resolve follow links cur ss = .ok q ∧ t.get q = some .dir := by
  rcases resolve_append h with ⟨q, links', hq, hrest⟩
  exact ⟨q, hq, get_of_resolve hss hrest⟩

@[inherit_doc resolve_through]
theorem place_through (hss : ss' ≠ []) (h : t.place follow links cur (ss ++ ss') = .ok p) :
    ∃ q, t.resolve follow links cur ss = .ok q ∧ t.get q = some .dir := by
  unfold place at h
  split at h
  · split at h
    · cases h
    next q hq =>
      rw [List.dropLast_append_of_ne_nil hss] at hq
      split at h
      next hdir =>
        by_cases hlast : ss'.dropLast = []
        · rw [hlast, List.append_nil] at hq
          exact ⟨q, hq, hdir⟩
        · exact resolve_through hlast hq
      · cases h
  · split at h <;> cases h

/-- The entry that a name, behind some `.`, has in a directory. -/
theorem place_concat_iff (n : Nat) (a : α) :
    t.place follow links cur (ss ++ (List.replicate n .stay ++ [.down a])) = .ok p ↔
      ∃ dir, t.resolve follow links cur ss = .ok dir ∧ t.get dir = some .dir ∧ p = dir ++ [a] := by
  unfold place
  rw [← List.append_assoc, List.getLast?_concat, List.dropLast_concat]
  simp only
  constructor
  · intro h
    split at h
    · cases h
    next q hq =>
      split at h
      next hdir =>
        cases h
        rcases resolve_append hq with ⟨r, links', hr, hstays⟩
        by_cases hn : List.replicate n (.stay : Step α) = []
        · rw [hn] at hstays
          rw [resolve] at hstays
          cases hstays
          exact ⟨q, hr, hdir, rfl⟩
        · have hdir' := get_of_resolve hn hstays
          rw [resolve, walk_stays hdir' n] at hstays
          cases hstays
          exact ⟨q, hr, hdir, rfl⟩
      · cases h
  · rintro ⟨dir, hr, hdir, rfl⟩
    rw [resolve_append_of_walk hr (walk_stays hdir n)]
    simp only [hdir]
    rfl

theorem getLast?_of_place (h : t.place follow links cur ss = .ok p) : ∃ a, ss.getLast? = some (.down a) := by
  unfold place at h
  split at h
  next a hlast => exact ⟨a, hlast⟩
  · split at h
    · cases h
    · cases h

theorem place_ok (h : t.place follow links cur ss = .ok p) : ∃ dir a, p = dir ++ [a] ∧ t.get dir = some .dir := by
  unfold place at h
  split at h
  · split at h
    · cases h
    next q _ =>
      split at h
      next hdir =>
        cases h
        exact ⟨q, _, rfl, hdir⟩
      · cases h
  · split at h <;> cases h

/-- At the entry of what resolves to a directory stands the directory, or a link. -/
theorem entry_of_resolve (h : t.resolve follow links cur ss = .ok q) (hdir : t.get q = some .dir)
    (hp : t.entryFor follow links cur ss = some p) : t.get p = some .dir ∨ t.linkAt p ≠ none := by
  unfold entryFor at hp
  split at hp
  next a hlast =>
    rw [← List.dropLast_append_getLast? _ hlast] at h
    rcases resolve_append h with ⟨r, links', hr, hrest⟩
    rw [headsFor_of_resolve hr] at hp
    cases hp
    have hr := get_of_resolve (List.cons_ne_nil _ _) hrest
    rw [resolve, walk_cons, hr] at hrest
    simp only at hrest
    split at hrest
    next harrived =>
      -- no link was followed
      cases hrest
      split at harrived
      · cases harrived
      · cases harrived
      · cases harrived
        exact .inl hdir
    · cases hrest
    next hlink =>
      split at hlink
      · cases hlink
      next hget => exact .inr (Option.ne_none_iff_exists'.2 ⟨_, linkAt_eq_some.2 hget⟩)
      · cases hlink
  next =>
    rw [headsFor_of_resolve h] at hp
    cases hp
    exact .inl hdir

end Resolved

/-- What is there stays as it is. -/
def Extends (t t' : FileTree α β τ) : Prop :=
  ∀ p, t.get p ≠ none → t'.get p = t.get p

section Extends

variable {t t' : FileTree α β τ} {follow : τ → Bool × List (Step α)} {links : Nat} {cur p : List α}
  {ss : List (Step α)}

theorem Extends.walk (h : t.Extends t') (hwalk : ∀ e, t.walk cur ss ≠ .failed e) : t'.walk cur ss = t.walk cur ss := by
  induction ss generalizing cur with
  | nil => rfl
  | cons s ss ih =>
      rw [walk_cons] at hwalk
      rw [walk_cons, walk_cons]
      cases hcur : t.get cur with
      | none =>
          rw [hcur] at hwalk
          exact absurd rfl (hwalk _)
      | some n =>
          rw [hcur] at hwalk
          rw [h cur (hcur ▸ nofun), hcur]
          cases n with
          | file => exact absurd rfl (hwalk _)
          | link => exact absurd rfl (hwalk _)
          | dir =>
              cases s with
              | stay => exact ih hwalk
              | up => exact ih hwalk
              | down a =>
                  simp only at hwalk ⊢
                  cases hnext : t.get (cur ++ [a]) with
                  | none =>
                      rw [hnext] at hwalk
                      exact absurd rfl (hwalk _)
                  | some m =>
                      rw [hnext] at hwalk
                      rw [h _ (hnext ▸ nofun), hnext]
                      cases m with
                      | link => rfl
                      | dir => exact ih hwalk
                      | file => exact ih hwalk

theorem Extends.resolve (h : t.Extends t') (hres : t.resolve follow links cur ss = .ok p) :
    t'.resolve follow links cur ss = .ok p := by
  fun_induction FileTree.resolve t follow links cur ss with
  | case1 links cur ss q hq =>
      rw [FileTree.resolve, h.walk (hq ▸ nofun), hq]
      exact hres
  | case2 => cases hres
  | case3 => cases hres
  | case4 cur ss dir target rest hlink links ih =>
      rw [FileTree.resolve, h.walk (hlink ▸ nofun), hlink]
      exact ih hres

theorem Extends.place (h : t.Extends t') (hplace : t.place follow links cur ss = .ok p) :
    t'.place follow links cur ss = .ok p := by
  unfold FileTree.place at hplace ⊢
  split at hplace
  · split at hplace
    · cases hplace
    next q hq =>
      split at hplace
      next hdir =>
        rw [h.resolve hq]
        simp only
        rw [h q (hdir ▸ nofun), hdir]
        exact hplace
      · cases hplace
  · split at hplace <;> cases hplace

end Extends

theorem headsFor_congr {t t' : FileTree α β τ} {follow : τ → Bool × List (Step α)} (h : t'.linkAt = t.linkAt)
    (links : Nat) (cur : List α) (ss : List (Step α)) :
    t'.headsFor follow links cur ss = t.headsFor follow links cur ss := by
  have hheads : t'.heads = t.heads := by
    funext cur ss
    induction ss generalizing cur with
    | nil => rfl
    | cons s ss ih =>
        cases s with
        | stay => exact ih _
        | up => exact ih _
        | down a => rw [heads, heads, h, ih]
  induction links generalizing cur ss with
  | zero => rw [headsFor, headsFor, hheads]
  | succ links ih =>
      rw [headsFor, headsFor, hheads]
      split
      · rfl
      · rfl
      · exact ih _ _

theorem entryFor_congr {t t' : FileTree α β τ} {follow : τ → Bool × List (Step α)} (h : t'.linkAt = t.linkAt)
    (links : Nat) (cur : List α) (ss : List (Step α)) :
    t'.entryFor follow links cur ss = t.entryFor follow links cur ss := by
  simp only [entryFor, headsFor_congr h]

/-! ## Trees with the same entries -/

/-- The same entries, whatever the files hold. -/
def SameKinds (t t' : FileTree α β τ) : Prop :=
  ∀ p, (t'.get p).map Node.kind = (t.get p).map Node.kind

section SameKinds

variable {t t' t'' : FileTree α β τ} {follow : τ → Bool × List (Step α)}

theorem SameKinds.refl (t : FileTree α β τ) : t.SameKinds t :=
  fun _ => rfl

theorem SameKinds.trans (h : t.SameKinds t') (h' : t'.SameKinds t'') : t.SameKinds t'' :=
  fun p => (h' p).trans (h p)

/-- The same kind of node, or none, is at a path. -/
theorem SameKinds.cases (h : t.SameKinds t') (p : List α) :
    (t.get p = none ∧ t'.get p = none) ∨ (t.get p = some .dir ∧ t'.get p = some .dir) ∨
      (∃ content content', t.get p = some (.file content) ∧ t'.get p = some (.file content')) ∨
        ∃ target, t.get p = some (.link target) ∧ t'.get p = some (.link target) := by
  have hp := h p
  cases hget : t.get p with
  | none =>
      rw [hget, Option.map_none, Option.map_eq_none_iff] at hp
      exact .inl ⟨rfl, hp⟩
  | some n =>
      rw [hget, Option.map_some, Option.map_eq_some_iff] at hp
      rcases hp with ⟨n', hn', hkind⟩
      cases n <;> cases n' <;> cases hkind
      · exact .inr (.inl ⟨rfl, hn'⟩)
      · exact .inr (.inr (.inl ⟨_, _, rfl, hn'⟩))
      · exact .inr (.inr (.inr ⟨_, rfl, hn'⟩))

theorem SameKinds.none_iff (h : t.SameKinds t') (p : List α) : t'.get p = none ↔ t.get p = none := by
  rcases h.cases p with ⟨h, h'⟩ | ⟨h, h'⟩ | ⟨_, _, h, h'⟩ | ⟨_, h, h'⟩ <;> simp [h, h']

theorem SameKinds.dir_iff (h : t.SameKinds t') (p : List α) : t'.get p = some .dir ↔ t.get p = some .dir := by
  rcases h.cases p with ⟨h, h'⟩ | ⟨h, h'⟩ | ⟨_, _, h, h'⟩ | ⟨_, h, h'⟩ <;> simp [h, h']

theorem SameKinds.file_iff (h : t.SameKinds t') (p : List α) :
    (∃ content, t'.get p = some (.file content)) ↔ ∃ content, t.get p = some (.file content) := by
  rcases h.cases p with ⟨h, h'⟩ | ⟨h, h'⟩ | ⟨_, _, h, h'⟩ | ⟨_, h, h'⟩ <;> simp [h, h']

/-- Paths lead where they led. -/
theorem SameKinds.walk (h : t.SameKinds t') (cur : List α) (ss : List (Step α)) : t'.walk cur ss = t.walk cur ss := by
  induction ss generalizing cur with
  | nil => rfl
  | cons s ss ih =>
      rw [walk_cons, walk_cons]
      rcases h.cases cur with ⟨hcur, hcur'⟩ | ⟨hcur, hcur'⟩ | ⟨_, _, hcur, hcur'⟩ | ⟨_, hcur, hcur'⟩ <;>
        rw [hcur, hcur']
      cases s with
      | stay => exact ih _
      | up => exact ih _
      | down a =>
          rcases h.cases (cur ++ [a]) with ⟨ha, ha'⟩ | ⟨ha, ha'⟩ | ⟨_, _, ha, ha'⟩ | ⟨_, ha, ha'⟩
          · simp only [ha, ha']
          · simpa only [ha, ha'] using ih _
          · simpa only [ha, ha'] using ih _
          · simp only [ha, ha']

theorem SameKinds.resolve (h : t.SameKinds t') (links : Nat) (cur : List α) (ss : List (Step α)) :
    t'.resolve follow links cur ss = t.resolve follow links cur ss := by
  induction links generalizing cur ss with
  | zero => rw [FileTree.resolve, FileTree.resolve, h.walk]
  | succ links ih =>
      rw [FileTree.resolve, FileTree.resolve, h.walk]
      split
      · rfl
      · rfl
      · exact ih _ _

end SameKinds

theorem walk_down_cons {t : FileTree α β τ} {cur : List α} {a : α} {n : Node β τ} (hcur : t.get cur = some .dir)
    (hnext : t.get (cur ++ [a]) = some n) (hlink : ∀ target, n ≠ .link target) (ss : List (Step α)) :
    t.walk cur (.down a :: ss) = t.walk (cur ++ [a]) ss := by
  rw [walk_cons, hcur]
  cases n with
  | dir => simp only [hnext]
  | file content => simp only [hnext]
  | link target => exact absurd rfl (hlink target)

/-- The names of a path lead down it. -/
theorem walk_down {t : FileTree α β τ} {cur p : List α} {n : Node β τ} (h : t.get (cur ++ p) = some n)
    (hlink : ∀ target, n ≠ .link target) : t.walk cur (p.map .down) = .arrived (cur ++ p) := by
  induction p generalizing cur with
  | nil => rw [List.append_nil]; rfl
  | cons a p ih =>
      have hsome : t.get (cur ++ a :: p) ≠ none := h ▸ Option.some_ne_none n
      have hcur : t.get cur = some .dir := get_of_ancestor (List.prefix_append cur (a :: p)) (by simp) hsome
      rw [← List.singleton_append, ← List.append_assoc] at h hsome ⊢
      have hnext : ∃ m, t.get (cur ++ [a]) = some m ∧ ∀ target, m ≠ .link target := by
        by_cases hp : p = []
        · rw [hp, List.append_nil] at h
          exact ⟨n, h, hlink⟩
        · have hdir : t.get (cur ++ [a]) = some .dir :=
            get_of_ancestor (List.prefix_append _ p) (by simpa using hp) hsome
          exact ⟨.dir, hdir, nofun⟩
      rcases hnext with ⟨m, hm, hno⟩
      rw [List.singleton_append, List.map_cons, walk_down_cons hcur hm hno]
      exact ih h

/-- Where every directory is there, steps lead where they say. -/
theorem walk_lexical {t : FileTree α β τ} {dirs : List α} {depth : Nat}
    (ht : ∀ p, p.length ≤ depth → p ⊆ dirs → t.get p = some .dir) {cur : List α} {ss : List (Step α)}
    (hcur : cur ⊆ dirs) (hss : downs ss ⊆ dirs) (hlen : cur.length + (downs ss).length ≤ depth) :
    t.walk cur ss = .arrived (lexical cur ss) := by
  induction ss generalizing cur with
  | nil => rfl
  | cons s ss ih =>
      have hdir := ht cur (by omega) hcur
      cases s with
      | stay =>
          rw [walk_cons, hdir]
          exact ih hcur hss hlen
      | up =>
          rw [walk_cons, hdir]
          refine ih (fun a ha => hcur (List.dropLast_subset cur ha)) hss ?_
          rw [List.length_dropLast]
          rw [downs] at hlen
          omega
      | down a =>
          rw [downs, List.cons_subset] at hss
          rw [downs, List.length_cons] at hlen
          have hcur' : cur ++ [a] ⊆ dirs := List.append_subset.2 ⟨hcur, List.cons_subset.2 ⟨hss.1, List.nil_subset _⟩⟩
          have hlen' : (cur ++ [a]).length + (downs ss).length ≤ depth := by
            rw [List.length_append, List.length_singleton]
            omega
          rw [walk_down_cons hdir (ht _ (by omega) hcur') nofun]
          exact ih hcur' hss.2 hlen'

/-! ## Changing an entry -/

def isDir (p : List α) : Bool :=
  match t.get p with
  | some .dir => true
  | _ => false

theorem isDir_iff {t : FileTree α β τ} {p : List α} : t.isDir p = true ↔ t.get p = some .dir := by
  unfold isDir
  split <;> simp_all

variable [DecidableEq α]

/-- The entry at `p` becomes `o`, if its directory is there and it is no directory itself. -/
def set (p : List α) (o : Option (Node β τ)) : FileTree α β τ :=
  if h : p ≠ [] ∧ t.isDir p.dropLast = true ∧ t.isDir p = false then
    { get := fun q => if q = p then o else t.get q
      names := p ++ t.names
      root := by rw [if_neg (Ne.symm h.1), t.root]
      parent := by
        intro q a hne
        have hpq : q ≠ q ++ [a] := fun heq => by simpa using congrArg List.length heq
        by_cases hq : q ++ [a] = p
        · have hdir := isDir_iff.1 h.2.1
          rw [← hq, List.dropLast_concat] at hdir
          rw [if_neg (hq ▸ hpq), hdir]
        · rw [if_neg hq] at hne
          have hdir := t.parent q a hne
          rw [if_neg, hdir]
          rintro rfl
          rw [isDir_iff.2 hdir] at h
          exact absurd h.2.2 (by simp)
      named := by
        intro q a hne
        by_cases hq : q ++ [a] = p
        · rw [← hq]
          simp
        · rw [if_neg hq] at hne
          exact List.mem_append_right _ (t.named q a hne) }
  else t

theorem get_set_of_ne {t : FileTree α β τ} {p q : List α} (h : q ≠ p) (o : Option (Node β τ)) :
    (t.set p o).get q = t.get q := by
  unfold set
  split
  · exact if_neg h
  · rfl

theorem extends_set {t : FileTree α β τ} {p : List α} (h : t.get p = none) (o : Option (Node β τ)) :
    t.Extends (t.set p o) := by
  intro q hq
  apply get_set_of_ne
  rintro rfl
  exact hq h

theorem get_set_or {t : FileTree α β τ} (p q : List α) (o : Option (Node β τ)) :
    (t.set p o).get q = t.get q ∨ q = p ∧ (t.set p o).get q = o := by
  unfold set
  split
  · by_cases hq : q = p
    · exact .inr ⟨hq, if_pos hq⟩
    · exact .inl (if_neg hq)
  · exact .inl rfl

theorem get_set {t : FileTree α β τ} {p : List α} {a : α} (hdir : t.get p = some .dir)
    (hentry : t.get (p ++ [a]) ≠ some .dir) (o : Option (Node β τ)) : (t.set (p ++ [a]) o).get (p ++ [a]) = o := by
  have hno : t.isDir (p ++ [a]) = false := by
    rw [Bool.eq_false_iff, ne_eq, isDir_iff]
    exact hentry
  have hyes : t.isDir (p ++ [a]).dropLast = true := by
    rw [List.dropLast_concat, isDir_iff]
    exact hdir
  rw [set, dif_pos ⟨by simp, hyes, hno⟩]
  exact if_pos rfl

theorem get_set_of_place {t : FileTree α β τ} {follow : τ → Bool × List (Step α)} {links : Nat} {cur p : List α}
    {ss : List (Step α)} (h : t.place follow links cur ss = .ok p) (hp : t.get p ≠ some .dir) (o : Option (Node β τ))
    (q : List α) : (t.set p o).get q = if q = p then o else t.get q := by
  split
  next heq =>
    rcases place_ok h with ⟨dir, a, rfl, hdir⟩
    rw [heq, get_set hdir hp]
  next hne => exact get_set_of_ne hne o

/-- What is at `p`, and below, goes to `q` in place of what is there, if the directory of `q` is there and `q` is
not below `p`. -/
def move (p q : List α) : FileTree α β τ :=
  if h : p ≠ [] ∧ q ≠ [] ∧ t.isDir q.dropLast = true ∧ ¬ p <+: q then
    { get := fun r => if q <+: r then t.get (p ++ r.drop q.length) else if p <+: r then none else t.get r
      names := q ++ t.names
      root := by
        rw [if_neg (fun hr => h.2.1 (List.prefix_nil.1 hr)), if_neg (fun hr => h.1 (List.prefix_nil.1 hr)), t.root]
      parent := by
        intro r a hne
        by_cases hq : q <+: r ++ [a]
        · rcases List.prefix_concat_iff.1 hq with hqr | hqr
          · have hdir := isDir_iff.1 h.2.2.1
            have hlast : q.dropLast = r := by rw [hqr, List.dropLast_concat]
            rw [hlast] at hdir
            have hnq : ¬ q <+: r := by
              intro hpre
              have hle := hpre.length_le
              rw [hqr, List.length_append, List.length_singleton] at hle
              omega
            have hnp : ¬ p <+: r := fun hpre => h.2.2.2 (hqr ▸ hpre.trans (List.prefix_append r [a]))
            rw [if_neg hnq, if_neg hnp, hdir]
          · rw [if_pos hq, List.drop_append_of_le_length hqr.length_le, ← List.append_assoc] at hne
            rw [if_pos hqr]
            exact t.parent _ _ hne
        · rw [if_neg hq] at hne
          have hnp : ¬ p <+: r ++ [a] := fun hpre => by simp [hpre] at hne
          rw [if_neg hnp] at hne
          rw [if_neg fun hpre => hq (hpre.trans (List.prefix_append _ _)),
            if_neg fun hpre => hnp (hpre.trans (List.prefix_append _ _))]
          exact t.parent r a hne
      named := by
        intro r a hne
        by_cases hq : q <+: r ++ [a]
        · rcases List.prefix_concat_iff.1 hq with hqr | hqr
          · rw [hqr]
            simp
          · rw [if_pos hq, List.drop_append_of_le_length hqr.length_le, ← List.append_assoc] at hne
            exact List.mem_append_right _ (t.named _ _ hne)
        · rw [if_neg hq] at hne
          split at hne
          · exact absurd rfl hne
          · exact List.mem_append_right _ (t.named _ _ hne) }
  else t

theorem get_move {t : FileTree α β τ} {p q : List α} {a : α} (hp : p ≠ []) (hdir : t.get q = some .dir)
    (hbelow : ¬ p <+: q ++ [a]) (r : List α) : (t.move p (q ++ [a])).get r =
      if q ++ [a] <+: r then t.get (p ++ r.drop (q ++ [a]).length) else if p <+: r then none else t.get r := by
  have hyes : t.isDir (q ++ [a]).dropLast = true := by
    rw [List.dropLast_concat, isDir_iff]
    exact hdir
  rw [move, dif_pos ⟨hp, by simp, hyes, hbelow⟩]

/-! ## System calls -/

section Calls

variable (follow : τ → Bool × List (Step α)) (links : Nat) (cur : List α)

/-- `mkdir` -/
def mkdir (ss : List (Step α)) : Except FsErr (FileTree α β τ × List α) :=
  match t.place follow links cur ss with
  | .error .isdir => .error .exist
  | .error e => .error e
  | .ok p =>
      match t.get p with
      | some _ => .error .exist
      | none => .ok (t.set p (some .dir), p)

/-- `unlink` -/
def unlink (ss : List (Step α)) : Except FsErr (FileTree α β τ × List α) :=
  match t.place follow links cur ss with
  | .error e => .error e
  | .ok p =>
      match t.get p with
      | none => .error .noent
      | some .dir => .error .isdir
      | some _ => .ok (t.set p none, p)

/-- `link` of a file of this content, or `symlink`. -/
def link (n : Node β τ) (ss : List (Step α)) : Except FsErr (FileTree α β τ × List α) :=
  match t.place follow links cur ss with
  | .error .isdir => .error .exist
  | .error e => .error e
  | .ok p =>
      match t.get p with
      | some _ => .error .exist
      | none => .ok (t.set p (some n), p)

/-- `readlink` -/
def readlink (ss : List (Step α)) : Except FsErr τ :=
  match t.place follow links cur ss with
  | .error .isdir => .error .inval
  | .error e => .error e
  | .ok p =>
      match t.get p with
      | none => .error .noent
      | some (.link target) => .ok target
      | some _ => .error .inval

/-- `creat`; it goes through a link. -/
def creat (content : β) (ss : List (Step α)) : Except FsErr (FileTree α β τ × List α) :=
  match t.place follow links cur ss with
  | .error e => .error e
  | .ok p =>
      match t.get p with
      | some .dir => .error .isdir
      | some (.link _) =>
          match t.resolve follow links cur ss with
          | .error e => .error e
          | .ok p' => if t.isDir p' then .error .isdir else .ok (t.set p' (some (.file content)), p')
      | _ => .ok (t.set p (some (.file content)), p)

def isEmptyDir (p : List α) : Bool :=
  t.isDir p && t.names.all fun a => (t.get (p ++ [a])).isNone

/-- `rename`: the tree, the entry that was renamed, and its new path. -/
def rename (cur' : List α) (ss ss' : List (Step α)) : Except FsErr (FileTree α β τ × List α × List α) :=
  match t.place follow links cur ss, t.place follow links cur' ss' with
  | .error e, _ => .error e
  | _, .error e => .error e
  | .ok p, .ok q =>
      match t.get p with
      | none => .error .noent
      | some .dir =>
          if p = q then .ok (t, p, q)
          -- a directory cannot go below itself
          else if p <+: q then .error .inval
          else
            match t.get q with
            | none => .ok (t.move p q, p, q)
            | some .dir => if t.isEmptyDir q then .ok (t.move p q, p, q) else .error .notempty
            | some _ => .error .notdir
      | some n =>
          if p = q then .ok (t, p, q)
          else
            match t.get q with
            | some .dir => .error .isdir
            -- a file that is there is replaced
            | _ => .ok ((t.set p none).set q (some n), p, q)

end Calls

/-! ## What a call changes -/

/-- The entry at `p`, no directory, becomes something that is no link. -/
structure Sets (p : List α) (t t' : FileTree α β τ) : Prop where
  noDir : t.get p ≠ some .dir
  eq_set : ∃ o, t' = t.set p o ∧ ∀ target, o ≠ some (.link target)

section Sets

variable {t t' : FileTree α β τ} {follow : τ → Bool × List (Step α)} {links : Nat} {cur cur' p q : List α}
  {ss ss' : List (Step α)}

theorem mkdir_sets (h : t.mkdir follow links cur ss = .ok (t', p)) :
    t.place follow links cur ss = .ok p ∧ t.get p = none ∧ Sets p t t' := by
  unfold mkdir at h
  split at h
  · cases h
  · cases h
  next hplace =>
    split at h
    · cases h
    next hnone =>
      cases h
      refine ⟨hplace, hnone, ?_, _, rfl, nofun⟩
      rw [hnone]
      exact nofun

theorem unlink_sets (h : t.unlink follow links cur ss = .ok (t', p)) :
    t.place follow links cur ss = .ok p ∧ t' = t.set p none ∧ Sets p t t' := by
  unfold unlink at h
  split at h
  · cases h
  next hplace =>
    split at h
    · cases h
    · cases h
    next n hdir hn =>
      cases h
      refine ⟨hplace, rfl, ?_, _, rfl, nofun⟩
      intro hp
      exact hdir (Option.some.inj (hn.symm.trans hp))

theorem link_ok {n : Node β τ} (h : t.link follow links cur n ss = .ok (t', p)) :
    t.place follow links cur ss = .ok p ∧ t.get p = none ∧ t' = t.set p (some n) := by
  unfold link at h
  split at h
  · cases h
  · cases h
  next hplace =>
    split at h
    · cases h
    next hnone =>
      cases h
      exact ⟨hplace, hnone, rfl⟩

theorem link_sets {n : Node β τ} (hn : ∀ target, n ≠ .link target)
    (h : t.link follow links cur n ss = .ok (t', p)) :
    t.place follow links cur ss = .ok p ∧ t.get p = none ∧ Sets p t t' := by
  rcases link_ok h with ⟨hplace, hnone, rfl⟩
  refine ⟨hplace, hnone, ?_, _, rfl, fun target hlink => hn target (Option.some.inj hlink)⟩
  rw [hnone]
  exact nofun

theorem creat_sets {content : β} (h : t.creat follow links cur content ss = .ok (t', p)) :
    ∃ r, t.place follow links cur ss = .ok r ∧ (p = r ∨ t.linkAt r ≠ none) ∧ Sets p t t' := by
  unfold creat at h
  split at h
  · cases h
  next r hplace =>
    split at h
    · cases h
    next target hlink =>
      split at h
      · cases h
      next hresolve =>
        split at h
        · cases h
        next hdir =>
          cases h
          refine ⟨r, hplace, .inr (Option.ne_none_iff_exists'.2 ⟨target, linkAt_eq_some.2 hlink⟩), ?_, _, rfl, nofun⟩
          rw [isDir_iff] at hdir
          exact hdir
    next hdir _ =>
      cases h
      exact ⟨_, hplace, .inl rfl, fun hp => hdir hp, _, rfl, nofun⟩

/-- A file is renamed. -/
theorem rename_sets (hfile : ∀ r, t.place follow links cur ss = .ok r → t.get r ≠ some .dir ∧ t.linkAt r = none)
    (h : t.rename follow links cur cur' ss ss' = .ok (t', p, q)) :
    t.place follow links cur ss = .ok p ∧ t.place follow links cur' ss' = .ok q ∧
      (t' = t ∨ ∃ m, Sets p t m ∧ Sets q m t') := by
  unfold rename at h
  split at h
  · cases h
  · cases h
  next r r' hr hr' =>
    rcases hfile r hr with ⟨hdir, hlink⟩
    split at h
    · cases h
    next heq => exact absurd heq hdir
    next n _ hn =>
      split at h
      next heq =>
        cases h
        exact ⟨hr, hr', .inl rfl⟩
      next hne =>
        split at h
        · cases h
        next hdir' =>
          cases h
          refine ⟨hr, hr', .inr ⟨_, ⟨hdir, none, rfl, nofun⟩, ?_, _, rfl, ?_⟩⟩
          · rw [get_set_of_ne (Ne.symm hne)]
            exact hdir'
          · intro target htarget
            rw [Option.some.inj htarget] at hn
            exact absurd (linkAt_eq_some.2 hn) (hlink ▸ nofun)

/-- What is at the source, and below, is then at the destination; the rest stays. -/
structure Moves (p q : List α) (t t' : FileTree α β τ) : Prop where
  source : t.get p ≠ none
  moved : ∀ r, t'.get (q ++ r) = t.get (p ++ r)
  gone : p ≠ q → ∀ r, p <+: r → ¬ q <+: r → t'.get r = none
  elsewhere : ∀ r, ¬ p <+: r → ¬ q <+: r → t'.get r = t.get r

theorem rename_moves (h : t.rename follow links cur cur' ss ss' = .ok (t', p, q)) :
    t.place follow links cur ss = .ok p ∧ t.place follow links cur' ss' = .ok q ∧ Moves p q t t' := by
  unfold rename at h
  split at h
  · cases h
  · cases h
  next p₁ q₁ hp hq =>
    have hmove : t.get p₁ = some .dir → ¬ p₁ <+: q₁ → Moves p₁ q₁ t (t.move p₁ q₁) := by
      intro hdir hbelow
      rcases place_ok hp with ⟨dir', a, rfl, -⟩
      rcases place_ok hq with ⟨dir, b, rfl, hto⟩
      have hget := get_move (List.append_ne_nil_of_right_ne_nil dir' (List.cons_ne_nil a [])) hto hbelow
      refine ⟨hdir ▸ nofun, ?_, ?_, ?_⟩
      · intro r
        rw [hget, if_pos (List.prefix_append _ r), List.drop_left]
      · intro _ r hr hnot
        rw [hget, if_neg hnot, if_pos hr]
      · intro r hr hnot
        rw [hget, if_neg hnot, if_neg hr]
    have hsame : t.get p₁ ≠ none → p₁ = q₁ → Moves p₁ q₁ t t := by
      rintro hsource rfl
      exact ⟨hsource, fun _ => rfl, fun hne => absurd rfl hne, fun _ _ _ => rfl⟩
    split at h
    · cases h
    next hdir =>
      split at h
      next heq =>
        cases h
        exact ⟨hp, hq, hsame (hdir ▸ nofun) heq⟩
      · split at h
        · cases h
        next hbelow =>
          split at h
          · cases h
            exact ⟨hp, hq, hmove hdir hbelow⟩
          · split at h
            · cases h
              exact ⟨hp, hq, hmove hdir hbelow⟩
            · cases h
          · cases h
    next n hnodir hn =>
      have hp' : t.get p₁ ≠ some .dir := fun heq => hnodir (Option.some.inj (hn.symm.trans heq))
      split at h
      next heq =>
        cases h
        exact ⟨hp, hq, hsame (hn ▸ nofun) heq⟩
      next hne =>
        split at h
        · cases h
        next hq' =>
          cases h
          refine ⟨hp, hq, ?_⟩
          rcases place_ok hq with ⟨dir, b, rfl, hto⟩
          have hdir' : (t.set p none).get dir = some .dir := by
            rw [get_set_of_ne, hto]
            rintro rfl
            exact hp' hto
          have hentry : (t.set p none).get (dir ++ [b]) ≠ some .dir := by
            rw [get_set_of_ne (Ne.symm hne)]
            exact hq'
          have hget : ∀ r, ((t.set p none).set (dir ++ [b]) (some n)).get r =
              if r = dir ++ [b] then some n else if r = p then none else t.get r := by
            intro r
            split
            next heq => rw [heq, get_set hdir' hentry]
            next hr => rw [get_set_of_ne hr, get_set_of_place hp hp']
          refine ⟨hn ▸ nofun, ?_, ?_, ?_⟩
          · intro r
            cases r with
            | nil => rw [List.append_nil, List.append_nil, hget, if_pos rfl, hn]
            | cons c r =>
                -- nothing is below a file
                have hbelow : t.get (p ++ c :: r) = none :=
                  get_below (List.prefix_append _ _) (by simp) hp'
                rw [hbelow]
                exact get_below (List.prefix_append _ _) (by simp) (by rw [hget, if_pos rfl]; exact hn ▸ hp')
          · intro _ r hr hnot
            have hr' : r ≠ dir ++ [b] := by
              rintro rfl
              exact hnot List.prefix_rfl
            rw [hget, if_neg hr']
            split
            · rfl
            next hne' => exact get_below hr (Ne.symm hne') hp'
          · intro r hr hnot
            have hr' : r ≠ dir ++ [b] := by
              rintro rfl
              exact hnot List.prefix_rfl
            have hr'' : r ≠ p := by
              rintro rfl
              exact hr List.prefix_rfl
            rw [hget, if_neg hr', if_neg hr'']

end Sets

/-- From `t` to `t'` only entries of `P` change; directories stay, and no link comes. -/
structure Within (P : List α → Prop) (t t' : FileTree α β τ) : Prop where
  outside : ∀ q, ¬ P q → t'.get q = t.get q
  dirs : ∀ q, t.get q = some .dir → t'.get q = some .dir
  links : ∀ q target, t'.linkAt q = some target → t.linkAt q = some target

namespace Within

variable {P : List α → Prop} {t t' t'' : FileTree α β τ}

omit [DecidableEq α] in
theorem refl (P : List α → Prop) (t : FileTree α β τ) : Within P t t :=
  ⟨fun _ _ => rfl, fun _ h => h, fun _ _ h => h⟩

omit [DecidableEq α] in
theorem trans (h : Within P t t') (h' : Within P t' t'') : Within P t t'' where
  outside := fun q hq => (h'.outside q hq).trans (h.outside q hq)
  dirs := fun q hq => h'.dirs q (h.dirs q hq)
  links := fun q target hq => h.links q target (h'.links q target hq)

omit [DecidableEq α] in
theorem mono {Q : List α → Prop} (h : Within P t t') (hPQ : ∀ q, P q → Q q) : Within Q t t' :=
  ⟨fun q hq => h.outside q fun hP => hq (hPQ q hP), h.dirs, h.links⟩

omit [DecidableEq α] in
theorem noLinks (h : Within P t t') {Q : List α → Prop} (ht : t.NoLinks Q) : t'.NoLinks Q := by
  intro q hq
  rw [Option.eq_none_iff_forall_ne_some]
  intro target hlink
  exact absurd (h.links q target hlink) (ht q hq ▸ nofun)

omit [DecidableEq α] in
/-- Where no link may change, the links are the same. -/
theorem linkAt_eq (h : Within P t t') (ht : t.NoLinks P) : t'.linkAt = t.linkAt := by
  funext q
  by_cases hq : P q
  · rw [ht q hq, h.noLinks ht q hq]
  · rw [linkAt, linkAt, h.outside q hq]

omit [DecidableEq α] in
theorem walk_dir (h : Within P t t') {cur p : List α} {ss : List (Step α)} (hp : t.get p = some .dir)
    (hwalk : t.walk cur ss = .arrived p) : t'.walk cur ss = .arrived p := by
  induction ss generalizing cur with
  | nil => exact hwalk
  | cons s ss ih =>
      have hcur : t.get cur = some .dir := get_of_walk (List.cons_ne_nil s ss) (hwalk ▸ nofun)
      rw [walk_cons, hcur] at hwalk
      rw [walk_cons, h.dirs cur hcur]
      cases s with
      | stay => exact ih hwalk
      | up => exact ih hwalk
      | down a =>
          simp only at hwalk ⊢
          have hnext : t.walk (cur ++ [a]) ss = .arrived p := by
            split at hwalk
            · cases hwalk
            · cases hwalk
            · exact hwalk
          -- it is a directory, on the way or at the end
          have hdir : t.get (cur ++ [a]) = some .dir := by
            cases ss with
            | nil =>
                cases hnext
                exact hp
            | cons s ss => exact get_of_walk (List.cons_ne_nil s ss) (hnext ▸ nofun)
          rw [h.dirs _ hdir]
          exact ih hnext

omit [DecidableEq α] in
theorem walk_linked (h : Within P t t') (ht : t.NoLinks P) {cur dir : List α} {ss rest : List (Step α)} {target : τ}
    (hwalk : t.walk cur ss = .linked dir target rest) : t'.walk cur ss = .linked dir target rest := by
  induction ss generalizing cur with
  | nil => cases hwalk
  | cons s ss ih =>
      have hcur : t.get cur = some .dir := get_of_walk (List.cons_ne_nil s ss) (hwalk ▸ nofun)
      rw [walk_cons, hcur] at hwalk
      rw [walk_cons, h.dirs cur hcur]
      cases s with
      | stay => exact ih hwalk
      | up => exact ih hwalk
      | down a =>
          simp only at hwalk ⊢
          split at hwalk
          · cases hwalk
          next target' hlink =>
            have hlink' := linkAt_eq_some.2 hlink
            rw [← h.linkAt_eq ht] at hlink'
            rw [linkAt_eq_some.1 hlink']
            exact hwalk
          next n hno hn =>
            have hdir : t.get (cur ++ [a]) = some .dir := by
              cases ss with
              | nil => cases hwalk
              | cons s ss => exact get_of_walk (List.cons_ne_nil s ss) (hwalk ▸ nofun)
            rw [h.dirs _ hdir]
            exact ih hwalk

omit [DecidableEq α] in
/-- A path leads to the same directory, where directories stay and no link changes. -/
theorem resolve_dir (h : Within P t t') (ht : t.NoLinks P) {follow : τ → Bool × List (Step α)} {links : Nat}
    {cur p : List α} {ss : List (Step α)} (hp : t.get p = some .dir) (hres : t.resolve follow links cur ss = .ok p) :
    t'.resolve follow links cur ss = .ok p := by
  fun_induction FileTree.resolve t follow links cur ss with
  | case1 links cur ss q hq =>
      cases hres
      rw [FileTree.resolve, h.walk_dir hp hq]
  | case2 => cases hres
  | case3 => cases hres
  | case4 cur ss dir target rest hlink links ih =>
      rw [FileTree.resolve, h.walk_linked ht hlink]
      exact ih hres

theorem of_sets {p : List α} (h : Sets p t t') (hp : P p) : Within P t t' := by
  rcases h with ⟨hdir, o, rfl, ho⟩
  have hne : ∀ q, t.get q = some .dir → q ≠ p := by
    rintro q hq rfl
    exact hdir hq
  refine ⟨?_, ?_, ?_⟩
  · intro q hq
    refine get_set_of_ne ?_ o
    rintro rfl
    exact hq hp
  · intro q hq
    rw [get_set_of_ne (hne q hq), hq]
  · intro q target hq
    rw [linkAt_eq_some] at hq ⊢
    rcases get_set_or p q o with heq | ⟨-, heq⟩
    · exact heq.symm.trans hq
    · exact absurd (heq.symm.trans hq) (ho target)

end Within

end FileTree

end Scambio.Library
