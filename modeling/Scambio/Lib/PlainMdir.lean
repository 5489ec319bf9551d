import Scambio.Lib.PlainLog
import Scambio.Lib.ReadNext

/-!
# PlainMdir — a mdir that only has plain patches

`Logs` ties a mdir to the entries that it accepted, one per version.  Patching adds an entry or
refuses it, reading gives the entries that are not removed back, and the next patch after a version
is the first entry after it that is not removed.
-/

namespace Scambio

open Library

/-! ## Entries by version -/

/-- The entry of a version. -/
def entryOf (G : Entries) (v : Int) : Option (Action × Header) :=
  if 1 ≤ v then G[(v - 1).toNat]? else none

@[simp] theorem entryOf_succ (G : Entries) (n : Nat) : entryOf G ((1 + n : Nat) : Int) = G[n]? := by
  have hidx : (((1 + n : Nat) : Int) - 1).toNat = n := by omega
  rw [entryOf, if_pos (by omega), hidx]

theorem entryOf_eq_some {G : Entries} {v : Int} {e : Action × Header} :
    entryOf G v = some e ↔ ∃ n : Nat, v = ((1 + n : Nat) : Int) ∧ G[n]? = some e := by
  constructor
  · intro h
    unfold entryOf at h
    split_ifs at h with hv
    exact ⟨(v - 1).toNat, by omega, h⟩
  · rintro ⟨n, rfl, hn⟩
    rw [entryOf_succ, hn]

theorem mem_of_entryOf {G : Entries} {v : Int} {e : Action × Header} (h : entryOf G v = some e) :
    e ∈ G := by
  rcases entryOf_eq_some.1 h with ⟨n, -, hn⟩
  exact List.mem_of_getElem? hn

theorem entryOf_snoc {G : Entries} {v : Int} {e x : Action × Header} (h : entryOf G v = some e) :
    entryOf (G ++ [x]) v = some e := by
  rcases entryOf_eq_some.1 h with ⟨n, rfl, hn⟩
  rw [entryOf_succ, List.getElem?_append_left (List.getElem?_eq_some_iff.1 hn).1, hn]

theorem entryOf_range {G : Entries} {v : Int} {e : Action × Header} (h : entryOf G v = some e) :
    1 ≤ v ∧ v ≤ G.length := by
  rcases entryOf_eq_some.1 h with ⟨n, rfl, hn⟩
  have := (List.getElem?_eq_some_iff.1 hn).1
  omega

theorem exists_entryOf {G : Entries} {v : Int} (hlow : 1 ≤ v) (hhigh : v ≤ G.length) :
    ∃ a h, entryOf G v = some (a, h) := by
  have hidx : (v - 1).toNat < G.length := by omega
  rcases hg : G[(v - 1).toNat] with ⟨a, h⟩
  refine ⟨a, h, ?_⟩
  rw [entryOf, if_pos hlow, List.getElem?_eq_getElem hidx, hg]

/-- A patch from `prev` to `new`: the entry of `new`, all those in between being removed. -/
structure PatchOf (G : Entries) (prev new : Int) (action : Action) (header : Header) : Prop where
  lt : prev < new
  entry : entryOf G new = some (action, header)
  between : ∀ w, prev < w → w < new → 1 ≤ w → RemovedIn G w

theorem PatchOf.snoc {G : Entries} {prev new : Int} {action : Action} {header : Header}
    (h : PatchOf G prev new action header) (e : Action × Header) :
    PatchOf (G ++ [e]) prev new action header :=
  ⟨h.lt, entryOf_snoc h.entry, fun w hlo hhi hw => removedIn_snoc.2 (.inl (h.between w hlo hhi hw))⟩

/-! ## The mdir of the entries -/

section Logs

variable [Host] {maxJnlSize : Nat} {m : Mdir} {G : Entries}

omit [Host] in
/-- The mdir has these entries. -/
def Logs (maxJnlSize : Nat) (m : Mdir) (G : Entries) : Prop :=
  ∃ A, Refines maxJnlSize m A ∧ m.disk.power = none ∧ HoldsEntries (records A) G ∧ PlainEntries G

omit [Host] in
theorem Logs.plain (h : Logs maxJnlSize m G) : PlainEntries G := by
  rcases h with ⟨A, -, -, -, hG⟩
  exact hG

omit [Host] in
theorem logs_new (maxJnlSize : Nat) (path : Bytes) : Logs maxJnlSize (Mdir.new path) [] := by
  refine ⟨[], refines_new maxJnlSize path, rfl, ⟨rfl, ?_⟩, ⟨by simp, ?_⟩⟩
  · intro i a h hi
    simp at hi
  · intro i h hi
    simp at hi

omit [Host] in
theorem Logs.lastVersion (h : Logs maxJnlSize m G) : mdirLastVersion m = G.length := by
  rcases h with ⟨A, href, -, hold, -⟩
  have hlen := hold.length
  rw [records_length] at hlen
  rw [href.lastVersion, hlen]

omit [Host] in
theorem Logs.length_lt (h : Logs maxJnlSize m G) : G.length + 1 < 2 ^ 63 := by
  rcases h with ⟨A, ⟨ps, hrep, rfl⟩, -, hold, -⟩
  have hlen := hold.length
  rw [records_length] at hlen
  rw [← hlen]
  exact hrep.length_lt

/-- A plain patch is refused, or it is the next entry. -/
theorem Logs.patch (hmax : maxJnlSize < 2 ^ 32) (h : Logs maxJnlSize m G) {sys : Sys}
    {action : Action} {header : Header} (hp : ReadableHeader header)
    (hroom : RoomFor sys m action header 0) :
    ((mdirPatch sys maxJnlSize m action header 0).result.toOption = none ∧
      Logs maxJnlSize (mdirPatch sys maxJnlSize m action header 0).mdir G) ∨
    ((mdirPatch sys maxJnlSize m action header 0).result = .ok (mdirLastVersion m + 1) ∧
      Logs maxJnlSize (mdirPatch sys maxJnlSize m action header 0).mdir (G ++ [(action, header)])) := by
  have hlast := h.lastVersion
  rcases h with ⟨A, href, hpow, hold, hG⟩
  rcases href.callOf hmax hpow hroom (.inr (hp.not_marksWritten sys m action 0)) with
    ⟨href', hres, -, hpow', -⟩
  have hlen := hold.length
  rw [records_length] at hlen
  rcases hold.storePatch sys m.path hG action hp with ⟨hnone, hold'⟩ | ⟨hsome, hold', hG'⟩
  · exact .inl ⟨hres.trans hnone, _, href', hpow', hold', hG⟩
  · refine .inr ⟨?_, _, href', hpow', hold', hG'⟩
    rw [hsome] at hres
    rw [eq_ok_of_toOption hres, hlast, ← hlen]
    rfl

/-- What `mdir_read` gives of an entry. -/
theorem Logs.read (hmax : maxJnlSize < 2 ^ 32) (h : Logs maxJnlSize m G) {v : Int} {a : Action}
    {hd : Header} (he : entryOf G v = some (a, hd)) :
    (RemovedIn G v → mdirRead m v = .ok (.add, none)) ∧
    (¬ RemovedIn G v → mdirRead m v = .ok (a, some hd)) := by
  rcases h with ⟨A, href, -, hold, hG⟩
  rcases entryOf_eq_some.1 he with ⟨n, rfl, hn⟩
  rcases hold.entry n a hd hn with ⟨r, hr, hdel, -⟩
  refine ⟨fun hrem => ?_, fun hkeep => ?_⟩
  · refine eq_ok_of_toOption ?_
    rw [href.mdirRead hmax hr, readRecord_of_isDeleted (hdel hrem)]
  · refine eq_ok_of_toOption ?_
    rw [href.mdirRead hmax hr, hold.readRecord hG hr hn hkeep]

/-- Only entries can be read, those that are not removed with their header. -/
theorem Logs.read_inv (hmax : maxJnlSize < 2 ^ 32) (h : Logs maxJnlSize m G) {v : Int} {a : Action}
    {o : Option Header} (hread : mdirRead m v = .ok (a, o)) :
    1 ≤ v ∧ v ≤ G.length ∧ (o = none ↔ RemovedIn G v) ∧
      ∀ hd, o = some hd → entryOf G v = some (a, hd) := by
  have hrange : 1 ≤ v ∧ v ≤ G.length := by
    rcases h with ⟨A, href, -, hold, -⟩
    have hlen := hold.length
    rw [records_length] at hlen
    by_contra hout
    rw [mdirRead, jnlGetByVersion, href.find_none (by omega)] at hread
    cases hread
  rcases exists_entryOf hrange.1 hrange.2 with ⟨a', hd', he⟩
  rcases h.read hmax he with ⟨hdel, hkeep⟩
  by_cases hrem : RemovedIn G v
  · rw [hdel hrem] at hread
    cases hread
    exact ⟨hrange.1, hrange.2, by simp [hrem], by simp⟩
  · rw [hkeep hrem] at hread
    cases hread
    refine ⟨hrange.1, hrange.2, by simp [hrem], ?_⟩
    intro hd hhd
    cases hhd
    exact he

/-- The next patch after a version is that of the first entry that is not removed. -/
theorem Logs.readNext (hmax : maxJnlSize < 2 ^ 32) (h : Logs maxJnlSize m G) {v : Int}
    (hlt : v < G.length) (hpos : 1 ≤ G.length) :
    ∃ next action header, mdirReadNext m v = .ok (some (next, action, header)) ∧
      PatchOf G v next action header ∧ ¬ RemovedIn G next := by
  classical
  rcases h with ⟨A, href, -, hold, hG⟩
  -- the last entry is not removed: there is a first one
  have hex : ∃ k, v.toNat ≤ k ∧ k < G.length ∧ ¬ RemovedIn G ((1 + k : Nat) : Int) :=
    ⟨G.length - 1, by omega, by omega, hG.not_removed_last⟩
  rcases Nat.find_spec hex with ⟨hlow, hhigh, hkeep⟩
  have hmin : ∀ i, v.toNat ≤ i → i < Nat.find hex → RemovedIn G ((1 + i : Nat) : Int) := by
    intro i hi hik
    by_contra hnot
    exact Nat.find_min hex hik ⟨hi, by omega, hnot⟩
  rcases hg : G[Nat.find hex] with ⟨action, header⟩
  have hget : G[Nat.find hex]? = some (action, header) := by rw [List.getElem?_eq_getElem hhigh, hg]
  rcases hold.entry _ action header hget with ⟨r, hr, -, -⟩
  have hdel : ∀ i, v.toNat ≤ i → i < Nat.find hex → ∃ r, (records A)[i]? = some r ∧ IsDeleted r := by
    intro i hi hik
    have hig : i < G.length := by omega
    rcases hgi : G[i] with ⟨a, hd⟩
    rcases hold.entry i a hd (by rw [List.getElem?_eq_getElem hig, hgi]) with ⟨r, hr, hd, -⟩
    exact ⟨r, hr, hd (hmin i hi hik)⟩
  refine ⟨((1 + Nat.find hex : Nat) : Int), action, header, ?_, ⟨by omega, ?_, ?_⟩, hkeep⟩
  · exact href.mdirReadNext hmax hr (hold.readRecord hG hr hget hkeep) hlow hdel (by omega)
  · rw [entryOf_succ, hget]
  · intro w hlo hhi hw
    have hcast : w = ((1 + (w - 1).toNat : Nat) : Int) := by omega
    rw [hcast]
    exact hmin _ (by omega) (by omega)

theorem Logs.readNext_empty (h : Logs maxJnlSize m G) (hG : G.length = 0) (v : Int)
    (x : Int × Action × Header) : mdirReadNext m v ≠ .ok (some x) := by
  rcases h with ⟨A, href, -, hold, -⟩
  have hlen := hold.length
  rw [records_length, hG] at hlen
  rw [List.length_eq_zero_iff.1 hlen] at href
  exact href.mdirReadNext_empty v x

/-! ## Runs -/

omit [Host] in
/-- Plain patches without blanks. -/
def plainEntry (_ : Sys) (_ : Mdir) (_ : Action) (header : Header) (nbDeleted : Nat) : Prop :=
  ReadableHeader header ∧ nbDeleted = 0

theorem Run.logs (hmax : maxJnlSize < 2 ^ 32) {calls : List Call}
    (h : Run maxJnlSize plainEntry noCrash m calls) : ∃ G, Logs maxJnlSize m G := by
  have hinv := Run.invariant (P := fun A _ => ∃ G, HoldsEntries (records A) G ∧ PlainEntries G) hmax
    (fun hp => .inr (hp.1.not_marksWritten _ _ _ _)) (fun hc => hc.elim) ?_ ?_ (fun hc => hc.elim) h
  · rcases hinv with ⟨A, href, hpow, G, hold, hG⟩
    exact ⟨G, A, href, hpow, hold, hG⟩
  · rcases logs_new maxJnlSize [] with ⟨-, -, -, -, hG⟩
    exact ⟨[], ⟨rfl, by simp⟩, hG⟩
  · rintro m A calls sys action header nb - - ⟨G, hold, hG⟩ ⟨hp, rfl⟩ -
    rcases hold.storePatch sys m.path hG action hp with ⟨-, hold'⟩ | ⟨-, hold', hG'⟩
    · exact ⟨G, hold', hG⟩
    · exact ⟨_, hold', hG'⟩

end Logs

end Scambio
