import Scambio.Lib.Error

/-!
# Fragments — what was received of a transfer (`lib/channel.c`)

A receiver keeps the fragments that it got in a list ordered by offset.  `check_in_frags` goes through
this list, asks again for what is missing since long, and merges the other fragments with the one
before them.

- `Sound` says that the fragments hold nothing but what was received;
- `checkInFrags_sound` keeps it as long as no fragment is merged over a hole (`NoHole`).
-/

namespace Scambio

open Library

def RETRANSM_TIMEOUT : Nat := 2000000

/-- A value stored in an `off_t`. -/
def offT (v : Int) : Int :=
  Int.bmod v (2 ^ 64)

/-- `struct fragment`.  Only emitted fragments have a box. -/
structure Fragment where
  ts : Nat
  box : Option Bytes
  start : Int
  endAt : Int
  eof : Bool
  deriving DecidableEq, Repr

def insertByOffset (f : Fragment) : List Fragment → List Fragment
  | [] => [f]
  | ff :: q => if f.start < ff.start then f :: ff :: q else ff :: insertByOffset f q

def wasLongAgo (ts now : Nat) : Bool :=
  (ts + RETRANSM_TIMEOUT) % 2 ^ 64 < now

/-- What `ask_retransmit` writes. -/
def askRetransmit (id offset : Int) (size : Nat) : Bytes :=
  ascii "miss " ++ decimal (id % 2 ^ 64).toNat ++ ascii " " ++ decimal (offset % 2 ^ 32).toNat ++
    ascii " " ++ decimal size ++ ascii "\n"

/-- A copy command, once parsed. -/
structure Copy where
  seq : Int
  id : Int
  offset : Int
  size : Nat
  eof : Bool
  -- the offset comes from a 64-bit integer
  offset_ge : -2 ^ 63 ≤ offset
  deriving DecidableEq, Repr

/-- Where the data of a command ends, as `in_frag_ctor` has it. -/
def Copy.endAt (c : Copy) : Int :=
  offT (c.offset + c.size)

/-- The fragment that `in_frag_ctor` makes of a command. -/
def inFrag (ts : Nat) (c : Copy) : Fragment :=
  { ts := ts, box := none, start := c.offset, endAt := c.endAt, eof := c.eof }

/-- What `check_in_frags` leaves: the fragments, what it asked for, and whether all the writes
succeeded. -/
structure Checked where
  frags : List Fragment
  asked : List Bytes
  ok : Bool
  deriving DecidableEq, Repr

/-- `last_frag->end = f->end`, if that is later. -/
def mergeFrag (last f : Fragment) : Fragment :=
  if f.endAt ≥ last.endAt then { last with endAt := f.endAt, eof := f.eof } else last

/-- The loop of `check_in_frags` and the check of `last_frag` after it.  The first `writes` writes
succeed, then the connection fails. -/
def checkLoop (id : Int) (now : Nat) : Nat → Option Fragment → Int → List Fragment → Checked
  | _, none, _, [] => ⟨[], [], true⟩
  | writes, some last, _, [] =>
      -- the end is not there yet: one byte behind the last fragment is asked for
      if !last.eof && wasLongAgo last.ts now then
        match writes with
        | 0 => ⟨[last], [], false⟩
        | _ + 1 => ⟨[{ last with ts := now }], [askRetransmit id last.endAt 1], true⟩
      else ⟨[last], [], true⟩
  | writes, last, lastEnd, f :: q =>
      -- a hole before `f`: it is asked for, and `f` stays on its own
      if lastEnd < f.start ∧ wasLongAgo f.ts now then
        match writes with
        | 0 => ⟨last.toList ++ f :: q, [], false⟩
        | writes + 1 =>
            let r := checkLoop id now writes (some { f with ts := now }) f.endAt q
            ⟨last.toList ++ r.frags, askRetransmit id lastEnd (f.start - lastEnd).toNat :: r.asked,
              r.ok⟩
      else
        match last with
        | some last =>
            -- without a hole, or with one that is too recent, the fragments become one
            let last := mergeFrag last f
            checkLoop id now writes (some last) last.endAt q
        | none => checkLoop id now writes (some f) f.endAt q

/-! ## Nothing but what was received -/

/-- Byte `b` came with one of the commands. -/
def Carried (received : List Copy) (b : Int) : Prop :=
  ∃ c ∈ received, c.offset ≤ b ∧ b < c.offset + c.size

/-- All the bytes of a fragment came, and so did the end of file that it announces. -/
structure Backed (received : List Copy) (f : Fragment) : Prop where
  bytes : ∀ b, f.start ≤ b → b < f.endAt → Carried received b
  eof : f.eof = true → ∃ c ∈ received, c.eof = true ∧ c.endAt = f.endAt

def Ordered (frags : List Fragment) : Prop :=
  frags.Pairwise fun f g => f.start ≤ g.start

/-- The fragments hold nothing but what was received, by offset. -/
structure Sound (received : List Copy) (frags : List Fragment) : Prop where
  backed : ∀ f ∈ frags, Backed received f
  ordered : Ordered frags

/-- A fragment that starts behind the end of all those before it is old enough for
`check_in_frags` to ask for the hole. -/
def NoHole (frags : List Fragment) (now : Nat) : Prop :=
  ∀ before f after, frags = before ++ f :: after → before ≠ [] → (∀ g ∈ before, g.endAt < f.start) →
    wasLongAgo f.ts now = true

theorem Carried.mono {received received' : List Copy} (hsub : received ⊆ received') {b : Int}
    (h : Carried received b) : Carried received' b := by
  rcases h with ⟨c, hc, hb⟩
  exact ⟨c, hsub hc, hb⟩

theorem Backed.mono {received received' : List Copy} (hsub : received ⊆ received') {f : Fragment}
    (h : Backed received f) : Backed received' f := by
  refine ⟨fun b hlow hhigh => (h.bytes b hlow hhigh).mono hsub, fun heof => ?_⟩
  rcases h.eof heof with ⟨c, hc, hce⟩
  exact ⟨c, hsub hc, hce⟩

theorem Backed.setTs {received : List Copy} {f : Fragment} (h : Backed received f) (now : Nat) :
    Backed received { f with ts := now } :=
  ⟨h.bytes, h.eof⟩

/-- An offset of a file is stored as it is. -/
theorem offT_of_fits {v : Int} (hlow : -2 ^ 63 ≤ v) (hhigh : v < 2 ^ 63) : offT v = v :=
  Int.bmod_eq_of_le (by omega) (by omega)

theorem offT_le {v : Int} (h : -2 ^ 63 ≤ v) : offT v ≤ v := by
  rw [offT, Int.bmod_def]
  split <;> omega

theorem backed_inFrag {received : List Copy} {c : Copy} (hc : c ∈ received) (ts : Nat) :
    Backed received (inFrag ts c) := by
  refine ⟨fun b hlow hhigh => ⟨c, hc, hlow, ?_⟩, fun heof => ⟨c, hc, heof, rfl⟩⟩
  have hge := c.offset_ge
  have hle : c.endAt ≤ c.offset + c.size := offT_le (by omega)
  have hlt : b < c.endAt := hhigh
  omega

/-- Two fragments without any hole between them. -/
theorem Backed.merge {received : List Copy} {g f : Fragment} (hg : Backed received g)
    (hf : Backed received f) (htouch : f.start ≤ g.endAt) : Backed received (mergeFrag g f) := by
  unfold mergeFrag
  split
  · refine ⟨fun b hlow hhigh => ?_, hf.eof⟩
    by_cases hb : b < g.endAt
    · exact hg.bytes b hlow hb
    · exact hf.bytes b (by omega) hhigh
  · exact hg

@[simp] theorem mergeFrag_start (g f : Fragment) : (mergeFrag g f).start = g.start := by
  unfold mergeFrag
  split <;> rfl

theorem le_end_mergeFrag (g f : Fragment) :
    g.endAt ≤ (mergeFrag g f).endAt ∧ f.endAt ≤ (mergeFrag g f).endAt := by
  unfold mergeFrag
  split
  · exact ⟨by simpa using ‹f.endAt ≥ g.endAt›, le_rfl⟩
  · exact ⟨le_rfl, by omega⟩

theorem mem_insertByOffset {f g : Fragment} {q : List Fragment} :
    g ∈ insertByOffset f q ↔ g = f ∨ g ∈ q := by
  induction q with
  | nil => simp [insertByOffset]
  | cons ff q ih =>
      unfold insertByOffset
      split
      · simp
      · simp only [List.mem_cons, ih]
        tauto

theorem Ordered.insert {q : List Fragment} (h : Ordered q) (f : Fragment) :
    Ordered (insertByOffset f q) := by
  induction q with
  | nil => exact List.pairwise_singleton _ _
  | cons ff q ih =>
      rcases List.pairwise_cons.1 h with ⟨hhead, htail⟩
      unfold insertByOffset
      split
      · next hlt =>
        refine List.pairwise_cons.2 ⟨fun g hg => ?_, h⟩
        rcases List.mem_cons.1 hg with rfl | hg
        · omega
        · have := hhead g hg
          omega
      · next hge =>
        refine List.pairwise_cons.2 ⟨fun g hg => ?_, ih htail⟩
        rcases mem_insertByOffset.1 hg with rfl | hg
        · omega
        · exact hhead g hg

theorem Sound.insert {received : List Copy} {frags : List Fragment} (h : Sound received frags)
    (c : Copy) (ts : Nat) : Sound (received ++ [c]) (insertByOffset (inFrag ts c) frags) := by
  refine ⟨fun f hf => ?_, h.ordered.insert _⟩
  rcases mem_insertByOffset.1 hf with rfl | hf
  · exact backed_inFrag (by simp) ts
  · exact (h.backed f hf).mono (List.subset_append_left _ _)

theorem Sound.setTs {received : List Copy} {f : Fragment} {frags : List Fragment}
    (h : Sound received (f :: frags)) (now : Nat) : Sound received ({ f with ts := now } :: frags) := by
  refine ⟨fun g hg => ?_, List.pairwise_cons.2 (List.pairwise_cons.1 h.ordered)⟩
  rcases List.mem_cons.1 hg with rfl | hg
  · exact (h.backed f List.mem_cons_self).setTs now
  · exact h.backed g (List.mem_cons_of_mem _ hg)

theorem Sound.tail {received : List Copy} {f : Fragment} {frags : List Fragment}
    (h : Sound received (f :: frags)) : Sound received frags :=
  ⟨fun g hg => h.backed g (List.mem_cons_of_mem _ hg), (List.pairwise_cons.1 h.ordered).2⟩

/-! ## The check -/

/-- The holes behind the last fragment kept, `last`. -/
def NoHoleFrom (last : Fragment) (now : Nat) (frags : List Fragment) : Prop :=
  ∀ before f after, frags = before ++ f :: after → last.endAt < f.start →
    (∀ g ∈ before, g.endAt < f.start) → wasLongAgo f.ts now = true

theorem NoHole.from {f : Fragment} {frags : List Fragment} {now : Nat}
    (h : NoHole (f :: frags) now) : NoHoleFrom f now frags := by
  intro before g after heq hlast hbefore
  refine h (f :: before) g after (by rw [heq]; rfl) (List.cons_ne_nil _ _) fun x hx => ?_
  rcases List.mem_cons.1 hx with rfl | hx
  · exact hlast
  · exact hbefore x hx

/-- The next fragment is passed: what follows is behind a later end. -/
theorem NoHoleFrom.tail {last f last' : Fragment} {frags : List Fragment} {now : Nat}
    (h : NoHoleFrom last now (f :: frags))
    (hnext : ∀ g ∈ frags, last'.endAt < g.start → last.endAt < g.start ∧ f.endAt < g.start) :
    NoHoleFrom last' now frags := by
  intro before g after heq hlast hbefore
  have hends := hnext g (by rw [heq]; simp) hlast
  refine h (f :: before) g after (by rw [heq]; rfl) hends.1 fun x hx => ?_
  rcases List.mem_cons.1 hx with rfl | hx
  · exact hends.2
  · exact hbefore x hx

/-- One turn of the loop. -/
theorem checkLoop_cons (id : Int) (now writes : Nat) (last : Option Fragment) (lastEnd : Int)
    (f : Fragment) (q : List Fragment) :
    checkLoop id now writes last lastEnd (f :: q) =
      if lastEnd < f.start ∧ wasLongAgo f.ts now then
        match writes with
        | 0 => ⟨last.toList ++ f :: q, [], false⟩
        | writes + 1 =>
            let r := checkLoop id now writes (some { f with ts := now }) f.endAt q
            ⟨last.toList ++ r.frags, askRetransmit id lastEnd (f.start - lastEnd).toNat :: r.asked,
              r.ok⟩
      else
        match last with
        | some last => checkLoop id now writes (some (mergeFrag last f)) (mergeFrag last f).endAt q
        | none => checkLoop id now writes (some f) f.endAt q := by
  cases last <;> cases writes <;> rfl

/-- The loop, once it has passed a fragment. -/
theorem checkLoop_sound {received : List Copy} (id : Int) {now : Nat} (writes : Nat)
    {last : Fragment} {frags : List Fragment} (hsound : Sound received (last :: frags))
    (hhole : NoHoleFrom last now frags) :
    Sound received (checkLoop id now writes (some last) last.endAt frags).frags ∧
      ∀ f ∈ (checkLoop id now writes (some last) last.endAt frags).frags, last.start ≤ f.start := by
  induction frags generalizing writes last with
  | nil =>
      unfold checkLoop
      split
      · cases writes with
        | zero => exact ⟨hsound, by simp⟩
        | succ writes => exact ⟨hsound.setTs now, by simp⟩
      · exact ⟨hsound, by simp⟩
  | cons f frags ih =>
      have hlast := hsound.backed last List.mem_cons_self
      have hf := hsound.backed f (by simp)
      rcases List.pairwise_cons.1 hsound.ordered with ⟨hfirst, hrest⟩
      rcases List.pairwise_cons.1 hrest with ⟨hsecond, hothers⟩
      have hle : last.start ≤ f.start := hfirst f List.mem_cons_self
      by_cases hgap : last.endAt < f.start ∧ wasLongAgo f.ts now = true
      · -- the hole is asked for, the fragment stays
        have hafter : NoHoleFrom { f with ts := now } now frags := by
          refine hhole.tail fun g hg hlt => ⟨?_, hlt⟩
          have := hsecond g hg
          omega
        cases writes with
        | zero =>
            rw [checkLoop_cons, if_pos hgap]
            refine ⟨hsound, fun g hg => ?_⟩
            rcases List.mem_cons.1 hg with rfl | hg
            · exact le_rfl
            · exact hfirst g hg
        | succ writes =>
            rw [checkLoop_cons, if_pos hgap]
            rcases ih writes (hsound.tail.setTs now) hafter with ⟨hs, hstart⟩
            have hbehind : ∀ g ∈ (checkLoop id now writes (some { f with ts := now }) f.endAt
                frags).frags, last.start ≤ g.start := by
              intro g hg
              exact hle.trans (hstart g hg)
            refine ⟨⟨fun g hg => ?_, List.pairwise_cons.2 ⟨hbehind, hs.ordered⟩⟩, fun g hg => ?_⟩
            · rcases List.mem_cons.1 hg with rfl | hg
              · exact hlast
              · exact hs.backed g hg
            · rcases List.mem_cons.1 hg with rfl | hg
              · exact le_rfl
              · exact hbehind g hg
      · -- the fragment is merged, and there is no hole before it
        have htouch : f.start ≤ last.endAt := by
          by_contra hlt
          exact hgap ⟨by omega, hhole [] f frags rfl (by omega) (by simp)⟩
        have hmerged : Sound received (mergeFrag last f :: frags) := by
          refine ⟨fun g hg => ?_, List.pairwise_cons.2 ⟨fun g hg => ?_, hothers⟩⟩
          · rcases List.mem_cons.1 hg with rfl | hg
            · exact hlast.merge hf htouch
            · exact hsound.backed g (by simp [hg])
          · rw [mergeFrag_start]
            exact hfirst g (by simp [hg])
        have hends := le_end_mergeFrag last f
        have hafter : NoHoleFrom (mergeFrag last f) now frags := by
          refine hhole.tail fun g hg hlt => ?_
          omega
        have hloop := ih writes hmerged hafter
        rw [mergeFrag_start] at hloop
        rw [checkLoop_cons, if_neg hgap]
        exact hloop

/-- `check_in_frags` merges what it has received, as long as it merges nothing over a hole. -/
theorem checkLoop_start_sound {received : List Copy} (id : Int) {now : Nat} (writes : Nat)
    {frags : List Fragment} (hsound : Sound received frags) (hhole : NoHole frags now) :
    Sound received (checkLoop id now writes none 0 frags).frags := by
  cases frags with
  | nil => exact hsound
  | cons f frags =>
      rw [checkLoop_cons]
      by_cases hgap : 0 < f.start ∧ wasLongAgo f.ts now = true
      · rw [if_pos hgap]
        cases writes with
        | zero => exact hsound
        | succ writes => exact (checkLoop_sound id writes (hsound.setTs now) hhole.from).1
      · rw [if_neg hgap]
        exact (checkLoop_sound id writes hsound hhole.from).1

end Scambio
