import Scambio.Lib.Sender

/-!
# Retransmit — what a sender sends again (`lib/channel.c`)

The misses of a peer wait in `in_frags`; `retransmit_missed` looks for the first sent fragment that has something of
the first miss, sends a chunk of it from the start of the miss on, and goes on with what is left of the miss.

* With no such fragment it does nothing, and looks for it again.
* A miss may start before the oldest fragment that is kept; the chunk is then read from before its box.
* The offset that is sent with a chunk is an `unsigned`.

- `SenderQueues.write`: the queues that `chn_tx_write` leaves.
- `retransmitMissed_of_answerable`: the loop ends when none of this happens.
- `retransmits_iff`: that it does what it is for exactly then.
-/

namespace Scambio

open Library

/-! ## The loop -/

/-- A byte is read that is not in the box. -/
inductive BoxFault
  | outOfBox
  deriving DecidableEq, Repr

/-- `send_chunk`, as long as it reads in the box. -/
def sendFromBox (id : Int) (f : Fragment) (offset : Int) : Except BoxFault Chunk :=
  let c := sendChunk id f offset
  match f.box with
  | none => .ok c
  | some box => if f.start ≤ offset ∧ offset - f.start + c.sent ≤ box.length then .ok c else .error .outOfBox

def fragmentSize (f : Fragment) : Nat :=
  ((f.endAt - f.start) % 2 ^ 64).toNat

/-- The fragments that the search for a miss does not pass over. -/
def overlaps (miss f : Fragment) : Bool :=
  !(decide (miss.endAt ≤ f.start) || decide (miss.start ≥ f.endAt))

/-- A call of `send_chunk`: the fragment, the offset and what is sent. -/
structure SentChunk where
  frag : Fragment
  offset : Int
  chunk : Chunk
  deriving DecidableEq, Repr

/-- What is left in the queue when a chunk for the first miss was sent. -/
def afterSent (miss : Fragment) (misses : List Fragment) (sent : Nat) : List Fragment :=
  if sent ≥ fragmentSize miss then misses
  else { miss with start := offT (miss.start + sent) } :: misses

/-- A turn of the loop of `retransmit_missed`. -/
def retransmitMiss (tx : ChnTx) (miss : Fragment) (misses : List Fragment) :
    Except BoxFault (List SentChunk × ChnTx) :=
  match tx.outFrags.find? (overlaps miss) with
  -- `TAILQ_FOREACH` ends, and the loop takes the same miss again
  | none => .ok ([], tx)
  | some f =>
      match sendFromBox tx.id f miss.start with
      | .error e => .error e
      | .ok c => .ok ([⟨f, miss.start, c⟩], { tx with inFrags := afterSent miss misses c.sent })

/-- The loop of `retransmit_missed`, with `n` turns at most. -/
def retransmitMissed : Nat → ChnTx → Except BoxFault (List SentChunk × ChnTx)
  | 0, tx => .ok ([], tx)
  | n + 1, tx =>
      match tx.inFrags with
      | [] => .ok ([], tx)
      | miss :: misses =>
          match retransmitMiss tx miss misses with
          | .error e => .error e
          | .ok (sent, tx) =>
              match retransmitMissed n tx with
              | .error e => .error e
              | .ok (more, tx) => .ok (sent ++ more, tx)

/-! ## What it is for -/

/-- The bytes of a chunk are in the box, and they are those of the offset that is sent with it. -/
def SentChunk.InBox (s : SentChunk) : Prop :=
  ∀ box, s.frag.box = some box →
    s.frag.start ≤ s.offset ∧ s.offset - s.frag.start + s.chunk.sent ≤ box.length ∧
      s.chunk.data = slice box (s.offset - s.frag.start).toNat s.chunk.sent ∧ (s.chunk.offset : Int) = s.offset

/-- The loop comes to an end with all misses answered: every missed byte that is in a box was sent. -/
def Retransmits (tx : ChnTx) : Prop :=
  ∃ n sent tx', retransmitMissed n tx = .ok (sent, tx') ∧ tx'.inFrags = [] ∧ (∀ s ∈ sent, s.InBox) ∧
    ∀ miss ∈ tx.inFrags, ∀ f ∈ tx.outFrags, f.box ≠ none → ∀ p, miss.start ≤ p → p < miss.endAt →
      f.start ≤ p → p < f.endAt → ∃ s ∈ sent, s.frag = f ∧ s.offset ≤ p ∧ p < s.offset + s.chunk.sent

/-! ## The queues -/

/-- Fragments that follow each other from an offset to another, each with a box of its size or none. -/
def Contiguous : Int → List Fragment → Int → Prop
  | first, [], last => first = last
  | first, f :: q, last =>
      f.start = first ∧ first ≤ f.endAt ∧ (∀ box, f.box = some box → (box.length : Int) = f.endAt - f.start) ∧
        Contiguous f.endAt q last

/-- The queues of a sender: the fragments from `oldest` on, and misses that a peer may announce. -/
structure SenderQueues (oldest : Int) (tx : ChnTx) : Prop where
  contiguous : Contiguous oldest tx.outFrags tx.endOffset
  oldest_nonneg : 0 ≤ oldest
  endOffset_lt : tx.endOffset < 2 ^ 63
  misses : ∀ miss ∈ tx.inFrags, -2 ^ 63 ≤ miss.start ∧ miss.start < miss.endAt ∧ miss.endAt < 2 ^ 63

/-- The first missed byte of a fragment, and the end of those. -/
def missedFrom (miss f : Fragment) : Int := max miss.start f.start

def missedTo (miss f : Fragment) : Int := min miss.endAt f.endAt

/-- The last chunk of a fragment that is sent for a miss has an offset that fits in an `unsigned`. -/
def ShortOffsets (miss f : Fragment) : Prop :=
  missedFrom miss f < missedTo miss f →
    missedFrom miss f + (missedTo miss f - 1 - missedFrom miss f) / CHUNK_SIZE * CHUNK_SIZE < 2 ^ 32

/-- A miss that ends with the newest fragment or before, and starts with the oldest or later; or the oldest has a
part of it and no box. -/
structure Answerable (first : Int) (q : List Fragment) (last : Int) (miss : Fragment) : Prop where
  ends : miss.endAt ≤ last
  starts : first ≤ miss.start ∨ first < miss.endAt ∧ ∃ f q', q = f :: q' ∧ f.box = none
  short : ∀ f ∈ q, f.box ≠ none → ShortOffsets miss f

/-! ## The search -/

theorem Contiguous.mem {q : List Fragment} {first last : Int} (h : Contiguous first q last) :
    first ≤ last ∧ ∀ f ∈ q, first ≤ f.start ∧ f.start ≤ f.endAt ∧ f.endAt ≤ last ∧
      ∀ box, f.box = some box → (box.length : Int) = f.endAt - f.start := by
  induction q generalizing first with
  | nil =>
      have heq : first = last := h
      exact ⟨heq.le, fun f hf => absurd hf List.not_mem_nil⟩
  | cons g q ih =>
      rcases h with ⟨hstart, hend, hbox, hrest⟩
      rcases ih hrest with ⟨hlast, hothers⟩
      refine ⟨by omega, fun f hf => ?_⟩
      rcases List.mem_cons.1 hf with rfl | hf
      · exact ⟨hstart.ge, by omega, hlast, hbox⟩
      · rcases hothers f hf with ⟨hfirst, hothers⟩
        exact ⟨by omega, hothers⟩

/-- The fragment that is found for a miss, in a queue from `first` on: where it starts behind the miss, it is the
oldest.  The others are before the miss or behind the fragment. -/
structure Found (first : Int) (q : List Fragment) (miss f : Fragment) : Prop where
  mem : f ∈ q
  start_lt : miss.start < f.endAt
  lt_end : f.start < miss.endAt
  oldest : f.start ≤ miss.start ∨ f.start = first ∧ ∃ q', q = f :: q'
  others : ∀ g ∈ q, g.endAt ≤ miss.start ∨ g = f ∨ f.endAt ≤ g.start

theorem overlaps_iff {miss f : Fragment} : overlaps miss f = true ↔ f.start < miss.endAt ∧ miss.start < f.endAt := by
  unfold overlaps
  simp only [Bool.not_eq_true', Bool.or_eq_false_iff, decide_eq_false_iff_not, not_le]

theorem found {q : List Fragment} {first last : Int} {miss f : Fragment} (h : Contiguous first q last)
    (hfind : q.find? (overlaps miss) = some f) : Found first q miss f := by
  induction q generalizing first with
  | nil => cases hfind
  | cons g q ih =>
      have hfirst : g.start = first := h.1
      have hafter := h.2.2.2.mem
      by_cases hover : overlaps miss g = true
      · rw [List.find?_cons_of_pos hover] at hfind
        cases hfind
        rcases overlaps_iff.1 hover with ⟨hend, hstart⟩
        -- the oldest is the first one that is looked at
        refine ⟨List.mem_cons_self, hstart, hend, .inr ⟨hfirst, q, rfl⟩, fun g' hg' => ?_⟩
        rcases List.mem_cons.1 hg' with rfl | hg'
        · exact .inr (.inl rfl)
        · exact .inr (.inr (hafter.2 g' hg').1)
      · rw [List.find?_cons_of_neg hover] at hfind
        have hfound := ih h.2.2.2 hfind
        have hbehind := (hafter.2 f hfound.mem).1
        -- the fragment found is behind this one, which so ends before the miss
        have hbefore : g.endAt ≤ miss.start := by
          by_contra hlt
          have hle := h.2.1
          have hend := hfound.lt_end
          exact hover (overlaps_iff.2 ⟨by omega, by omega⟩)
        refine ⟨List.mem_cons_of_mem _ hfound.mem, hfound.start_lt, hfound.lt_end, .inl ?_, fun g' hg' => ?_⟩
        · rcases hfound.oldest with hle | ⟨heq, -⟩
          · exact hle
          · exact heq.trans_le hbefore
        · rcases List.mem_cons.1 hg' with rfl | hg'
          · exact .inl hbefore
          · exact hfound.others g' hg'

/-- There is a fragment for a miss that starts before the end of the queue. -/
theorem find_isSome {q : List Fragment} {first last : Int} {miss : Fragment} (h : Contiguous first q last)
    (hlt : miss.start < miss.endAt) (hlast : miss.start < last)
    (hstart : first ≤ miss.start ∨ first < miss.endAt ∧ q ≠ []) : ∃ f, q.find? (overlaps miss) = some f := by
  induction q generalizing first with
  | nil =>
      have heq : first = last := h
      rcases hstart with hle | ⟨-, hne⟩
      · omega
      · exact absurd rfl hne
  | cons g q ih =>
      have hfirst : g.start = first := h.1
      by_cases hover : overlaps miss g = true
      · exact ⟨g, List.find?_cons_of_pos hover⟩
      · rw [List.find?_cons_of_neg hover]
        -- the fragment ends before the miss, and the next one starts there
        refine ih h.2.2.2 (.inl ?_)
        by_contra hbefore
        exact hover (overlaps_iff.2 ⟨by omega, by omega⟩)

/-! ## Writing -/

theorem Contiguous.append {q : List Fragment} {first last : Int} {f : Fragment} (h : Contiguous first q last)
    (hf : Contiguous last [f] f.endAt) : Contiguous first (q ++ [f]) f.endAt := by
  induction q generalizing first with
  | nil =>
      have heq : first = last := h
      exact heq ▸ hf
  | cons g q ih => exact ⟨h.1, h.2.1, h.2.2.1, ih h.2.2.2⟩

/-- The oldest fragments time out. -/
theorem Contiguous.timeout {q : List Fragment} {first last : Int} (h : Contiguous first q last) (now timeout : Nat) :
    ∃ first', first ≤ first' ∧ Contiguous first' (timeoutFragments q now timeout) last := by
  induction q generalizing first with
  | nil => exact ⟨first, Int.le_refl _, h⟩
  | cons f q ih =>
      unfold timeoutFragments
      rw [List.dropWhile_cons]
      split_ifs with htimeout
      · rcases ih h.2.2.2 with ⟨first', hle, hq⟩
        exact ⟨first', h.2.1.trans hle, hq⟩
      · exact ⟨first, Int.le_refl _, h⟩

/-- `chn_tx_write` leaves such queues, of which the oldest fragments may have timed out. -/
theorem SenderQueues.write {oldest : Int} {tx : ChnTx} (hq : SenderQueues oldest tx) (now length : Nat)
    {box : Option Bytes} (eof : Bool) (hbox : ∀ b, box = some b → b.length = length)
    (hfits : tx.endOffset + length < 2 ^ 63) :
    ∃ oldest', oldest ≤ oldest' ∧ SenderQueues oldest' (chnTxWrite tx now length box eof).1 := by
  have hnonneg := hq.oldest_nonneg
  have hlast := hq.contiguous.mem.1
  have hend : offT (tx.endOffset + length) = tx.endOffset + length := offT_of_fits (by omega) hfits
  have hnew : Contiguous tx.endOffset [outFrag tx now length box eof] (outFrag tx now length box eof).endAt := by
    refine ⟨rfl, ?_, fun b hb => ?_, rfl⟩
    · exact (Int.le_add_of_nonneg_right (Int.natCast_nonneg length)).trans_eq hend.symm
    · show (b.length : Int) = offT (tx.endOffset + length) - tx.endOffset
      rw [hend, hbox b hb]
      omega
  rcases (hq.contiguous.append hnew).timeout now OUT_FRAGS_TIMEOUT with ⟨oldest', hle, hq'⟩
  exact ⟨oldest', hle, hq', hnonneg.trans hle, hend.trans_lt hfits, hq.misses⟩

/-! ## A chunk -/

section Chunks

variable (id : Int) {f : Fragment} {offset : Int}

theorem sendChunk_sent (hlt : offset < f.endAt) (hsize : f.endAt - offset < 2 ^ 64) :
    ((sendChunk id f offset).sent : Int) = min (CHUNK_SIZE : Int) (f.endAt - offset) := by
  have hleft : (((f.endAt - offset) % 2 ^ 64).toNat : Int) = f.endAt - offset := by
    rw [Int.emod_eq_of_lt (by omega) hsize, Int.toNat_of_nonneg (by omega)]
  have hsent : (sendChunk id f offset).sent =
      if ((f.endAt - offset) % 2 ^ 64).toNat > CHUNK_SIZE then CHUNK_SIZE
      else ((f.endAt - offset) % 2 ^ 64).toNat := by
    unfold sendChunk
    cases f.box with
    | none => rfl
    | some box => rfl
  rw [hsent]
  split_ifs with hgt
  · omega
  · omega

theorem sendChunk_offset : (sendChunk id f offset).offset = (offset % 2 ^ 32).toNat := by
  unfold sendChunk
  cases f.box with
  | none => rfl
  | some box => rfl

theorem sendChunk_data {box : Bytes} (hbox : f.box = some box) :
    (sendChunk id f offset).data = slice box (offset - f.start).toNat (sendChunk id f offset).sent := by
  unfold sendChunk
  simp only [hbox]

theorem sendFromBox_ok {c : Chunk} (h : sendFromBox id f offset = .ok c) : c = sendChunk id f offset := by
  unfold sendFromBox at h
  cases hbox : f.box with
  | none =>
      simp only [hbox] at h
      cases h
      rfl
  | some box =>
      simp only [hbox] at h
      split_ifs at h
      cases h
      rfl

/-- A chunk of a fragment with a box is right where it starts in the fragment, at an offset that fits. -/
theorem sendFromBox_iff (hlt : offset < f.endAt) (hsize : f.endAt - offset < 2 ^ 64) (hstart : 0 ≤ f.start)
    (hbox : ∀ box, f.box = some box → (box.length : Int) = f.endAt - f.start) :
    (∃ c, sendFromBox id f offset = .ok c ∧ SentChunk.InBox ⟨f, offset, c⟩) ↔
      (f.box ≠ none → f.start ≤ offset ∧ offset < 2 ^ 32) := by
  have hsent := sendChunk_sent id hlt hsize
  constructor
  · rintro ⟨c, hok, hin⟩ hsome
    obtain ⟨box, hb⟩ := Option.ne_none_iff_exists'.1 hsome
    rcases hin box hb with ⟨hle, -, -, hoffset⟩
    -- an offset that is cut is another one
    have htold : ((sendChunk id f offset).offset : Int) = offset := sendFromBox_ok id hok ▸ hoffset
    rw [sendChunk_offset] at htold
    have hnonneg : 0 ≤ offset := hstart.trans hle
    exact ⟨hle, by omega⟩
  · intro hcond
    cases hb : f.box with
    | none =>
        refine ⟨sendChunk id f offset, ?_, fun box hsome => absurd (hb.symm.trans hsome) (Option.some_ne_none _).symm⟩
        unfold sendFromBox
        simp only [hb]
    | some box =>
        have hlen := hbox box hb
        rcases hcond (hb ▸ Option.some_ne_none box) with ⟨hle, hshort⟩
        have hin : offset - f.start + ((sendChunk id f offset).sent : Int) ≤ box.length := by
          rw [hsent, hlen]
          omega
        refine ⟨sendChunk id f offset, ?_, fun box' hsome => ?_⟩
        · unfold sendFromBox
          simp only [hb]
          exact if_pos ⟨hle, hin⟩
        · cases hb.symm.trans hsome
          refine ⟨hle, hin, sendChunk_data id hb, ?_⟩
          show ((sendChunk id f offset).offset : Int) = offset
          rw [sendChunk_offset]
          omega

end Chunks

/-! ## A miss -/

/-- What is left of a miss when `sent` bytes from its start on were sent. -/
def Fragment.behind (miss : Fragment) (sent : Nat) : Fragment :=
  { miss with start := miss.start + sent }

/-- Missed bytes of a fragment are sent at short offsets if the first of them is, and what is left behind a chunk. -/
theorem shortOffsets_iff {oldest : Int} {q : List Fragment} {miss f g : Fragment} {sent : Nat}
    (hfound : Found oldest q miss f) (hmiss : miss.start < miss.endAt) (hg : g ∈ q)
    (hsent : (sent : Int) = min (CHUNK_SIZE : Int) (f.endAt - miss.start)) (hstart : g = f → f.start ≤ miss.start) :
    ShortOffsets miss g ↔
      (g = f → miss.start < 2 ^ 32) ∧ (miss.endAt ≤ miss.start + sent ∨ ShortOffsets (miss.behind sent) g) := by
  have hchunk : (CHUNK_SIZE : Int) = 1400 := rfl
  have hlt := hfound.start_lt
  unfold ShortOffsets missedFrom missedTo
  simp only [Fragment.behind, hchunk] at hsent ⊢
  rcases hfound.others g hg with hbefore | rfl | hbehind
  · -- nothing of the fragment is missed
    have hne : g ≠ f := by
      rintro rfl
      omega
    refine ⟨fun _ => ⟨fun heq => absurd heq hne, .inr fun h => ?_⟩, fun _ h => ?_⟩
    · omega
    · omega
  · have hle := hstart rfl
    -- the chunks start CHUNK_SIZE bytes after one another, so that the first is the lowest
    constructor
    · intro hshort
      have hfirst : miss.start < 2 ^ 32 := by omega
      refine ⟨fun _ => hfirst, ?_⟩
      by_cases hend : miss.endAt ≤ miss.start + sent
      · exact .inl hend
      · refine .inr fun hmore => ?_
        omega
    · rintro ⟨hfirst, hrest⟩ hmissed
      have hshort := hfirst rfl
      omega
  · have hne : g ≠ f := by
      rintro rfl
      have hle := hstart rfl
      omega
    constructor
    · intro hshort
      refine ⟨fun heq => absurd heq hne, .inr fun hmore => ?_⟩
      omega
    · rintro ⟨-, hrest⟩ hmissed
      omega

/-- A miss can be answered if the first chunk for it is right, and what is left behind the chunk can be answered. -/
theorem answerable_iff {first last : Int} {q : List Fragment} {miss f : Fragment} {sent : Nat}
    (hq : Contiguous first q last) (hfound : Found first q miss f) (hmiss : miss.start < miss.endAt)
    (hsent : (sent : Int) = min (CHUNK_SIZE : Int) (f.endAt - miss.start)) :
    Answerable first q last miss ↔
      (f.box ≠ none → f.start ≤ miss.start ∧ miss.start < 2 ^ 32) ∧
        (miss.endAt ≤ miss.start + sent ∨ Answerable first q last (miss.behind sent)) := by
  rcases hq.mem.2 f hfound.mem with ⟨hfirst, -, hlast, -⟩
  constructor
  · intro h
    have hstart : f.box ≠ none → f.start ≤ miss.start := by
      intro hbox
      rcases hfound.oldest with hle | ⟨heq, q', hhead⟩
      · exact hle
      · rcases h.starts with hle | ⟨-, g, q'', hhead', hnone⟩
        · exact heq.trans_le hle
        · rw [hhead] at hhead'
          cases hhead'
          exact absurd hnone hbox
    have hshort := fun g hg hbox =>
      (shortOffsets_iff hfound hmiss hg hsent fun heq => hstart (heq ▸ hbox)).1 (h.short g hg hbox)
    refine ⟨fun hbox => ⟨hstart hbox, (hshort f hfound.mem hbox).1 rfl⟩, ?_⟩
    by_cases hend : miss.endAt ≤ miss.start + sent
    · exact .inl hend
    · refine .inr ⟨h.ends, ?_, fun g hg hbox => (hshort g hg hbox).2.resolve_left hend⟩
      rcases h.starts with hle | hnobox
      · exact .inl (hle.trans (Int.le_add_of_nonneg_right (Int.natCast_nonneg sent)))
      · exact .inr hnobox
  · rintro ⟨hchunk, hrest⟩
    refine ⟨?_, ?_, fun g hg hbox => ?_⟩
    · rcases hrest with hend | hrest
      · omega
      · exact hrest.ends
    · rcases hfound.oldest with hle | ⟨heq, q', hhead⟩
      · exact .inl (hfirst.trans hle)
      · by_cases hle : first ≤ miss.start
        · exact .inl hle
        · -- the miss starts before the oldest fragment, of which nothing is read
          refine .inr ⟨heq ▸ hfound.lt_end, f, q', hhead, ?_⟩
          by_contra hbox
          exact hle (heq ▸ (hchunk hbox).1)
    · exact (shortOffsets_iff hfound hmiss hg hsent fun heq => (hchunk (heq ▸ hbox)).1).2
        ⟨fun heq => (hchunk (heq ▸ hbox)).2, hrest.imp_right fun h => h.short g hg hbox⟩

/-! ## A turn -/

section Turns

variable {oldest : Int} {tx : ChnTx} {miss : Fragment} {misses : List Fragment}

theorem afterSent_eq (hlow : -2 ^ 63 ≤ miss.start) (hlt : miss.start < miss.endAt) (hhigh : miss.endAt < 2 ^ 63)
    (sent : Nat) :
    afterSent miss misses sent = if miss.endAt ≤ miss.start + sent then misses else miss.behind sent :: misses := by
  have hsize : (fragmentSize miss : Int) = miss.endAt - miss.start := by
    rw [fragmentSize, Int.emod_eq_of_lt (by omega) (by omega), Int.toNat_of_nonneg (by omega)]
  unfold afterSent
  by_cases hend : miss.endAt ≤ miss.start + sent
  · rw [if_pos hend, if_pos (by omega)]
  · have hstart : offT (miss.start + sent) = miss.start + sent := offT_of_fits (by omega) (by omega)
    rw [if_neg hend, if_neg (by omega), hstart]
    rfl

/-- The misses that are left when a chunk for the first one was sent. -/
theorem mem_afterSent (hq : SenderQueues oldest tx) (hin : tx.inFrags = miss :: misses) {sent : Nat} {m : Fragment} :
    m ∈ afterSent miss misses sent ↔ m ∈ misses ∨ m = miss.behind sent ∧ ¬ miss.endAt ≤ miss.start + sent := by
  rcases hq.misses miss (hin ▸ List.mem_cons_self) with ⟨hlow, hlt, hhigh⟩
  rw [afterSent_eq hlow hlt hhigh]
  by_cases hend : miss.endAt ≤ miss.start + sent
  · rw [if_pos hend]
    exact ⟨.inl, fun h => h.elim id fun h => absurd hend h.2⟩
  · rw [if_neg hend, List.mem_cons]
    constructor
    · rintro (rfl | hm)
      · exact .inr ⟨rfl, hend⟩
      · exact .inl hm
    · rintro (hm | ⟨rfl, -⟩)
      · exact .inr hm
      · exact .inl rfl

theorem SenderQueues.after (hq : SenderQueues oldest tx) (hin : tx.inFrags = miss :: misses) (sent : Nat) :
    SenderQueues oldest { tx with inFrags := afterSent miss misses sent } := by
  refine ⟨hq.contiguous, hq.oldest_nonneg, hq.endOffset_lt, fun m hm => ?_⟩
  rcases (mem_afterSent hq hin).1 hm with hm | ⟨rfl, hmore⟩
  · exact hq.misses m (hin ▸ List.mem_cons_of_mem _ hm)
  · rcases hq.misses miss (hin ▸ List.mem_cons_self) with ⟨hlow, hlt, hhigh⟩
    simp only [Fragment.behind]
    omega

/-- A fragment that is found, as the chunk that is sent of it needs it. -/
theorem SenderQueues.found (hq : SenderQueues oldest tx) (hin : tx.inFrags = miss :: misses) {f : Fragment}
    (hfind : tx.outFrags.find? (overlaps miss) = some f) :
    Found oldest tx.outFrags miss f ∧ f.endAt - miss.start < 2 ^ 64 ∧ 0 ≤ f.start ∧
      ∀ box, f.box = some box → (box.length : Int) = f.endAt - f.start := by
  have hfound := Scambio.found hq.contiguous hfind
  rcases hq.contiguous.mem.2 f hfound.mem with ⟨hfirst, -, hlast, hbox⟩
  have hlow := (hq.misses miss (hin ▸ List.mem_cons_self)).1
  have hnonneg := hq.oldest_nonneg
  have hend := hq.endOffset_lt
  exact ⟨hfound, by omega, by omega, hbox⟩

/-- A turn for a miss that can be answered. -/
theorem retransmitMiss_of_answerable (hq : SenderQueues oldest tx) (hin : tx.inFrags = miss :: misses)
    (hanswer : Answerable oldest tx.outFrags tx.endOffset miss) :
    ∃ f c, Found oldest tx.outFrags miss f ∧ (c.sent : Int) = min (CHUNK_SIZE : Int) (f.endAt - miss.start) ∧
      retransmitMiss tx miss misses =
        .ok ([⟨f, miss.start, c⟩], { tx with inFrags := afterSent miss misses c.sent }) ∧
      SentChunk.InBox ⟨f, miss.start, c⟩ := by
  have hlt := (hq.misses miss (hin ▸ List.mem_cons_self)).2.1
  have hends := hanswer.ends
  have hstarts : oldest ≤ miss.start ∨ oldest < miss.endAt ∧ tx.outFrags ≠ [] := by
    rcases hanswer.starts with hle | ⟨hlt', f, q', hhead, -⟩
    · exact .inl hle
    · exact .inr ⟨hlt', hhead ▸ List.cons_ne_nil f q'⟩
  rcases find_isSome hq.contiguous hlt (by omega) hstarts with ⟨f, hfind⟩
  rcases hq.found hin hfind with ⟨hfound, hsize, hnonneg, hbox⟩
  have hsent := sendChunk_sent tx.id hfound.start_lt hsize
  have hchunk := ((answerable_iff hq.contiguous hfound hlt hsent).1 hanswer).1
  rcases (sendFromBox_iff tx.id hfound.start_lt hsize hnonneg hbox).2 hchunk with ⟨c, hok, hinBox⟩
  refine ⟨f, c, hfound, sendFromBox_ok tx.id hok ▸ hsent, ?_, hinBox⟩
  unfold retransmitMiss
  simp only [hfind, hok]

/-- The bytes that the misses of a queue ask for. -/
def missedBytes (misses : List Fragment) : Nat :=
  (misses.map fun miss => (miss.endAt - miss.start).toNat).sum

theorem missedBytes_afterSent (hq : SenderQueues oldest tx) (hin : tx.inFrags = miss :: misses) (sent : Nat)
    (hpos : 0 < sent) : missedBytes (afterSent miss misses sent) < missedBytes tx.inFrags := by
  rcases hq.misses miss (hin ▸ List.mem_cons_self) with ⟨hlow, hlt, hhigh⟩
  rw [afterSent_eq hlow hlt hhigh, hin]
  by_cases hend : miss.endAt ≤ miss.start + sent
  · rw [if_pos hend, missedBytes, missedBytes, List.map_cons, List.sum_cons]
    omega
  · rw [if_neg hend, missedBytes, missedBytes, List.map_cons, List.map_cons, List.sum_cons, List.sum_cons]
    simp only [Fragment.behind]
    omega

end Turns

/-! ## The whole run -/

/-- Misses that can all be answered are answered, in as many turns as there are missed bytes at most. -/
theorem retransmitMissed_of_answerable {oldest : Int} {tx : ChnTx} (hq : SenderQueues oldest tx)
    (hall : ∀ miss ∈ tx.inFrags, Answerable oldest tx.outFrags tx.endOffset miss) : Retransmits tx := by
  induction hbytes : missedBytes tx.inFrags using Nat.strong_induction_on generalizing tx with
  | _ bytes ih =>
      cases hin : tx.inFrags with
      | nil =>
          refine ⟨0, [], tx, rfl, hin, fun s hs => absurd hs List.not_mem_nil, fun miss hmiss => ?_⟩
          exact absurd (hin ▸ hmiss) List.not_mem_nil
      | cons miss misses =>
          have hmem : miss ∈ tx.inFrags := hin ▸ List.mem_cons_self
          have hlt := (hq.misses miss hmem).2.1
          rcases retransmitMiss_of_answerable hq hin (hall miss hmem) with ⟨f, c, hfound, hsent, hturn, hinBox⟩
          have hstart := hfound.start_lt
          have hchunk : (CHUNK_SIZE : Int) = 1400 := rfl
          have hrest : ∀ m ∈ afterSent miss misses c.sent, Answerable oldest tx.outFrags tx.endOffset m := by
            intro m hm
            rcases (mem_afterSent hq hin).1 hm with hm | ⟨rfl, hmore⟩
            · exact hall m (hin ▸ List.mem_cons_of_mem _ hm)
            · exact ((answerable_iff hq.contiguous hfound hlt hsent).1 (hall miss hmem)).2.resolve_left hmore
          -- a chunk is never empty
          have hless := missedBytes_afterSent hq hin c.sent (by omega)
          rcases ih _ (hbytes ▸ hless) (hq.after hin c.sent) hrest rfl with ⟨n, sent, tx', hrun, hempty, hboxes, hcover⟩
          refine ⟨n + 1, ⟨f, miss.start, c⟩ :: sent, tx', ?_, hempty, fun s hs => ?_, ?_⟩
          · simp only [retransmitMissed, hin, hturn, hrun]
            rfl
          · rcases List.mem_cons.1 hs with rfl | hs
            · exact hinBox
            · exact hboxes s hs
          · intro m hm g hg hbox p hlow hhigh hgstart hgend
            have hlater : ∀ m' ∈ afterSent miss misses c.sent, m'.start ≤ p → p < m'.endAt →
                ∃ s ∈ (⟨f, miss.start, c⟩ :: sent : List SentChunk), s.frag = g ∧ s.offset ≤ p ∧
                  p < s.offset + s.chunk.sent := by
              intro m' hm' hlow' hhigh'
              rcases hcover m' hm' g hg hbox p hlow' hhigh' hgstart hgend with ⟨s, hs, hsent'⟩
              exact ⟨s, List.mem_cons_of_mem _ hs, hsent'⟩
            rcases List.mem_cons.1 (hin ▸ hm) with rfl | hm
            · by_cases hp : p < m.start + c.sent
              · -- the byte is in this chunk, so that its fragment is the one that was found
                rcases hfound.others g hg with hbefore | rfl | hbehind
                · omega
                · exact ⟨_, List.mem_cons_self, rfl, hlow, hp⟩
                · omega
              · refine hlater _ ((mem_afterSent hq hin).2 (.inr ⟨rfl, by omega⟩)) ?_ hhigh
                exact Int.not_lt.1 hp
            · exact hlater m ((mem_afterSent hq hin).2 (.inl hm)) hlow hhigh

/-- Misses that were answered can be answered. -/
theorem answerable_of_retransmitMissed {oldest : Int} {n : Nat} {tx tx' : ChnTx} {sent : List SentChunk}
    (hq : SenderQueues oldest tx) (hrun : retransmitMissed n tx = .ok (sent, tx')) (hempty : tx'.inFrags = [])
    (hboxes : ∀ s ∈ sent, s.InBox) :
    ∀ miss ∈ tx.inFrags, Answerable oldest tx.outFrags tx.endOffset miss := by
  induction n generalizing tx sent with
  | zero =>
      cases hrun
      intro miss hmiss
      exact absurd (hempty ▸ hmiss) List.not_mem_nil
  | succ n ih =>
      cases hin : tx.inFrags with
      | nil => exact fun miss hmiss => absurd hmiss List.not_mem_nil
      | cons miss misses =>
          simp only [retransmitMissed, hin] at hrun
          cases hturn : retransmitMiss tx miss misses with
          | error e =>
              rw [hturn] at hrun
              cases hrun
          | ok r =>
              obtain ⟨now, tx₁⟩ := r
              rw [hturn] at hrun
              cases hmore : retransmitMissed n tx₁ with
              | error e =>
                  simp only [hmore] at hrun
                  cases hrun
              | ok r =>
                  obtain ⟨more, tx₂⟩ := r
                  simp only [hmore] at hrun
                  cases hrun
                  have hboxes' : ∀ s ∈ more, s.InBox := fun s hs => hboxes s (List.mem_append_right _ hs)
                  unfold retransmitMiss at hturn
                  cases hfind : tx.outFrags.find? (overlaps miss) with
                  | none =>
                      -- the same turn once more
                      simp only [hfind] at hturn
                      cases hturn
                      exact hin ▸ ih hq hmore hboxes'
                  | some f =>
                      simp only [hfind] at hturn
                      cases hok : sendFromBox tx.id f miss.start with
                      | error e =>
                          simp only [hok] at hturn
                          cases hturn
                      | ok c =>
                          simp only [hok] at hturn
                          cases hturn
                          rcases hq.found hin hfind with ⟨hfound, hsize, hnonneg, hbox⟩
                          have hlt := (hq.misses miss (hin ▸ List.mem_cons_self)).2.1
                          have hsent := sendFromBox_ok tx.id hok ▸ sendChunk_sent tx.id hfound.start_lt hsize
                          have hchunk := (sendFromBox_iff tx.id hfound.start_lt hsize hnonneg hbox).1
                            ⟨c, hok, hboxes _ (List.mem_append_left _ List.mem_cons_self)⟩
                          have hrest := ih (hq.after hin c.sent) hmore hboxes'
                          intro m hm
                          rcases List.mem_cons.1 hm with rfl | hm
                          · refine (answerable_iff hq.contiguous hfound hlt hsent).2 ⟨hchunk, ?_⟩
                            by_cases hend : m.endAt ≤ m.start + c.sent
                            · exact .inl hend
                            · exact .inr (hrest _ ((mem_afterSent hq hin).2 (.inr ⟨rfl, hend⟩)))
                          · exact hrest m ((mem_afterSent hq hin).2 (.inl hm))

/-- The loop does what it is for exactly if every miss ends with the newest fragment or before, starts with the oldest
or later, or reads nothing of it, and has short offsets. -/
theorem retransmits_iff {oldest : Int} {tx : ChnTx} (hq : SenderQueues oldest tx) :
    Retransmits tx ↔ ∀ miss ∈ tx.inFrags, Answerable oldest tx.outFrags tx.endOffset miss := by
  constructor
  · rintro ⟨n, sent, tx', hrun, hempty, hboxes, -⟩
    exact answerable_of_retransmitMissed hq hrun hempty hboxes
  · exact retransmitMissed_of_answerable hq

/-- A sender with one fragment left, of ten bytes at offset 10, and one miss. -/
def lastFragmentKept (missStart missEnd : Int) : ChnTx :=
  { chnTxCtor 0 true 1 none 0 with
    endOffset := 20
    outFrags := [{ ts := 0, box := some (ascii "klmnopqrst"), start := 10, endAt := 20, eof := false }]
    inFrags := [{ ts := 0, box := none, start := missStart, endAt := missEnd, eof := false }] }

theorem senderQueues_lastFragmentKept {missStart missEnd : Int} (hlow : -2 ^ 63 ≤ missStart)
    (hlt : missStart < missEnd) (hhigh : missEnd < 2 ^ 63) :
    SenderQueues 10 (lastFragmentKept missStart missEnd) := by
  refine ⟨⟨rfl, by decide, fun box hbox => ?_, rfl⟩, by decide, ?_, fun miss hmiss => ?_⟩
  · cases hbox
    rfl
  · exact (by decide : (20 : Int) < 2 ^ 63)
  · rcases List.mem_singleton.1 hmiss with rfl
    exact ⟨hlow, hlt, hhigh⟩

theorem retransmits_iff_inside : Retransmits (lastFragmentKept 12 15) := by
  refine (retransmits_iff (senderQueues_lastFragmentKept (by decide) (by decide) (by decide))).2 fun miss hmiss => ?_
  rcases List.mem_singleton.1 hmiss with rfl
  refine ⟨by decide, .inl (by decide), fun f hf _ => ?_⟩
  rcases List.mem_singleton.1 hf with rfl
  exact fun _ => by decide

/-- The loop goes on for ever when no sent fragment has anything of the first miss. -/
theorem retransmitMissed_stuck {tx : ChnTx} {miss : Fragment} {misses : List Fragment}
    (hin : tx.inFrags = miss :: misses) (hnone : tx.outFrags.find? (overlaps miss) = none) (n : Nat) :
    retransmitMissed n tx = .ok ([], tx) := by
  have hturn : retransmitMiss tx miss misses = .ok ([], tx) := by
    unfold retransmitMiss
    rw [hnone]
  induction n with
  | zero => rfl
  | succ n ih =>
      simp only [retransmitMissed, hin, hturn, ih]
      rfl

/-- A miss of bytes that timed out is looked for without end; one that starts before the fragment has the bytes in
front of its box read. -/
theorem not_retransmits_timedOut :
    (¬ Retransmits (lastFragmentKept 0 5) ∧ ∀ n, retransmitMissed n (lastFragmentKept 0 5) = .ok ([], lastFragmentKept 0 5)) ∧
      retransmitMissed 1 (lastFragmentKept 5 15) = .error .outOfBox ∧
      ¬ ∀ oldest tx, SenderQueues oldest tx → Retransmits tx := by
  have hstuck : ∀ n, retransmitMissed n (lastFragmentKept 0 5) = .ok ([], lastFragmentKept 0 5) :=
    retransmitMissed_stuck rfl rfl
  have hnot : ¬ Retransmits (lastFragmentKept 0 5) := by
    rintro ⟨n, sent, tx', hrun, hempty, -⟩
    rw [hstuck] at hrun
    cases hrun
    cases hempty
  refine ⟨⟨hnot, hstuck⟩, by decide, fun hall => hnot (hall 10 _ ?_)⟩
  exact senderQueues_lastFragmentKept (by decide) (by decide) (by decide)

end Scambio
