import Scambio.Lib.Header
import Mathlib.Data.List.Basic
import Mathlib.Logic.Function.Basic

/-!
# Msg — the cursor over the fields of a message (`lib/msg.c`)

A message has a header and a list of marks, which are messages with headers of their own.  `sc_msg_cursor_next`
goes from one field to the next, over the message and then its marks, and holds a reference on the mark where it is.

- `scMsgCursorNext_step`: a call takes the first of the fields that remain, or ends the enumeration where none does.
- `enumerate_exact`: the calls yield the matching fields of the valid messages, each once and in order, and the
  references that were taken are dropped.
-/

namespace Scambio

/-! ## Messages -/

/-- `struct sc_msg`, as far as the cursor looks: `marks` is the first of its marks, `marksNext` the message behind it in
the list of marks that it is in.  A message without references is freed. -/
structure ScMsg where
  header : Header
  status : Int
  marks : Option Nat
  marksNext : Option Nat
  count : Nat
  alive : 0 < count

/-- The messages by their addresses, none where there is no message any more. -/
abbrev Msgs := Nat → Option ScMsg

def ScMsg.ref (msg : ScMsg) : ScMsg :=
  { msg with count := msg.count + 1, alive := Nat.succ_pos _ }

def scMsgRef (msgs : Msgs) (p : Nat) : Msgs :=
  Function.update msgs p ((msgs p).map ScMsg.ref)

/-- `sc_msg_unref`, where `del` is `msg->ops->del`. -/
def scMsgUnref (del : Nat → Msgs → Msgs) (msgs : Msgs) (p : Nat) : Msgs :=
  match msgs p with
  | none => msgs
  | some msg =>
      -- the last reference frees the message
      if h : 0 < msg.count - 1 then Function.update msgs p (some { msg with count := msg.count - 1, alive := h })
      else del p msgs

/-! ## Fields -/

/-- The test of `header_find`: `NULL` is the name of every field. -/
def isNamed (name : Option Bytes) (hf : HeaderField) : Bool :=
  match name with
  | none => true
  | some name => strcaseeq hf.name name

/-- Where `header_find` starts. -/
def firstAfter : Option Nat → Nat
  | some prev => prev + 1
  | none => 0

/-- `header_find(h, name, prev)`, by the places of the fields. -/
def headerFindFrom (h : Header) (name : Option Bytes) (prev : Option Nat) : Option Nat :=
  ((h.drop (firstAfter prev)).findIdx? (isNamed name)).map (firstAfter prev + ·)

/-! ## The cursor -/

/-- `struct sc_msg_cursor` -/
structure ScMsgCursor where
  msg : Nat
  mark : Option Nat
  hf : Option Nat
  deriving DecidableEq, Repr

/-- The message that the field is in. -/
def ScMsgCursor.here (cursor : ScMsgCursor) : Nat :=
  cursor.mark.getD cursor.msg

def scMsgCursorCtor (msgs : Msgs) (p : Nat) : Msgs × ScMsgCursor :=
  (scMsgRef msgs p, ⟨p, none, none⟩)

def scMsgCursorDtor (del : Nat → Msgs → Msgs) (s : Msgs × ScMsgCursor) : Msgs :=
  let msgs := scMsgUnref del s.1 s.2.msg
  match s.2.mark with
  | some mark => scMsgUnref del msgs mark
  | none => msgs

/-- `sc_msg_cursor_next`, none if `fuel` calls of itself do not end it or a message that it reads is not there. -/
def scMsgCursorNext (del : Nat → Msgs → Msgs) (name : Option Bytes) :
    Nat → Msgs × ScMsgCursor → Option (Msgs × ScMsgCursor)
  | 0, _ => none
  | fuel + 1, (msgs, cursor) =>
      match msgs cursor.here with
      | none => none
      | some msg =>
          let nextMsg := if cursor.mark.isSome then msg.marksNext else msg.marks
          -- a mark that is not valid has no field for the cursor
          match if msg.status = 0 then headerFindFrom msg.header name cursor.hf else none with
          | some hf => some (msgs, { cursor with hf := some hf })
          | none =>
              let dropped :=
                match cursor.mark with
                | some mark => scMsgUnref del msgs mark
                | none => msgs
              -- the mark is left, for the next one or for the end
              match nextMsg with
              | none => some (dropped, { cursor with hf := none, mark := none })
              | some next =>
                  scMsgCursorNext del name fuel (scMsgRef dropped next, { cursor with hf := none, mark := some next })

/-- Calls of `sc_msg_cursor_next` until it gives no field: the fields that it gave, by message and place. -/
def enumerate (del : Nat → Msgs → Msgs) (name : Option Bytes) (fuel : Nat) :
    Nat → Msgs × ScMsgCursor → Option (List (Nat × Nat) × Msgs × ScMsgCursor)
  | 0, _ => none
  | calls + 1, s =>
      match scMsgCursorNext del name fuel s with
      | none => none
      | some s' =>
          match s'.2.hf with
          | none => some ([], s')
          | some hf => (enumerate del name fuel calls s').map fun r => ((s'.2.here, hf) :: r.1, r.2)

/-! ## What there is to yield -/

/-- The places of the fields of a header with a name, from a place on. -/
def namedFrom (h : Header) (name : Option Bytes) (first : Nat) : List Nat :=
  (((h.drop first).zipIdx first).filter fun e => isNamed name e.1).map Prod.snd

/-- The fields of a message with a name, behind `prev`, if the message is valid. -/
def fieldsAfter (msgs : Msgs) (name : Option Bytes) (prev : Option Nat) (p : Nat) : List (Nat × Nat) :=
  match msgs p with
  | none => []
  | some msg => if msg.status = 0 then (namedFrom msg.header name (firstAfter prev)).map fun i => (p, i) else []

/-- All the fields of a message and of its marks. -/
def validFields (msgs : Msgs) (name : Option Bytes) (p : Nat) (marks : List Nat) : List (Nat × Nat) :=
  (p :: marks).flatMap (fieldsAfter msgs name none)

/-- The marks in the list from `first` on. -/
def MarksFrom (msgs : Msgs) : Option Nat → List Nat → Prop
  | first, [] => first = none
  | first, mark :: marks => first = some mark ∧ ∃ msg, msgs mark = some msg ∧ MarksFrom msgs msg.marksNext marks

/-! ## Fields are found in order -/

theorem find_zipIdx {α : Type*} (p : α → Bool) (l : List α) (k : Nat) :
    match l.findIdx? p with
    | none => ((l.zipIdx k).filter fun e => p e.1).map Prod.snd = []
    | some j => ((l.zipIdx k).filter fun e => p e.1).map Prod.snd =
        (k + j) :: (((l.drop (j + 1)).zipIdx (k + j + 1)).filter fun e => p e.1).map Prod.snd := by
  induction l generalizing k with
  | nil => rfl
  | cons a l ih =>
      rw [List.findIdx?_cons, List.zipIdx_cons, List.filter_cons]
      cases ha : p a with
      | true => rfl
      | false =>
          -- the search goes on one place further
          have hrest := ih (k + 1)
          cases hfind : l.findIdx? p with
          | none =>
              rw [hfind] at hrest
              simpa using hrest
          | some j =>
              have hk : k + 1 + j = k + (j + 1) := by omega
              simp only [hfind, hk] at hrest
              simpa using hrest

theorem headerFindFrom_none {h : Header} {name : Option Bytes} {prev : Option Nat}
    (hfind : headerFindFrom h name prev = none) : namedFrom h name (firstAfter prev) = [] := by
  have hspec := find_zipIdx (isNamed name) (h.drop (firstAfter prev)) (firstAfter prev)
  rw [Option.map_eq_none_iff.1 hfind] at hspec
  exact hspec

theorem headerFindFrom_some {h : Header} {name : Option Bytes} {prev : Option Nat} {i : Nat}
    (hfind : headerFindFrom h name prev = some i) :
    namedFrom h name (firstAfter prev) = i :: namedFrom h name (firstAfter (some i)) := by
  have hspec := find_zipIdx (isNamed name) (h.drop (firstAfter prev)) (firstAfter prev)
  rcases Option.map_eq_some_iff.1 hfind with ⟨j, hj, rfl⟩
  rw [hj] at hspec
  unfold namedFrom firstAfter at *
  rw [hspec, List.drop_drop]
  rfl

/-! ## Where the cursor is -/

section Cursor

variable {msgs : Msgs} {del : Nat → Msgs → Msgs} {name : Option Bytes}

/-- What the messages look like while the cursor is at a mark: there is one more reference on it. -/
def heldAt (msgs : Msgs) : Option Nat → Msgs
  | some mark => scMsgRef msgs mark
  | none => msgs

/-- The cursor is at a message, and `marks` are the marks behind it. -/
structure AtMsg (msgs : Msgs) (cursor : ScMsgCursor) (msg : ScMsg) (marks : List Nat) : Prop where
  here : msgs cursor.here = some msg
  next : MarksFrom msgs (if cursor.mark.isSome then msg.marksNext else msg.marks) marks

/-- The fields that are not yielded yet. -/
def remaining (msgs : Msgs) (name : Option Bytes) (cursor : ScMsgCursor) (marks : List Nat) : List (Nat × Nat) :=
  fieldsAfter msgs name cursor.hf cursor.here ++ marks.flatMap (fieldsAfter msgs name none)

theorem scMsgUnref_scMsgRef {mark : Nat} {msg : ScMsg} (h : msgs mark = some msg) :
    scMsgUnref del (scMsgRef msgs mark) mark = msgs := by
  have hcount : 0 < msg.ref.count - 1 := by
    have := msg.alive
    exact this
  have hmark : scMsgRef msgs mark mark = some msg.ref := by
    rw [scMsgRef, Function.update_self, h]
    rfl
  -- the count is what it was, and so is the message
  have hback : some ({ msg.ref with count := msg.ref.count - 1, alive := hcount } : ScMsg) = msgs mark := h.symm
  unfold scMsgUnref
  rw [hmark]
  simp only [hcount, dite_true]
  rw [scMsgRef, Function.update_idem]
  exact (congrArg (Function.update msgs mark) hback).trans (Function.update_eq_self mark msgs)

/-- The reference on the mark is all that has changed when the cursor leaves it. -/
theorem dropped_eq {cursor : ScMsgCursor} {msg : ScMsg} (h : msgs cursor.here = some msg) :
    (match cursor.mark with
      | some mark => scMsgUnref del (heldAt msgs cursor.mark) mark
      | none => heldAt msgs cursor.mark) = msgs := by
  cases hmark : cursor.mark with
  | none => rfl
  | some mark =>
      rw [ScMsgCursor.here, hmark] at h
      exact scMsgUnref_scMsgRef h

/-- The message of the cursor reads the same, but for its count. -/
theorem heldAt_here {cursor : ScMsgCursor} {msg : ScMsg} (h : msgs cursor.here = some msg) :
    ∃ msg', heldAt msgs cursor.mark cursor.here = some msg' ∧ msg'.header = msg.header ∧ msg'.status = msg.status ∧
      msg'.marks = msg.marks ∧ msg'.marksNext = msg.marksNext := by
  cases hmark : cursor.mark with
  | none => exact ⟨msg, h, rfl, rfl, rfl, rfl⟩
  | some mark =>
      rw [ScMsgCursor.here, hmark] at h
      refine ⟨msg.ref, ?_, rfl, rfl, rfl, rfl⟩
      rw [ScMsgCursor.here, hmark, heldAt, scMsgRef]
      simp only [Option.getD_some] at h ⊢
      rw [Function.update_self, h]
      rfl

/-- The next field of a message. -/
def nextField (msg : ScMsg) (name : Option Bytes) (prev : Option Nat) : Option Nat :=
  if msg.status = 0 then headerFindFrom msg.header name prev else none

theorem fieldsAfter_none {msg : ScMsg} {p : Nat} {prev : Option Nat} (h : msgs p = some msg)
    (hfind : nextField msg name prev = none) : fieldsAfter msgs name prev p = [] := by
  unfold fieldsAfter nextField at *
  rw [h]
  split at hfind
  · simp only [if_pos ‹msg.status = 0›, headerFindFrom_none hfind, List.map_nil]
  · exact if_neg ‹_›

theorem fieldsAfter_some {msg : ScMsg} {p i : Nat} {prev : Option Nat} (h : msgs p = some msg)
    (hfind : nextField msg name prev = some i) :
    fieldsAfter msgs name prev p = (p, i) :: fieldsAfter msgs name (some i) p := by
  unfold fieldsAfter nextField at *
  rw [h]
  split at hfind
  · simp only [if_pos ‹msg.status = 0›, headerFindFrom_some hfind, List.map_cons]
  · cases hfind

/-- A call reads one message, and goes on with the mark behind it where there is no field. -/
theorem scMsgCursorNext_succ (fuel : Nat) {cursor : ScMsgCursor} {msg : ScMsg} {marks : List Nat}
    (hat : AtMsg msgs cursor msg marks) :
    scMsgCursorNext del name (fuel + 1) (heldAt msgs cursor.mark, cursor) =
      match nextField msg name cursor.hf with
      | some hf => some (heldAt msgs cursor.mark, { cursor with hf := some hf })
      | none =>
          match marks.head? with
          | none => some (msgs, { cursor with hf := none, mark := none })
          | some mark => scMsgCursorNext del name fuel
              (heldAt msgs (some mark), { cursor with hf := none, mark := some mark }) := by
  rcases heldAt_here hat.here with ⟨msg', hmsg', hheader, hstatus, hmarks, hnext⟩
  have hhead : (if cursor.mark.isSome then msg.marksNext else msg.marks) = marks.head? := by
    have hchain := hat.next
    cases marks with
    | nil => exact hchain
    | cons mark marks => exact hchain.1
  rw [scMsgCursorNext, hmsg']
  simp only [hheader, hstatus, hmarks, hnext, hhead, dropped_eq hat.here]
  rfl

/-- The mark behind a message without further fields is where the cursor goes. -/
theorem AtMsg.next_mark {cursor : ScMsgCursor} {msg : ScMsg} {mark : Nat} {marks : List Nat}
    (hat : AtMsg msgs cursor msg (mark :: marks)) :
    ∃ msg', AtMsg msgs { cursor with hf := none, mark := some mark } msg' marks := by
  rcases hat.next with ⟨-, msg', hmsg', hnext⟩
  exact ⟨msg', hmsg', hnext⟩

/-- A call takes the first of the fields that remain and leaves the others, or ends the enumeration. -/
theorem scMsgCursorNext_step {fuel : Nat} {cursor : ScMsgCursor} {msg : ScMsg} {marks : List Nat}
    (hat : AtMsg msgs cursor msg marks) (hfuel : marks.length < fuel) :
    (remaining msgs name cursor marks = [] → scMsgCursorNext del name fuel (heldAt msgs cursor.mark, cursor) =
      some (msgs, { cursor with hf := none, mark := none })) ∧
    ∀ p i rest, remaining msgs name cursor marks = (p, i) :: rest → ∃ cursor' msg' marks',
      scMsgCursorNext del name fuel (heldAt msgs cursor.mark, cursor) = some (heldAt msgs cursor'.mark, cursor') ∧
      cursor'.msg = cursor.msg ∧ cursor'.hf = some i ∧ cursor'.here = p ∧ AtMsg msgs cursor' msg' marks' ∧
      marks'.length ≤ marks.length ∧ remaining msgs name cursor' marks' = rest := by
  induction marks generalizing fuel cursor msg with
  | nil =>
      obtain ⟨fuel, rfl⟩ := Nat.exists_eq_succ_of_ne_zero (Nat.ne_of_gt hfuel)
      rw [scMsgCursorNext_succ fuel hat]
      cases hfind : nextField msg name cursor.hf with
      | none =>
          rw [remaining, fieldsAfter_none hat.here hfind]
          exact ⟨fun _ => rfl, fun _ _ _ h => absurd h.symm (List.cons_ne_nil _ _)⟩
      | some hf =>
          rw [remaining, fieldsAfter_some hat.here hfind]
          refine ⟨fun h => absurd h (List.cons_ne_nil _ _), fun p i rest h => ?_⟩
          rcases List.cons.inj h with ⟨hhead, hrest⟩
          cases hhead
          exact ⟨{ cursor with hf := some hf }, msg, [], rfl, rfl, rfl, rfl, ⟨hat.here, hat.next⟩, Nat.le_refl _, hrest⟩
  | cons mark marks ih =>
      obtain ⟨fuel, rfl⟩ := Nat.exists_eq_succ_of_ne_zero (Nat.ne_of_gt (Nat.lt_of_le_of_lt (Nat.zero_le _) hfuel))
      rw [scMsgCursorNext_succ fuel hat]
      cases hfind : nextField msg name cursor.hf with
      | none =>
          -- the call goes on with the mark, and what remains is what remains from there
          rcases hat.next_mark with ⟨msg', hat'⟩
          have hremaining : remaining msgs name cursor (mark :: marks) =
              remaining msgs name { cursor with hf := none, mark := some mark } marks := by
            rw [remaining, fieldsAfter_none hat.here hfind]
            rfl
          rcases ih hat' (Nat.lt_of_succ_lt_succ hfuel) with ⟨hend, hfield⟩
          rw [hremaining]
          refine ⟨hend, fun p i rest h => ?_⟩
          rcases hfield p i rest h with ⟨cursor', msg', marks', hnext, hmsg, hhf, hhere, hat', hlen, hrest⟩
          exact ⟨cursor', msg', marks', hnext, hmsg, hhf, hhere, hat', hlen.trans (Nat.le_succ _), hrest⟩
      | some hf =>
          rw [remaining, fieldsAfter_some hat.here hfind]
          refine ⟨fun h => absurd h (List.cons_ne_nil _ _), fun p i rest h => ?_⟩
          rcases List.cons.inj h with ⟨hhead, hrest⟩
          cases hhead
          exact ⟨{ cursor with hf := some hf }, msg, mark :: marks, rfl, rfl, rfl, rfl, ⟨hat.here, hat.next⟩,
            Nat.le_refl _, hrest⟩

/-- From anywhere the calls yield what remains. -/
theorem enumerate_remaining {fuel calls : Nat} {cursor : ScMsgCursor} {msg : ScMsg} {marks : List Nat}
    (hat : AtMsg msgs cursor msg marks) (hfuel : marks.length < fuel)
    (hcalls : (remaining msgs name cursor marks).length < calls) :
    enumerate del name fuel calls (heldAt msgs cursor.mark, cursor) =
      some (remaining msgs name cursor marks, msgs, ⟨cursor.msg, none, none⟩) := by
  induction calls generalizing cursor msg marks with
  | zero => exact absurd hcalls (Nat.not_lt_zero _)
  | succ calls ih =>
      rcases @scMsgCursorNext_step msgs del name fuel cursor msg marks hat hfuel with ⟨hend, hfield⟩
      rw [enumerate]
      cases hrem : remaining msgs name cursor marks with
      | nil =>
          rw [hend hrem]
      | cons field rest =>
          rcases field with ⟨p, i⟩
          rcases hfield p i rest hrem with ⟨cursor', msg', marks', hnext, hmsg, hhf, hhere, hat', hlen, hrest⟩
          rw [hrem, List.length_cons] at hcalls
          -- one field is yielded, and one call less is needed for the others
          have hih := ih hat' (hlen.trans_lt hfuel) (by rw [hrest]; omega)
          rw [hnext]
          simp only [hhf, hih, hrest, hhere, hmsg, Option.map_some]

end Cursor

/-! ## A reference more -/

theorem scMsgRef_apply (msgs : Msgs) (p q : Nat) :
    scMsgRef msgs p q = if q = p then (msgs p).map ScMsg.ref else msgs q := by
  unfold scMsgRef
  by_cases h : q = p
  · rw [if_pos h, h, Function.update_self]
  · rw [if_neg h, Function.update_of_ne h]

theorem scMsgRef_reads {msgs : Msgs} {p q : Nat} {msg : ScMsg} (h : msgs q = some msg) :
    ∃ msg', scMsgRef msgs p q = some msg' ∧ msg'.header = msg.header ∧ msg'.status = msg.status ∧
      msg'.marks = msg.marks ∧ msg'.marksNext = msg.marksNext := by
  rw [scMsgRef_apply]
  by_cases hq : q = p
  · subst hq
    rw [if_pos rfl, h]
    exact ⟨msg.ref, rfl, rfl, rfl, rfl, rfl⟩
  · rw [if_neg hq, h]
    exact ⟨msg, rfl, rfl, rfl, rfl, rfl⟩

theorem MarksFrom.ref {msgs : Msgs} {first : Option Nat} {marks : List Nat} (h : MarksFrom msgs first marks)
    (p : Nat) : MarksFrom (scMsgRef msgs p) first marks := by
  induction marks generalizing first with
  | nil => exact h
  | cons mark marks ih =>
      rcases h with ⟨hfirst, msg, hmsg, hnext⟩
      rcases @scMsgRef_reads msgs p mark msg hmsg with ⟨msg', hmsg', -, -, -, hnext'⟩
      exact ⟨hfirst, msg', hmsg', hnext' ▸ ih hnext⟩

theorem fieldsAfter_ref (msgs : Msgs) (name : Option Bytes) (prev : Option Nat) (p q : Nat) :
    fieldsAfter (scMsgRef msgs p) name prev q = fieldsAfter msgs name prev q := by
  unfold fieldsAfter
  rw [scMsgRef_apply]
  by_cases h : q = p
  · subst h
    rw [if_pos rfl]
    cases msgs q with
    | none => rfl
    | some msg => rfl
  · rw [if_neg h]

/-- The cursor yields the fields with the name of the message and of its marks, where these are valid, each once and in
order.  At the end it holds a reference on the message only, which its destructor drops. -/
theorem enumerate_exact (del : Nat → Msgs → Msgs) (msgs : Msgs) (name : Option Bytes) (p : Nat) (msg : ScMsg)
    (marks : List Nat) (hmsg : msgs p = some msg) (hmarks : MarksFrom msgs msg.marks marks) (fuel calls : Nat)
    (hfuel : marks.length < fuel) (hcalls : (validFields msgs name p marks).length < calls) :
    enumerate del name fuel calls (scMsgCursorCtor msgs p) =
        some (validFields msgs name p marks, scMsgRef msgs p, ⟨p, none, none⟩) ∧
      (∀ q, q ≠ p → scMsgRef msgs p q = msgs q) ∧
      scMsgCursorDtor del (scMsgRef msgs p, ⟨p, none, none⟩) = msgs := by
  rcases @scMsgRef_reads msgs p p msg hmsg with ⟨msg', hmsg', -, -, hfirst, -⟩
  have hat : AtMsg (scMsgRef msgs p) ⟨p, none, none⟩ msg' marks := ⟨hmsg', hfirst ▸ hmarks.ref p⟩
  -- the reference that the cursor takes changes no field
  have hfields : remaining (scMsgRef msgs p) name ⟨p, none, none⟩ marks = validFields msgs name p marks := by
    have hsame : fieldsAfter (scMsgRef msgs p) name none = fieldsAfter msgs name none :=
      funext fun q => fieldsAfter_ref msgs name none p q
    rw [remaining, validFields, List.flatMap_cons, hsame]
    rfl
  refine ⟨?_, fun q hq => ?_, ?_⟩
  · have hrun := @enumerate_remaining _ del name fuel calls _ _ _ hat hfuel (hfields ▸ hcalls)
    rw [hfields] at hrun
    exact hrun
  · rw [scMsgRef_apply, if_neg hq]
  · exact scMsgUnref_scMsgRef hmsg

/-- A message with two marks, the first of which is not valid. -/
def markedTwice : Msgs
  | 0 => some ⟨[⟨ascii "from", ascii "alice"⟩, ⟨ascii "have-read", ascii "alice"⟩], 0, some 1, none, 1, Nat.one_pos⟩
  | 1 => some ⟨[⟨ascii "have-read", ascii "bob"⟩], 500, none, some 2, 1, Nat.one_pos⟩
  | 2 => some ⟨[⟨ascii "Have-Read", ascii "carol"⟩], 0, none, none, 1, Nat.one_pos⟩
  | _ => none

/-- `free(msg)` -/
def freeMsg (p : Nat) (msgs : Msgs) : Msgs :=
  Function.update msgs p none

theorem enumerate_exact_haveRead :
    enumerate freeMsg (some (ascii "have-read")) 3 3 (scMsgCursorCtor markedTwice 0) =
      some ([(0, 1), (2, 0)], scMsgRef markedTwice 0, ⟨0, none, none⟩) := by
  have hfields : validFields markedTwice (some (ascii "have-read")) 0 [1, 2] = [(0, 1), (2, 0)] := by decide
  have hmarks : MarksFrom markedTwice (some 1) [1, 2] := ⟨rfl, _, rfl, rfl, _, rfl, rfl⟩
  have hrun := enumerate_exact freeMsg markedTwice (some (ascii "have-read")) 0 _ [1, 2] rfl hmarks 3 3 (by decide)
    (by rw [hfields]; decide)
  rw [hfields] at hrun
  exact hrun.1

end Scambio
