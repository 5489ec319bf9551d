import Scambio.Lib.HeaderBounds
import Scambio.Smtpd.Parse

/-!
# Nodes — what one part of a mail is read from (`smtpd/parse.c`)

`parse_mail_node` gets a part by its start and its size, and hands the start alone to `header_parse`.
`NodeSafe` is what the comment of `parse_mail_rec` asks for ("do not look msg after size"), and
`nodeSafe_iff` says which parts get it, from the bytes of the part alone.
-/

namespace Scambio

open Library

/-! ## What stands after a part -/

/-- Nothing comes after the whole mail, and a delimiter after a part of a multipart. -/
def Follows : Bool → Bytes → Prop
  | false, after => after = []
  | true, after => ∃ r, after = 10 :: 45 :: 45 :: r

/-- Something that follows a part, and leaves no field open. -/
def closing : Bool → Bytes
  | false => []
  | true => 10 :: 45 :: harmless

theorem follows_closing (nested : Bool) : Follows nested (closing nested) := by
  cases nested with
  | false => rfl
  | true => exact ⟨ascii ":.\n\n", rfl⟩

theorem Follows.nested_eq {nested : Bool} {p after : Bytes} (h : Follows nested after) :
    decide (p.length < (p ++ after).length) = nested := by
  cases nested with
  | false =>
      cases h
      simp
  | true =>
      rcases h with ⟨r, rfl⟩
      simp

/-- The scan of a part stays in it and ignores what follows; or, in a multipart, it runs over the end. -/
theorem scanHeader_part (nested : Bool) (p : Bytes) :
    (∃ x, (∀ after, Follows nested after → scanHeader (cstr (p ++ after)) = x) ∧
      ∀ fields k, x = .ok (fields, k) → k ≤ p.length) ∨
    ((∀ after, Follows nested after → ∀ fields k,
        scanHeader (cstr (p ++ after)) = .ok (fields, k) → p.length < k) ∧
      ∃ t, scanHeader (cstr (p ++ closing nested)) = .ok t) := by
  have hle : ∀ fields k, scanHeader (cstr p) = .ok (fields, k) → k ≤ p.length :=
    fun fields k hscan => le_trans (scanHeader_le hscan) (length_cstr_le p)
  cases nested with
  | false =>
      refine .inl ⟨scanHeader (cstr p), ?_, hle⟩
      rintro after rfl
      rw [List.append_nil]
  | true =>
      by_cases hnul : (0 : UInt8) ∈ p
      · refine .inl ⟨scanHeader (cstr p), fun after _ => ?_, hle⟩
        rw [cstr_append_of_mem hnul]
      · have htext : ∀ r, cstr (p ++ 10 :: 45 :: 45 :: r) = p ++ 10 :: 45 :: cstr (45 :: r) := by
          intro r
          rw [cstr_append hnul]
          rfl
        -- the closing boundary ends the header, or a field of it goes on behind the part
        rcases scanHeader_cut p with ⟨x, hscan, hin⟩ | ⟨hover, hsome⟩
        · refine .inl ⟨x, ?_, hin⟩
          rintro after ⟨r, rfl⟩
          rw [htext, hscan]
        · refine .inr ⟨?_, ?_⟩
          · rintro after ⟨r, rfl⟩ fields k hk
            rw [htext] at hk
            exact hover _ fields k hk
          · have hclosing : cstr (p ++ closing true) = p ++ 10 :: 45 :: harmless := by
              rw [cstr_append hnul]
              rfl
            rw [hclosing]
            exact hsome

/-! ## Headers of parts -/

/-- The header of a part that is closed after it. -/
def partHeader (nested : Bool) (p : Bytes) : Except Err (Header × Nat) :=
  @headerParse plainHost (cstr (p ++ closing nested))

/-- The header ends in the part, before its last byte if that part is a file in a multipart. -/
structure ClosedHeader (nested : Bool) (p : Bytes) (h : Header) (k : Nat) : Prop where
  parsed : partHeader nested p = .ok (h, k)
  noBlank : NoBlankField h
  inside : k ≤ p.length
  blankLine : boundaryOf h = none → nested = true → k < p.length

variable {nested : Bool} {p after : Bytes} {h : Header} {k : Nat}

/-- A header that ends in the part scans alike whatever follows. -/
theorem scanHeader_of_inside (hparsed : partHeader nested p = .ok (h, k)) (hin : k ≤ p.length)
    (hafter : Follows nested after) :
    scanHeader (cstr (p ++ after)) = scanHeader (cstr (p ++ closing nested)) := by
  rcases scanHeader_part nested p with ⟨x, hscan, -⟩ | ⟨hover, -⟩
  · rw [hscan after hafter, hscan _ (follows_closing nested)]
  · rcases @scanHeader_of_headerParse plainHost _ _ _ hparsed with ⟨fields, hfields⟩
    have hlt := hover _ (follows_closing nested) fields k hfields
    omega

theorem ClosedHeader.headerParse (hclosed : ClosedHeader nested p h k) (hafter : Follows nested after)
    (host : Host) : @headerParse host (cstr (p ++ after)) = .ok (h, k) := by
  have hscan := scanHeader_of_inside hclosed.parsed hclosed.inside hafter
  rcases headerParse_ok_of_scan hscan hclosed.parsed host with ⟨h', hok, heq⟩
  rw [hok, heq hclosed.noBlank]

theorem headerParse_of_rejected {e : Err} (hrejected : partHeader nested p = .error e)
    (hafter : Follows nested after) (host : Host) :
    ∃ e', @headerParse host (cstr (p ++ after)) = .error e' ∧ stopOf e' = stopOf e := by
  rcases scanHeader_part nested p with ⟨x, hscan, -⟩ | ⟨-, t, hsome⟩
  · have heq : scanHeader (cstr (p ++ after)) = scanHeader (cstr (p ++ closing nested)) := by
      rw [hscan after hafter, hscan _ (follows_closing nested)]
    exact headerParse_error_of_scan heq hrejected host
  · -- a scan that runs over the end raises no error there
    rcases @headerParse_eq_scanHeader plainHost (cstr (p ++ closing nested)) with ⟨_, -, hstop⟩ | ⟨_, _, _, -, hok, -⟩
    · rw [hstop] at hsome
      cases hsome
    · rw [partHeader, hok] at hrejected
      cases hrejected

/-! ## Nodes -/

section Node

variable [Host]

omit [Host] in
/-- Where the content starts. -/
def nodeStart (h : Header) (msg : Bytes) (headerSize : Nat) : Nat :=
  if boundaryOf h = none then skipBlankLine msg headerSize else headerSize

omit [Host] in
/-- The bytes that the content is made from; a multipart is searched from its start. -/
def nodeContent (h : Header) (msg : Bytes) (headerSize size : Nat) : Bytes :=
  if boundaryOf h = none then (msg.drop (nodeStart h msg headerSize)).take (size - nodeStart h msg headerSize)
  else msg.take size

/-- What a node is made from: its header and the bytes of its content. -/
def nodeView (msg : Bytes) (size : Nat) : Option (Header × Bytes) :=
  match headerParse (cstr msg) with
  | .error _ => none
  | .ok (h, headerSize) => some (h, nodeContent h msg headerSize size)

/-- The size is not less than what is subtracted from it; whatever follows the part and whatever fresh
buffers hold, the node is made from the same header and content. -/
structure NodeSafe (msg : Bytes) (size : Nat) : Prop where
  sized : ∀ h headerSize, headerParse (cstr msg) = .ok (h, headerSize) → nodeStart h msg headerSize ≤ size
  own : ∀ (host host' : Host) (after after' : Bytes), Follows (decide (size < msg.length)) after →
    Follows (decide (size < msg.length)) after' →
      @nodeView host (msg.take size ++ after) size = @nodeView host' (msg.take size ++ after') size

omit [Host] in
theorem skipBlankLine_le (msg : Bytes) (headerSize : Nat) : headerSize ≤ skipBlankLine msg headerSize := by
  unfold skipBlankLine
  split <;> omega

omit [Host] in
theorem le_nodeStart (h : Header) (msg : Bytes) (headerSize : Nat) : headerSize ≤ nodeStart h msg headerSize := by
  unfold nodeStart
  split
  · exact skipBlankLine_le msg headerSize
  · exact le_rfl

omit [Host] in
/-- The empty line is looked for in the part. -/
theorem ClosedHeader.skipBlankLine_eq (hclosed : ClosedHeader nested p h k) (hfile : boundaryOf h = none)
    (hafter : Follows nested after) : skipBlankLine (p ++ after) k = skipBlankLine p k := by
  cases nested with
  | false =>
      cases hafter
      rw [List.append_nil]
  | true =>
      have hlt := hclosed.blankLine hfile rfl
      rw [skipBlankLine, skipBlankLine, List.getElem?_append_left hlt]

omit [Host] in
theorem ClosedHeader.skipBlankLine_le_length (hclosed : ClosedHeader nested p h k) :
    skipBlankLine p k ≤ p.length := by
  unfold skipBlankLine
  split
  · next hnewline =>
    rcases List.getElem?_eq_some_iff.1 hnewline with ⟨hlt, -⟩
    exact hlt
  · exact hclosed.inside

omit [Host] in
theorem ClosedHeader.nodeStart_le (hclosed : ClosedHeader nested p h k) (hafter : Follows nested after) :
    nodeStart h (p ++ after) k ≤ p.length := by
  unfold nodeStart
  split
  · next hfile =>
    rw [hclosed.skipBlankLine_eq hfile hafter]
    exact hclosed.skipBlankLine_le_length
  · exact hclosed.inside

omit [Host] in
theorem drop_take_part {start : Nat} (hstart : start ≤ p.length) :
    ((p ++ after).drop start).take (p.length - start) = p.drop start := by
  rw [List.drop_append_of_le_length hstart, List.take_append_of_le_length (by simp), List.take_of_length_le (by simp)]

/-- What the node of a closed header is made from, in terms of the part. -/
theorem ClosedHeader.nodeView (hclosed : ClosedHeader nested p h k) (hafter : Follows nested after) :
    nodeView (p ++ after) p.length =
      some (h, if boundaryOf h = none then p.drop (skipBlankLine p k) else p) := by
  unfold Scambio.nodeView
  rw [hclosed.headerParse hafter]
  simp only [nodeContent, nodeStart, List.take_left]
  split
  · next hfile => rw [hclosed.skipBlankLine_eq hfile hafter, drop_take_part hclosed.skipBlankLine_le_length]
  · rfl

/-- A node of which all hosts make the same thing has no blank field. -/
theorem NodeSafe.noBlank (hsafe : NodeSafe (p ++ after) p.length) (hafter : Follows nested after)
    (hparsed : partHeader nested p = .ok (h, k)) : NoBlankField h := by
  have hclosing : Follows (decide (p.length < (p ++ after).length)) (closing nested) := by
    rw [hafter.nested_eq]
    exact follows_closing nested
  have hview := hsafe.own (freshHost 97) (freshHost 98) _ _ hclosing hclosing
  rw [List.take_left] at hview
  rcases headerParse_ok_of_scan rfl hparsed (freshHost 97) with ⟨h₁, hok₁, -⟩
  rcases headerParse_ok_of_scan rfl hparsed (freshHost 98) with ⟨h₂, hok₂, -⟩
  unfold Scambio.nodeView at hview
  simp only [hok₁, hok₂, Option.some.injEq, Prod.mk.injEq] at hview
  rcases hview with ⟨rfl, -⟩
  exact noBlankField_of_hosts hparsed hok₁ hok₂

/-- A safe node has its header in the part: one that runs over the end is larger than the part, or is an
error that other bytes would not raise. -/
theorem NodeSafe.inside (hsafe : NodeSafe (p ++ after) p.length) (hafter : Follows nested after)
    (hparsed : partHeader nested p = .ok (h, k)) : k ≤ p.length := by
  rcases @scanHeader_of_headerParse plainHost _ _ _ hparsed with ⟨fields, hfields⟩
  rcases scanHeader_part nested p with ⟨x, hscan, hin⟩ | ⟨hover, -⟩
  · rw [hscan _ (follows_closing nested)] at hfields
    exact hin fields k hfields
  · exfalso
    cases hreal : headerParse (cstr (p ++ after)) with
    | ok r =>
        rcases r with ⟨h', k'⟩
        rcases scanHeader_of_headerParse hreal with ⟨fields', hfields'⟩
        have hlt := hover after hafter fields' k' hfields'
        have hsized := hsafe.sized h' k' hreal
        have hstart := le_nodeStart h' (p ++ after) k'
        omega
    | error e =>
        have hown := hsafe.own ‹Host› plainHost after (closing nested)
        rw [hafter.nested_eq, List.take_left] at hown
        have hview := hown hafter (follows_closing nested)
        have hparsed' : @headerParse plainHost (cstr (p ++ closing nested)) = .ok (h, k) := hparsed
        unfold Scambio.nodeView at hview
        rw [hreal, hparsed'] at hview
        cases hview

/-- A part is safe if and only if its header, if it has one, is closed. -/
theorem nodeSafe_iff (hafter : Follows nested after) :
    NodeSafe (p ++ after) p.length ↔
      ∀ h k, partHeader nested p = .ok (h, k) → ClosedHeader nested p h k := by
  constructor
  · intro hsafe h k hparsed
    have hin := hsafe.inside hafter hparsed
    have hblank := hsafe.noBlank hafter hparsed
    refine ⟨hparsed, hblank, hin, fun hfile hnested => ?_⟩
    -- at the end of the part, the delimiter is taken for the empty line
    subst hnested
    refine Nat.lt_of_le_of_ne hin fun hend => ?_
    rcases headerParse_ok_of_scan (scanHeader_of_inside hparsed hin hafter) hparsed ‹Host› with ⟨h', hok, heq⟩
    rw [heq hblank] at hok
    have hsized := hsafe.sized h k hok
    rcases hafter with ⟨r, rfl⟩
    have hnewline : (p ++ 10 :: 45 :: 45 :: r)[k]? = some 10 := by
      rw [hend, List.getElem?_append_right le_rfl, Nat.sub_self]
      rfl
    rw [nodeStart, if_pos hfile, skipBlankLine, if_pos hnewline] at hsized
    omega
  · intro hclosed
    constructor
    · intro h k hok
      cases hparsed : partHeader nested p with
      | ok r =>
          have hthis := hclosed r.1 r.2 hparsed
          rw [hthis.headerParse hafter] at hok
          cases hok
          exact hthis.nodeStart_le hafter
      | error e =>
          rcases headerParse_of_rejected hparsed hafter ‹Host› with ⟨e', herror, -⟩
          rw [hok] at herror
          cases herror
    · intro host host' a a' ha ha'
      rw [hafter.nested_eq] at ha ha'
      rw [List.take_left]
      cases hparsed : partHeader nested p with
      | ok r =>
          have hthis := hclosed r.1 r.2 hparsed
          rw [@ClosedHeader.nodeView _ _ _ _ _ host hthis ha, @ClosedHeader.nodeView _ _ _ _ _ host' hthis ha']
      | error e =>
          rcases headerParse_of_rejected hparsed ha host with ⟨e₁, herror₁, -⟩
          rcases headerParse_of_rejected hparsed ha' host' with ⟨e₂, herror₂, -⟩
          unfold Scambio.nodeView
          rw [herror₁, herror₂]

end Node

end Scambio
