import Scambio.Smtpd.Nodes

/-!
# MailSafe — which mails are parsed safely (`smtpd/parse.c`)

`Fine` tells from the bytes of a part, and of the parts in it, that each header is closed in its part, that a
multipart has no NUL, that a base64 body has no brace before an error, and that no buffer is filled to its last
byte.  One lemma per function of the parser leads to `msgTreeRead_safe_iff`: these mails, where the buffer of the
mail has room for them, are the ones that are parsed safely.
-/

namespace Scambio

open Library

/-! ## Runs -/

/-- The run returns, and every part visited has the property. -/
structure MailRun.Good {α : Type} (P : Bytes → Nat → Prop) (r : MailRun α) : Prop where
  returns : ∃ t, r.result = .ok t
  visits : ∀ v ∈ r.visits, P v.1 v.2

/-- The parser returns a tree or an error, and every part is safe. -/
def MailSafe [Host] (r : MailRun MsgTree) : Prop :=
  r.Good NodeSafe

section Good

variable {P : Bytes → Nat → Prop} {α β : Type}

theorem good_of_no_visit (t : Except Err α) : MailRun.Good P ⟨[], .ok t⟩ :=
  ⟨⟨t, rfl⟩, fun _ hv => nomatch hv⟩

theorem not_good_of_fault {visits : List (Bytes × Nat)} {fault : MailFault} :
    ¬ MailRun.Good P (⟨visits, .error fault⟩ : MailRun α) := by
  rintro ⟨⟨_, hresult⟩, -⟩
  cases hresult

theorem good_join {r : MailRun MsgTree} {parts : List MsgTree} : (r.join parts).Good P ↔ r.Good P := by
  rcases r with ⟨visits, fault | t⟩
  · exact ⟨fun h => absurd h not_good_of_fault, fun h => absurd h not_good_of_fault⟩
  · exact ⟨fun h => ⟨⟨t, rfl⟩, h.visits⟩, fun h => ⟨⟨_, rfl⟩, h.visits⟩⟩

/-- A part is visited, and then what comes of `result` is turned into a tree. -/
theorem good_visit {v : Bytes × Nat} {visits : List (Bytes × Nat)} {result : Except MailFault (Except Err α)}
    {f : Except Err α → Except Err β} :
    MailRun.Good P ⟨v :: visits, result.map f⟩ ↔ P v.1 v.2 ∧ MailRun.Good P ⟨visits, result⟩ := by
  rcases result with fault | t
  · constructor
    · intro h
      exact absurd h not_good_of_fault
    · rintro ⟨-, h⟩
      exact absurd h not_good_of_fault
  · constructor
    · intro h
      refine ⟨h.visits v List.mem_cons_self, ⟨t, rfl⟩, fun w hw => ?_⟩
      exact h.visits w (List.mem_cons_of_mem _ hw)
    · rintro ⟨hv, h⟩
      refine ⟨⟨f t, rfl⟩, fun w hw => ?_⟩
      rcases List.mem_cons.1 hw with rfl | hw
      · exact hv
      · exact h.visits w hw

/-- Where what comes next does not depend on the value. -/
theorem good_andThen {r : MailRun α} {next : α → MailRun β} {C : Prop}
    (hvalue : r.Good P → ∃ a, r.result = .ok (.ok a)) (hnext : ∀ a, (next a).Good P ↔ C) :
    (r.andThen next).Good P ↔ r.Good P ∧ C := by
  rcases r with ⟨visits, fault | e | a⟩
  · constructor
    · intro h
      exact absurd h not_good_of_fault
    · rintro ⟨h, -⟩
      exact absurd h not_good_of_fault
  · have hbad : ¬ MailRun.Good P (⟨visits, .ok (.error e)⟩ : MailRun α) := by
      intro h
      rcases hvalue h with ⟨_, hresult⟩
      cases hresult
    constructor
    · intro h
      exact absurd ⟨⟨_, rfl⟩, h.visits⟩ hbad
    · rintro ⟨h, -⟩
      exact absurd h hbad
  · rw [← hnext a]
    constructor
    · intro h
      refine ⟨⟨⟨_, rfl⟩, fun v hv => ?_⟩, h.returns, fun v hv => ?_⟩
      · exact h.visits v (List.mem_append_left _ hv)
      · exact h.visits v (List.mem_append_right _ hv)
    · rintro ⟨hr, ha⟩
      refine ⟨ha.returns, fun v hv => ?_⟩
      rcases List.mem_append.1 hv with hv | hv
      · exact hr.visits v hv
      · exact ha.visits v hv

end Good

/-! ## Parts of a multipart -/

/-- The parts that `parse_multipart` visits, from the bytes of the multipart alone. -/
def cutParts (boundary : Bytes) : Nat → Bool → Bytes → List Bytes
  | 0, _, _ => []
  | fuel + 1, firstBoundary, msg =>
      match findInfix boundary msg with
      | none => []
      | some delim =>
          (if firstBoundary then [] else [msg.take delim]) ++
            match lineAfterBoundary (msg.drop (delim + boundary.length)) with
            | (false, some next) => if next = [] then [] else cutParts boundary fuel false next
            | _ => []

def partsOf (boundary msg : Bytes) : List Bytes :=
  cutParts boundary (msg.length + 1) true msg

theorem skipNewline_some {msg next : Bytes} (h : skipNewline msg = some next) : msg = 10 :: next := by
  cases msg with
  | nil => cases h
  | cons c msg =>
      rcases Option.ite_none_right_eq_some.1 h with ⟨rfl, hmsg⟩
      rw [Option.some.inj hmsg]

theorem lineAfterBoundary_some {msg next : Bytes} (h : (lineAfterBoundary msg).2 = some next) :
    ∃ w, msg = w ++ 10 :: next := by
  have hsuffix : ∀ text : Bytes, skipNewline (text.dropWhile isblank) = some next →
      ∃ w, text = w ++ 10 :: next := by
    intro text htext
    refine ⟨text.takeWhile isblank, ?_⟩
    rw [← skipNewline_some htext, List.takeWhile_append_dropWhile]
  simp only [lineAfterBoundary] at h
  split at h
  · rcases hsuffix _ h with ⟨w, hw⟩
    refine ⟨msg.take 2 ++ w, ?_⟩
    rw [List.append_assoc, ← hw, List.take_append_drop]
  · exact hsuffix _ h

variable {nested : Bool} {p after : Bytes} {h : Header} {k : Nat}

/-- The end of line is found in the part, or after it if at all. -/
theorem skipNewline_append (msg after : Bytes) :
    (∃ next, skipNewline (msg.dropWhile isblank) = some next ∧
      skipNewline ((msg ++ after).dropWhile isblank) = some (next ++ after)) ∨
    (skipNewline (msg.dropWhile isblank) = none ∧
      ∀ next, skipNewline ((msg ++ after).dropWhile isblank) = some next → next.length < after.length) := by
  rw [List.dropWhile_append]
  cases hmsg : msg.dropWhile isblank with
  | nil =>
      refine .inr ⟨rfl, fun next hnext => ?_⟩
      have hsuffix : 10 :: next <:+ after := by
        rw [← skipNewline_some hnext]
        exact List.dropWhile_suffix _
      exact hsuffix.length_le
  | cons c rest =>
      by_cases hc : c = 10
      · subst hc
        exact .inl ⟨rest, rfl, rfl⟩
      · refine .inr ⟨if_neg hc, fun next hnext => ?_⟩
        have hnone : skipNewline (c :: rest ++ after) = none := if_neg hc
        simp only [List.isEmpty_cons, Bool.false_eq_true, if_false, hnone] at hnext
        cases hnext

/-- No dash of a boundary line is taken from the delimiter that follows. -/
theorem isPrefixOf_dashes_append (hafter : Follows nested after) (msg : Bytes) :
    (ascii "--").isPrefixOf (msg ++ after) = (ascii "--").isPrefixOf msg := by
  cases nested with
  | false =>
      cases hafter
      rw [List.append_nil]
  | true =>
      rcases hafter with ⟨r, rfl⟩
      rcases msg with _ | ⟨a, _ | ⟨b, msg⟩⟩
      · rfl
      · simp [ascii, charByte, List.isPrefixOf]
      · rfl

theorem lineAfterBoundary_append (hafter : Follows nested after) (msg : Bytes) :
    (∃ last next, lineAfterBoundary msg = (last, some next) ∧
      lineAfterBoundary (msg ++ after) = (last, some (next ++ after))) ∨
    ((lineAfterBoundary msg).2 = none ∧
      ∀ next, (lineAfterBoundary (msg ++ after)).2 = some next → next.length < after.length) := by
  simp only [lineAfterBoundary, isPrefixOf_dashes_append hafter]
  by_cases hlast : (ascii "--").isPrefixOf msg = true
  · have hlen : 2 ≤ msg.length := (List.isPrefixOf_iff_prefix.1 hlast).length_le
    simp only [hlast, if_true, List.drop_append_of_le_length hlen]
    rcases skipNewline_append (msg.drop 2) after with ⟨next, hnext, hnext'⟩ | hnone
    · exact .inl ⟨true, next, by rw [hnext], by rw [hnext']⟩
    · exact .inr hnone
  · simp only [hlast, if_false, Bool.false_eq_true]
    rcases skipNewline_append msg after with ⟨next, hnext, hnext'⟩ | hnone
    · exact .inl ⟨_, next, by rw [hnext], by rw [hnext']⟩
    · exact .inr hnone

/-! ## The loop -/

section Loop

variable {P : Bytes → Nat → Prop} {F : Bytes → Prop} {parse : Bytes → Nat → MailRun MsgTree} {boundary : Bytes}

theorem strnstr_part (hnul : (0 : UInt8) ∉ p) : strnstr (p ++ after) boundary p.length = .ok (findInfix boundary p) := by
  have hlen : p.length ≤ (cstr (p ++ after)).length := by
    rw [cstr_append hnul, List.length_append]
    omega
  rw [strnstr, if_pos hlen, List.take_left]

/-- What stands before a delimiter, and the delimiter that follows. -/
theorem append_of_findInfix (hboundary : ascii "\n--" <+: boundary) {delim : Nat}
    (hfind : findInfix boundary p = some delim) (after : Bytes) :
    ∃ a, Follows true a ∧ p ++ after = p.take delim ++ a := by
  rcases hboundary with ⟨name, rfl⟩
  rcases findInfix_some hfind with ⟨rest, hrest⟩
  refine ⟨p.drop delim ++ after, ⟨name ++ (rest ++ after), ?_⟩, ?_⟩
  · rw [← hrest, List.append_assoc, List.append_assoc]
    rfl
  · rw [← List.append_assoc, List.take_append_drop]

theorem exists_value_partBefore {firstBoundary : Bool} {msg : Bytes} {delim : Nat} {parts : List MsgTree}
    (hgood : (partBefore parse firstBoundary msg delim parts).Good P) :
    ∃ parts', (partBefore parse firstBoundary msg delim parts).result = .ok (.ok parts') := by
  cases firstBoundary with
  | true => exact ⟨parts, rfl⟩
  | false =>
      rcases hgood.returns with ⟨t, ht⟩
      cases hr : (parse msg delim).result with
      | error fault =>
          simp only [partBefore, MailRun.join, hr] at ht
          cases ht
      | ok t =>
          cases t with
          | error e => exact ⟨parts, by simp only [partBefore, MailRun.join, hr]; rfl⟩
          | ok part => exact ⟨part :: parts, by simp only [partBefore, MailRun.join, hr]; rfl⟩

theorem good_partBefore (hboundary : ascii "\n--" <+: boundary) {delim : Nat} (firstBoundary : Bool)
    (parts : List MsgTree) (hfind : findInfix boundary p = some delim) (hdelim : delim < p.length)
    (hparse : ∀ q a, q.length < p.length → Follows true a → ((parse (q ++ a) q.length).Good P ↔ F q)) :
    (partBefore parse firstBoundary (p ++ after) delim parts).Good P ↔
      ∀ q ∈ (if firstBoundary then [] else [p.take delim]), F q := by
  cases firstBoundary with
  | true => exact ⟨fun _ q hq => (nomatch hq), fun _ => good_of_no_visit _⟩
  | false =>
      have htake : (p.take delim).length = delim := by
        rw [List.length_take]
        exact Nat.min_eq_left hdelim.le
      rcases append_of_findInfix hboundary hfind after with ⟨a, ha, heq⟩
      have hgood := hparse (p.take delim) a (by omega) ha
      rw [htake, ← heq] at hgood
      simp only [partBefore, Bool.false_eq_true, if_false, good_join, hgood, List.mem_singleton, forall_eq]

/-- The loop is good if and only if the parts are, whatever follows the multipart. -/
theorem good_multipartLoop (hboundary : ascii "\n--" <+: boundary) (hafter : Follows nested after)
    (fuel : Nat) (firstBoundary : Bool) (p : Bytes) (parts : List MsgTree) (hfuel : p.length < fuel)
    (hnul : (0 : UInt8) ∉ p)
    (hparse : ∀ q a, q.length < p.length → Follows true a → ((parse (q ++ a) q.length).Good P ↔ F q)) :
    (multipartLoop parse boundary fuel firstBoundary (p ++ after) p.length parts).Good P ↔
      ∀ q ∈ cutParts boundary fuel firstBoundary p, F q := by
  induction fuel generalizing firstBoundary p parts with
  | zero => exact absurd hfuel (Nat.not_lt_zero _)
  | succ fuel ih =>
      rw [multipartLoop, cutParts, strnstr_part hnul]
      cases hfind : findInfix boundary p with
      | none => exact ⟨fun _ q hq => (nomatch hq), fun _ => good_of_no_visit _⟩
      | some delim =>
          have hne : boundary ≠ [] := by
            rintro rfl
            cases List.prefix_nil.1 hboundary
          have hlen := findInfix_add_length_le hne hfind
          have hpos := List.length_pos_iff.2 hne
          have hdelim : ¬ p.length ≤ delim := by omega
          simp only [if_neg hdelim, List.forall_mem_append, List.drop_append_of_le_length hlen]
          rw [← good_partBefore hboundary firstBoundary parts hfind (by omega) hparse]
          refine good_andThen exists_value_partBefore fun parts => ?_
          rcases lineAfterBoundary_append hafter (p.drop (delim + boundary.length)) with
            ⟨last, next, hline, hline'⟩ | ⟨hnone, hover⟩
          · -- the next part starts in this one
            rcases lineAfterBoundary_some (congrArg Prod.snd hline) with ⟨w, hw⟩
            have hsuffix : next <:+ p := by
              refine List.IsSuffix.trans ⟨w ++ [10], ?_⟩ (List.drop_suffix (delim + boundary.length) p)
              rw [hw, List.append_assoc]
              rfl
            have hnext : next.length < p.length := by
              have := congrArg List.length hw
              simp only [List.length_drop, List.length_append, List.length_cons] at this
              omega
            have hskip : (p ++ after).length - (next ++ after).length = p.length - next.length := by
              simp only [List.length_append]
              omega
            simp only [hline, hline', hskip]
            cases last with
            | true =>
                simp only [Bool.true_eq_false, and_false, if_false]
                exact ⟨fun _ q hq => (nomatch hq), fun _ => good_of_no_visit _⟩
            | false =>
                -- the loop goes on while there is something left of this multipart
                by_cases hend : next = []
                · subst hend
                  simp only [List.length_nil, Nat.sub_zero, lt_irrefl, false_and, if_false, if_true]
                  exact ⟨fun _ q hq => (nomatch hq), fun _ => good_of_no_visit _⟩
                · have hpos' := List.length_pos_iff.2 hend
                  have hmore : p.length - next.length < p.length := by omega
                  have hrest : p.length - (p.length - next.length) = next.length := by omega
                  simp only [hmore, hend, hrest, and_self, if_true, if_false]
                  refine ih false next parts (by omega) (fun h0 => hnul (hsuffix.subset h0)) ?_
                  intro q a hq ha
                  exact hparse q a (by omega) ha
          · -- the boundary line does not end in this one
            have hcut : ∀ q ∈ (match lineAfterBoundary (p.drop (delim + boundary.length)) with
                | (false, some next) => if next = [] then [] else cutParts boundary fuel false next
                | _ => []), F q := by
              rcases hline : lineAfterBoundary (p.drop (delim + boundary.length)) with ⟨last, rest⟩
              rw [hline] at hnone
              cases hnone
              cases last <;> exact fun q hq => nomatch hq
            refine (iff_true_right hcut).2 ?_
            rcases hline : lineAfterBoundary (p.drop (delim + boundary.length) ++ after) with ⟨last, _ | next⟩
            · exact good_of_no_visit _
            · have hnext := hover next (by rw [hline])
              have hskip : ¬ (p ++ after).length - next.length < p.length := by
                simp only [List.length_append]
                omega
              simp only [hskip, false_and, if_false]
              exact good_of_no_visit _

end Loop

/-! ## Files -/

/-- No brace is met: the decoder stops on an error before the first one. -/
def BraceFree (msg : Bytes) : Prop :=
  ∀ a b, msg = a ++ 123 :: b → (123 : UInt8) ∉ a → ∃ e, decodeBase64 a = .ok (.error e)

/-- The content does not fill its buffer exactly, and has no brace in the way. -/
def Decodable (h : Header) (msg : Bytes) : Prop :=
  match headerFind h (ascii "content-transfer-encoding") with
  | none => msg.length ≠ FILE_ROOM + 1
  | some encoding =>
      if strcaseeq encoding.value (ascii "quoted-printable") then (quotedText msg).length ≤ FILE_ROOM
      else if strcaseeq encoding.value (ascii "base64") then ¬ base64Fills msg ∧ BraceFree msg
      else msg.length ≠ FILE_ROOM + 1

/-- The brace is the only character that is looked for out of the table. -/
theorem base64Step_returns (s : Base64State) (c : UInt8) : (∃ t, base64Step s c = .ok t) ↔ c ≠ 123 := by
  constructor
  · rintro ⟨t, ht⟩ rfl
    cases ht
  · intro hc
    have hne : ¬ c.toNat = B64_SIZE := fun h => hc (UInt8.toNat_inj.1 h)
    unfold base64Step
    simp only [hne, if_false]
    repeat' split
    all_goals exact ⟨_, rfl⟩

/-- After another character, a brace comes later. -/
theorem forall_brace_cons {Q : Bytes → Prop} {c : UInt8} {msg : Bytes} (hc : c ≠ 123) :
    (∀ a b, c :: msg = a ++ 123 :: b → (123 : UInt8) ∉ a → Q a) ↔
      ∀ a b, msg = a ++ 123 :: b → (123 : UInt8) ∉ a → Q (c :: a) := by
  constructor
  · intro h a b hmsg ha
    refine h (c :: a) b (by rw [hmsg]; rfl) ?_
    rw [List.mem_cons, not_or]
    exact ⟨hc.symm, ha⟩
  · intro h a b hmsg ha
    cases a with
    | nil =>
        cases hmsg
        exact absurd rfl hc
    | cons d a =>
        rw [List.cons_append, List.cons.injEq] at hmsg
        rcases hmsg with ⟨rfl, hmsg⟩
        exact h a b hmsg fun hmem => ha (List.mem_cons_of_mem _ hmem)

/-- A character that is decoded leaves the outcome to the ones after it. -/
theorem decodeBase64Loop_cons {s s' : Base64State} {c : UInt8} {output : Bytes}
    (hstep : base64Step s c = .ok (.ok (s', output))) (msg : Bytes) :
    ((∃ t, decodeBase64Loop s (c :: msg) = .ok t) ↔ ∃ t, decodeBase64Loop s' msg = .ok t) ∧
    ((∃ e, decodeBase64Loop s (c :: msg) = .ok (.error e)) ↔ ∃ e, decodeBase64Loop s' msg = .ok (.error e)) := by
  simp only [decodeBase64Loop, hstep]
  rcases decodeBase64Loop s' msg with fault | e | data <;> simp

theorem decodeBase64Loop_returns (s : Base64State) (msg : Bytes) :
    (∃ t, decodeBase64Loop s msg = .ok t) ↔
      ∀ a b, msg = a ++ 123 :: b → (123 : UInt8) ∉ a → ∃ e, decodeBase64Loop s a = .ok (.error e) := by
  induction msg generalizing s with
  | nil => exact ⟨fun _ a b h => absurd h (by simp), fun _ => ⟨_, rfl⟩⟩
  | cons c msg ih =>
      by_cases hc : c = 123
      · subst hc
        constructor
        · rintro ⟨t, ht⟩
          cases ht
        · intro h
          rcases h [] msg rfl List.not_mem_nil with ⟨e, he⟩
          cases he
      · rw [forall_brace_cons hc]
        rcases (base64Step_returns s c).2 hc with ⟨e | ⟨s', output⟩, hstep⟩
        · have hstop : ∀ a, decodeBase64Loop s (c :: a) = .ok (.error e) := by
            intro a
            rw [decodeBase64Loop, hstep]
          exact ⟨fun _ a b _ _ => ⟨e, hstop a⟩, fun _ => ⟨_, hstop msg⟩⟩
        · simp only [(decodeBase64Loop_cons hstep _).1, (decodeBase64Loop_cons hstep _).2]
          exact ih s'

theorem copyInVarbuf_returns (msg : Bytes) : (∃ t, copyInVarbuf msg = .ok t) ↔ msg.length ≠ FILE_ROOM + 1 := by
  rw [copyInVarbuf_eq]
  split
  · next hfull => exact iff_of_false (fun ⟨_, h⟩ => nomatch h) (not_not.2 hfull)
  · next hroom => exact iff_of_true ⟨_, rfl⟩ hroom

theorem decodeQuoted_returns (msg : Bytes) :
    (∃ data, decodeQuoted msg = .ok data) ↔ (quotedText msg).length ≤ FILE_ROOM := by
  rw [decodeQuoted_eq]
  split
  · next hover => exact iff_of_false (fun ⟨_, h⟩ => nomatch h) (Nat.not_le.2 hover)
  · next hroom => exact iff_of_true ⟨_, rfl⟩ (Nat.not_lt.1 hroom)

theorem decodeInVarbuf_returns (h : Header) (msg : Bytes) :
    (∃ t, decodeInVarbuf h msg = .ok t) ↔ Decodable h msg := by
  unfold decodeInVarbuf Decodable
  cases headerFind h (ascii "content-transfer-encoding") with
  | none => exact copyInVarbuf_returns msg
  | some encoding =>
      simp only
      split
      · rw [← decodeQuoted_returns]
        rcases decodeQuoted msg with fault | data
        · exact iff_of_false (fun ⟨_, h⟩ => nomatch h) (fun ⟨_, h⟩ => nomatch h)
        · exact iff_of_true ⟨_, rfl⟩ ⟨_, rfl⟩
      · split
        · split
          · next hfills => exact iff_of_false (fun ⟨_, h⟩ => nomatch h) fun h => h.1 hfills
          · next hroom =>
            rw [and_iff_right hroom]
            exact decodeBase64Loop_returns _ msg
        · exact copyInVarbuf_returns msg

/-! ## Mails -/

/-- The parts that are parsed safely. -/
inductive Fine : Bool → Bytes → Prop
  /-- No header is found at all: a field is malformed, and the ones before it have room in their buffers. -/
  | rejected {nested : Bool} {p : Bytes} {e : Err} (hrejected : partHeader nested p = .error e)
      (hmalformed : stopOf e = .malformed) : Fine nested p
  | file {nested : Bool} {p : Bytes} {h : Header} {k : Nat} (hclosed : ClosedHeader nested p h k)
      (hfile : boundaryOf h = none) (hdecodable : Decodable h (p.drop (skipBlankLine p k))) : Fine nested p
  | multipart {nested : Bool} {p : Bytes} {h : Header} {k : Nat} {boundary : Bytes}
      (hclosed : ClosedHeader nested p h k) (hboundary : boundaryOf h = some boundary) (hnul : (0 : UInt8) ∉ p)
      (hparts : ∀ q ∈ partsOf boundary p, Fine true q) : Fine nested p

theorem Fine.closed (hfine : Fine nested p) (hparsed : partHeader nested p = .ok (h, k)) :
    ClosedHeader nested p h k := by
  cases hfine with
  | rejected hrejected _ =>
      rw [hparsed] at hrejected
      cases hrejected
  | file hclosed _ _ =>
      have heq := hclosed.parsed.symm.trans hparsed
      cases heq
      exact hclosed
  | multipart hclosed _ _ _ =>
      have heq := hclosed.parsed.symm.trans hparsed
      cases heq
      exact hclosed

theorem Fine.malformed {e : Err} (hfine : Fine nested p) (hrejected : partHeader nested p = .error e) :
    stopOf e = .malformed := by
  cases hfine with
  | rejected hrejected' hmalformed =>
      have heq := hrejected'.symm.trans hrejected
      cases heq
      exact hmalformed
  | file hclosed _ _ =>
      have heq := hclosed.parsed.symm.trans hrejected
      cases heq
  | multipart hclosed _ _ _ =>
      have heq := hclosed.parsed.symm.trans hrejected
      cases heq

theorem Fine.file_iff (hclosed : ClosedHeader nested p h k) (hfile : boundaryOf h = none) :
    Fine nested p ↔ Decodable h (p.drop (skipBlankLine p k)) := by
  refine ⟨fun hfine => ?_, .file hclosed hfile⟩
  cases hfine with
  | rejected hrejected _ =>
      rw [hclosed.parsed] at hrejected
      cases hrejected
  | file hclosed' _ hdecodable =>
      have heq := hclosed'.parsed.symm.trans hclosed.parsed
      cases heq
      exact hdecodable
  | multipart hclosed' hboundary _ _ =>
      have heq := hclosed'.parsed.symm.trans hclosed.parsed
      cases heq
      rw [hfile] at hboundary
      cases hboundary

theorem Fine.multipart_iff {boundary : Bytes} (hclosed : ClosedHeader nested p h k)
    (hboundary : boundaryOf h = some boundary) :
    Fine nested p ↔ (0 : UInt8) ∉ p ∧ ∀ q ∈ partsOf boundary p, Fine true q := by
  refine ⟨fun hfine => ?_, fun h => .multipart hclosed hboundary h.1 h.2⟩
  cases hfine with
  | rejected hrejected _ =>
      rw [hclosed.parsed] at hrejected
      cases hrejected
  | file hclosed' hfile _ =>
      have heq := hclosed'.parsed.symm.trans hclosed.parsed
      cases heq
      rw [hboundary] at hfile
      cases hfile
  | multipart hclosed' hboundary' hnul hparts =>
      have heq := hclosed'.parsed.symm.trans hclosed.parsed
      cases heq
      rw [hboundary] at hboundary'
      cases hboundary'
      exact ⟨hnul, hparts⟩

theorem boundaryOf_delimiter {boundary : Bytes} (h' : boundaryOf h = some boundary) : ascii "\n--" <+: boundary := by
  unfold boundaryOf at h'
  split at h'
  · cases h'
  · split at h'
    · rcases Option.map_eq_some_iff.1 h' with ⟨b, -, rfl⟩
      exact List.prefix_append _ _
    · cases h'

section Parse

variable [Host] {mimeType2ext : Bytes → Option Bytes}

/-- A node is visited before anything else. -/
theorem nodeSafe_of_good {fuel : Nat} {msg : Bytes} {size : Nat}
    (hgood : (parseMailRec mimeType2ext fuel msg size).Good NodeSafe) : NodeSafe msg size := by
  refine hgood.visits (msg, size) ?_
  cases fuel with
  | zero => exact List.mem_cons_self
  | succ fuel =>
      unfold parseMailRec
      simp only
      repeat' split
      all_goals exact List.mem_cons_self

omit [Host] in
/-- A NUL in a multipart stops the search for its boundary. -/
theorem not_good_of_nul {P : Bytes → Nat → Prop} {parse : Bytes → Nat → MailRun MsgTree} {boundary : Bytes}
    {fuel : Nat} (hnul : (0 : UInt8) ∈ p) :
    ¬ (multipartLoop parse boundary fuel true (p ++ after) p.length []).Good P := by
  have hlen := length_cstr_lt hnul
  have hstop : strnstr (p ++ after) boundary p.length = .error .strnstr := by
    rw [strnstr, cstr_append_of_mem hnul, if_neg (by omega)]
  cases fuel with
  | zero => exact not_good_of_fault
  | succ fuel =>
      rw [multipartLoop, hstop]
      exact not_good_of_fault

theorem ClosedHeader.nodeSafe (hclosed : ClosedHeader nested p h k) (hafter : Follows nested after) :
    NodeSafe (p ++ after) p.length := by
  rw [nodeSafe_iff hafter]
  intro h' k' hparsed
  have heq := hclosed.parsed.symm.trans hparsed
  cases heq
  exact hclosed

/-- `parse_mail_node` on a file. -/
theorem good_file (fuel : Nat) (hclosed : ClosedHeader nested p h k) (hafter : Follows nested after)
    (hfile : boundaryOf h = none) :
    (parseMailRec mimeType2ext (fuel + 1) (p ++ after) p.length).Good NodeSafe ↔
      Decodable h (p.drop (skipBlankLine p k)) := by
  have hstart := hclosed.skipBlankLine_le_length
  rw [parseMailRec, hclosed.headerParse hafter]
  simp only [hfile, hclosed.skipBlankLine_eq hfile hafter, if_neg (Nat.not_lt.2 hclosed.inside),
    if_neg (Nat.not_lt.2 hstart), drop_take_part hstart]
  rw [good_visit, ← decodeInVarbuf_returns]
  constructor
  · rintro ⟨-, hgood⟩
    exact hgood.returns
  · intro hreturns
    exact ⟨hclosed.nodeSafe hafter, hreturns, fun _ hv => nomatch hv⟩

/-- `parse_mail_node` on a multipart. -/
theorem good_multipart (fuel : Nat) {boundary : Bytes} (hclosed : ClosedHeader nested p h k)
    (hafter : Follows nested after) (hboundary : boundaryOf h = some boundary) :
    (parseMailRec mimeType2ext (fuel + 1) (p ++ after) p.length).Good NodeSafe ↔
      (multipartLoop (parseMailRec mimeType2ext fuel) boundary (p.length + 1) true (p ++ after) p.length []).Good
        NodeSafe := by
  rw [parseMailRec, hclosed.headerParse hafter]
  simp only [hboundary, if_neg (Nat.not_lt.2 hclosed.inside)]
  rw [good_visit]
  exact ⟨fun h => h.2, fun h => ⟨hclosed.nodeSafe hafter, h⟩⟩

/-- `parse_mail_rec` is safe on the parts that are fine, and on no other one. -/
theorem good_parseMailRec (fuel : Nat) (nested : Bool) (p after : Bytes) (hafter : Follows nested after)
    (hfuel : p.length < fuel) :
    (parseMailRec mimeType2ext fuel (p ++ after) p.length).Good NodeSafe ↔ Fine nested p := by
  induction fuel generalizing nested p after with
  | zero => exact absurd hfuel (Nat.not_lt_zero _)
  | succ fuel ih =>
      cases hparsed : partHeader nested p with
      | error e =>
          rcases headerParse_of_rejected hparsed hafter ‹Host› with ⟨e', herror, hstop⟩
          have hsafe : NodeSafe (p ++ after) p.length := by
            rw [nodeSafe_iff hafter]
            intro h k hok
            rw [hparsed] at hok
            cases hok
          rw [parseMailRec, herror]
          cases e' with
          | push code str =>
              refine ⟨fun _ => .rejected hparsed hstop.symm, fun _ => ?_⟩
              exact ⟨⟨_, rfl⟩, by simpa using hsafe⟩
          | abort assertion =>
              -- a field has no room
              refine ⟨fun hgood => absurd hgood not_good_of_fault, fun hfine => ?_⟩
              rw [hfine.malformed hparsed] at hstop
              cases hstop
      | ok r =>
          rcases r with ⟨h, k⟩
          by_cases hclosed : ClosedHeader nested p h k
          · cases hboundary : boundaryOf h with
            | none => rw [good_file fuel hclosed hafter hboundary, Fine.file_iff hclosed hboundary]
            | some boundary =>
                rw [good_multipart fuel hclosed hafter hboundary, Fine.multipart_iff hclosed hboundary]
                by_cases hnul : (0 : UInt8) ∈ p
                · exact ⟨fun hgood => absurd hgood (not_good_of_nul hnul), fun hfine => absurd hnul hfine.1⟩
                · -- the parts are shorter
                  rw [good_multipartLoop (boundaryOf_delimiter hboundary) hafter _ true p [] (Nat.lt_succ_self _) hnul
                    fun q a hq ha => ih true q a ha (by omega)]
                  exact ⟨fun hparts => ⟨hnul, hparts⟩, fun hfine => hfine.2⟩
          · -- neither side holds of a header that is not closed
            constructor
            · intro hgood
              exact absurd ((nodeSafe_iff hafter).1 (nodeSafe_of_good hgood) h k hparsed) hclosed
            · intro hfine
              exact absurd (hfine.closed hparsed) hclosed

end Parse

/-! ## Reading -/

theorem length_rest_readLineLoop_le (maxlen n : Nat) (wasCR : Bool) (fd : Bytes) :
    (readLineLoop maxlen n wasCR fd).rest.length ≤ fd.length := by
  induction fd generalizing n wasCR with
  | nil => exact le_rfl
  | cons byte rest ih =>
      rw [readLineLoop]
      split
      · split
        · exact le_trans (ih _ _) (Nat.le_succ _)
        · simp only
          split
          · exact Nat.le_succ _
          · exact le_trans (ih _ _) (Nat.le_succ _)
      · exact le_rfl

/-- A line takes a byte at least. -/
theorem varbufReadLine_progress {maxlen : Nat} (hmaxlen : 0 < maxlen) {fd : Bytes}
    (heof : (varbufReadLine maxlen fd).eof = false) : (varbufReadLine maxlen fd).rest.length < fd.length := by
  unfold varbufReadLine at heof ⊢
  cases fd with
  | nil => simp [readLineLoop, hmaxlen] at heof
  | cons byte rest =>
      have hle := length_rest_readLineLoop_le maxlen
      rw [readLineLoop, if_pos hmaxlen]
      split
      · exact Nat.lt_succ_of_le (hle _ _ _)
      · simp only
        split
        · exact Nat.lt_succ_self _
        · exact Nat.lt_succ_of_le (hle _ _ _)

/-- What `read_whole_mail` puts in its buffer: the lines up to the dot, and that one or what there is of it. -/
def wholeMailLoop : Nat → Bytes → Bytes
  | 0, _ => []
  | fuel + 1, fd =>
      let r := varbufReadLine MAX_MAILLINE_LENGTH fd
      if r.eof then r.line
      else if lineMatchDot r.line then r.line
      else r.line ++ wholeMailLoop fuel r.rest

def wholeMail (fd : Bytes) : Bytes :=
  wholeMailLoop (fd.length + 1) fd

theorem readWholeMailLoop_returns (fuel : Nat) (vb fd : Bytes) (hfuel : fd.length < fuel) :
    (∃ t, readWholeMailLoop fuel vb fd = .ok t) ↔ vb.length + (wholeMailLoop fuel fd).length ≤ MAIL_ROOM := by
  induction fuel generalizing vb fd with
  | zero => exact absurd hfuel (Nat.not_lt_zero _)
  | succ fuel ih =>
      have hfirst : (varbufReadLine MAX_MAILLINE_LENGTH fd).line.length ≤ (wholeMailLoop (fuel + 1) fd).length := by
        simp only [wholeMailLoop]
        split_ifs
        · exact le_rfl
        · exact le_rfl
        · exact le_trans (Nat.le_add_right _ _) List.length_append.ge
      rw [readWholeMailLoop]
      split
      · next hover => exact iff_of_false (fun ⟨_, h⟩ => nomatch h) (by omega)
      · next hroom =>
        simp only [wholeMailLoop]
        split
        · next heof => exact iff_of_true ⟨_, rfl⟩ (by omega)
        · next heof =>
          split
          · next hdot => exact iff_of_true ⟨_, rfl⟩ (by omega)
          · next hdot =>
            have hprogress := varbufReadLine_progress (by decide) (Bool.eq_false_of_not_eq_true heof)
            rw [ih _ _ (by omega), List.length_append, List.length_append, Nat.add_assoc]

/-- For every content of the connection: the mail is parsed safely if and only if it has room in its buffer and is
fine. -/
theorem msgTreeRead_safe_iff [Host] (mimeType2ext : Bytes → Option Bytes) (fd : Bytes) :
    MailSafe (msgTreeRead mimeType2ext fd) ↔
      (wholeMail fd).length ≤ MAIL_ROOM ∧ ∀ vb, readWholeMail fd = .ok (.ok vb) → Fine false vb := by
  have hreturns : (∃ t, readWholeMail fd = .ok t) ↔ (wholeMail fd).length ≤ MAIL_ROOM := by
    rw [readWholeMail, readWholeMailLoop_returns _ _ _ (Nat.lt_succ_self _), wholeMail, List.length_nil, Nat.zero_add]
  rw [← hreturns]
  rcases hread : readWholeMail fd with fault | e | vb
  · rw [msgTreeRead, hread]
    exact iff_of_false not_good_of_fault fun h => nomatch h.1
  · rw [msgTreeRead, hread]
    refine iff_of_true (good_of_no_visit _) ⟨⟨_, rfl⟩, fun vb hvb => ?_⟩
    cases hvb
  · have hgood := @good_parseMailRec _ mimeType2ext (vb.length + 1) false vb [] rfl (Nat.lt_succ_self _)
    rw [List.append_nil] at hgood
    rw [msgTreeRead, hread, and_iff_right ⟨_, rfl⟩]
    simp only [Except.ok.injEq, forall_eq']
    exact hgood

/-- A multipart with a closed part is fine. -/
example :
    let mail := ascii "Content-Type: multipart/mixed; boundary=b\n\n--b\nX: y\n\nbody\n--b--\n"
    Fine false mail := by
  intro mail
  have hroot : ClosedHeader false mail [⟨ascii "content-type", ascii "multipart/mixed; boundary=b"⟩] 42 :=
    ⟨by decide, by unfold NoBlankField; decide, by decide, by decide⟩
  have hpart : ClosedHeader true (ascii "X: y\n\nbody") [⟨ascii "x", ascii "y"⟩] 5 :=
    ⟨by decide, by unfold NoBlankField; decide, by decide, by decide⟩
  have hboundary : boundaryOf [⟨ascii "content-type", ascii "multipart/mixed; boundary=b"⟩] = some (ascii "\n--b") := by
    decide
  have hparts : partsOf (ascii "\n--b") mail = [ascii "X: y\n\nbody"] := by decide
  refine .multipart hroot hboundary (by decide) ?_
  rw [hparts, List.forall_mem_singleton]
  have hbody : (ascii "body").length ≠ FILE_ROOM + 1 := by decide
  exact .file hpart (by decide) hbody

/-- What has stopped the parser. -/
def MailRun.fault {α : Type} (run : MailRun α) : Option MailFault :=
  match run.result with
  | .error fault => some fault
  | .ok _ => none

/-- A part that ends in its header: the next lines are taken for its fields, and the process aborts. -/
theorem not_msgTreeRead_safe :
    ¬ ∀ (host : Host) (mimeType2ext : Bytes → Option Bytes) (fd : Bytes),
      @MailSafe host (@msgTreeRead host mimeType2ext fd) := by
  intro h
  let mail := ascii "Content-Type: multipart/mixed; boundary=b\n\n--b\nX: y\n--b\nfoo: bar\n\nbody\n--b--\n.\n"
  have hstop : (@msgTreeRead plainHost (fun _ => none) mail).fault = some .headerSize := by decide
  rcases (h plainHost (fun _ => none) mail).returns with ⟨t, ht⟩
  rw [MailRun.fault, ht] at hstop
  cases hstop

end Scambio
