import Mathlib.Data.List.Forall2
import Scambio.Lib.HeaderText

/-!
# HeaderBounds — how far `header_parse` reads (`lib/header.c`)

`header_parse` gets a text without its length.  `scanHeader` is what it does to the text, apart from the
buffers that `parse` hands over without having written to them and from the words of its errors; a text
that goes on after an end of line and a dash is scanned in the same way whatever comes next, or the scan
runs over that end of line.
-/

namespace Scambio

open Library

/-! ## Scanning without buffers -/

/-- Why a scan stops before the end of the header. -/
inductive ScanStop
  /-- A field is not terminated or has no value. -/
  | malformed
  /-- A name or a value has no room in the buffer of `parse`. -/
  | overrun
  deriving DecidableEq, Repr

/-- The kind of an error. -/
def stopOf : Err → ScanStop
  | .push _ _ => .malformed
  | .abort _ => .overrun

/-- What `parse` collects, and the number of characters. -/
def scanText (isDelimiter : Bytes → Bool) (msg : Bytes) : Except ScanStop (Bytes × Nat) :=
  if 1000 < (collected isDelimiter msg).length then .error .overrun
  else
    match parseLoop isDelimiter true msg with
    | none => .error .malformed
    | some r => .ok r

/-- What `parse_field` finds: the compacted name and value, and the number of characters. -/
def scanField (msg : Bytes) : Except ScanStop (Option (Bytes × Bytes × Nat)) :=
  match scanText isEndOfName msg with
  | .error stop => .error stop
  | .ok (_, 0) => .ok none
  | .ok (name, parsedN + 1) =>
      match scanText isEndOfValue (msg.drop (parsedN + 2)) with
      | .error stop => .error stop
      | .ok (_, 0) => .error .malformed
      | .ok (value, parsedV + 1) => .ok (some (name, value, (parsedN + 2) + (parsedV + 2)))

/-- The fields of `header_parse`, and the number of characters. -/
def scanHeaderLoop : Nat → Bytes → Except ScanStop (List (Bytes × Bytes) × Nat)
  | 0, _ => .ok ([], 0)
  | _ + 1, [] => .ok ([], 0)
  | fuel + 1, msg =>
      match scanField msg with
      | .error stop => .error stop
      | .ok none => .ok ([], 0)
      | .ok (some (name, value, parsed)) =>
          (scanHeaderLoop fuel (msg.drop parsed)).map fun r => ((name, value) :: r.1, parsed + r.2)

def scanHeader (msg : Bytes) : Except ScanStop (List (Bytes × Bytes) × Nat) :=
  scanHeaderLoop msg.length msg

theorem scanText_of_parseLoop {d : Bytes → Bool} {msg vb : Bytes} {n : Nat}
    (h : parseLoop d true msg = some (vb, n)) :
    scanText d msg = if 1000 < vb.length then .error .overrun else .ok (vb, n) := by
  rw [scanText, collected_of_parseLoop h, h]

theorem scanText_ok {d : Bytes → Bool} {msg vb : Bytes} {n : Nat} (h : scanText d msg = .ok (vb, n)) :
    parseLoop d true msg = some (vb, n) := by
  unfold scanText at h
  split_ifs at h
  split at h
  · cases h
  · next hloop =>
    cases h
    exact hloop

theorem map_eq_ok {ε α β : Type} {x : Except ε α} {f : α → β} {b : β} (h : x.map f = .ok b) :
    ∃ a, x = .ok a ∧ f a = b := by
  cases x with
  | error e => cases h
  | ok a => exact ⟨a, rfl, Except.ok.inj h⟩

theorem scanField_bounds {msg name value : Bytes} {parsed : Nat}
    (h : scanField msg = .ok (some (name, value, parsed))) : 2 ≤ parsed ∧ parsed ≤ msg.length := by
  unfold scanField at h
  split at h
  · cases h
  · cases h
  · next name' parsedN hname =>
    split at h
    · cases h
    · cases h
    · next value' parsedV hvalue =>
      have hlen := (parseLoop_some (scanText_ok hvalue)).1
      rw [List.length_drop] at hlen
      simp only [Except.ok.injEq, Option.some.injEq, Prod.mk.injEq] at h
      omega

theorem scanHeaderLoop_fuel (fuel : Nat) (msg : Bytes) (h : msg.length ≤ fuel) :
    scanHeaderLoop fuel msg = scanHeader msg := by
  induction hn : msg.length using Nat.strong_induction_on generalizing fuel msg with
  | _ n ih =>
      cases msg with
      | nil => cases fuel <;> rfl
      | cons c cs =>
          obtain ⟨f, rfl⟩ : ∃ f, fuel = f + 1 := ⟨fuel - 1, by simp at h; omega⟩
          simp only [scanHeader, List.length_cons, scanHeaderLoop]
          rcases hscan : scanField (c :: cs) with _ | _ | ⟨name, value, parsed⟩
          · rfl
          · rfl
          · have hpos := (scanField_bounds hscan).1
            have hdrop : ((c :: cs).drop parsed).length = cs.length + 1 - parsed := by simp
            simp only [List.length_cons] at hn h
            simp only [ih _ (by omega) f ((c :: cs).drop parsed) (by omega) hdrop,
              ih _ (by omega) cs.length ((c :: cs).drop parsed) (by omega) hdrop]

/-- One round of `header_parse`. -/
theorem scanHeader_step {msg : Bytes} (h : msg ≠ []) :
    scanHeader msg =
      match scanField msg with
      | .error stop => .error stop
      | .ok none => .ok ([], 0)
      | .ok (some (name, value, parsed)) =>
          (scanHeader (msg.drop parsed)).map fun r => ((name, value) :: r.1, parsed + r.2) := by
  cases msg with
  | nil => exact absurd rfl h
  | cons c cs =>
      simp only [scanHeader, List.length_cons, scanHeaderLoop]
      rcases hscan : scanField (c :: cs) with _ | _ | ⟨name, value, parsed⟩
      · rfl
      · rfl
      · have hpos := (scanField_bounds hscan).1
        have hle : ((c :: cs).drop parsed).length ≤ cs.length := by
          simp only [List.length_drop, List.length_cons]
          omega
        simp only [scanHeaderLoop_fuel cs.length _ hle]
        rfl

theorem scanHeader_le {msg : Bytes} {fields : List (Bytes × Bytes)} {k : Nat}
    (h : scanHeader msg = .ok (fields, k)) : k ≤ msg.length := by
  induction hn : msg.length using Nat.strong_induction_on generalizing msg fields k with
  | _ n ih =>
      by_cases hnil : msg = []
      · subst hnil
        cases h
        exact Nat.zero_le _
      · rw [scanHeader_step hnil] at h
        rcases hscan : scanField msg with _ | _ | ⟨name, value, parsed⟩
        · rw [hscan] at h
          cases h
        · rw [hscan] at h
          cases h
          exact Nat.zero_le _
        · simp only [hscan] at h
          rcases map_eq_ok h with ⟨r, hr, heq⟩
          have hbounds := scanField_bounds hscan
          have hdrop : (msg.drop parsed).length = msg.length - parsed := List.length_drop
          have hrest := ih _ (by omega) hr hdrop
          rw [Prod.mk.injEq] at heq
          omega

/-! ## The buffers -/

section Buffers

variable [Host]

/-- What `parse` hands over when it has collected `vb`. -/
def handedOver (text vb : Bytes) : Bytes :=
  if vb = [] then Host.freshBuf text else trimEnd isspace vb

omit [Host] in
theorem handedOver_of_eq_nil (host : Host) (text : Bytes) {vb : Bytes} (h : vb = []) :
    @handedOver host text vb = host.freshBuf text :=
  if_pos h

omit [Host] in
theorem handedOver_of_ne_nil (host : Host) (text : Bytes) {vb : Bytes} (h : vb ≠ []) :
    @handedOver host text vb = trimEnd isspace vb :=
  if_neg h

/-- A field made of what was scanned. -/
def MadeOf (raw : Bytes × Bytes) (hf : HeaderField) : Prop :=
  (∃ text, hf.name = (handedOver text raw.1).map tolower) ∧ ∃ text, hf.value = handedOver text raw.2

theorem parse_eq_scanText (msg : Bytes) (d : Bytes → Bool) :
    (∃ e, parse msg d = .error e ∧ scanText d msg = .error (stopOf e)) ∨
    ∃ vb n, scanText d msg = .ok (vb, n) ∧ parse msg d = .ok (handedOver msg vb, n) := by
  unfold parse scanText
  split_ifs
  · exact .inl ⟨_, rfl, rfl⟩
  · cases parseLoop d true msg with
    | none => exact .inl ⟨_, rfl, rfl⟩
    | some r => exact .inr ⟨r.1, r.2, rfl, rfl⟩

theorem parseField_eq_scanField (msg : Bytes) :
    (∃ e, parseField msg = .error e ∧ scanField msg = .error (stopOf e)) ∨
    (scanField msg = .ok none ∧ parseField msg = .ok none) ∨
    ∃ name value parsed text text', scanField msg = .ok (some (name, value, parsed)) ∧
      parseField msg = .ok (some (handedOver text name, handedOver text' value, parsed)) := by
  unfold scanField parseField
  rcases parse_eq_scanText msg isEndOfName with ⟨e, herror, hscan⟩ | ⟨name, _ | parsedN, hscan, hname⟩
  · exact .inl ⟨e, by rw [herror], by rw [hscan]⟩
  · exact .inr (.inl ⟨by rw [hscan], by rw [hname]⟩)
  · rw [hscan, hname]
    simp only
    rcases parse_eq_scanText (msg.drop (parsedN + 2)) isEndOfValue with
      ⟨e, herror, hscan'⟩ | ⟨value, _ | parsedV, hscan', hvalue⟩
    · exact .inl ⟨e, by rw [herror], by rw [hscan']⟩
    · exact .inl ⟨_, by rw [hvalue], by rw [hscan']; rfl⟩
    · exact .inr (.inr ⟨name, value, _, msg, msg.drop (parsedN + 2), by rw [hscan'], by rw [hvalue]⟩)

/-- `header_parse` is a scan; only the buffers to which nothing was written depend on the host. -/
theorem headerParse_eq_scanHeader (msg : Bytes) :
    (∃ e, headerParse msg = .error e ∧ scanHeader msg = .error (stopOf e)) ∨
    ∃ fields k h, scanHeader msg = .ok (fields, k) ∧ headerParse msg = .ok (h, k) ∧
      List.Forall₂ MadeOf fields h := by
  induction hn : msg.length using Nat.strong_induction_on generalizing msg with
  | _ n ih =>
      by_cases hnil : msg = []
      · subst hnil
        exact .inr ⟨[], 0, [], rfl, rfl, .nil⟩
      · rw [scanHeader_step hnil, headerParse_step hnil]
        rcases parseField_eq_scanField msg with ⟨e, hparse, hscan⟩ | ⟨hscan, hparse⟩ |
          ⟨name, value, parsed, text, text', hscan, hparse⟩
        · simp only [hscan, hparse]
          exact .inl ⟨e, rfl, rfl⟩
        · simp only [hscan, hparse]
          exact .inr ⟨[], 0, [], rfl, rfl, .nil⟩
        · have hbounds := scanField_bounds hscan
          have hdrop : (msg.drop parsed).length = msg.length - parsed := List.length_drop
          simp only [hscan, hparse]
          rcases ih _ (by omega) (msg.drop parsed) hdrop with ⟨e, herror, hstop⟩ |
            ⟨fields, k, h, hsome, hok, hmade⟩
          · exact .inl ⟨e, by rw [herror], by rw [hstop]; rfl⟩
          · refine .inr ⟨(name, value) :: fields, parsed + k, ?_, by rw [hsome]; rfl, by rw [hok], ?_⟩
            exact .cons ⟨⟨text, rfl⟩, text', rfl⟩ hmade

end Buffers

/-- What is collected is blank only if it is empty. -/
theorem trimEnd_squeeze_ne_nil {s : Bytes} (h : squeeze isspace 32 true s ≠ []) :
    trimEnd isspace (squeeze isspace 32 true s) ≠ [] := by
  induction s with
  | nil => exact absurd rfl h
  | cons c s ih =>
      rw [squeeze] at h ⊢
      split at h
      · next hsp =>
        rw [if_pos hsp, if_pos rfl]
        exact ih h
      · next hsp =>
        rw [if_neg hsp, trimEnd_cons_word (by simpa using hsp)]
        exact List.cons_ne_nil _ _

/-- Empty, or not blank. -/
def Solid (vb : Bytes) : Prop :=
  vb ≠ [] → trimEnd isspace vb ≠ []

theorem solid_parseLoop {d : Bytes → Bool} {s vb : Bytes} {n : Nat} (h : parseLoop d true s = some (vb, n)) :
    Solid vb := by
  rw [(parseLoop_some h).2.2.1]
  exact trimEnd_squeeze_ne_nil

theorem solid_scanField {msg name value : Bytes} {parsed : Nat}
    (h : scanField msg = .ok (some (name, value, parsed))) : Solid name ∧ Solid value := by
  unfold scanField at h
  split at h
  · cases h
  · cases h
  · next hname =>
    split at h
    · cases h
    · cases h
    · next hvalue =>
      cases h
      exact ⟨solid_parseLoop (scanText_ok hname), solid_parseLoop (scanText_ok hvalue)⟩

theorem solid_scanHeader {msg : Bytes} {fields : List (Bytes × Bytes)} {k : Nat}
    (h : scanHeader msg = .ok (fields, k)) : ∀ raw ∈ fields, Solid raw.1 ∧ Solid raw.2 := by
  induction hn : msg.length using Nat.strong_induction_on generalizing msg fields k with
  | _ n ih =>
      by_cases hnil : msg = []
      · subst hnil
        cases h
        exact fun raw hraw => nomatch hraw
      · rw [scanHeader_step hnil] at h
        rcases hscan : scanField msg with _ | _ | ⟨name, value, parsed⟩
        · rw [hscan] at h
          cases h
        · rw [hscan] at h
          cases h
          exact fun raw hraw => nomatch hraw
        · simp only [hscan] at h
          rcases map_eq_ok h with ⟨r, hr, heq⟩
          have hbounds := scanField_bounds hscan
          have hdrop : (msg.drop parsed).length = msg.length - parsed := List.length_drop
          have hrest := ih _ (by omega) hr hdrop
          cases heq
          intro raw hraw
          rcases List.mem_cons.1 hraw with rfl | hraw
          · exact solid_scanField hscan
          · exact hrest raw hraw

/-- Every field has a name and a value. -/
def NoBlankField (h : Header) : Prop :=
  ∀ hf ∈ h, hf.name ≠ [] ∧ hf.value ≠ []

/-- Without blank fields, all hosts make the same header. -/
theorem eq_of_madeOf {fields : List (Bytes × Bytes)} {h h' : Header} (host : Host)
    (hplain : List.Forall₂ (@MadeOf plainHost) fields h) (hmade : List.Forall₂ (@MadeOf host) fields h')
    (hblank : NoBlankField h) : h' = h := by
  induction hplain generalizing h' with
  | nil => exact List.forall₂_nil_left_iff.1 hmade
  | @cons raw hf fields h hfield _ ih =>
      rcases List.forall₂_cons_left_iff.1 hmade with ⟨hf', rest, hfield', hrest, rfl⟩
      rcases hfield with ⟨⟨text, hname⟩, text', hvalue⟩
      rcases hfield' with ⟨⟨_, hname'⟩, _, hvalue'⟩
      have hnonblank := hblank hf List.mem_cons_self
      have hname₀ : raw.1 ≠ [] := by
        intro hnil
        apply hnonblank.1
        rw [hname, handedOver_of_eq_nil _ _ hnil]
        rfl
      have hvalue₀ : raw.2 ≠ [] := by
        intro hnil
        apply hnonblank.2
        rw [hvalue, handedOver_of_eq_nil _ _ hnil]
        rfl
      rw [handedOver_of_ne_nil _ _ hname₀] at hname hname'
      rw [handedOver_of_ne_nil _ _ hvalue₀] at hvalue hvalue'
      have heq : hf' = hf := by
        cases hf
        cases hf'
        simp only at hname hname' hvalue hvalue'
        rw [hname, hname', hvalue, hvalue']
      rw [heq, ih hrest fun g hg => hblank g (List.mem_cons_of_mem _ hg)]

/-- A host whose fresh buffers all hold one character. -/
@[reducible] def freshHost (c : UInt8) : Host :=
  { freshBuf := fun _ => [c], appendPwrite := .atOffset }

/-- If two hosts with other fresh buffers make the same header, no field is blank. -/
theorem noBlankField_of_eq {fields : List (Bytes × Bytes)} {h h' : Header}
    (hsolid : ∀ raw ∈ fields, Solid raw.1 ∧ Solid raw.2)
    (hplain : List.Forall₂ (@MadeOf plainHost) fields h)
    (hmade : List.Forall₂ (@MadeOf (freshHost 97)) fields h')
    (hmade' : List.Forall₂ (@MadeOf (freshHost 98)) fields h') : NoBlankField h := by
  induction hplain generalizing h' with
  | nil => exact fun hf hmem => nomatch hmem
  | @cons raw hf fields h hfield _ ih =>
      rcases List.forall₂_cons_left_iff.1 hmade with ⟨hf', rest, ⟨⟨_, hname⟩, _, hvalue⟩, hrest, rfl⟩
      rcases List.forall₂_cons_left_iff.1 hmade' with ⟨_, _, ⟨⟨_, hname'⟩, _, hvalue'⟩, hrest', heq⟩
      cases heq
      rcases hfield with ⟨⟨text, hfname⟩, text', hfvalue⟩
      have hraw := hsolid raw List.mem_cons_self
      intro g hg
      rcases List.mem_cons.1 hg with rfl | hg
      · constructor
        · by_cases hnil : raw.1 = []
          · rw [handedOver_of_eq_nil _ _ hnil] at hname hname'
            rw [hname] at hname'
            cases hname'
          · rw [hfname, handedOver_of_ne_nil _ _ hnil, ne_eq, List.map_eq_nil_iff]
            exact hraw.1 hnil
        · by_cases hnil : raw.2 = []
          · rw [handedOver_of_eq_nil _ _ hnil] at hvalue hvalue'
            rw [hvalue] at hvalue'
            cases hvalue'
          · rw [hfvalue, handedOver_of_ne_nil _ _ hnil]
            exact hraw.2 hnil
      · exact ih (fun raw hraw => hsolid raw (List.mem_cons_of_mem _ hraw)) hrest hrest' g hg

/-- Two texts that scan alike are parsed alike: an error is one of the same kind on every host, -/
theorem headerParse_error_of_scan {msg msg' : Bytes} {e : Err} (hscan : scanHeader msg' = scanHeader msg)
    (h : @headerParse plainHost msg = .error e) (host : Host) :
    ∃ e', @headerParse host msg' = .error e' ∧ stopOf e' = stopOf e := by
  rcases @headerParse_eq_scanHeader plainHost msg with ⟨e₀, herror, hstop⟩ | ⟨_, _, _, -, hok, -⟩
  · rw [h] at herror
    cases herror
    rcases @headerParse_eq_scanHeader host msg' with ⟨e', herror', hstop'⟩ | ⟨_, _, _, hsome, -⟩
    · refine ⟨e', herror', ?_⟩
      rw [hscan, hstop] at hstop'
      exact (Except.error.inj hstop').symm
    · rw [hscan, hstop] at hsome
      cases hsome
  · rw [h] at hok
    cases hok

/-- and a header without blank field is the same one on every host. -/
theorem headerParse_ok_of_scan {msg msg' : Bytes} {h : Header} {k : Nat}
    (hscan : scanHeader msg' = scanHeader msg) (hplain : @headerParse plainHost msg = .ok (h, k))
    (host : Host) : ∃ h', @headerParse host msg' = .ok (h', k) ∧ (NoBlankField h → h' = h) := by
  rcases @headerParse_eq_scanHeader plainHost msg with ⟨e, herror, -⟩ | ⟨fields, k', h₀, hsome, hok, hmade⟩
  · rw [hplain] at herror
    cases herror
  · rw [hplain] at hok
    cases hok
    rcases @headerParse_eq_scanHeader host msg' with ⟨e, -, hstop⟩ | ⟨fields', k', h', hsome', hok', hmade'⟩
    · rw [hscan, hsome] at hstop
      cases hstop
    · rw [hscan, hsome] at hsome'
      cases hsome'
      exact ⟨h', hok', eq_of_madeOf host hmade hmade'⟩

/-- A blank field tells hosts apart. -/
theorem noBlankField_of_hosts {msg : Bytes} {h h' : Header} {k k₁ k₂ : Nat}
    (hplain : @headerParse plainHost msg = .ok (h, k))
    (hok₁ : @headerParse (freshHost 97) msg = .ok (h', k₁))
    (hok₂ : @headerParse (freshHost 98) msg = .ok (h', k₂)) : NoBlankField h := by
  have hmadeBy : ∀ (host : Host) (g : Header) (n : Nat), @headerParse host msg = .ok (g, n) →
      ∃ fields, scanHeader msg = .ok (fields, n) ∧ List.Forall₂ (@MadeOf host) fields g := by
    intro host g n hparse
    rcases @headerParse_eq_scanHeader host msg with ⟨e, herror, -⟩ | ⟨fields, _, _, hscan, hok, hmade⟩
    · rw [hparse] at herror
      cases herror
    · rw [hparse] at hok
      cases hok
      exact ⟨fields, hscan, hmade⟩
  rcases hmadeBy plainHost h k hplain with ⟨fields, hscan, hmade⟩
  rcases hmadeBy (freshHost 97) h' k₁ hok₁ with ⟨fields₁, hscan₁, hmade₁⟩
  rcases hmadeBy (freshHost 98) h' k₂ hok₂ with ⟨fields₂, hscan₂, hmade₂⟩
  rw [hscan] at hscan₁ hscan₂
  cases hscan₁
  cases hscan₂
  exact noBlankField_of_eq (solid_scanHeader hscan) hmade hmade₁ hmade₂

/-- The size of a header is what the scan finds. -/
theorem scanHeader_of_headerParse [Host] {msg : Bytes} {h : Header} {k : Nat} (hok : headerParse msg = .ok (h, k)) :
    ∃ fields, scanHeader msg = .ok (fields, k) := by
  rcases headerParse_eq_scanHeader msg with ⟨e, herror, -⟩ | ⟨fields, k', h', hscan, hok', -⟩
  · rw [hok] at herror
    cases herror
  · rw [hok] at hok'
    cases hok'
    exact ⟨fields, hscan⟩

/-! ## Text that goes on after an end of line and a dash -/

/-- A delimiter of `parse` that looks at two characters, and stops at an end of line before a dash. -/
structure LocalDelimiter (d : Bytes → Bool) : Prop where
  stops : ∀ r, d (10 :: 45 :: r) = true
  near : ∀ c s r r', d (c :: (s ++ 10 :: 45 :: r)) = d (c :: (s ++ 10 :: 45 :: r'))

theorem localDelimiter_isEndOfName : LocalDelimiter isEndOfName :=
  ⟨fun _ => rfl, fun _ _ _ _ => rfl⟩

theorem localDelimiter_isEndOfValue : LocalDelimiter isEndOfValue := by
  refine ⟨fun _ => rfl, fun c s r r' => ?_⟩
  cases s with
  | nil => rfl
  | cons a s => rfl

/-- The scan stops there at the latest, whatever comes next. -/
theorem parseLoop_cut {d : Bytes → Bool} (hd : LocalDelimiter d) (rem : Bool) (p : Bytes) :
    ∃ vb n, n ≤ p.length ∧ ∀ r, parseLoop d rem (p ++ 10 :: 45 :: r) = some (vb, n) := by
  induction p generalizing rem with
  | nil => exact ⟨[], 0, le_rfl, fun r => if_pos (hd.stops r)⟩
  | cons c p ih =>
      by_cases hc : d (c :: (p ++ 10 :: 45 :: [])) = true
      · refine ⟨[], 0, Nat.zero_le _, fun r => if_pos ?_⟩
        rw [← hc]
        exact hd.near c p r []
      · have hc' : ∀ r, ¬ d (c :: (p ++ 10 :: 45 :: r)) = true := fun r => by rwa [hd.near c p r []]
        by_cases hsp : isspace c = true
        · rcases ih true with ⟨vb, n, hn, hloop⟩
          cases rem with
          | true =>
              refine ⟨vb, n + 1, Nat.succ_le_succ hn, fun r => ?_⟩
              rw [List.cons_append, parseLoop, if_neg (hc' r), if_pos hsp, if_pos rfl, hloop r]
              rfl
          | false =>
              refine ⟨32 :: vb, n + 1, Nat.succ_le_succ hn, fun r => ?_⟩
              rw [List.cons_append, parseLoop, if_neg (hc' r), if_pos hsp, if_neg (by decide), hloop r]
              rfl
        · rcases ih false with ⟨vb, n, hn, hloop⟩
          refine ⟨c :: vb, n + 1, Nat.succ_le_succ hn, fun r => ?_⟩
          rw [List.cons_append, parseLoop, if_neg (hc' r), if_neg hsp, hloop r]
          rfl

theorem scanText_cut {d : Bytes → Bool} (hd : LocalDelimiter d) (p : Bytes) :
    (∀ r, scanText d (p ++ 10 :: 45 :: r) = .error .overrun) ∨
    ∃ vb n, n ≤ p.length ∧ ∀ r, scanText d (p ++ 10 :: 45 :: r) = .ok (vb, n) := by
  rcases parseLoop_cut hd true p with ⟨vb, n, hn, hloop⟩
  by_cases hlong : 1000 < vb.length
  · exact .inl fun r => (scanText_of_parseLoop (hloop r)).trans (if_pos hlong)
  · exact .inr ⟨vb, n, hn, fun r => (scanText_of_parseLoop (hloop r)).trans (if_neg hlong)⟩

/-- A field at the start of such a text: it is in the text and does not depend on what comes next, or it
takes the end of line too. -/
theorem scanField_cut (p : Bytes) :
    (∃ x, (∀ r, scanField (p ++ 10 :: 45 :: r) = x) ∧
      ∀ name value parsed, x = .ok (some (name, value, parsed)) → parsed ≤ p.length + 1) ∨
    ∃ name, ∀ r, scanField (p ++ 10 :: 45 :: r) =
      match scanText isEndOfValue (45 :: r) with
      | .error stop => .error stop
      | .ok (_, 0) => .error .malformed
      | .ok (value, parsedV + 1) => .ok (some (name, value, (p.length + 1) + (parsedV + 2))) := by
  rcases scanText_cut localDelimiter_isEndOfName p with hlong | ⟨name, n, hn, hname⟩
  · refine .inl ⟨.error .overrun, fun r => ?_, fun _ _ _ hx => nomatch hx⟩
    rw [scanField, hlong r]
  rcases n with _ | n
  · refine .inl ⟨.ok none, fun r => ?_, fun _ _ _ hx => nomatch hx⟩
    rw [scanField, hname r]
  rcases Nat.lt_or_ge (n + 1) p.length with hlt | hge
  · -- the value starts in the text
    have hdrop : ∀ r, (p ++ 10 :: 45 :: r).drop (n + 2) = p.drop (n + 2) ++ 10 :: 45 :: r := by
      intro r
      rw [List.drop_append_of_le_length (by omega)]
    rcases scanText_cut localDelimiter_isEndOfValue (p.drop (n + 2)) with hlong | ⟨value, m, hm, hvalue⟩
    · refine .inl ⟨.error .overrun, fun r => ?_, fun _ _ _ hx => nomatch hx⟩
      simp only [scanField, hname r, hdrop r, hlong r]
    rw [List.length_drop] at hm
    rcases m with _ | m
    · refine .inl ⟨.error .malformed, fun r => ?_, fun _ _ _ hx => nomatch hx⟩
      simp only [scanField, hname r, hdrop r, hvalue r]
    · refine .inl ⟨.ok (some (name, value, (n + 2) + (m + 2))), fun r => ?_, ?_⟩
      · simp only [scanField, hname r, hdrop r, hvalue r]
      · rintro _ _ _ ⟨⟩
        omega
  · -- the name goes up to the end of line
    have hn' : n + 1 = p.length := by omega
    have hdrop : ∀ r, (p ++ 10 :: 45 :: r).drop (n + 2) = 45 :: r := by
      intro r
      have hlen : n + 2 = p.length + 1 := by omega
      rw [hlen, ← List.drop_drop, List.drop_left]
      rfl
    refine .inr ⟨name, fun r => ?_⟩
    simp only [scanField, hname r, hdrop r, ← hn']

/-- A text in which the scan of the next field goes well, wherever it starts. -/
def harmless : Bytes :=
  ascii "-:.\n\n"

/-- The scan stays in the text and does not depend on what comes next; or it runs over the end of line,
whatever comes next, and raises no error if that is harmless. -/
theorem scanHeader_cut (p : Bytes) :
    (∃ x, (∀ r, scanHeader (p ++ 10 :: 45 :: r) = x) ∧ ∀ fields k, x = .ok (fields, k) → k ≤ p.length) ∨
    ((∀ r fields k, scanHeader (p ++ 10 :: 45 :: r) = .ok (fields, k) → p.length < k) ∧
      ∃ t, scanHeader (p ++ 10 :: 45 :: harmless) = .ok t) := by
  induction hlen : p.length using Nat.strong_induction_on generalizing p with
  | _ len ih =>
      have hne : ∀ r, p ++ 10 :: 45 :: r ≠ [] := by simp
      rcases scanField_cut p with ⟨x, hscan, hbound⟩ | ⟨name, hscan⟩
      -- the field ends in the text: an error, the end of the header, or a value
      · rcases x with stop | _ | ⟨name, value, parsed⟩
        · refine .inl ⟨.error stop, fun r => ?_, fun _ _ hx => nomatch hx⟩
          rw [scanHeader_step (hne r), hscan r]
        · refine .inl ⟨.ok ([], 0), fun r => ?_, ?_⟩
          · rw [scanHeader_step (hne r), hscan r]
          · rintro _ _ ⟨⟩
            exact Nat.zero_le _
        · have hparsed := hbound name value parsed rfl
          have hpos := (scanField_bounds (hscan [])).1
          have hstep : ∀ r, scanHeader (p ++ 10 :: 45 :: r) =
              (scanHeader ((p ++ 10 :: 45 :: r).drop parsed)).map
                fun t => ((name, value) :: t.1, parsed + t.2) := by
            intro r
            rw [scanHeader_step (hne r), hscan r]
          rcases Nat.lt_or_ge p.length parsed with hover | hin
          · -- the value took the end of line
            have heq : parsed = p.length + 1 := by omega
            have hdrop : ∀ r, (p ++ 10 :: 45 :: r).drop parsed = 45 :: r := by
              intro r
              rw [heq, ← List.drop_drop, List.drop_left]
              rfl
            refine .inr ⟨fun r fields k hk => ?_, ?_⟩
            · rw [hstep r] at hk
              rcases map_eq_ok hk with ⟨t, -, ht⟩
              rw [Prod.mk.injEq] at ht
              omega
            · have hrest : scanHeader (45 :: harmless) = .ok ([(ascii "--", ascii ".")], 5) := by decide
              exact ⟨_, by rw [hstep harmless, hdrop harmless, hrest]; rfl⟩
          · have hdrop : ∀ r, (p ++ 10 :: 45 :: r).drop parsed = p.drop parsed ++ 10 :: 45 :: r := by
              intro r
              rw [List.drop_append_of_le_length hin]
            have hlt : (p.drop parsed).length = p.length - parsed := List.length_drop
            rcases ih _ (by omega) (p.drop parsed) hlt with ⟨x, hrest, hle⟩ | ⟨hrest, t, hsome⟩
            · refine .inl ⟨x.map fun t => ((name, value) :: t.1, parsed + t.2), fun r => ?_, ?_⟩
              · rw [hstep r, hdrop r, hrest r]
              · intro fields k hk
                rcases map_eq_ok hk with ⟨⟨fields', k'⟩, hx, ht⟩
                have := hle fields' k' hx
                simp only [Prod.mk.injEq] at ht
                omega
            · refine .inr ⟨fun r fields k hk => ?_, ?_⟩
              · rw [hstep r, hdrop r] at hk
                rcases map_eq_ok hk with ⟨⟨fields', k'⟩, hx, ht⟩
                have := hrest r fields' k' hx
                simp only [Prod.mk.injEq] at ht
                omega
              · exact ⟨_, by rw [hstep harmless, hdrop harmless, hsome]; rfl⟩
      · -- the name took the end of line
        refine .inr ⟨fun r fields k hk => ?_, ?_⟩
        · rw [scanHeader_step (hne r), hscan r] at hk
          rcases hvalue : scanText isEndOfValue (45 :: r) with stop | ⟨value, _ | m⟩
          · rw [hvalue] at hk
            cases hk
          · rw [hvalue] at hk
            cases hk
          · simp only [hvalue] at hk
            rcases map_eq_ok hk with ⟨t, -, ht⟩
            rw [Prod.mk.injEq] at ht
            omega
        · have hvalue : scanText isEndOfValue (45 :: harmless) = .ok (ascii "--:.", 4) := by decide
          have hscan' := hscan harmless
          rw [hvalue] at hscan'
          have hdrop : (p ++ 10 :: 45 :: harmless).drop (p.length + 1 + (3 + 2)) = [10] := by
            rw [Nat.add_assoc, ← List.drop_drop, List.drop_left]
            decide
          have hrest : scanHeader [10] = .ok ([], 0) := by decide
          refine ⟨([(name, ascii "--:.")], p.length + 1 + (3 + 2)), ?_⟩
          rw [scanHeader_step (hne harmless), hscan']
          simp only [hdrop, hrest]
          rfl

end Scambio
