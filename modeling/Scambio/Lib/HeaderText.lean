import Scambio.Lib.Header

/-!
# HeaderText — the text of a canonical header parses back to that header

`parseLoop` is a scan for a delimiter together with a compaction (`parseLoop_append`).  From this
come one lemma per function of the parser on text made of canonical fields, and finally
`headerParse_dump_append`: the text of a canonical header, followed by anything, gives its fields, if
each name and value has room in the buffer of `parse`; it overruns it otherwise.
-/

namespace Scambio

open Library

/-! ## Canonical text -/

/-- Words separated by single spaces. -/
def CleanText (t : Bytes) : Prop :=
  Clean isspace 32 true t = true ∧ (0 : UInt8) ∉ t

instance (t : Bytes) : Decidable (CleanText t) :=
  inferInstanceAs (Decidable (_ ∧ _))

structure CanonicalField (hf : HeaderField) : Prop where
  name_clean : CleanText hf.name
  name_lower : hf.name.map tolower = hf.name
  name_no_colon : (58 : UInt8) ∉ hf.name
  value_clean : CleanText hf.value

instance (hf : HeaderField) : Decidable (CanonicalField hf) :=
  decidable_of_iff
    (CleanText hf.name ∧ hf.name.map tolower = hf.name ∧ (58 : UInt8) ∉ hf.name ∧
      CleanText hf.value)
    ⟨fun h => ⟨h.1, h.2.1, h.2.2.1, h.2.2.2⟩,
      fun h => ⟨h.name_clean, h.name_lower, h.name_no_colon, h.value_clean⟩⟩

def CanonicalHeader (h : Header) : Prop :=
  ∀ hf ∈ h, CanonicalField hf

instance (h : Header) : Decidable (CanonicalHeader h) :=
  inferInstanceAs (Decidable (∀ hf ∈ h, CanonicalField hf))

/-- No blank follows: a line that ends here is not folded. -/
def NoBlankHead (t : Bytes) : Prop :=
  ∀ c ∈ t.head?, isblank c = false

theorem isspace_space : isspace 32 = true := rfl

theorem isspace_of_iseol {c : UInt8} (h : iseol c = true) : isspace c = true :=
  forall_byte (p := fun c => iseol c = true → isspace c = true) (by decide +kernel) c h

theorem isspace_of_isblank {c : UInt8} (h : isblank c = true) : isspace c = true :=
  forall_byte (p := fun c => isblank c = true → isspace c = true) (by decide +kernel) c h

theorem CleanText.not_iseol {t : Bytes} (h : CleanText t) {c : UInt8} (hc : c ∈ t) :
    iseol c = false := by
  by_contra hne
  have heol : iseol c = true := by simpa using hne
  have h32 : c = 32 := Clean.eq_sep h.1 hc (isspace_of_iseol heol)
  subst h32
  exact absurd heol (by decide)

theorem cleanText_of_words {t : Bytes} (hne : t ≠ []) (hsp : ∀ c ∈ t, isspace c = false)
    (hz : (0 : UInt8) ∉ t) : CleanText t := by
  refine ⟨?_, hz⟩
  -- only the start of the text depends on the flag
  have hall : ∀ (after : Bool) (t : Bytes), (t = [] → after = false) →
      (∀ c ∈ t, isspace c = false) → Clean isspace 32 after t = true := by
    intro after t
    induction t generalizing after with
    | nil =>
        intro h _
        simp [Clean, h rfl]
    | cons c t ih =>
        intro _ hsp
        have hc := hsp c List.mem_cons_self
        simp only [Clean, hc, Bool.false_eq_true, if_false]
        exact ih false (fun _ => rfl) fun x hx => hsp x (List.mem_cons_of_mem _ hx)
  exact hall true t (fun h => absurd h hne) hsp

theorem cleanText_decimal (n : Nat) : CleanText (decimal n) := by
  have hdigit : ∀ c, isDigit c = true → isspace c = false ∧ c ≠ 0 := forall_byte (by decide +kernel)
  refine cleanText_of_words (decimal_ne_nil n) ?_ ?_
  · exact fun c hc => (hdigit c (isDigit_of_mem_decimal hc)).1
  · exact fun h0 => (hdigit 0 (isDigit_of_mem_decimal h0)).2 rfl

theorem cleanText_printInt (v : Int) : CleanText (printInt v) := by
  unfold printInt
  split
  · refine cleanText_of_words (by simp) ?_ ?_
    · intro c hc
      rcases List.mem_cons.1 hc with rfl | hc
      · rfl
      · exact isDigit_not_isspace (isDigit_of_mem_decimal hc)
    · intro h0
      rcases List.mem_cons.1 h0 with h0 | h0
      · cases h0
      · exact (cleanText_decimal _).2 h0
  · exact cleanText_decimal _

theorem CleanText.head_not_isspace {c : UInt8} {t : Bytes} (h : CleanText (c :: t)) :
    isspace c = false :=
  Clean.head h.1

/-! ## The scanning loop -/

/-- Up to the first delimiter, the loop is a compaction. -/
theorem parseLoop_append {d : Bytes → Bool} (rem : Bool) (body tail : Bytes)
    (hin : ∀ a c b, body = a ++ c :: b → d (c :: (b ++ tail)) = false)
    (htail : tail ≠ []) (hend : d tail = true) :
    parseLoop d rem (body ++ tail) = some (squeeze isspace 32 rem body, body.length) := by
  induction body generalizing rem with
  | nil =>
      cases tail with
      | nil => exact absurd rfl htail
      | cons c rest => simp [parseLoop, hend, squeeze]
  | cons c body ih =>
      have hc : d (c :: (body ++ tail)) = false := hin [] c body rfl
      have hin' : ∀ a x b, body = a ++ x :: b → d (x :: (b ++ tail)) = false := by
        intro a x b hab
        exact hin (c :: a) x b (by simp [hab])
      by_cases hsp : isspace c = true
      · cases rem with
        | true => simp [parseLoop, hc, hsp, squeeze, ih true hin']
        | false => simp [parseLoop, hc, hsp, squeeze, ih true hin']
      · have hsp' : isspace c = false := by simpa using hsp
        simp [parseLoop, hc, hsp', squeeze, ih false hin']

/-- Where the loop stops, and what it has collected. -/
theorem parseLoop_some {d : Bytes → Bool} {rem : Bool} {s vb : Bytes} {n : Nat}
    (h : parseLoop d rem s = some (vb, n)) :
    n < s.length ∧ d (s.drop n) = true ∧ vb = squeeze isspace 32 rem (s.take n) ∧
      ∀ k < n, d (s.drop k) = false := by
  induction s generalizing rem vb n with
  | nil => simp [parseLoop] at h
  | cons c src ih =>
      by_cases hd : d (c :: src) = true
      · simp only [parseLoop, hd, if_true, Option.some.injEq, Prod.mk.injEq] at h
        rcases h with ⟨rfl, rfl⟩
        exact ⟨by simp, by simpa using hd, by simp [squeeze], by simp⟩
      · have hd' : d (c :: src) = false := by simpa using hd
        -- the three remaining branches differ in what they put in front of the rest
        have step : ∃ r vb' n', parseLoop d r src = some (vb', n') ∧ n = n' + 1 ∧
            ∀ t, vb' = squeeze isspace 32 r t → vb = squeeze isspace 32 rem (c :: t) := by
          by_cases hsp : isspace c = true
          · cases rem with
            | true =>
                simp only [parseLoop, hd', hsp, Bool.false_eq_true, if_false, if_true] at h
                rcases Option.map_eq_some_iff.1 h with ⟨⟨v, k⟩, hv, hk⟩
                cases hk
                exact ⟨true, v, k, hv, rfl, fun t ht => by simp [squeeze, hsp, ht]⟩
            | false =>
                simp only [parseLoop, hd', hsp, Bool.false_eq_true, if_false, if_true] at h
                rcases Option.map_eq_some_iff.1 h with ⟨⟨v, k⟩, hv, hk⟩
                cases hk
                exact ⟨true, v, k, hv, rfl, fun t ht => by simp [squeeze, hsp, ht]⟩
          · have hsp' : isspace c = false := by simpa using hsp
            simp only [parseLoop, hd', hsp', Bool.false_eq_true, if_false] at h
            rcases Option.map_eq_some_iff.1 h with ⟨⟨v, k⟩, hv, hk⟩
            cases hk
            exact ⟨false, v, k, hv, rfl, fun t ht => by simp [squeeze, hsp', ht]⟩
        rcases step with ⟨r, vb', n', hr, rfl, hvb⟩
        rcases ih hr with ⟨hlt, hend, hsq, hbefore⟩
        refine ⟨by simpa using hlt, by simpa using hend, hvb _ hsq, ?_⟩
        intro k hk
        cases k with
        | zero => simpa using hd'
        | succ k => simpa using hbefore k (by omega)

section Delimiters

variable {isDelimiter : Bytes → Bool}

theorem firstDelimiter_nil :
    firstDelimiter isDelimiter [] = if isDelimiter [] = true then some 0 else none := by
  rw [firstDelimiter, List.tails, List.findIdx?_cons]
  rfl

theorem firstDelimiter_cons (c : UInt8) (src : Bytes) :
    firstDelimiter isDelimiter (c :: src) =
      if isDelimiter (c :: src) = true then some 0 else (firstDelimiter isDelimiter src).map (· + 1) := by
  rw [firstDelimiter, List.tails_cons, List.findIdx?_cons]
  rfl

theorem beforeDelimiter_nil : beforeDelimiter isDelimiter [] = [] :=
  List.take_nil

theorem beforeDelimiter_cons (c : UInt8) (src : Bytes) :
    beforeDelimiter isDelimiter (c :: src) =
      if isDelimiter (c :: src) = true then [] else c :: beforeDelimiter isDelimiter src := by
  rw [beforeDelimiter, firstDelimiter_cons]
  by_cases hd : isDelimiter (c :: src) = true
  · rw [if_pos hd, if_pos hd]
    rfl
  · rw [if_neg hd, if_neg hd, beforeDelimiter]
    cases firstDelimiter isDelimiter src with
    | none => rfl
    | some n => rfl

theorem firstDelimiter_eq {msg : Bytes} {n : Nat} (hn : isDelimiter (msg.drop n) = true) (hlen : n ≤ msg.length)
    (hbefore : ∀ k < n, isDelimiter (msg.drop k) = false) : firstDelimiter isDelimiter msg = some n := by
  induction msg generalizing n with
  | nil =>
      obtain rfl : n = 0 := Nat.le_zero.1 hlen
      exact firstDelimiter_nil.trans (if_pos hn)
  | cons c src ih =>
      cases n with
      | zero => exact (firstDelimiter_cons c src).trans (if_pos hn)
      | succ n =>
          have hc : ¬ isDelimiter (c :: src) = true := Bool.eq_false_iff.1 (hbefore 0 (Nat.succ_pos n))
          have hsrc := ih hn (Nat.le_of_succ_le_succ hlen) fun k hk => hbefore (k + 1) (Nat.succ_lt_succ hk)
          rw [firstDelimiter_cons, if_neg hc, hsrc]
          rfl

/-- The text that the loop returns is what it has appended. -/
theorem collected_of_parseLoop {msg vb : Bytes} {n : Nat} (h : parseLoop isDelimiter true msg = some (vb, n)) :
    collected isDelimiter msg = vb := by
  rcases parseLoop_some h with ⟨hlt, hend, hvb, hbefore⟩
  rw [collected, beforeDelimiter, firstDelimiter_eq hend hlt.le hbefore, hvb]
  rfl

end Delimiters

/-! ## Fields -/

/-- A field that `parse` can read back: its name and its value have room in the buffer. -/
structure ShortField (hf : HeaderField) : Prop where
  name : hf.name.length ≤ 1000
  value : hf.value.length ≤ 1000

instance (hf : HeaderField) : Decidable (ShortField hf) :=
  decidable_of_iff (hf.name.length ≤ 1000 ∧ hf.value.length ≤ 1000) ⟨fun h => ⟨h.1, h.2⟩, fun h => ⟨h.name, h.value⟩⟩

def ShortHeader (h : Header) : Prop :=
  ∀ hf ∈ h, ShortField hf

instance (h : Header) : Decidable (ShortHeader h) :=
  inferInstanceAs (Decidable (∀ hf ∈ h, ShortField hf))

theorem zero_not_mem_headerDump {h : Header} (hh : CanonicalHeader h) : (0 : UInt8) ∉ headerDump h := by
  have hfield : ∀ hf ∈ h, (0 : UInt8) ∉ fieldDump hf := by
    intro hf hmem
    have hc := hh hf hmem
    simp [fieldDump, hc.name_clean.2, hc.value_clean.2, ascii, charByte]
  simp only [headerDump, List.mem_append, List.mem_flatMap, not_or, not_exists, not_and]
  exact ⟨hfield, by decide⟩

variable [Host]

theorem parse_of_some {d : Bytes → Bool} {msg vb : Bytes} {n : Nat} (h : parseLoop d true msg = some (vb, n)) :
    parse msg d =
      if 1000 < vb.length then .error overrun
      else .ok (if vb = [] then Host.freshBuf msg else trimEnd isspace vb, n) := by
  simp only [parse, collected_of_parseLoop h, h]

theorem parse_of_none {d : Bytes → Bool} {msg : Bytes} (h : parseLoop d true msg = none) :
    ∃ e, parse msg d = .error e := by
  unfold parse
  split_ifs
  · exact ⟨_, rfl⟩
  · rw [h]
    exact ⟨_, rfl⟩

theorem parse_append {d : Bytes → Bool} (body tail : Bytes)
    (hin : ∀ a c b, body = a ++ c :: b → d (c :: (b ++ tail)) = false)
    (htail : tail ≠ []) (hend : d tail = true) :
    parse (body ++ tail) d =
      if 1000 < (squeeze isspace 32 true body).length then .error overrun
      else
        .ok (if squeeze isspace 32 true body = [] then Host.freshBuf (body ++ tail)
          else trimEnd isspace (squeeze isspace 32 true body), body.length) :=
  parse_of_some (parseLoop_append true body tail hin htail hend)

omit [Host] in
/-- What a clean text is compacted to. -/
theorem squeeze_clean {value : Bytes} (hclean : CleanText value) :
    squeeze isspace 32 true value ≠ [] ∧ trimEnd isspace (squeeze isspace 32 true value) = value ∧
      (squeeze isspace 32 true value).length = value.length := by
  have hsame : squeeze isspace 32 true value = value := squeeze_of_clean true value hclean.1
  have hcompact : trimEnd isspace (squeeze isspace 32 true value) = value := compact_of_clean true value hclean.1
  refine ⟨fun hnil => ?_, hcompact, by rw [hsame]⟩
  rw [hnil] at hcompact
  exact Clean.ne_nil hclean.1 hcompact.symm

/-- A clean name is read up to its colon, if it has room in the buffer. -/
theorem parse_name {name : Bytes} (hclean : CleanText name) (hcolon : (58 : UInt8) ∉ name)
    (rest : Bytes) :
    parse (name ++ 58 :: rest) isEndOfName =
      if 1000 < name.length then .error overrun else .ok (name, name.length) := by
  rcases squeeze_clean hclean with ⟨hne, hcompact, hlen⟩
  rw [parse_append name (58 :: rest) ?_ (List.cons_ne_nil _ _) rfl, if_neg hne, hcompact, hlen]
  intro a c b hab
  have hmem : c ∈ name := by simp [hab]
  have hc : c ≠ 58 := fun hc => hcolon (hc ▸ hmem)
  simp [isEndOfName, hc, hclean.not_iseol hmem]

/-- A value is read up to the end of its line, and compacted. -/
theorem parse_lineValue {value : Bytes} (hline : ∀ c ∈ value, iseol c = false)
    (hne : squeeze isspace 32 true value ≠ []) {rest : Bytes} (hrest : NoBlankHead rest) :
    parse (32 :: (value ++ 10 :: rest)) isEndOfValue =
      if 1000 < (squeeze isspace 32 true value).length then .error overrun
      else .ok (trimEnd isspace (squeeze isspace 32 true value), 1 + value.length) := by
  have hend : isEndOfValue (10 :: rest) = true := by
    cases rest with
    | nil => rfl
    | cons c cs =>
        have hc : isblank c = false := hrest c (by simp)
        simp [isEndOfValue, iseol, hc]
  have hin : ∀ a c b, 32 :: value = a ++ c :: b → isEndOfValue (c :: (b ++ 10 :: rest)) = false := by
    intro a c b hab
    have heol : iseol c = false := by
      have hmem : c ∈ 32 :: value := by simp [hab]
      rcases List.mem_cons.1 hmem with rfl | hc
      · rfl
      · exact hline c hc
    cases hb : b ++ 10 :: rest with
    | nil => simp [isEndOfValue, heol]
    | cons x xs => simp [isEndOfValue, heol]
  have hsq : squeeze isspace 32 true (32 :: value) = squeeze isspace 32 true value := rfl
  have h := parse_append (d := isEndOfValue) (32 :: value) (10 :: rest) hin (by simp) hend
  rw [hsq, if_neg hne] at h
  simpa [Nat.add_comm] using h

/-- A line with a name and a value. -/
theorem parseField_line {name value : Bytes} (hname : CleanText name) (hcolon : (58 : UInt8) ∉ name)
    (hline : ∀ c ∈ value, iseol c = false) (hne : squeeze isspace 32 true value ≠ []) {rest : Bytes}
    (hrest : NoBlankHead rest) :
    parseField (fieldDump ⟨name, value⟩ ++ rest) =
      if name.length ≤ 1000 ∧ (squeeze isspace 32 true value).length ≤ 1000 then
        .ok (some (name, trimEnd isspace (squeeze isspace 32 true value), (fieldDump ⟨name, value⟩).length))
      else .error overrun := by
  have hfirst : fieldDump ⟨name, value⟩ ++ rest = name ++ (58 :: 32 :: (value ++ 10 :: rest)) := by
    simp [fieldDump, ascii, charByte]
  have hsecond : (fieldDump ⟨name, value⟩ ++ rest).drop (name.length + 1) = 32 :: (value ++ 10 :: rest) := by
    rw [hfirst, ← List.drop_drop, List.drop_left]
    simp
  have hfield := parse_name hname hcolon (32 :: (value ++ 10 :: rest))
  rw [← hfirst] at hfield
  have hvalue := parse_lineValue hline hne hrest
  rw [← hsecond] at hvalue
  obtain ⟨n, hn⟩ : ∃ n, name.length = n + 1 := by
    have hpos : 0 < name.length := List.length_pos_of_ne_nil (Clean.ne_nil hname.1)
    exact ⟨name.length - 1, by omega⟩
  have hlen : (fieldDump ⟨name, value⟩).length = name.length + 2 + value.length + 1 := by
    simp [fieldDump, ascii]
    omega
  -- the name is read first: where it overruns, the value is not looked at
  by_cases hlong : 1000 < name.length
  · rw [if_pos hlong] at hfield
    rw [if_neg fun h => Nat.not_le.2 hlong h.1]
    simp only [parseField, hfield]
  · rw [if_neg hlong, hn] at hfield
    rw [hn, Nat.add_comm 1] at hvalue
    by_cases hlong' : 1000 < (squeeze isspace 32 true value).length
    · rw [if_pos hlong'] at hvalue
      rw [if_neg fun h => Nat.not_le.2 hlong' h.2]
      simp only [parseField, hfield, hvalue]
    · rw [if_neg hlong'] at hvalue
      rw [if_pos ⟨Nat.le_of_not_lt hlong, Nat.le_of_not_lt hlong'⟩]
      simp only [parseField, hfield, hvalue, hlen, hn]
      congr 4
      omega

theorem parseField_dump {hf : HeaderField} (h : CanonicalField hf) {rest : Bytes}
    (hrest : NoBlankHead rest) :
    parseField (fieldDump hf ++ rest) =
      if ShortField hf then .ok (some (hf.name, hf.value, (fieldDump hf).length)) else .error overrun := by
  rcases squeeze_clean h.value_clean with ⟨hne, hcompact, hlen⟩
  have hline : ∀ c ∈ hf.value, iseol c = false := fun c hc => h.value_clean.not_iseol hc
  have hparse := parseField_line h.name_clean h.name_no_colon hline hne hrest
  rw [hcompact, hlen] at hparse
  refine hparse.trans (if_congr ⟨fun hs => ⟨hs.1, hs.2⟩, fun hs => ⟨hs.name, hs.value⟩⟩ rfl rfl)

/-! ## Headers -/

theorem parseField_pos {msg name value : Bytes} {parsed : Nat}
    (h : parseField msg = .ok (some (name, value, parsed))) : 2 ≤ parsed := by
  unfold parseField at h
  split at h
  · cases h
  · cases h
  · split at h
    · cases h
    · cases h
    · simp only [Except.ok.injEq, Option.some.injEq, Prod.mk.injEq] at h
      omega

/-- The bound on the number of rounds plays no role. -/
theorem headerParseLoop_fuel (fuel : Nat) (msg : Bytes) (h : msg.length ≤ fuel) :
    headerParseLoop fuel msg = headerParseLoop msg.length msg := by
  induction hn : msg.length using Nat.strong_induction_on generalizing fuel msg with
  | _ n ih =>
      cases msg with
      | nil =>
          subst hn
          cases fuel <;> rfl
      | cons c cs =>
          obtain ⟨f, rfl⟩ : ∃ f, fuel = f + 1 := ⟨fuel - 1, by simp at h; omega⟩
          obtain ⟨k, rfl⟩ : ∃ k, n = k + 1 := ⟨n - 1, by simp at hn; omega⟩
          simp only [headerParseLoop]
          rcases hpf : parseField (c :: cs) with e | _ | ⟨name, value, parsed⟩
          · rfl
          · rfl
          · have hpos := parseField_pos hpf
            have hlt : ((c :: cs).drop parsed).length < k + 1 := by
              simp only [List.length_drop, hn]
              omega
            have hf : ((c :: cs).drop parsed).length ≤ f := by
              simp only [List.length_cons] at hn h
              simp only [List.length_drop, List.length_cons]
              omega
            have hk : ((c :: cs).drop parsed).length ≤ k := by omega
            simp only [ih _ hlt f _ hf rfl, ih _ hlt k _ hk rfl]

/-- One round of `header_parse`. -/
theorem headerParse_step {msg : Bytes} (h : msg ≠ []) :
    headerParse msg =
      match parseField msg with
      | .error e => .error e
      | .ok none => .ok ([], 0)
      | .ok (some (name, value, parsed)) =>
          match headerParse (msg.drop parsed) with
          | .error e => .error e
          | .ok (h, n) => .ok ({ name := name.map tolower, value := value } :: h, parsed + n) := by
  cases msg with
  | nil => exact absurd rfl h
  | cons c cs =>
      simp only [headerParse, List.length_cons, headerParseLoop]
      rcases hpf : parseField (c :: cs) with e | _ | ⟨name, value, parsed⟩
      · rfl
      · rfl
      · have hpos := parseField_pos hpf
        have hle : ((c :: cs).drop parsed).length ≤ cs.length := by
          simp only [List.length_drop, List.length_cons]
          omega
        have hfuel := headerParseLoop_fuel cs.length _ hle
        dsimp only
        generalize headerParseLoop cs.length ((c :: cs).drop parsed) = r at hfuel ⊢
        subst hfuel
        rfl

theorem headerParse_nil : headerParse [] = .ok ([], 0) := rfl

/-- A blank line ends the header. -/
theorem headerParse_blank (tail : Bytes) : headerParse (10 :: tail) = .ok ([], 0) := by
  have hpf : parseField (10 :: tail) = .ok none := by
    have hname : parse (10 :: tail) isEndOfName = .ok (Host.freshBuf (10 :: tail), 0)  := by
      have hloop : parseLoop isEndOfName true (10 :: tail) = some ([], 0) := rfl
      rw [parse_of_some hloop]
      rfl
    simp only [parseField, hname]
  simp [headerParse_step, hpf]

omit [Host] in
theorem fieldDump_ne_nil (hf : HeaderField) : fieldDump hf ≠ [] := by
  simp [fieldDump, ascii]

/-- A line that is read as a field, and then the other ones. -/
theorem headerParse_line_append {line : Bytes} {hf : HeaderField} (hne : line ≠ []) {tail : Bytes}
    (hparse : parseField (line ++ tail) = .ok (some (hf.name, hf.value, line.length)))
    (hlower : hf.name.map tolower = hf.name) {fs : Header} {n : Nat} (hp : headerParse tail = .ok (fs, n)) :
    headerParse (line ++ tail) = .ok (hf :: fs, line.length + n) := by
  have hne' : line ++ tail ≠ [] := by simp [hne]
  rw [headerParse_step hne']
  simp only [hparse, List.drop_left, hp, hlower]

theorem headerParse_field_append {hf : HeaderField} (h : CanonicalField hf) (hs : ShortField hf) {tail : Bytes}
    (htail : NoBlankHead tail) {fs : Header} {n : Nat} (hp : headerParse tail = .ok (fs, n)) :
    headerParse (fieldDump hf ++ tail) = .ok (hf :: fs, (fieldDump hf).length + n) := by
  have hfield := parseField_dump h htail
  rw [if_pos hs] at hfield
  exact headerParse_line_append (fieldDump_ne_nil hf) hfield h.name_lower hp

/-- A field that is too long ends the process. -/
theorem headerParse_field_overrun {hf : HeaderField} (h : CanonicalField hf) (hs : ¬ ShortField hf) {tail : Bytes}
    (htail : NoBlankHead tail) : headerParse (fieldDump hf ++ tail) = .error overrun := by
  have hne : fieldDump hf ++ tail ≠ [] := by simp [fieldDump_ne_nil hf]
  have hfield := parseField_dump h htail
  rw [if_neg hs] at hfield
  simp only [headerParse_step hne, hfield]

omit [Host] in
theorem noBlankHead_fields {h : Header} (hh : CanonicalHeader h) {tail : Bytes}
    (htail : NoBlankHead tail) : NoBlankHead (h.flatMap fieldDump ++ tail) := by
  cases h with
  | nil => simpa using htail
  | cons hf fs =>
      have hname := (hh hf List.mem_cons_self).name_clean
      cases hn : hf.name with
      | nil => exact absurd hn (Clean.ne_nil hname.1)
      | cons c cs =>
          intro d hd
          have hdc : d = c := by simpa [fieldDump, hn, eq_comm] using hd
          subst hdc
          have hsp : isspace d = false := by
            rw [hn] at hname
            exact hname.head_not_isspace
          by_contra hb
          rw [isspace_of_isblank (by simpa using hb)] at hsp
          cases hsp

/-- The lines of canonical fields are read as these fields, whatever parsable text follows. -/
theorem headerParse_fields_append {h : Header} (hh : CanonicalHeader h) (hs : ShortHeader h) {tail : Bytes}
    (htail : NoBlankHead tail) {fs : Header} {n : Nat} (hp : headerParse tail = .ok (fs, n)) :
    headerParse (h.flatMap fieldDump ++ tail) =
      .ok (h ++ fs, (h.flatMap fieldDump).length + n) := by
  induction h with
  | nil => simpa using hp
  | cons hf h ih =>
      have hhf : CanonicalField hf := hh hf List.mem_cons_self
      have hrest : CanonicalHeader h := fun x hx => hh x (List.mem_cons_of_mem _ hx)
      have hblank : NoBlankHead (h.flatMap fieldDump ++ tail) := noBlankHead_fields hrest htail
      simp only [List.flatMap_cons, List.append_assoc]
      have hshort : ShortHeader h := fun x hx => hs x (List.mem_cons_of_mem _ hx)
      rw [headerParse_field_append hhf (hs hf List.mem_cons_self) hblank (ih hrest hshort)]
      simp [Nat.add_assoc]

/-- What overruns a buffer after the lines of canonical fields does so behind them too. -/
theorem headerParse_append_overrun {h : Header} (hh : CanonicalHeader h) {tail : Bytes} (htail : NoBlankHead tail)
    (hover : headerParse tail = .error overrun) : headerParse (h.flatMap fieldDump ++ tail) = .error overrun := by
  induction h with
  | nil => exact hover
  | cons hf h ih =>
      have hhf : CanonicalField hf := hh hf List.mem_cons_self
      have hrest : CanonicalHeader h := fun x hx => hh x (List.mem_cons_of_mem _ hx)
      have hblank : NoBlankHead (h.flatMap fieldDump ++ tail) := noBlankHead_fields hrest htail
      rw [List.flatMap_cons, List.append_assoc]
      by_cases hshort : ShortField hf
      · have hfield := parseField_dump hhf hblank
        rw [if_pos hshort] at hfield
        have hne : fieldDump hf ++ (h.flatMap fieldDump ++ tail) ≠ [] := by simp [fieldDump_ne_nil hf]
        simp only [headerParse_step hne, hfield, List.drop_left, ih hrest]
      · exact headerParse_field_overrun hhf hshort hblank

/-- The lines of canonical fields of which one is too long. -/
theorem headerParse_fields_overrun {h : Header} (hh : CanonicalHeader h) (hs : ¬ ShortHeader h) {tail : Bytes}
    (htail : NoBlankHead tail) : headerParse (h.flatMap fieldDump ++ tail) = .error overrun := by
  induction h with
  | nil => exact absurd (fun hf hmem => absurd hmem List.not_mem_nil) hs
  | cons hf h ih =>
      have hhf : CanonicalField hf := hh hf List.mem_cons_self
      have hrest : CanonicalHeader h := fun x hx => hh x (List.mem_cons_of_mem _ hx)
      have hblank : NoBlankHead (h.flatMap fieldDump ++ tail) := noBlankHead_fields hrest htail
      rw [List.flatMap_cons, List.append_assoc]
      by_cases hshort : ShortField hf
      · have hlater : ¬ ShortHeader h := fun hall =>
          hs fun x hx => (List.mem_cons.1 hx).elim (fun heq => heq ▸ hshort) fun hmem => hall x hmem
        have hfield := parseField_dump hhf hblank
        rw [if_pos hshort] at hfield
        have hne : fieldDump hf ++ (h.flatMap fieldDump ++ tail) ≠ [] := by simp [fieldDump_ne_nil hf]
        simp only [headerParse_step hne, hfield, List.drop_left, ih hrest hlater]
      · exact headerParse_field_overrun hhf hshort hblank

omit [Host] in
theorem headerDump_append (h : Header) (tail : Bytes) :
    headerDump h ++ tail = h.flatMap fieldDump ++ 10 :: tail := by
  simp [headerDump, ascii, charByte]

omit [Host] in
theorem noBlankHead_newline (tail : Bytes) : NoBlankHead (10 :: tail) := by
  intro c hc
  have : c = 10 := by simpa [eq_comm] using hc
  subst this
  rfl

/-- The text of a canonical header without a long field, followed by anything, parses to its fields; the
blank line is not consumed. -/
theorem headerParse_dump_append {h : Header} (hh : CanonicalHeader h) (hs : ShortHeader h) (tail : Bytes) :
    headerParse (headerDump h ++ tail) = .ok (h, (headerDump h).length - 1) := by
  rw [headerDump_append, headerParse_fields_append hh hs (noBlankHead_newline tail) (headerParse_blank tail)]
  simp [headerDump, ascii]

theorem headerParse_dump_overrun {h : Header} (hh : CanonicalHeader h) (hs : ¬ ShortHeader h) (tail : Bytes) :
    headerParse (headerDump h ++ tail) = .error overrun := by
  rw [headerDump_append, headerParse_fields_overrun hh hs (noBlankHead_newline tail)]

end Scambio
