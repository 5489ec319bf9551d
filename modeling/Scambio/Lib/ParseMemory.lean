import Scambio.Commons.VarbufMemory
import Scambio.Lib.HeaderText
import Scambio.Library.WordLists

/-!
# ParseMemory — the buffer that `parse` hands over (`lib/header.c`)

In `Lib.Header` the function `parse` is told by the text that it collects and by its length.  Here it runs on the memory
of its buffer, of 1000 bytes and a NUL.  Two things go wrong with it:

* nothing writes the NUL before the first character is appended, and with no word there is none;
* the 1001st character fills the block exactly, which `varbuf_put` does not see.

- `scan_eq`: the loop appends the compacted text, one character after the other.
- `parse_refines`: the function does what `Lib.Header` says, with the text that does not fit as well.
- `parse_words_iff`: exactly then it gives the words of the text, whatever was in the block.
-/

namespace Scambio

open Library

/-! ## The function -/

/-- What `parse` returns, what it leaves in `*ptr` and the error that it raises. -/
structure Parsed where
  ptr : Option Bytes
  parsed : Nat
  error : Option Err
  deriving DecidableEq, Repr

namespace VbState

section Parsing

variable (heap : Nat → Block) (isDelimiter : Bytes → Bool) (msg : Bytes)

/-- The loop of `parse`: the buffer, and how far it came. -/
def scan : Bool → Bytes → VbState → Except VarbufFault (VbState × Nat)
  | _, [], s =>
      if isDelimiter [] then .ok (s, 0)
      else
        .ok ({ s with error := some (.push 0 (ascii "Unterminated string in header : '" ++ msg ++ ascii "'")) }, 0)
  -- after a blank the others are passed over, and an error of `varbuf_append` is not looked at
  | remSpace, c :: src, s =>
      if isDelimiter (c :: src) then .ok (s, 0)
      else
        match
          if isspace c then
            if remSpace then .ok s else s.append heap [32]
          else s.append heap [c]
        with
        | .error f => .error f
        | .ok s =>
            match scan (isspace c) src s with
            | .error f => .error f
            | .ok (s, n) => .ok (s, n + 1)

/-- The loop that trims the tail.  Every round takes a character away, so that their number bounds the rounds. -/
def trimTail : Nat → VbState → VbResult
  | 0, s => .ok s
  | fuel + 1, s =>
      if 0 < s.vb.used ∧ isspace (s.vb.mem.getD (s.vb.used - 1) 0) = true then
        match s.chop 1 with
        | .error f => .error f
        | .ok s => trimTail fuel s
      else .ok s

/-- `parse`, with the block that `malloc` gives it. -/
def parse (block : Block) : Except VarbufFault Parsed :=
  match scan heap isDelimiter msg true msg (varbufCtor block 1000 true) with
  | .error f => .error f
  | .ok (s, n) =>
      match if s.error.isSome then .ok s else trimTail s.vb.used s with
      | .error f => .error f
      | .ok s => .ok ⟨if s.error.isSome then none else some s.vb.mem, n, s.error⟩

end Parsing

end VbState

/-- The function returns where the first delimiter is, with a string of the words before it, or raises an error where
there is none. -/
def ParsesWords (isDelimiter : Bytes → Bool) (msg : Bytes) (result : Except VarbufFault Parsed) : Prop :=
  match firstDelimiter isDelimiter msg with
  | some n =>
      ∃ mem, result = .ok ⟨some mem, n, none⟩ ∧ 0 ∈ mem ∧
        cstr mem = ([32] : Bytes).intercalate (wordList isspace (msg.take n))
  | none => ∃ n e, result = .ok ⟨none, n, some e⟩

namespace VbState

variable {heap : Nat → Block} {isDelimiter : Bytes → Bool} {msg : Bytes} {s : VbState}

/-! ## The loops -/

/-- Characters that are appended one after the other. -/
def appendEach (heap : Nat → Block) : Bytes → VbState → VbResult
  | [], s => .ok s
  | c :: bytes, s =>
      match s.append heap [c] with
      | .error f => .error f
      | .ok s => appendEach heap bytes s

/-- Where the loop stops in a message of which `src` is left. -/
def stop (isDelimiter : Bytes → Bool) (msg src : Bytes) (s : VbState) : VbState × Nat :=
  match firstDelimiter isDelimiter src with
  | some n => (s, n)
  | none =>
      ({ s with error := some (.push 0 (ascii "Unterminated string in header : '" ++ msg ++ ascii "'")) }, src.length)

theorem stop_cons {c : UInt8} {src : Bytes} (hd : ¬ isDelimiter (c :: src) = true) (s : VbState) :
    stop isDelimiter msg (c :: src) s =
      ((stop isDelimiter msg src s).1, (stop isDelimiter msg src s).2 + 1) := by
  unfold stop
  rw [firstDelimiter_cons, if_neg hd]
  cases firstDelimiter isDelimiter src with
  | none => rfl
  | some n => rfl

/-- The loop appends the compacted text, one character after the other. -/
theorem scan_eq (remSpace : Bool) (src : Bytes) (s : VbState) :
    scan heap isDelimiter msg remSpace src s =
      (appendEach heap (squeeze isspace 32 remSpace (beforeDelimiter isDelimiter src)) s).map
        (stop isDelimiter msg src) := by
  induction src generalizing remSpace s with
  | nil =>
      rw [scan, beforeDelimiter_nil, squeeze, appendEach]
      simp only [Except.map, stop, firstDelimiter_nil]
      split_ifs with hd
      · rfl
      · rfl
  | cons c src ih =>
      rw [scan, beforeDelimiter_cons]
      by_cases hd : isDelimiter (c :: src) = true
      · rw [if_pos hd, if_pos hd, squeeze, appendEach]
        simp only [Except.map, stop, firstDelimiter_cons, if_pos hd]
      · rw [if_neg hd, if_neg hd]
        -- with or without a character that is appended before, the rest is scanned by the induction
        have hrest : ∀ (remSpace : Bool) (s : VbState),
            (match scan heap isDelimiter msg remSpace src s with
              | .error f => .error f
              | .ok (s, n) => .ok (s, n + 1)) =
            (appendEach heap (squeeze isspace 32 remSpace (beforeDelimiter isDelimiter src)) s).map
              (stop isDelimiter msg (c :: src)) := by
          intro remSpace s
          rw [ih]
          cases appendEach heap (squeeze isspace 32 remSpace (beforeDelimiter isDelimiter src)) s with
          | error f => rfl
          | ok s' => exact congrArg Except.ok (stop_cons hd s').symm
        have happended : ∀ (d : UInt8) (remSpace : Bool),
            (match s.append heap [d] with
              | .error f => .error f
              | .ok s =>
                  match scan heap isDelimiter msg remSpace src s with
                  | .error f => .error f
                  | .ok (s, n) => .ok (s, n + 1)) =
            (appendEach heap (d :: squeeze isspace 32 remSpace (beforeDelimiter isDelimiter src)) s).map
              (stop isDelimiter msg (c :: src)) := by
          intro d remSpace
          rw [appendEach]
          cases s.append heap [d] with
          | error f => rfl
          | ok s' => exact hrest remSpace s'
        by_cases hsp : isspace c = true
        · cases remSpace with
          | true =>
              simp only [squeeze, hsp, if_true]
              exact hrest true s
          | false =>
              simp only [squeeze, hsp, if_true, Bool.false_eq_true, if_false]
              exact happended 32 true
        · have hword : isspace c = false := Bool.eq_false_iff.2 hsp
          simp only [squeeze, hword, Bool.false_eq_true, if_false]
          exact happended c false

theorem appendEach_room {c : UInt8} {bytes : Bytes} (hrep : s.vb.Sized) (herror : s.error = none)
    (hroom : s.vb.used + (c :: bytes).length < s.vb.actual) :
    ∃ s', appendEach heap (c :: bytes) s = .ok s' ∧ s'.error = none ∧ Appended s s' (c :: bytes) := by
  induction bytes generalizing c s with
  | nil =>
      rcases @append_room heap s [c] hrep herror hroom with ⟨s', happend, herror', happended⟩
      refine ⟨s', ?_, herror', happended⟩
      rw [appendEach, happend]
      rfl
  | cons d bytes ih =>
      have hone : s.vb.used + [c].length < s.vb.actual := by
        simp only [List.length_cons, List.length_nil] at hroom ⊢
        omega
      rcases @append_room heap s [c] hrep herror hone with ⟨s₁, happend, herror₁, hs₁⟩
      have hmore : s₁.vb.used + (d :: bytes).length < s₁.vb.actual := by
        have hused : s₁.vb.used = s.vb.used + 1 := hs₁.used
        rw [hused, hs₁.actual]
        simp only [List.length_cons] at hroom ⊢
        omega
      rcases ih hs₁.rep.toSized herror₁ hmore with ⟨s', heach, herror', hs'⟩
      refine ⟨s', ?_, herror', hs₁.trans hs'⟩
      rw [appendEach, happend]
      exact heach

/-- With more characters than there is room for, one of them fills the block exactly. -/
theorem appendEach_full {bytes : Bytes} (hrep : s.vb.Sized) (herror : s.error = none)
    (hfull : s.vb.actual ≤ s.vb.used + bytes.length) : appendEach heap bytes s = .error .outOfBounds := by
  have hlt := hrep.used_lt
  induction bytes generalizing s with
  | nil => exact absurd hfull (Nat.not_le.2 hlt)
  | cons c bytes ih =>
      rw [appendEach]
      by_cases hone : s.vb.used + [c].length < s.vb.actual
      · rcases @append_room heap s [c] hrep herror hone with ⟨s₁, happend, herror₁, hs₁⟩
        rw [happend]
        refine ih hs₁.rep.toSized herror₁ ?_ hs₁.rep.used_lt
        rw [hs₁.used, hs₁.actual]
        simp only [List.length_cons, List.length_nil] at hfull ⊢
        omega
      -- this is the one that fills it
      · have hexact : s.vb.used + [c].length = s.vb.actual := by
          simp only [List.length_cons, List.length_nil] at hone ⊢
          omega
        rw [append_exact hrep hexact]

/-- The character that the trimming looks at. -/
theorem last_content {text : Bytes} {d : UInt8} (hrep : s.vb.Sized) (h : s.vb.content = text ++ [d]) :
    s.vb.used = text.length + 1 ∧ s.vb.mem.getD (s.vb.used - 1) 0 = d := by
  have hused : s.vb.used = text.length + 1 := by
    rw [← length_content hrep, h, List.length_append, List.length_singleton]
  refine ⟨hused, ?_⟩
  have hget : s.vb.content[text.length]? = some d := by
    rw [h, List.getElem?_concat_length]
  rw [Varbuf.content, List.getElem?_take_of_lt (by omega)] at hget
  rw [hused, Nat.add_sub_cancel, List.getD_eq_getElem?_getD, hget]
  rfl

/-- The content of a well formed buffer without a NUL is the string that is read there. -/
theorem cstr_mem (hrep : s.vb.Rep) (hzero : 0 ∉ s.vb.content) : cstr s.vb.mem = s.vb.content := by
  have hlt : s.vb.used < s.vb.mem.length := hrep.allocated ▸ hrep.used_lt
  have hnul : s.vb.mem[s.vb.used] = 0 := Option.some.inj ((List.getElem?_eq_getElem hlt).symm.trans hrep.nul)
  calc cstr s.vb.mem = cstr (s.vb.content ++ s.vb.mem.drop s.vb.used) := by
        rw [Varbuf.content, List.take_append_drop]
    _ = s.vb.content ++ cstr (0 :: s.vb.mem.drop (s.vb.used + 1)) := by
        rw [cstr_append hzero, List.drop_eq_getElem_cons hlt, hnul]
    _ = s.vb.content := List.append_nil _

theorem chop_error {size : Nat} {s' : VbState} (h : s.chop size = .ok s') : s'.error = s.error := by
  unfold chop nulterm store at h
  split_ifs at h
  cases h
  rfl

/-- The tail of a text that starts with a word is trimmed: its first character is never taken away. -/
theorem trimTail_spec {c : UInt8} {text : Bytes} (hc : isspace c = false) (hrep : s.vb.Rep)
    (hcontent : s.vb.content = c :: text) :
    ∃ s', trimTail (text.length + 1) s = .ok s' ∧ s'.error = s.error ∧ s'.vb.Rep ∧
      s'.vb.content = trimEnd isspace (c :: text) := by
  induction text using List.reverseRecOn generalizing s with
  | nil =>
      rcases @last_content s [] c hrep.toSized hcontent with ⟨-, hlast⟩
      refine ⟨s, ?_, rfl, hrep, ?_⟩
      · rw [List.length_nil, trimTail, hlast, if_neg fun h => Bool.false_ne_true (hc.symm.trans h.2)]
      · rw [hcontent, trimEnd_cons_word hc]
        rfl
  -- the first character is in front of the last one, so that `varbuf_chop` has something left
  | append_singleton text d ih =>
      rcases @last_content s (c :: text) d hrep.toSized hcontent with ⟨hused, hlast⟩
      rw [List.length_append, List.length_singleton, trimTail, hlast]
      by_cases hd : isspace d = true
      · have hpos : 0 < s.vb.used := hused ▸ Nat.succ_pos _
        rcases @setUsed_spec s (s.vb.used - 1) hrep (Nat.sub_le _ _) with ⟨s₁, hchop, hrep₁, hcontent₁⟩
        have hchop₁ : s.chop 1 = .ok s₁ := by
          rw [chop, if_pos (by rw [hused, List.length_cons]; omega), hchop]
        have htext : s₁.vb.content = c :: text := by
          rw [hcontent₁, hcontent, hused, Nat.add_sub_cancel]
          exact List.take_left
        rcases ih hrep₁ htext with ⟨s', htrim, herror, hrep', hcontent'⟩
        refine ⟨s', ?_, herror.trans (chop_error hchop₁), hrep', ?_⟩
        · rw [if_pos ⟨hpos, hd⟩, hchop₁]
          exact htrim
        · rw [hcontent']
          exact (List.rdropWhile_concat_pos isspace (c :: text) d hd).symm
      · refine ⟨s, if_neg fun h => hd h.2, rfl, hrep, ?_⟩
        rw [hcontent]
        exact (List.rdropWhile_concat_neg isspace (c :: text) d hd).symm

/-! ## The function on the memory of its buffer -/

theorem sized_ctor (block : Block) : (varbufCtor block 1000 true).vb.Sized where
  allocated := by
    show (block.bytes 0 1001).length = 1001
    rw [Block.bytes, List.length_map, List.length_range']
  size := Nat.mod_lt _ (Nat.two_pow_pos 64)
  used_lt := Nat.succ_pos 1000

/-- The text that does not fit runs over the end of the block. -/
theorem parse_full (block : Block)
    (hfull : 1000 < (squeeze isspace 32 true (beforeDelimiter isDelimiter msg)).length) :
    parse heap isDelimiter msg block = .error .outOfBounds := by
  have hall : (varbufCtor block 1000 true).vb.actual ≤ (varbufCtor block 1000 true).vb.used +
      (squeeze isspace 32 true (beforeDelimiter isDelimiter msg)).length := by
    show 1001 ≤ 0 + _
    omega
  rw [parse, scan_eq, appendEach_full (sized_ctor block) rfl hall]
  rfl

/-- Nothing is written in a buffer to which nothing is appended. -/
theorem parse_blank (block : Block) {n : Nat} (hfirst : firstDelimiter isDelimiter msg = some n)
    (hblank : squeeze isspace 32 true (beforeDelimiter isDelimiter msg) = []) :
    parse heap isDelimiter msg block = .ok ⟨some (block.bytes 0 1001), n, none⟩ := by
  rw [parse, scan_eq, hblank, appendEach]
  simp only [Except.map, stop, hfirst]
  rfl

theorem parse_unterminated (block : Block) (hfirst : firstDelimiter isDelimiter msg = none)
    (hfits : (squeeze isspace 32 true (beforeDelimiter isDelimiter msg)).length ≤ 1000) :
    parse heap isDelimiter msg block =
      .ok ⟨none, msg.length, some (.push 0 (ascii "Unterminated string in header : '" ++ msg ++ ascii "'"))⟩ := by
  have hscan : ∃ s, scan heap isDelimiter msg true msg (varbufCtor block 1000 true) =
      .ok (stop isDelimiter msg msg s) := by
    rw [scan_eq]
    cases htext : squeeze isspace 32 true (beforeDelimiter isDelimiter msg) with
    | nil => exact ⟨_, rfl⟩
    | cons c text =>
        have hroom : (varbufCtor block 1000 true).vb.used + (c :: text).length < (varbufCtor block 1000 true).vb.actual := by
          show 0 + (c :: text).length < 1001
          rw [← htext]
          omega
        rcases @appendEach_room heap _ c text (sized_ctor block) rfl hroom with ⟨s, heach, -, -⟩
        rw [heach]
        exact ⟨s, rfl⟩
  rcases hscan with ⟨s, hscan⟩
  rw [parse, hscan]
  simp only [stop, hfirst]
  rfl

/-- A text with a word that fits is trimmed and handed over as a string. -/
theorem parse_word (block : Block) {n : Nat} (hfirst : firstDelimiter isDelimiter msg = some n) (hmsg : 0 ∉ msg)
    (hfits : (squeeze isspace 32 true (beforeDelimiter isDelimiter msg)).length ≤ 1000)
    (hword : ∃ c ∈ beforeDelimiter isDelimiter msg, isspace c = false) :
    ∃ mem, parse heap isDelimiter msg block = .ok ⟨some mem, n, none⟩ ∧ 0 ∈ mem ∧
      cstr mem = trimEnd isspace (squeeze isspace 32 true (beforeDelimiter isDelimiter msg)) := by
  rcases @squeeze_head _ isspace 32 _ hword with ⟨c, text, hc, htext⟩
  have hroom : (varbufCtor block 1000 true).vb.used + (c :: text).length < (varbufCtor block 1000 true).vb.actual := by
    show 0 + (c :: text).length < 1001
    rw [← htext]
    omega
  rcases @appendEach_room heap _ c text (sized_ctor block) rfl hroom with ⟨s, heach, herror, hs⟩
  have hcontent : s.vb.content = c :: text := hs.content
  have hused : s.vb.used = text.length + 1 := by
    rw [← length_content hs.rep.toSized, hcontent, List.length_cons]
  rcases trimTail_spec hc hs.rep hcontent with ⟨s', htrim, herror', hrep', hcontent'⟩
  -- `varbuf_unbox` hands the block over
  refine ⟨s'.vb.mem, ?_, ?_, ?_⟩
  · rw [parse, scan_eq, htext, heach]
    simp only [Except.map, stop, hfirst, herror, Option.isSome_none, Bool.false_eq_true, if_false, hused, htrim,
      herror'.trans herror]
  · exact List.mem_of_getElem? hrep'.nul
  · rw [htext, ← hcontent']
    refine cstr_mem hrep' fun hzero => ?_
    -- a NUL in the buffer would come from the message
    rw [hcontent', ← htext] at hzero
    rcases mem_compact hzero with hbefore | hsep
    · exact hmsg (List.mem_of_mem_take hbefore)
    · exact absurd hsep (by decide)

end VbState

/-! ## What comes out of it -/

section Words

variable {isDelimiter : Bytes → Bool} {msg : Bytes}

theorem beforeDelimiter_of_some {n : Nat} (h : firstDelimiter isDelimiter msg = some n) :
    beforeDelimiter isDelimiter msg = msg.take n := by
  rw [beforeDelimiter, h]
  rfl

/-- The loop of `Lib.Header` collects the compacted text up to the same place. -/
theorem parseLoop_eq (hnul : isDelimiter [] = false) (remSpace : Bool) :
    parseLoop isDelimiter remSpace msg =
      (firstDelimiter isDelimiter msg).map fun n =>
        (squeeze isspace 32 remSpace (beforeDelimiter isDelimiter msg), n) := by
  induction msg generalizing remSpace with
  | nil =>
      rw [firstDelimiter_nil, hnul]
      rfl
  | cons c src ih =>
      rw [firstDelimiter_cons, beforeDelimiter_cons]
      by_cases hd : isDelimiter (c :: src) = true
      · simp only [parseLoop, hd, if_true, Option.map_some, squeeze]
      · simp only [parseLoop, hd, Bool.false_eq_true, if_false, ih, Option.map_map, squeeze]
        split_ifs
        · rfl
        · rfl
        · rfl

/-- The function does what `Lib.Header` says: it hands over the text, raises the error or writes behind the block.  What
it hands over for a text without words is what the block held. -/
theorem parse_refines [Host] (heap : Nat → Block) (block : Block) (hnul : isDelimiter [] = false) (hmsg : 0 ∉ msg)
    (hfresh : Host.freshBuf msg = cstr (block.bytes 0 1001)) :
    match parse msg isDelimiter with
    | .ok (text, n) => ∃ mem, VbState.parse heap isDelimiter msg block = .ok ⟨some mem, n, none⟩ ∧ cstr mem = text
    | .error e =>
        (e = overrun ∧ VbState.parse heap isDelimiter msg block = .error .outOfBounds) ∨
          ∃ n, VbState.parse heap isDelimiter msg block = .ok ⟨none, n, some e⟩ := by
  rw [parse]
  by_cases hfull : 1000 < (collected isDelimiter msg).length
  · rw [if_pos hfull]
    exact .inl ⟨rfl, VbState.parse_full block hfull⟩
  · have hfits : (squeeze isspace 32 true (beforeDelimiter isDelimiter msg)).length ≤ 1000 := Nat.not_lt.1 hfull
    rw [if_neg hfull, parseLoop_eq hnul]
    cases hfirst : firstDelimiter isDelimiter msg with
    | none => exact .inr ⟨_, VbState.parse_unterminated block hfirst hfits⟩
    | some n =>
        rw [Option.map_some]
        by_cases hblank : squeeze isspace 32 true (beforeDelimiter isDelimiter msg) = []
        · refine ⟨_, VbState.parse_blank block hfirst hblank, ?_⟩
          rw [if_pos hblank, hfresh]
        · have hword := exists_word_iff.2 hblank
          rcases @VbState.parse_word heap _ _ block n hfirst hmsg hfits hword with ⟨mem, hparse, -, htext⟩
          refine ⟨mem, hparse, ?_⟩
          rw [if_neg hblank, htext]

/-- A block that was used before, in which there is no NUL. -/
theorem zero_not_mem_bytes (addr first len : Nat) : 0 ∉ (⟨addr, fun _ => 97⟩ : Block).bytes first len := by
  intro hzero
  rcases List.mem_map.1 hzero with ⟨k, -, hk⟩
  have hfill : (97 : UInt8) = 0 := hk
  cases hfill

/-- Whatever was in the block, the function gives the words before the delimiter, or the error, exactly if their
characters and the blanks that end them fit in the buffer, and there is one. -/
theorem parse_words_iff (heap : Nat → Block) (isDelimiter : Bytes → Bool) {msg : Bytes} (hmsg : 0 ∉ msg) :
    (∀ block, ParsesWords isDelimiter msg (VbState.parse heap isDelimiter msg block)) ↔
      (beforeDelimiter isDelimiter msg).countP (fun c => !isspace c) +
          wordEnds isspace (beforeDelimiter isDelimiter msg) ≤ 1000 ∧
        (firstDelimiter isDelimiter msg = none ∨ ∃ c ∈ beforeDelimiter isDelimiter msg, isspace c = false) := by
  have hlen := @length_squeeze _ isspace 32 (beforeDelimiter isDelimiter msg)
  rw [← hlen]
  constructor
  · intro hall
    have hfits : (squeeze isspace 32 true (beforeDelimiter isDelimiter msg)).length ≤ 1000 := by
      by_contra hfull
      have hparses := hall ⟨0, fun _ => 0⟩
      rw [VbState.parse_full _ (Nat.lt_of_not_le hfull), ParsesWords] at hparses
      cases hfirst : firstDelimiter isDelimiter msg with
      | none =>
          simp only [hfirst] at hparses
          rcases hparses with ⟨n, e, herror⟩
          cases herror
      | some n =>
          simp only [hfirst] at hparses
          rcases hparses with ⟨mem, hok, -⟩
          cases hok
    refine ⟨hfits, ?_⟩
    cases hfirst : firstDelimiter isDelimiter msg with
    | none => exact .inl rfl
    | some n =>
        refine .inr ((@exists_word_iff _ isspace 32 _).2 fun hblank => ?_)
        -- in a block without any NUL
        have hparses := hall ⟨0, fun _ => 97⟩
        rw [VbState.parse_blank _ hfirst hblank, ParsesWords] at hparses
        simp only [hfirst] at hparses
        rcases hparses with ⟨mem, hok, hzero, -⟩
        cases hok
        exact zero_not_mem_bytes 0 0 1001 hzero
  · rintro ⟨hfits, hword⟩ block
    unfold ParsesWords
    cases hfirst : firstDelimiter isDelimiter msg with
    | none => exact ⟨_, _, VbState.parse_unterminated block hfirst hfits⟩
    | some n =>
        have hsome : ∃ c ∈ beforeDelimiter isDelimiter msg, isspace c = false :=
          hword.resolve_left (hfirst ▸ Option.some_ne_none n)
        rcases @VbState.parse_word heap _ _ block n hfirst hmsg hfits hsome with ⟨mem, hparse, hzero, htext⟩
        refine ⟨mem, hparse, hzero, ?_⟩
        rw [htext, trimEnd_squeeze rfl, beforeDelimiter_of_some hfirst]

theorem parse_words_iff_padded :
    ParsesWords isEndOfName (ascii " sc  type :dir")
      (VbState.parse (fun _ => zeros) isEndOfName (ascii " sc  type :dir") ⟨4096, fun _ => 97⟩) :=
  (parse_words_iff (fun _ => zeros) isEndOfName (by decide)).2 ⟨by decide, .inr ⟨115, by decide, rfl⟩⟩ _

theorem beforeDelimiter_replicate (n : Nat) :
    beforeDelimiter isEndOfName (List.replicate n 97 ++ [58]) = List.replicate n 97 := by
  induction n with
  | zero => rfl
  | succ n ih =>
      have hname : ¬ isEndOfName (97 :: (List.replicate n 97 ++ [58])) = true := Bool.false_ne_true
      rw [List.replicate_succ, List.cons_append, beforeDelimiter_cons, if_neg hname, ih]

end Words

/-- A value of one blank, in a block that was used before, is no string; and a name of 1001 characters is written over
the end of the block. -/
theorem not_parse_words :
    ¬ ParsesWords isEndOfValue (ascii " \n")
        (VbState.parse (fun _ => zeros) isEndOfValue (ascii " \n") ⟨4096, fun _ => 97⟩) ∧
      VbState.parse (fun _ => zeros) isEndOfName (List.replicate 1001 97 ++ [58]) zeros = .error .outOfBounds := by
  constructor
  · rintro ⟨mem, hok, hzero, -⟩
    rw [VbState.parse_blank _ (n := 1) (by decide) (by decide)] at hok
    cases hok
    exact zero_not_mem_bytes 4096 0 1001 hzero
  · refine VbState.parse_full zeros ?_
    rw [beforeDelimiter_replicate, squeeze_word fun c hc => List.eq_of_mem_replicate hc ▸ rfl, List.length_replicate]
    decide

end Scambio
