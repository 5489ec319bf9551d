import Mathlib.Data.List.DropRight
import Scambio.Smtpd.Parse

/-!
# Parameters — the parameters of a field (`lib/header.c`)

A field may have parameters behind its main value, each of them a name and a value that may be quoted.

* `Param`, `paramsText` : the parameters and how they are written;
* `Skipped`             : what the scanner goes over;
* `parameter_law`       : what `parameter_extract` and `parameter_suppress` make of such a text.
-/

namespace Scambio

/-- `parameter_suppress`. -/
def parameterSuppress (str : Bytes) : Bytes :=
  (str.take (str.length - (findNextParamDelim false str).length)).rdropWhile isspace

/-- A parameter.  What is not quoted has no separator and no quote in it, and no space in front. -/
structure Param where
  name : Bytes
  quoted : Bool
  value : Bytes
  name_ne : name ≠ []
  name_chars : ∀ c ∈ name, c ≠ 59 ∧ c ≠ 61 ∧ c ≠ 34 ∧ c ≠ 32
  value_quote : (34 : UInt8) ∉ value
  value_plain : quoted = false → (59 : UInt8) ∉ value ∧ value.head? ≠ some 32

namespace Param

def valueText (p : Param) : Bytes :=
  if p.quoted then 34 :: (p.value ++ [34]) else p.value

def body (p : Param) : Bytes :=
  p.name ++ 61 :: p.valueText

end Param

/-- The parameters behind a main value. -/
def paramsText (params : List Param) : Bytes :=
  params.flatMap fun p => 59 :: 32 :: p.body

@[simp] theorem paramsText_nil : paramsText [] = [] := rfl

@[simp] theorem paramsText_cons (p : Param) (params : List Param) :
    paramsText (p :: params) = 59 :: 32 :: (p.body ++ paramsText params) := rfl

/-! ## The scanner -/

/-- `find_next_param_delim` goes over the text: no separator out of quotes, and quotes come in pairs. -/
def Skipped (s : Bytes) : Prop :=
  ∀ rest, findNextParamDelim false (s ++ rest) = findNextParamDelim false rest

theorem Skipped.append {s t : Bytes} (hs : Skipped s) (ht : Skipped t) : Skipped (s ++ t) := by
  intro rest
  rw [List.append_assoc, hs, ht]

theorem skipped_of_plain {s : Bytes} (h : ∀ c ∈ s, c ≠ 34 ∧ c ≠ 59) : Skipped s := by
  intro rest
  induction s with
  | nil => rfl
  | cons c s ih =>
      have hc := h c List.mem_cons_self
      simp only [List.cons_append, findNextParamDelim, if_neg hc.1, hc.2, and_false, if_false]
      exact ih fun d hd => h d (List.mem_cons_of_mem _ hd)

/-- Up to the closing quote nothing is a separator. -/
theorem findNextParamDelim_quoted {s : Bytes} (h : (34 : UInt8) ∉ s) (rest : Bytes) :
    findNextParamDelim true (s ++ rest) = findNextParamDelim true rest := by
  induction s with
  | nil => rfl
  | cons c s ih =>
      rw [List.mem_cons, not_or] at h
      simp only [List.cons_append, findNextParamDelim, if_neg (Ne.symm h.1), Bool.true_eq_false, false_and, if_false]
      exact ih h.2

theorem skipped_quoted {s : Bytes} (h : (34 : UInt8) ∉ s) : Skipped (34 :: (s ++ [34])) := by
  intro rest
  have hopen : findNextParamDelim false (34 :: (s ++ [34]) ++ rest) = findNextParamDelim true (s ++ 34 :: rest) := by
    simp [findNextParamDelim]
  rw [hopen, findNextParamDelim_quoted h]
  rfl

theorem Param.skipped_valueText (p : Param) : Skipped p.valueText := by
  unfold valueText
  cases hquoted : p.quoted with
  | true => exact skipped_quoted p.value_quote
  | false =>
      apply skipped_of_plain
      intro c hc
      exact ⟨fun h => p.value_quote (h ▸ hc), fun h => (p.value_plain hquoted).1 (h ▸ hc)⟩

/-- From anywhere in its name on, a parameter is gone over. -/
theorem Param.skipped_tail (p : Param) (k : Nat) : Skipped (p.name.drop k ++ 61 :: p.valueText) := by
  have hname : Skipped (p.name.drop k ++ [61]) := by
    apply skipped_of_plain
    intro c hc
    rcases List.mem_append.1 hc with hc | hc
    · have hchar := p.name_chars c (List.mem_of_mem_drop hc)
      exact ⟨hchar.2.2.1, hchar.1⟩
    · rw [List.mem_singleton.1 hc]
      decide
  simpa using hname.append p.skipped_valueText

/-- What was gone over makes no difference. -/
theorem parameterFindLoop_skipped {s : Bytes} (hs : Skipped s) (n : Bytes) (fuel : Nat) (rest : Bytes) :
    parameterFindLoop n fuel (s ++ rest) = parameterFindLoop n fuel rest := by
  cases fuel with
  | zero => rfl
  | succ fuel => rw [parameterFindLoop, parameterFindLoop, hs]

theorem findNextParamDelim_paramsText (params : List Param) :
    findNextParamDelim false (paramsText params) = paramsText params := by
  cases params <;> rfl

/-! ## One parameter -/

theorem tolower_eq_equals {c : UInt8} (h : tolower c = 61) : c = 61 :=
  forall_byte (p := fun c => tolower c = 61 → c = 61) (by decide +kernel) c h

/-- A name without `=` that starts the text of a parameter and is not its name is shorter. -/
theorem length_lt_of_startsWithCase {n name rest : Bytes} (hn : (61 : UInt8) ∉ n)
    (hstarts : startsWithCase n (name ++ 61 :: rest) = true) (hne : strcaseeq n name = false) :
    n.length < name.length := by
  by_contra hle
  have hmap : n.map tolower = ((name ++ 61 :: rest).take n.length).map tolower := eq_of_beq hstarts
  rcases Nat.eq_or_lt_of_le (Nat.le_of_not_lt hle) with heq | hlt
  · rw [← heq, List.take_left] at hmap
    have hsame : strcaseeq n name = true := beq_iff_eq.2 hmap
    rw [hne] at hsame
    cases hsame
  · have hmem : (61 : UInt8) ∈ ((name ++ 61 :: rest).take n.length).map tolower := by
      obtain ⟨k, hk⟩ := Nat.exists_eq_add_of_lt hlt
      rw [hk, Nat.add_assoc, List.take_length_add_append, List.take_succ_cons, List.map_append]
      exact List.mem_append_right _ List.mem_cons_self
    rw [← hmap] at hmem
    rcases List.mem_map.1 hmem with ⟨c, hc, hlower⟩
    exact hn (tolower_eq_equals hlower ▸ hc)

theorem dropWhile_space {c : UInt8} (hc : c ≠ 32) (s : Bytes) : (c :: s).dropWhile (· == 32) = c :: s := by
  rw [List.dropWhile_cons, if_neg (by simpa using hc)]

/-- The value, up to what ends it. -/
theorem takeWhile_value {d : UInt8} {value rest : Bytes} (hvalue : d ∉ value) (hrest : rest = [] ∨ rest.head? = some d) :
    (value ++ rest).takeWhile (· != d) = value := by
  have hall : ∀ c ∈ value, (c != d) = true := fun c hc => bne_iff_ne.2 fun h => hvalue (h ▸ hc)
  rw [List.takeWhile_append_of_pos hall]
  rcases hrest with rfl | hhead
  · exact List.append_nil value
  · cases rest with
    | nil => exact List.append_nil value
    | cons c rest =>
        rw [List.head?_cons, Option.some.injEq] at hhead
        simp [hhead]

/-- What is read behind the `=`. -/
theorem Param.read_valueText (p : Param) {rest : Bytes} (hrest : rest = [] ∨ rest.head? = some 59) :
    (match (p.valueText ++ rest).dropWhile (· == 32) with
      | 34 :: str => some (str.takeWhile (· != 34))
      | str => some (str.takeWhile (· != 59))) = some p.value := by
  unfold valueText
  cases hquoted : p.quoted with
  | true =>
      have hvalue : (p.value ++ 34 :: rest).takeWhile (· != 34) = p.value :=
        takeWhile_value p.value_quote (.inr rfl)
      simp [hvalue]
  | false =>
      rcases p.value_plain hquoted with ⟨hsep, hspace⟩
      have hvalue := takeWhile_value hsep hrest
      have hhead : ∀ c, (p.value ++ rest).head? = some c → c ≠ 32 ∧ c ≠ 34 := by
        intro c hc
        cases hv : p.value with
        | nil =>
            rw [hv, List.nil_append] at hc
            rcases hrest with rfl | hrest
            · cases hc
            · rw [hrest] at hc
              cases hc
              decide
        | cons d value =>
            rw [hv] at hc hspace
            cases hc
            exact ⟨fun h => hspace (congrArg some h), fun h => p.value_quote (h ▸ hv ▸ List.mem_cons_self)⟩
      simp only [Bool.false_eq_true, if_false]
      -- no quote is taken for the one that opens the value
      cases htext : p.value ++ rest with
      | nil =>
          rw [htext] at hvalue
          rw [← hvalue]
          rfl
      | cons c str =>
          have hc := hhead c (by rw [htext]; rfl)
          rw [dropWhile_space hc.1]
          split
          next heq => exact absurd (List.cons.inj heq).1 hc.2
          next => rw [← htext, hvalue]

/-- A round of `parameter_find`. -/
theorem parameterFindLoop_param (p : Param) {n : Bytes} (hn : (61 : UInt8) ∉ n) {rest : Bytes}
    (hrest : rest = [] ∨ rest.head? = some 59) (fuel : Nat) :
    parameterFindLoop n (fuel + 1) (59 :: 32 :: (p.body ++ rest)) =
      if strcaseeq n p.name then some p.value else parameterFindLoop n fuel rest := by
  have hskip : (32 :: (p.body ++ rest)).dropWhile (· == 32) = p.body ++ rest := by
    cases hname : p.name with
    | nil => exact absurd hname p.name_ne
    | cons c name =>
        have hc := (p.name_chars c (hname ▸ List.mem_cons_self)).2.2.2
        rw [Param.body, hname, List.dropWhile_cons_of_pos (by decide)]
        exact dropWhile_space hc _
  have hbody : p.body ++ rest = p.name ++ 61 :: (p.valueText ++ rest) := by simp [Param.body]
  have hfind : findNextParamDelim false (59 :: 32 :: (p.body ++ rest)) = 59 :: 32 :: (p.body ++ rest) := rfl
  rw [parameterFindLoop, hfind]
  simp only [hskip]
  by_cases hmatch : strcaseeq n p.name = true
  · have hlen : n.length = p.name.length := by
      simpa using congrArg List.length (eq_of_beq hmatch)
    have hstarts : startsWithCase n (p.body ++ rest) = true := by
      rw [startsWithCase, hbody, hlen, List.take_left]
      exact hmatch
    have hvalue : ((p.body ++ rest).drop n.length).dropWhile (· == 32) = 61 :: (p.valueText ++ rest) := by
      rw [hbody, hlen, List.drop_left]
      exact dropWhile_space (by decide) _
    rw [if_pos hstarts, if_pos hmatch, hvalue]
    exact p.read_valueText hrest
  · rw [if_neg hmatch]
    have hnonempty : p.body ++ rest ≠ [] := by simp [hbody]
    have hgo : ∀ k, parameterFindLoop n fuel (p.name.drop k ++ 61 :: (p.valueText ++ rest)) =
        parameterFindLoop n fuel rest := by
      intro k
      have hassoc : p.name.drop k ++ 61 :: (p.valueText ++ rest) = (p.name.drop k ++ 61 :: p.valueText) ++ rest := by
        simp
      rw [hassoc, parameterFindLoop_skipped (p.skipped_tail k)]
    by_cases hstarts : startsWithCase n (p.body ++ rest) = true
    · -- the name goes on behind what was looked for
      have hlt : n.length < p.name.length := by
        rw [hbody] at hstarts
        exact length_lt_of_startsWithCase hn hstarts (Bool.eq_false_iff.2 hmatch)
      have hdrop : (p.body ++ rest).drop n.length = p.name.drop n.length ++ 61 :: (p.valueText ++ rest) := by
        rw [hbody, List.drop_append_of_le_length (Nat.le_of_lt hlt)]
      rw [if_pos hstarts, hdrop]
      have hnext := hgo n.length
      -- no `=` comes next, so the loop goes on from there
      cases htail : p.name.drop n.length with
      | nil =>
          rw [List.drop_eq_nil_iff] at htail
          omega
      | cons c tail =>
          have hc := p.name_chars c (List.mem_of_mem_drop (htail ▸ List.mem_cons_self))
          rw [htail] at hnext
          rw [List.cons_append, dropWhile_space hc.2.2.2]
          split
          next heq => exact absurd (List.cons.inj heq).1 hc.2.1
          next => rw [if_neg (by simp)]; exact hnext
    · rw [if_neg hstarts, if_neg hnonempty, hbody]
      exact hgo 0

/-! ## All parameters -/

theorem parameterFindLoop_paramsText {n : Bytes} (hn : (61 : UInt8) ∉ n) (params : List Param) {fuel : Nat}
    (hfuel : params.length < fuel) :
    parameterFindLoop n fuel (paramsText params) = (params.find? fun p => strcaseeq n p.name).map Param.value := by
  induction params generalizing fuel with
  | nil =>
      cases fuel with
      | zero => cases hfuel
      | succ fuel => rfl
  | cons p params ih =>
      cases fuel with
      | zero => cases hfuel
      | succ fuel =>
          have hrest : paramsText params = [] ∨ (paramsText params).head? = some 59 := by
            cases params
            · exact .inl rfl
            · exact .inr rfl
          rw [paramsText_cons, parameterFindLoop_param p hn hrest, ih (Nat.lt_of_succ_lt_succ hfuel), List.find?_cons]
          cases strcaseeq n p.name <;> rfl

theorem length_paramsText (params : List Param) : params.length ≤ (paramsText params).length := by
  induction params with
  | nil => exact Nat.le_refl 0
  | cons p params ih =>
      rw [paramsText_cons, List.length_cons, List.length_cons, List.length_cons, List.length_append]
      omega

theorem parameterFind_eq {main : Bytes} (hmain : Skipped main) {n : Bytes} (hn : (61 : UInt8) ∉ n) (params : List Param) :
    parameterFind (main ++ paramsText params) n = (params.find? fun p => strcaseeq n p.name).map Param.value := by
  have hlen := length_paramsText params
  rw [parameterFind, parameterFindLoop_skipped hmain]
  apply parameterFindLoop_paramsText hn
  rw [List.length_append]
  omega

theorem parameterSuppress_eq {main : Bytes} (hmain : Skipped main) (params : List Param) :
    parameterSuppress (main ++ paramsText params) = main.rdropWhile isspace := by
  rw [parameterSuppress, hmain, findNextParamDelim_paramsText, List.length_append, Nat.add_sub_cancel, List.take_left]

/-- The first parameter of a name is found, and the main value without the white space behind it. -/
theorem parameter_law {main : Bytes} (hmain : ∀ c ∈ main, c ≠ 34 ∧ c ≠ 59) (params : List Param) {n : Bytes}
    (hn : (61 : UInt8) ∉ n) :
    parameterFind (main ++ paramsText params) n = (params.find? fun p => strcaseeq n p.name).map Param.value ∧
      parameterSuppress (main ++ paramsText params) = main.rdropWhile isspace :=
  ⟨parameterFind_eq (skipped_of_plain hmain) hn params, parameterSuppress_eq (skipped_of_plain hmain) params⟩

/-- A name that is the beginning of another one, behind a value with a separator in it. -/
theorem parameter_law_prefix :
    parameterFind (ascii "text/plain ; names=\"a;name=b\"; name=c") (ascii "Name") = some (ascii "c") ∧
      parameterSuppress (ascii "text/plain ; names=\"a;name=b\"; name=c") = ascii "text/plain" := by
  have hmain : ∀ c ∈ ascii "text/plain ", c ≠ 34 ∧ c ≠ 59 := by decide +kernel
  let names : Param := ⟨ascii "names", true, ascii "a;name=b", by decide, by decide +kernel, by decide, by decide⟩
  let name : Param := ⟨ascii "name", false, ascii "c", by decide, by decide +kernel, by decide, by decide⟩
  exact parameter_law hmain [names, name] (n := ascii "Name") (by decide)

end Scambio
