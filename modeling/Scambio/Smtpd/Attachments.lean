import Mathlib.Tactic.IntervalCases
import Scambio.Smtpd.Parameters

/-!
# Attachments — names and types of parts, from smtpd to the mail sender
(`smtpd/parse.c`, `smtpd/queries.c`, `sendmail/forwarder.c`)

smtpd writes the name and the type of a part as parameters behind the reference of the resource, and the sender
reads them back.

* `attachmentName`, `storeFile` : what is written, in a buffer of `PARAMS_SIZE` bytes;
* `partCtor`                    : what is read;
* `partCtor_iff`                : when it is the same.
-/

namespace Scambio

open Library

/-- The file name that `build_params` chooses. -/
def attachmentName (mimeType2ext : Bytes → Option Bytes) (h : Header) : Bytes :=
  match (headerFind h (ascii "content-disposition")).bind fun hf => parameterFind hf.value (ascii "filename") with
  | some filename => filename
  | none =>
      match headerFind h (ascii "content-type") with
      | none => ascii "noname"
      | some hf =>
          match parameterFind hf.value (ascii "name") with
          | some filename => filename
          | none => ascii "noname." ++ (mimeType2ext hf.value).getD (ascii "bin")

/-- `store_file`: the value of the field. -/
def storeFile (ref params : Bytes) : Bytes :=
  if params = [] then ref else ref ++ ascii "; " ++ params

/-- What `part_ctor` takes from a field. -/
structure PartValues where
  resource : Bytes
  name : Option Bytes
  type : Option Bytes
  deriving DecidableEq, Repr

def partCtor (resource : Bytes) : PartValues where
  resource := parameterSuppress resource
  name := parameterFind resource (ascii "name")
  type := parameterFind resource (ascii "type")

/-- A reference, as it is in `char ref[PATH_MAX]`. -/
structure ResourceRef where
  text : Bytes
  chars : ∀ c ∈ text, c ≠ 34 ∧ c ≠ 59
  fits : text.length < PATH_MAX

/-! ## What is written -/

/-- The parameters up to the value of the type. -/
def paramsStart (name : Bytes) : Bytes :=
  ascii "name=\"" ++ name ++ ascii "\"; type="

theorem length_paramsStart (name : Bytes) : (paramsStart name).length = 14 + name.length := by
  have hopen : (ascii "name=\"").length = 6 := rfl
  have hclose : (ascii "\"; type=").length = 8 := rfl
  rw [paramsStart, List.length_append, List.length_append]
  omega

theorem buildParams_eq (mimeType2ext : Bytes → Option Bytes) {h : Header} {hf : HeaderField}
    (htype : headerFind h (ascii "content-type") = some hf) :
    buildParams mimeType2ext h =
      (paramsStart (attachmentName mimeType2ext h) ++ 34 :: (hf.value ++ [34])).take (PARAMS_SIZE - 1) := by
  have hquotes : ∀ name : Bytes, ascii "name=\"" ++ name ++ ascii "\"" ++ ascii "; type=\"" ++ hf.value ++ ascii "\"" =
      paramsStart name ++ 34 :: (hf.value ++ [34]) := by
    intro name
    simp [paramsStart, ascii, charByte]
  rw [← hquotes]
  unfold buildParams attachmentName
  exact htype ▸ rfl

/-- There is room for the value in `res_vb`. -/
theorem length_storeFile (ref : ResourceRef) (mimeType2ext : Bytes → Option Bytes) (h : Header) :
    (storeFile ref.text (buildParams mimeType2ext h)).length < MAX_HEADLINE_LENGTH := by
  have href := ref.fits
  have hparams : (buildParams mimeType2ext h).length ≤ PARAMS_SIZE - 1 := List.length_take_le _ _
  have hsep : (ascii "; ").length = 2 := rfl
  have hsizes : PATH_MAX + 2 + PARAMS_SIZE ≤ MAX_HEADLINE_LENGTH := by decide
  unfold storeFile
  split
  · omega
  · rw [List.length_append, List.length_append]
    omega

/-! ## What is read -/

/-- The name as a parameter of its own. -/
def nameParam (name : Bytes) : Bytes :=
  ascii "name=" ++ 34 :: (name ++ [34])

theorem nameParam_append (name rest : Bytes) :
    nameParam name ++ rest = ascii "name=" ++ (34 :: (name ++ [34]) ++ rest) := by
  rw [nameParam, List.append_assoc]

theorem paramsStart_eq (name : Bytes) : paramsStart name = nameParam name ++ ascii "; type=" := by
  simp [paramsStart, nameParam, ascii, charByte]

theorem skipped_nameParam {name : Bytes} (hname : (34 : UInt8) ∉ name) : Skipped (nameParam name) :=
  Skipped.append (skipped_of_plain (by decide +kernel)) (skipped_quoted hname)

theorem parameterFind_name {ref : Bytes} (href : Skipped ref) {name : Bytes} (hname : (34 : UInt8) ∉ name) (rest : Bytes) :
    parameterFind (ref ++ ascii "; " ++ (nameParam name ++ rest)) (ascii "name") = some name := by
  have hvalue : (name ++ 34 :: rest).takeWhile (· != 34) = name := takeWhile_value hname (.inr rfl)
  have hparam : ref ++ ascii "; " ++ (nameParam name ++ rest) =
      ref ++ 59 :: 32 :: (ascii "name=" ++ 34 :: (name ++ 34 :: rest)) := by
    simp [nameParam, ascii, charByte]
  have hround : ∀ (fuel : Nat) (x : Bytes),
      parameterFindLoop (ascii "name") (fuel + 1) (59 :: 32 :: (ascii "name=" ++ 34 :: x)) = some (x.takeWhile (· != 34)) := fun _ _ => rfl
  rw [hparam, parameterFind, parameterFindLoop_skipped href, hround, hvalue]

/-- The type is looked for behind the name. -/
theorem parameterFind_type {ref : Bytes} (href : Skipped ref) (rest : Bytes) :
    ∃ fuel, parameterFind (ref ++ ascii "; " ++ (ascii "name=" ++ rest)) (ascii "type") =
      parameterFindLoop (ascii "type") (fuel + 2) (ascii "name=" ++ rest) := by
  have hround : ∀ (fuel : Nat) (x : Bytes),
      parameterFindLoop (ascii "type") (fuel + 1) (59 :: 32 :: (ascii "name=" ++ x)) = parameterFindLoop (ascii "type") fuel (ascii "name=" ++ x) := fun _ _ => rfl
  have hsep : ref ++ ascii "; " ++ (ascii "name=" ++ rest) = ref ++ 59 :: 32 :: (ascii "name=" ++ rest) := by
    simp [ascii, charByte]
  have hlen : (ref ++ 59 :: 32 :: (ascii "name=" ++ rest)).length = ref.length + rest.length + 5 + 2 := by
    simp [ascii]
    omega
  refine ⟨ref.length + rest.length + 5, ?_⟩
  rw [hsep, parameterFind, hlen, parameterFindLoop_skipped href, hround]

/-- The value of the type, if its quote is there. -/
theorem parameterFind_type_value {ref : Bytes} (href : Skipped ref) {name : Bytes} (hname : (34 : UInt8) ∉ name)
    (rest : Bytes) :
    parameterFind (ref ++ ascii "; " ++ (paramsStart name ++ 34 :: rest)) (ascii "type") =
      some (rest.takeWhile (· != 34)) := by
  have hsplit : paramsStart name ++ 34 :: rest = nameParam name ++ (ascii "; type=" ++ 34 :: rest) := by
    rw [paramsStart_eq, List.append_assoc]
  have hround : ∀ (fuel : Nat) (x : Bytes), parameterFindLoop (ascii "type") (fuel + 1) (ascii "; type=" ++ 34 :: x) =
      some (x.takeWhile (· != 34)) := fun _ _ => rfl
  obtain ⟨fuel, hfuel⟩ := parameterFind_type href (34 :: (name ++ [34]) ++ (ascii "; type=" ++ 34 :: rest))
  rw [← nameParam_append] at hfuel
  rw [hsplit, hfuel, parameterFindLoop_skipped (skipped_nameParam hname), hround]

/-- Without its quote it is empty. -/
theorem parameterFind_type_empty {ref : Bytes} (href : Skipped ref) {name : Bytes} (hname : (34 : UInt8) ∉ name) :
    parameterFind (ref ++ ascii "; " ++ paramsStart name) (ascii "type") = some [] := by
  have hround : ∀ fuel, parameterFindLoop (ascii "type") (fuel + 1) (ascii "; type=") = some [] := fun _ => rfl
  obtain ⟨fuel, hfuel⟩ := parameterFind_type href (34 :: (name ++ [34]) ++ ascii "; type=")
  rw [← nameParam_append] at hfuel
  rw [paramsStart_eq, hfuel, parameterFindLoop_skipped (skipped_nameParam hname), hround]

/-- No type is found in a text that is cut in front of its value. -/
theorem parameterFind_type_cut {ref : Bytes} (href : Skipped ref) {name : Bytes} (hname : (34 : UInt8) ∉ name)
    {k : Nat} (hopen : 6 ≤ k) (hcut : k < (paramsStart name).length) :
    parameterFind (ref ++ ascii "; " ++ (paramsStart name).take k) (ascii "type") = none := by
  rw [length_paramsStart] at hcut
  have hparam : (nameParam name).length = name.length + 7 := by
    simp [nameParam, ascii]
  rw [paramsStart_eq, List.take_append, hparam]
  by_cases hquote : k < name.length + 7
  · -- the name is not closed
    have hnone : k - (name.length + 7) = 0 := by omega
    have hname' : (34 : UInt8) ∉ name.take (k - 6) := fun hmem => hname (List.mem_of_mem_take hmem)
    have htake : (nameParam name).take k = ascii "name=" ++ 34 :: name.take (k - 6) := by
      obtain ⟨j, rfl⟩ : ∃ j, k = 6 + j := ⟨k - 6, by omega⟩
      have hlong : 6 + j - (ascii "name=").length = j + 1 := by
        have hfive : (ascii "name=").length = 5 := rfl
        omega
      rw [nameParam, List.take_append, List.take_of_length_le (by simp [ascii]; omega), hlong, List.take_succ_cons,
        List.take_append_of_le_length (by omega), Nat.add_sub_cancel_left]
    obtain ⟨fuel, hfuel⟩ := parameterFind_type href (34 :: name.take (k - 6))
    have hend : findNextParamDelim false (34 :: name.take (k - 6)) = [] := by
      have hquoted := findNextParamDelim_quoted hname' []
      rw [List.append_nil] at hquoted
      exact hquoted
    rw [hnone, List.take_zero, List.append_nil, htake, hfuel,
      parameterFindLoop_skipped (skipped_of_plain (by decide +kernel)), parameterFindLoop, hend]
  · -- the name of the type is not complete
    obtain ⟨j, rfl⟩ : ∃ j, k = name.length + 7 + j := ⟨k - (name.length + 7), by omega⟩
    have hnone : ∀ fuel, parameterFindLoop (ascii "type") (fuel + 2) ((ascii "; type=").take j) = none := by
      intro fuel
      have hj : j < 7 := by omega
      interval_cases j <;> rfl
    obtain ⟨fuel, hfuel⟩ := parameterFind_type href (34 :: (name ++ [34]) ++ (ascii "; type=").take j)
    rw [← nameParam_append] at hfuel
    rw [List.take_of_length_le (by omega), Nat.add_sub_cancel_left, hfuel,
      parameterFindLoop_skipped (skipped_nameParam hname), hnone]

theorem parameterSuppress_ref {ref : Bytes} (href : Skipped ref) (rest : Bytes) :
    parameterSuppress (ref ++ ascii "; " ++ rest) = ref.rdropWhile isspace := by
  have hfind : findNextParamDelim false (ascii "; " ++ rest) = ascii "; " ++ rest := rfl
  rw [List.append_assoc, parameterSuppress, href, hfind, List.length_append, Nat.add_sub_cancel, List.take_left]

/-! ## Round trip -/

/-- The parameters are long enough for the value of the type, but maybe for its last quote; an empty one needs
no quotes at all. -/
def ParamsFit (name type : Bytes) : Prop :=
  (paramsStart name ++ if type = [] then [] else 34 :: type).length < PARAMS_SIZE

theorem paramsFit_iff (name type : Bytes) :
    ParamsFit name type ↔ name.length + type.length ≤ 112 ∨ type = [] ∧ name.length = 113 := by
  have hstart := length_paramsStart name
  unfold ParamsFit PARAMS_SIZE
  split
  next hempty =>
    subst hempty
    rw [List.append_nil, List.length_nil]
    simp only [true_and]
    omega
  next hsome =>
    rw [List.length_append, List.length_cons]
    simp only [hsome, false_and, or_false]
    omega

/-- A value that is cut, and then read up to a quote. -/
theorem takeWhile_take_eq_iff {type : Bytes} {m : Nat} :
    ((type ++ [34]).take m).takeWhile (· != 34) = type ↔ (34 : UInt8) ∉ type ∧ type.length ≤ m := by
  constructor
  · intro h
    constructor
    · intro hmem
      have hall := List.all_takeWhile (p := (· != (34 : UInt8))) (l := (type ++ [34]).take m)
      rw [h, List.all_eq_true] at hall
      exact absurd (hall 34 hmem) (by decide)
    · have hle := (List.takeWhile_prefix (· != (34 : UInt8)) (l := (type ++ [34]).take m)).length_le
      rw [h, List.length_take] at hle
      omega
  · rintro ⟨hquote, hlen⟩
    rw [List.take_append, List.take_of_length_le hlen]
    apply takeWhile_value hquote
    cases m - type.length with
    | zero => exact .inl rfl
    | succ k => exact .inr rfl

/-- What the sender reads of the type. -/
theorem parameterFind_type_iff {ref : Bytes} (href : Skipped ref) {name : Bytes} (hname : (34 : UInt8) ∉ name)
    (type : Bytes) :
    parameterFind (ref ++ ascii "; " ++ (paramsStart name ++ 34 :: (type ++ [34])).take (PARAMS_SIZE - 1)) (ascii "type") =
      some type ↔ (34 : UInt8) ∉ type ∧ ParamsFit name type := by
  have hstart := length_paramsStart name
  have hsize : PARAMS_SIZE - 1 = 127 := rfl
  rw [paramsFit_iff, hsize]
  -- the parameters are cut in the type, in front of it, or before
  rcases Nat.lt_trichotomy (paramsStart name).length 127 with hlt | heq | hgt
  · obtain ⟨m, hm⟩ : ∃ m, 127 - (paramsStart name).length = m + 1 := ⟨126 - (paramsStart name).length, by omega⟩
    have hcut : (paramsStart name ++ 34 :: (type ++ [34])).take 127 = paramsStart name ++ 34 :: (type ++ [34]).take m := by
      rw [List.take_append, List.take_of_length_le (Nat.le_of_lt hlt), hm, List.take_succ_cons]
    rw [hcut, parameterFind_type_value href hname, Option.some.injEq, takeWhile_take_eq_iff]
    refine and_congr_right fun _ => ⟨fun hle => .inl (by omega), ?_⟩
    rintro (hle | ⟨rfl, hname⟩)
    · omega
    · omega
  · rw [← heq, List.take_left, parameterFind_type_empty href hname, Option.some.injEq]
    constructor
    · rintro rfl
      exact ⟨nofun, .inr ⟨rfl, by omega⟩⟩
    · rintro ⟨-, hle | ⟨rfl, -⟩⟩
      · omega
      · rfl
  · rw [List.take_append_of_le_length (Nat.le_of_lt hgt), parameterFind_type_cut href hname (by decide) hgt]
    refine iff_of_false nofun ?_
    rintro ⟨-, hle | ⟨-, hname⟩⟩
    · omega
    · omega

/-- The attachments of which the sender gets the reference, the name and the type that smtpd had. -/
theorem partCtor_iff (mimeType2ext : Bytes → Option Bytes) (ref : ResourceRef) {h : Header} {hf : HeaderField}
    (htype : headerFind h (ascii "content-type") = some hf) (hname : (34 : UInt8) ∉ attachmentName mimeType2ext h) :
    partCtor (storeFile ref.text (buildParams mimeType2ext h)) =
        ⟨ref.text, some (attachmentName mimeType2ext h), some hf.value⟩ ↔
      (34 : UInt8) ∉ hf.value ∧ ParamsFit (attachmentName mimeType2ext h) hf.value ∧
        ref.text.rdropWhile isspace = ref.text := by
  have href : Skipped ref.text := skipped_of_plain ref.chars
  have hstore : storeFile ref.text (buildParams mimeType2ext h) = ref.text ++ ascii "; " ++
      (paramsStart (attachmentName mimeType2ext h) ++ 34 :: (hf.value ++ [34])).take (PARAMS_SIZE - 1) := by
    rw [buildParams_eq mimeType2ext htype, storeFile, if_neg]
    exact fun hnil => absurd (congrArg List.length hnil) (by simp [paramsStart, PARAMS_SIZE, ascii])
  have hread := parameterFind_type_iff href hname hf.value
  rw [hstore, partCtor, PartValues.mk.injEq, parameterSuppress_ref href, hread]
  constructor
  · rintro ⟨hspace, -, hquote, hfit⟩
    exact ⟨hquote, hfit, hspace⟩
  · rintro ⟨hquote, hfit, hspace⟩
    refine ⟨hspace, ?_, hquote, hfit⟩
    -- the name is not cut where the type fits
    have hlen : (nameParam (attachmentName mimeType2ext h)).length ≤ PARAMS_SIZE - 1 := by
      rw [paramsFit_iff] at hfit
      simp [nameParam, ascii, PARAMS_SIZE]
      omega
    have hsplit : paramsStart (attachmentName mimeType2ext h) ++ 34 :: (hf.value ++ [34]) =
        nameParam (attachmentName mimeType2ext h) ++ (ascii "; type=" ++ 34 :: (hf.value ++ [34])) := by
      rw [paramsStart_eq, List.append_assoc]
    rw [hsplit, List.take_append, List.take_of_length_le hlen, parameterFind_name href hname]

/-- A type without quotes. -/
theorem partCtor_iff_plain :
    partCtor (storeFile (ascii "01/23/ab")
        (buildParams (fun _ => none) [⟨ascii "content-type", ascii "image/png; name=a.png"⟩])) =
        ⟨ascii "01/23/ab", some (ascii "a.png"), some (ascii "image/png; name=a.png")⟩ ↔
      (34 : UInt8) ∉ ascii "image/png; name=a.png" ∧ ParamsFit (ascii "a.png") (ascii "image/png; name=a.png") ∧
        (ascii "01/23/ab").rdropWhile isspace = ascii "01/23/ab" :=
  partCtor_iff (fun _ => none) ⟨ascii "01/23/ab", by decide +kernel, by decide +kernel⟩
    (h := [⟨ascii "content-type", ascii "image/png; name=a.png"⟩]) rfl (by decide)

/-- A charset in quotes. -/
theorem not_partCtor_quoted :
    partCtor (storeFile (ascii "01/23/ab") (buildParams (fun _ => none)
        [⟨ascii "content-type", ascii "text/plain; charset=\"utf-8\"; name=a.txt"⟩])) ≠
      ⟨ascii "01/23/ab", some (ascii "a.txt"), some (ascii "text/plain; charset=\"utf-8\"; name=a.txt")⟩ := by
  decide

end Scambio
