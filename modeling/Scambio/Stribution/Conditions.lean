import Scambio.Stribution.Parser

/-!
# Conditions — the tagged union of a test (`struct strib_condition`)

`Rules` has a sum type for the value of a condition.  Here the tag and the union are two fields, which the semantic
actions write and `condition_eval` reads, and the regular expression is a third one; reading what was not written,
a NULL string or an assertion that fails is a `StribFault`.

* `buildTest_eq`        : what the semantic actions write;
* `conditionEvalAt_eq`  : what `condition_eval` reads of it;
* `ruleTotal_iff`       : for which lines and headers there is no fault.
-/

namespace Scambio

/-- `union strib_value`: the member that was written last, or what `Calloc` left. -/
inductive ValueUnion
  | zeros
  | string (string : Bytes)
  | number (number : Int)
  | deref (name : Bytes)
  deriving DecidableEq, Repr

/-- `enum value_type` -/
inductive ValueType
  | string
  | number
  | deref
  deriving DecidableEq, Repr

/-- `struct strib_condition`; `reMatch` is what was compiled, if `re_match_set`. -/
structure ConditionStruct where
  op : StribOp
  fieldName : Option Bytes
  valueType : ValueType
  value : ValueUnion
  reMatch : Option Bytes
  deriving DecidableEq, Repr

/-- What must not happen. -/
inductive StribFault
  | nullString
  | wrongMember
  | noRegex
  | assertion
  deriving DecidableEq, Repr

/-- `Calloc` -/
def ConditionStruct.zeros : ConditionStruct :=
  { op := .always, fieldName := none, valueType := .string, value := .zeros, reMatch := none }

def ValueUnion.readString : ValueUnion → Except StribFault Bytes
  | .string s => .ok s
  | .zeros => .error .nullString
  | _ => .error .wrongMember

def ValueUnion.readNumber : ValueUnion → Except StribFault Int
  | .number n => .ok n
  | _ => .error .wrongMember

def ValueUnion.readDeref : ValueUnion → Except StribFault Bytes
  | .deref name => .ok name
  | .zeros => .error .nullString
  | _ => .error .wrongMember

/-! ## Semantic actions -/

/-- Why no test is built. -/
inductive BuildStop
  | stopped (stop : ParseStop)
  | fault (fault : StribFault)
  deriving DecidableEq, Repr

/-- `value` -/
def ConditionStruct.setValue (cond : ConditionStruct) : StribValue → ConditionStruct
  | .string s => { cond with valueType := .string, value := .string s }
  | .number n => { cond with valueType := .number, value := .number n }
  | .deref name => { cond with valueType := .deref, value := .deref name }

section Regcomp

variable (regcomp : Bytes → Bool)

/-- `condition: field BINARYOP value` -/
def ConditionStruct.setBinary (cond : ConditionStruct) (op : StribOp) : Except BuildStop ConditionStruct :=
  let cond := { cond with op := op }
  if op = .re then
    if cond.valueType = .deref then
      .error (.stopped (.abort (ascii "Cannot use regex with varying field values")))
    else
      match cond.value.readString with
      | .error fault => .error (.fault fault)
      | .ok s =>
          if regcomp s then .ok { cond with reMatch := some s }
          else .error (.stopped (.abort (ascii "Cannot compile regular expression")))
  else .ok cond

/-- `condition` -/
def buildCondition : List Token → Except BuildStop (ConditionStruct × List Token)
  | .always :: toks => .ok ({ ConditionStruct.zeros with op := .always }, toks)
  | .fieldname name :: .unaryop text :: toks =>
      .ok ({ ConditionStruct.zeros with fieldName := some name, op := str2unaryop text }, toks)
  | .fieldname name :: .binaryop text :: toks =>
      -- the type of the value decides which member of the union is set
      match parseValue toks with
      | .error stop => .error (.stopped stop)
      | .ok (value, toks) =>
          let cond := ({ ConditionStruct.zeros with fieldName := some name } : ConditionStruct).setValue value
          match cond.setBinary regcomp (str2binaryop text) with
          | .error stop => .error stop
          | .ok cond => .ok (cond, toks)
  | _ => .error (.stopped .syntaxError)

/-- `test` -/
def buildTest (toks : List Token) : Except BuildStop ((ConditionStruct × StribAction) × List Token) :=
  match buildCondition regcomp toks with
  | .error stop => .error stop
  | .ok (cond, .separator :: toks) =>
      match parseAction toks with
      | .error stop => .error (.stopped stop)
      | .ok (action, .eol :: toks) => .ok ((cond, action), toks)
      | .ok _ => .error (.stopped .syntaxError)
  | .ok _ => .error (.stopped .syntaxError)

end Regcomp

/-! ## Evaluation -/

/-- `binary_op_num` -/
def binaryOpNumAt (op : StribOp) (a b : Int) : Except StribFault Bool :=
  match op with
  | .gt => .ok (a > b)
  | .ge => .ok (a ≥ b)
  | .lt => .ok (a < b)
  | .le => .ok (a ≤ b)
  | .eq => .ok (a == b)
  | .re => .ok false
  | _ => .error .assertion

/-- `binary_op_str`; `strcmp` reads both strings. -/
def binaryOpStrAt (op : StribOp) (a : Bytes) : Option Bytes → Except StribFault Bool
  | none => .error .nullString
  | some b =>
      match op with
      | .gt => .ok (b < a)
      | .ge => .ok (b ≤ a)
      | .lt => .ok (a < b)
      | .le => .ok (a ≤ b)
      | .eq => .ok (a == b)
      | _ => .error .assertion

section Regexec

variable (regexec : Bytes → Bytes → Bool)

/-- `re_match_str` -/
def ConditionStruct.reMatchStr (cond : ConditionStruct) (a : Bytes) : Except StribFault Bool :=
  match cond.reMatch with
  | none => .error .noRegex
  | some re => .ok (regexec re a)

/-- A string the program goes on with. -/
def requireString : Option Bytes → Except StribFault Bytes
  | none => .error .nullString
  | some s => .ok s

/-- The end of `condition_eval`, on the value of the field. -/
def ConditionStruct.valueEval (cond : ConditionStruct) (fieldValue : Bytes) (head : Header) : Except StribFault Bool :=
  let compare (strValue : Option Bytes) : Except StribFault Bool :=
    if cond.op = .re then cond.reMatchStr regexec fieldValue else binaryOpStrAt cond.op fieldValue strValue
  match cond.valueType with
  | .string => cond.value.readString >>= fun s => compare (some s)
  | .deref => cond.value.readDeref >>= fun name => compare (headerSearch head name)
  | .number => cond.value.readNumber >>= fun number =>
      match str2num fieldValue with
      | none => .ok false
      | some fieldNum => binaryOpNumAt cond.op fieldNum number

/-- `condition_eval` -/
def ConditionStruct.conditionEvalAt (cond : ConditionStruct) (head : Header) : Except StribFault Bool :=
  match cond.op with
  | .always => .ok true
  | .set => (requireString cond.fieldName).map fun name => (headerSearch head name).isSome
  | .unset => (requireString cond.fieldName).map fun name => (headerSearch head name).isNone
  | op =>
      if op.isBinary then
        requireString cond.fieldName >>= fun name =>
          match headerSearch head name with
          | none => .ok false
          | some fieldValue => cond.valueEval regexec fieldValue head
      else .error .assertion

end Regexec

/-! ## The struct that holds a condition -/

/-- The expression that is compiled for a condition. -/
def StribCondition.compiled (cond : StribCondition) : Option Bytes :=
  match cond.op, cond.value with
  | .re, some (.string s) => some s
  | _, _ => none

/-- The struct, as the semantic actions fill it. -/
def StribCondition.struct (cond : StribCondition) : ConditionStruct :=
  let filled : ConditionStruct :=
    { ConditionStruct.zeros with op := cond.op, fieldName := cond.fieldName, reMatch := cond.compiled }
  match cond.value with
  | none => filled
  | some value => filled.setValue value

/-- What the sum type tells of a parse that stops. -/
def BuildStop.ofParse : ParseStop → BuildStop
  | .fault => .fault .wrongMember
  | stop => .stopped stop

/-! ## What is built -/

section

variable {regcomp : Bytes → Bool}

theorem setBinary_setValue (name : Bytes) (op : StribOp) (value : StribValue) :
    (({ ConditionStruct.zeros with fieldName := some name } : ConditionStruct).setValue value).setBinary regcomp op =
      ((binaryCondition regcomp name op value).map StribCondition.struct).mapError .ofParse := by
  unfold ConditionStruct.setBinary binaryCondition
  by_cases hop : op = .re
  · subst hop
    cases value with
    | string s =>
        by_cases hs : regcomp s = true
        · simp [ConditionStruct.setValue, ValueUnion.readString, hs, Except.map, Except.mapError,
            StribCondition.struct, StribCondition.compiled, ConditionStruct.zeros]
        · simp [ConditionStruct.setValue, ValueUnion.readString, hs, Except.map, Except.mapError, BuildStop.ofParse]
    | number n => rfl
    | deref name => rfl
  · have hcompiled : ({ op := op, fieldName := some name, value := some value } : StribCondition).compiled = none := by
      cases op <;> first | rfl | exact absurd rfl hop
    cases value <;>
      simp [hop, Except.map, Except.mapError, StribCondition.struct, hcompiled, ConditionStruct.setValue,
        ConditionStruct.zeros]

theorem buildCondition_eq (toks : List Token) :
    buildCondition regcomp toks =
      ((parseCondition regcomp toks).map fun parsed => (parsed.1.struct, parsed.2)).mapError .ofParse := by
  unfold buildCondition
  split
  · rfl
  next name text toks =>
    have hcompiled : ({ op := str2unaryop text, fieldName := some name, value := none } : StribCondition).compiled =
        none := by
      unfold StribCondition.compiled
      split <;> simp_all
    simp [parseCondition, Except.map, Except.mapError, StribCondition.struct, hcompiled, ConditionStruct.zeros]
  next name text toks =>
    simp only [parseCondition]
    cases hvalue : parseValue toks with
    | error stop =>
        cases stop with
        | fault => exact absurd hvalue (parseValue_ne_fault toks)
        | syntaxError => rfl
        | abort why => rfl
    | ok parsed =>
        simp only [setBinary_setValue]
        cases binaryCondition regcomp name (str2binaryop text) parsed.1 <;> rfl
  next always unary binary =>
    rw [parseCondition.eq_4 regcomp toks always unary binary]
    rfl

/-- The semantic actions fill the struct with the test that is parsed, and stop where its parse does. -/
theorem buildTest_eq (toks : List Token) :
    buildTest regcomp toks =
      ((parseTest regcomp toks).map fun parsed =>
        ((parsed.1.condition.struct, parsed.1.action), parsed.2)).mapError .ofParse := by
  unfold buildTest parseTest
  rw [buildCondition_eq]
  cases hcondition : parseCondition regcomp toks with
  | error stop => rfl
  | ok parsed =>
      obtain ⟨condition, rest⟩ := parsed
      cases rest with
      | nil => rfl
      | cons tok rest =>
          cases tok with
          | separator =>
              simp only [Except.map, Except.mapError]
              cases haction : parseAction rest with
              | error stop =>
                  cases stop with
                  | fault => exact absurd haction (parseAction_ne_fault rest)
                  | syntaxError => rfl
                  | abort why => rfl
              | ok parsed =>
                  obtain ⟨action, rest⟩ := parsed
                  cases rest with
                  | nil => rfl
                  | cons tok rest => cases tok <;> rfl
          | _ => rfl

theorem buildTest_fault {toks : List Token} :
    (∃ fault, buildTest regcomp toks = .error (.fault fault)) ↔ RegexOnNumber toks := by
  rw [← @parseTest_fault regcomp, buildTest_eq]
  cases parseTest regcomp toks with
  | error stop => cases stop <;> simp [Except.map, Except.mapError, BuildStop.ofParse]
  | ok parsed => simp [Except.map, Except.mapError]

theorem buildTest_ok {toks rest : List Token} {cond : ConditionStruct} {action : StribAction} :
    buildTest regcomp toks = .ok ((cond, action), rest) ↔
      ∃ test, parseTest regcomp toks = .ok (test, rest) ∧ cond = test.condition.struct ∧ action = test.action := by
  rw [buildTest_eq]
  cases parseTest regcomp toks with
  | error stop => simp [Except.map, Except.mapError]
  | ok parsed =>
      obtain ⟨test, toks'⟩ := parsed
      simp only [Except.map, Except.mapError, Except.ok.injEq, Prod.mk.injEq]
      constructor
      · rintro ⟨⟨rfl, rfl⟩, rfl⟩
        exact ⟨test, ⟨rfl, rfl⟩, rfl, rfl⟩
      · rintro ⟨_, ⟨rfl, rfl⟩, rfl, rfl⟩
        exact ⟨⟨rfl, rfl⟩, rfl⟩

end

/-! ## What is read -/

theorem isBinary_str2binaryop {text : Bytes} (h : text ∈ binaryopTexts) : (str2binaryop text).isBinary = true := by
  have hall : ∀ text ∈ binaryopTexts, (str2binaryop text).isBinary = true := by decide
  exact hall text h

theorem binaryOpNumAt_eq {op : StribOp} (h : op.isBinary = true) (a b : Int) :
    binaryOpNumAt op a b = .ok (binaryOpNum op a b) := by
  cases op <;> first | rfl | exact absurd h (by decide)

theorem binaryOpStrAt_eq {op : StribOp} (h : op.isBinary = true) (hre : op ≠ .re) (a b : Bytes) :
    binaryOpStrAt op a (some b) = .ok (binaryOpStr op a b) := by
  cases op <;> first | rfl | exact absurd rfl hre | exact absurd h (by decide)

/-- What the program goes on with. -/
def orNullString : Option Bool → Except StribFault Bool
  | none => .error .nullString
  | some b => .ok b

variable {regcomp : Bytes → Bool} (regexec : Bytes → Bytes → Bool)

theorem valueEval_struct {op : StribOp} {name : Bytes} {value : StribValue} (hop : op.isBinary = true)
    (hcompiles : Compiles regcomp op value) (fieldValue : Bytes) (head : Header) :
    ({ op := op, fieldName := some name, value := some value } : StribCondition).struct.valueEval regexec fieldValue
        head = orNullString (valueEval regexec op (some value) fieldValue head) := by
  cases value with
  | string s =>
      by_cases hre : op = .re
      · subst hre
        rfl
      · have hcompare := binaryOpStrAt_eq hop hre fieldValue s
        simp only [ConditionStruct.valueEval, StribCondition.struct, ConditionStruct.setValue, ValueUnion.readString,
          valueEval, orNullString, bind, Except.bind, if_neg hre, hcompare]
  | number n =>
      simp only [ConditionStruct.valueEval, StribCondition.struct, ConditionStruct.setValue, valueEval]
      cases str2num fieldValue with
      | none => rfl
      | some fieldNum => exact binaryOpNumAt_eq hop fieldNum n
  | deref other =>
      have hre : op ≠ .re := by
        intro hre
        rcases hcompiles hre with ⟨s, hs, -⟩
        cases hs
      change (if op = .re then ConditionStruct.reMatchStr regexec _ fieldValue
        else binaryOpStrAt op fieldValue (headerSearch head other)) = _
      rw [if_neg hre, valueEval, if_neg hre]
      cases headerSearch head other with
      | none => rfl
      | some s => exact binaryOpStrAt_eq hop hre fieldValue s

theorem conditionEvalAt_binary {op : StribOp} (hop : op.isBinary = true) (name : Bytes) (value : StribValue)
    (head : Header) :
    let cond : StribCondition := { op := op, fieldName := some name, value := some value }
    cond.struct.conditionEvalAt regexec head =
      match headerSearch head name with
      | none => .ok false
      | some fieldValue => cond.struct.valueEval regexec fieldValue head := by
  cases op <;> first | exact absurd hop (by decide) | (cases value <;> rfl)

theorem conditionEval_binary {op : StribOp} (hop : op.isBinary = true) (name : Bytes) (value : StribValue)
    (head : Header) :
    conditionEval regexec { op := op, fieldName := some name, value := some value } head =
      match headerSearch head name with
      | none => some false
      | some fieldValue => valueEval regexec op (some value) fieldValue head := by
  cases op <;> first | exact absurd hop (by decide) | rfl

/-- Where the sum type has no result, a string is absent. -/
theorem conditionEvalAt_eq {toks : List Token} {cond : StribCondition} (h : IsCondition regcomp toks cond)
    (htext : ∀ tok ∈ toks, tok.FromText) (head : Header) :
    cond.struct.conditionEvalAt regexec head = orNullString (conditionEval regexec cond head) := by
  cases h with
  | always => rfl
  | unary name text =>
      have hunary : text = ascii "unset" ∨ text = ascii "set" := htext (.unaryop text) (by simp)
      rcases hunary with rfl | rfl <;> rfl
  | binary name text hvalue hcompiles =>
      have hop := isBinary_str2binaryop (htext (.binaryop text) (by simp))
      rw [conditionEvalAt_binary regexec hop, conditionEval_binary regexec hop]
      cases headerSearch head name with
      | none => rfl
      | some fieldValue => exact valueEval_struct regexec hop hcompiles fieldValue head

/-! ## Faults -/

/-- A rule that compares a field that is set with one that is not. -/
def DerefOfUnset (toks : List Token) (head : Header) : Prop :=
  ∃ name text other a action rest,
    toks = .fieldname name :: .binaryop text :: .deref :: .fieldname other :: .separator :: (a ++ .eol :: rest) ∧
      IsAction a action ∧ str2binaryop text ≠ .re ∧
        (headerSearch head name).isSome ∧ headerSearch head other = none

theorem valueEval_eq_none {op : StribOp} {value : StribValue} (hcompiles : Compiles regcomp op value)
    {fieldValue : Bytes} {head : Header} :
    valueEval regexec op (some value) fieldValue head = none ↔
      op ≠ .re ∧ ∃ other, value = .deref other ∧ headerSearch head other = none := by
  cases value with
  | string s => simp [valueEval]
  | number n =>
      simp only [valueEval]
      split <;> simp
  | deref other =>
      have hre : op ≠ .re := by
        intro hre
        rcases hcompiles hre with ⟨s, hs, -⟩
        cases hs
      simp [valueEval, hre]

theorem conditionEval_eq_none {toks : List Token} {cond : StribCondition} (h : IsCondition regcomp toks cond)
    (htext : ∀ tok ∈ toks, tok.FromText) (head : Header) :
    conditionEval regexec cond head = none ↔
      ∃ name text other, toks = [.fieldname name, .binaryop text, .deref, .fieldname other] ∧
        str2binaryop text ≠ .re ∧ (headerSearch head name).isSome ∧ headerSearch head other = none := by
  cases h with
  | always => simp [conditionEval]
  | unary name text =>
      have hunary : text = ascii "unset" ∨ text = ascii "set" := htext (.unaryop text) (by simp)
      have hset : str2unaryop text = .set ∨ str2unaryop text = .unset := by
        rcases hunary with rfl | rfl
        · exact Or.inr rfl
        · exact Or.inl rfl
      rcases hset with hset | hset <;> rw [hset] <;> simp [conditionEval]
  | @binary name text v value hvalue hcompiles =>
      have hop := isBinary_str2binaryop (htext (.binaryop text) (by simp))
      rw [conditionEval_binary regexec hop]
      constructor
      · intro hnone
        cases hset : headerSearch head name with
        | none => rw [hset] at hnone; cases hnone
        | some fieldValue =>
            rw [hset] at hnone
            rcases (valueEval_eq_none regexec hcompiles).1 hnone with ⟨hre, other, rfl, hunset⟩
            cases hvalue
            exact ⟨name, text, other, rfl, hre, by rw [hset]; rfl, hunset⟩
      · rintro ⟨name', text', other, heq, hre, hset, hunset⟩
        simp only [List.cons.injEq, Token.fieldname.injEq, Token.binaryop.injEq] at heq
        obtain ⟨rfl, rfl, rfl⟩ := heq
        cases hvalue with
        | deref _ =>
            rcases Option.isSome_iff_exists.1 hset with ⟨fieldValue, hset⟩
            rw [hset]
            exact (valueEval_eq_none regexec hcompiles).2 ⟨hre, other, rfl, hunset⟩

/-- The test of a line, if it has one, is built without a fault and is true or false. -/
structure RuleTotal (regcomp : Bytes → Bool) (regexec : Bytes → Bytes → Bool) (line : Bytes) (head : Header) :
    Prop where
  built : ∀ fault, buildTest regcomp (yylex line) ≠ .error (.fault fault)
  evaluated : ∀ cond action rest, buildTest regcomp (yylex line) = .ok ((cond, action), rest) →
    ∃ b, cond.conditionEvalAt regexec head = .ok b

/-- A line is total unless it takes a number for a regular expression, or compares a field that is set with one
that is not. -/
theorem ruleTotal_iff (regcomp : Bytes → Bool) (regexec : Bytes → Bytes → Bool) (line : Bytes) (head : Header) :
    RuleTotal regcomp regexec line head ↔ ¬ RegexOnNumber (yylex line) ∧ ¬ DerefOfUnset (yylex line) head := by
  have htext : ∀ tok ∈ yylex line, tok.FromText := fun tok htok => fromText_of_mem_yylex htok
  constructor
  · rintro ⟨hbuilt, hevaluated⟩
    refine ⟨fun hregex => ?_, ?_⟩
    · rcases buildTest_fault.2 hregex with ⟨fault, hfault⟩
      exact hbuilt fault hfault
    · rintro ⟨name, text, other, a, action, rest, htoks, haction, hre, hset, hunset⟩
      -- a rule that compares with an unset field is parsed, so that it is evaluated
      have hcondition : IsCondition regcomp [.fieldname name, .binaryop text, .deref, .fieldname other]
          { op := str2binaryop text, fieldName := some name, value := some (.deref other) } :=
        .binary name text (.deref other) (fun h => absurd h hre)
      have hrule : IsRule regcomp
          ([.fieldname name, .binaryop text, .deref, .fieldname other] ++ .separator :: a) ⟨_, action⟩ :=
        ⟨_, a, rfl, hcondition, haction⟩
      have hparse := hrule.parse rest
      have hwhole : ([.fieldname name, .binaryop text, .deref, .fieldname other] ++ .separator :: a) ++
          Token.eol :: rest = yylex line := by
        rw [htoks]
        simp
      rw [hwhole] at hparse
      rcases hevaluated _ _ _ (buildTest_ok.2 ⟨_, hparse, rfl, rfl⟩) with ⟨b, hb⟩
      have hsub : ∀ tok ∈ [Token.fieldname name, .binaryop text, .deref, .fieldname other], tok.FromText := by
        intro tok htok
        refine htext tok ?_
        rw [← hwhole]
        exact List.mem_append_left _ (List.mem_append_left _ htok)
      have hnone := (conditionEval_eq_none regexec hcondition hsub head).2
        ⟨name, text, other, rfl, hre, hset, hunset⟩
      rw [conditionEvalAt_eq regexec hcondition hsub, hnone] at hb
      cases hb
  · rintro ⟨hregex, hderef⟩
    refine ⟨fun fault hfault => hregex (buildTest_fault.1 ⟨fault, hfault⟩), ?_⟩
    intro cond action rest hbuild
    rcases buildTest_ok.1 hbuild with ⟨test, hparse, rfl, rfl⟩
    rcases parseTest_sound hparse with ⟨l, hl, c, a, rfl, hcondition, haction⟩
    have hsub : ∀ tok ∈ c, tok.FromText := by
      intro tok htok
      refine htext tok ?_
      rw [hl]
      exact List.mem_append_left _ (List.mem_append_left _ htok)
    rw [conditionEvalAt_eq regexec hcondition hsub]
    cases heval : conditionEval regexec test.condition head with
    | some b => exact ⟨b, rfl⟩
    | none =>
        rcases (conditionEval_eq_none regexec hcondition hsub _).1 heval with ⟨name, text, other, rfl, hre, hset, hunset⟩
        refine absurd ⟨name, text, other, a, _, rest, ?_, haction, hre, hset, hunset⟩ hderef
        rw [hl]
        simp

/-- A message with `From` and without `To` stops the program. -/
theorem not_ruleTotal : ¬ ∀ (regcomp : Bytes → Bool) (regexec : Bytes → Bytes → Bool) (line : Bytes) (head : Header),
    RuleTotal regcomp regexec line head := by
  intro h
  let head : Header := [⟨ascii "from", ascii "a"⟩]
  have htotal := h (fun _ => true) (fun _ _ => true) (ascii "from = ! to : copyto \"b\"\n") head
  have hlex : yylex (ascii "from = ! to : copyto \"b\"\n") =
      [.fieldname (ascii "from"), .binaryop (ascii "="), .deref, .fieldname (ascii "to"), .separator,
        .destaction (ascii "copyto"), .string (ascii "\"b\""), .eol] := by decide +kernel
  have hbuild : buildTest (fun _ => true) (yylex (ascii "from = ! to : copyto \"b\"\n")) =
      .ok ((⟨.eq, some (ascii "from"), .deref, .deref (ascii "to"), none⟩,
        ⟨.copy, some (.string (ascii "b"))⟩), []) := by
    rw [hlex]
    decide
  rcases htotal.evaluated _ _ _ hbuild with ⟨b, hb⟩
  have hfault : (ConditionStruct.mk .eq (some (ascii "from")) .deref (.deref (ascii "to")) none).conditionEvalAt
      (fun _ _ => true) head = .error .nullString := by decide
  rw [hfault] at hb
  cases hb

end Scambio
