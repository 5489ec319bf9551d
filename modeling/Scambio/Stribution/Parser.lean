import Scambio.Stribution.Lexer
import Scambio.Stribution.Rules

/-!
# Parser — from a header to its rules (`stribution/strib_parser.y`)

The automaton that bison makes of the grammar never needs more than one token to choose, so each nonterminal
is a function that consumes its tokens, and a token for which the automaton has no action is a syntax error.
`stribParses_iff` tells for which headers the parser does what the grammar says.
-/

namespace Scambio

open Library

/-! ## Semantic actions -/

def binaryops : List (Bytes × StribOp) :=
  [(ascii ">=", .ge), (ascii "<=", .le), (ascii "=~", .re), (ascii "=", .eq), (ascii ">", .gt), (ascii "<", .lt)]

/-- `str2binaryop` -/
def str2binaryop (str : Bytes) : StribOp :=
  ((binaryops.find? fun binaryop => binaryop.1.isPrefixOf str).map Prod.snd).getD .invalid

def str2unaryop (str : Bytes) : StribOp :=
  if (ascii "unset").isPrefixOf str then .unset else if (ascii "set").isPrefixOf str then .set else .invalid

/-- `str2destaction`: five characters are compared. -/
def str2destaction (str : Bytes) : ActionType :=
  if (ascii "copyt").isPrefixOf str then .copy else if (ascii "movet").isPrefixOf str then .move else .invalid

/-- `copystring`: the text without its quotes. -/
def copystring (str : Bytes) : Bytes :=
  str.tail.dropLast

/-- Why `yyparse` does not accept. -/
inductive ParseStop
  | syntaxError
  /-- An action returns after `yyerror`. -/
  | abort (why : Bytes)
  /-- `regcomp` is given a number for a pointer. -/
  | fault
  deriving DecidableEq, Repr

/-! ## Nonterminals -/

/-- `deref` -/
def parseDeref : List Token → Except ParseStop (Bytes × List Token)
  | .deref :: .fieldname name :: toks => .ok (name, toks)
  | _ => .error .syntaxError

/-- `value` -/
def parseValue : List Token → Except ParseStop (StribValue × List Token)
  | .string text :: toks => .ok (.string (copystring text), toks)
  | .number text :: toks => .ok (.number (strtoll text).1, toks)
  | toks =>
      match parseDeref toks with
      | .error stop => .error stop
      | .ok (name, toks) => .ok (.deref name, toks)

section Regcomp

-- whether `regcomp` compiles a string
variable (regcomp : Bytes → Bool)

/-- The action of `condition: field BINARYOP value`. -/
def binaryCondition (name : Bytes) (op : StribOp) (value : StribValue) : Except ParseStop StribCondition :=
  let condition : StribCondition := { op := op, fieldName := some name, value := some value }
  if op = .re then
    match value with
    | .deref _ => .error (.abort (ascii "Cannot use regex with varying field values"))
    -- the union is read as a string
    | .number _ => .error .fault
    | .string s =>
        if regcomp s then .ok condition else .error (.abort (ascii "Cannot compile regular expression"))
  else .ok condition

/-- `condition` -/
def parseCondition : List Token → Except ParseStop (StribCondition × List Token)
  | .always :: toks => .ok ({ op := .always, fieldName := none, value := none }, toks)
  | .fieldname name :: .unaryop text :: toks =>
      .ok ({ op := str2unaryop text, fieldName := some name, value := none }, toks)
  | .fieldname name :: .binaryop text :: toks =>
      match parseValue toks with
      | .error stop => .error stop
      | .ok (value, toks) =>
          match binaryCondition regcomp name (str2binaryop text) value with
          | .error stop => .error stop
          | .ok condition => .ok (condition, toks)
  | _ => .error .syntaxError

/-- `dest` -/
def parseDest : List Token → Except ParseStop (StribDest × List Token)
  | .string text :: toks => .ok (.string (copystring text), toks)
  | toks =>
      match parseDeref toks with
      | .error stop => .error stop
      | .ok (name, toks) => .ok (.deref name, toks)

/-- `action` -/
def parseAction : List Token → Except ParseStop (StribAction × List Token)
  | .delete :: toks => .ok ({ type := .delete, dest := none }, toks)
  | .destaction text :: toks =>
      match parseDest toks with
      | .error stop => .error stop
      | .ok (dest, toks) => .ok ({ type := str2destaction text, dest := some dest }, toks)
  | _ => .error .syntaxError

/-- `test` -/
def parseTest (toks : List Token) : Except ParseStop (StribTest × List Token) :=
  match parseCondition regcomp toks with
  | .error stop => .error stop
  | .ok (condition, .separator :: toks) =>
      match parseAction toks with
      | .error stop => .error stop
      | .ok (action, .eol :: toks) => .ok ({ condition := condition, action := action }, toks)
      | .ok _ => .error .syntaxError
  | .ok _ => .error .syntaxError

/-- `tests`, up to the end of the file; each round takes a token at least. -/
def parseTests : Nat → List StribTest → List Token → Except ParseStop (List StribTest)
  | _, tests, [] => .ok tests
  | 0, _, _ => .error .syntaxError
  | fuel + 1, tests, toks =>
      match parseTest regcomp toks with
      | .error stop => .error stop
      | .ok (test, toks) =>
          if NB_MAX_TESTS ≤ tests.length + 1 then .error (.abort (ascii "Too many tests (max is 1000)"))
          else parseTests fuel (tests ++ [test]) toks

def yyparse (toks : List Token) : Except ParseStop (List StribTest) :=
  parseTests regcomp toks.length [] toks

end Regcomp

/-! ## `strib_parse` -/

/-- The values that `header_find` gives one after the other. -/
def stanzas (h : Header) : List Bytes :=
  (h.filter fun hf => strcaseeq hf.name STRIB_STANZA).map HeaderField.value

/-- `conf_write` -/
def confWrite (h : Header) : Bytes :=
  (stanzas h).flatMap (fun value => value ++ [10]) ++ [10]

inductive StribParsed
  | ok (tests : List StribTest)
  | error (e : Err)
  | fault
  deriving DecidableEq, Repr

/-- `strib_parse`.  The lexer first ends what a parse that stopped early left in its buffer, `pending`.  Once
the end of file is accepted it is reached, and the loop ends. -/
def stribParse (regcomp : Bytes → Bool) (pending : Bytes) (h : Header) : StribParsed :=
  match yyparse regcomp (yylex (pending ++ confWrite h)) with
  | .ok tests => .ok tests
  | .error .fault => .fault
  | .error _ => .error (.push 0 (ascii "Parse error"))

/-! ## The language -/

inductive IsValue : List Token → StribValue → Prop
  | string (text : Bytes) : IsValue [.string text] (.string (copystring text))
  | number (text : Bytes) : IsValue [.number text] (.number (strtoll text).1)
  | deref (name : Bytes) : IsValue [.deref, .fieldname name] (.deref name)

/-- A regular expression is a string that compiles. -/
def Compiles (regcomp : Bytes → Bool) (op : StribOp) (value : StribValue) : Prop :=
  op = .re → ∃ s, value = .string s ∧ regcomp s = true

inductive IsCondition (regcomp : Bytes → Bool) : List Token → StribCondition → Prop
  | always : IsCondition regcomp [.always] { op := .always, fieldName := none, value := none }
  | unary (name text : Bytes) :
      IsCondition regcomp [.fieldname name, .unaryop text]
        { op := str2unaryop text, fieldName := some name, value := none }
  | binary (name text : Bytes) {toks : List Token} {value : StribValue} :
      IsValue toks value → Compiles regcomp (str2binaryop text) value →
        IsCondition regcomp (.fieldname name :: .binaryop text :: toks)
          { op := str2binaryop text, fieldName := some name, value := some value }

inductive IsAction : List Token → StribAction → Prop
  | delete : IsAction [.delete] { type := .delete, dest := none }
  | string (text dest : Bytes) :
      IsAction [.destaction text, .string dest]
        { type := str2destaction text, dest := some (.string (copystring dest)) }
  | deref (text name : Bytes) :
      IsAction [.destaction text, .deref, .fieldname name]
        { type := str2destaction text, dest := some (.deref name) }

/-- `condition SEPARATOR action` -/
def IsRule (regcomp : Bytes → Bool) (toks : List Token) (test : StribTest) : Prop :=
  ∃ c a, toks = c ++ .separator :: a ∧ IsCondition regcomp c test.condition ∧ IsAction a test.action

/-! ## The parser reads this language -/

theorem parseDeref_sound {toks toks' : List Token} {name : Bytes} (h : parseDeref toks = .ok (name, toks')) :
    toks = [.deref, .fieldname name] ++ toks' := by
  unfold parseDeref at h
  split at h
  · cases h
    rfl
  · cases h

theorem parseDeref_ne_fault (toks : List Token) : parseDeref toks ≠ .error .fault := by
  unfold parseDeref
  split <;> simp

theorem parseValue_sound {toks toks' : List Token} {value : StribValue} (h : parseValue toks = .ok (value, toks')) :
    ∃ v, toks = v ++ toks' ∧ IsValue v value := by
  unfold parseValue at h
  split at h
  · cases h
    exact ⟨_, rfl, .string _⟩
  · cases h
    exact ⟨_, rfl, .number _⟩
  · split at h
    · cases h
    next name toks'' hderef =>
      cases h
      exact ⟨_, parseDeref_sound hderef, .deref _⟩

theorem parseValue_ne_fault (toks : List Token) : parseValue toks ≠ .error .fault := by
  unfold parseValue
  split
  · simp
  · simp
  · split
    next stop hderef =>
      rintro ⟨⟩
      exact parseDeref_ne_fault _ hderef
    · simp

theorem IsValue.parse {v : List Token} {value : StribValue} (h : IsValue v value) (toks : List Token) :
    parseValue (v ++ toks) = .ok (value, toks) := by
  cases h <;> rfl

variable {regcomp : Bytes → Bool}

theorem binaryCondition_eq_ok {name : Bytes} {op : StribOp} {value : StribValue} {condition : StribCondition} :
    binaryCondition regcomp name op value = .ok condition ↔
      condition = { op := op, fieldName := some name, value := some value } ∧ Compiles regcomp op value := by
  unfold binaryCondition Compiles
  by_cases hop : op = .re
  · cases value with
    | string s => by_cases hs : regcomp s = true <;> simp [hop, hs, eq_comm (a := condition)]
    | number n => simp [hop]
    | deref name => simp [hop]
  · simp [hop, eq_comm (a := condition)]

theorem binaryCondition_eq_fault {name : Bytes} {op : StribOp} {value : StribValue} :
    binaryCondition regcomp name op value = .error .fault ↔ op = .re ∧ ∃ n, value = .number n := by
  unfold binaryCondition
  by_cases hop : op = .re
  · cases value with
    | string s => by_cases hs : regcomp s = true <;> simp [hop, hs]
    | number n => simp [hop]
    | deref name => simp [hop]
  · simp [hop]

theorem parseCondition_sound {toks toks' : List Token} {condition : StribCondition}
    (h : parseCondition regcomp toks = .ok (condition, toks')) :
    ∃ c, toks = c ++ toks' ∧ IsCondition regcomp c condition := by
  unfold parseCondition at h
  split at h
  · cases h
    exact ⟨_, rfl, .always⟩
  · cases h
    exact ⟨_, rfl, .unary _ _⟩
  · split at h
    · cases h
    next name text toks value toks'' hvalue =>
      split at h
      · cases h
      next hbinary =>
        cases h
        rcases parseValue_sound hvalue with ⟨v, rfl, hv⟩
        rcases binaryCondition_eq_ok.1 hbinary with ⟨rfl, hcompiles⟩
        exact ⟨_, rfl, .binary _ _ hv hcompiles⟩
  · cases h

theorem IsCondition.parse {c : List Token} {condition : StribCondition} (h : IsCondition regcomp c condition)
    (toks : List Token) : parseCondition regcomp (c ++ toks) = .ok (condition, toks) := by
  cases h with
  | always => rfl
  | unary name text => rfl
  | binary name text hv hcompiles =>
      have hbinary := (@binaryCondition_eq_ok regcomp name _ _ _).2 ⟨rfl, hcompiles⟩
      rw [List.cons_append, List.cons_append, parseCondition, hv.parse]
      simp only [hbinary]

/-- A condition that compares a field with a number as with a regular expression. -/
def RegexOnNumber (toks : List Token) : Prop :=
  ∃ name text number toks', toks = .fieldname name :: .binaryop text :: .number number :: toks' ∧
    str2binaryop text = .re

theorem parseCondition_fault {toks : List Token} :
    parseCondition regcomp toks = .error .fault ↔ RegexOnNumber toks := by
  constructor
  · intro h
    unfold parseCondition at h
    split at h
    · cases h
    · cases h
    · split at h
      next hvalue =>
        cases h
        exact absurd hvalue (parseValue_ne_fault _)
      next value toks' hvalue =>
        split at h
        next hbinary =>
          cases h
          rcases binaryCondition_eq_fault.1 hbinary with ⟨hop, n, rfl⟩
          rcases parseValue_sound hvalue with ⟨v, rfl, hv⟩
          cases hv with
          | number number => exact ⟨_, _, number, toks', rfl, hop⟩
        · cases h
    · cases h
  · rintro ⟨name, text, number, toks', rfl, hop⟩
    have hfault : binaryCondition regcomp name (str2binaryop text) (.number (strtoll number).1) = .error .fault :=
      binaryCondition_eq_fault.2 ⟨hop, _, rfl⟩
    rw [parseCondition, parseValue]
    simp only [hfault]

theorem parseAction_sound {toks toks' : List Token} {action : StribAction}
    (h : parseAction toks = .ok (action, toks')) : ∃ a, toks = a ++ toks' ∧ IsAction a action := by
  unfold parseAction at h
  split at h
  · cases h
    exact ⟨_, rfl, .delete⟩
  · split at h
    · cases h
    next text toks dest toks'' hdest =>
      cases h
      unfold parseDest at hdest
      split at hdest
      · cases hdest
        exact ⟨_, rfl, .string _ _⟩
      · split at hdest
        · cases hdest
        next hderef =>
          cases hdest
          rw [parseDeref_sound hderef]
          exact ⟨_, rfl, .deref _ _⟩
  · cases h

theorem parseAction_ne_fault (toks : List Token) : parseAction toks ≠ .error .fault := by
  unfold parseAction
  split
  · simp
  · split
    next toks stop hdest =>
      rintro ⟨⟩
      unfold parseDest at hdest
      split at hdest
      · cases hdest
      · split at hdest
        next hderef =>
          cases hdest
          exact parseDeref_ne_fault _ hderef
        · cases hdest
    · simp
  · simp

theorem IsAction.parse {a : List Token} {action : StribAction} (h : IsAction a action) (toks : List Token) :
    parseAction (a ++ toks) = .ok (action, toks) := by
  cases h <;> rfl

theorem parseTest_sound {toks toks' : List Token} {test : StribTest}
    (h : parseTest regcomp toks = .ok (test, toks')) :
    ∃ line, toks = line ++ .eol :: toks' ∧ IsRule regcomp line test := by
  unfold parseTest at h
  split at h
  · cases h
  next condition toks₁ hcondition =>
    rcases parseCondition_sound hcondition with ⟨c, rfl, hc⟩
    split at h
    · cases h
    next action toks₂ haction =>
      cases h
      rcases parseAction_sound haction with ⟨a, rfl, ha⟩
      exact ⟨c ++ .separator :: a, by simp, c, a, rfl, hc, ha⟩
    · cases h
  · cases h

theorem IsRule.parse {line : List Token} {test : StribTest} (h : IsRule regcomp line test) (toks : List Token) :
    parseTest regcomp (line ++ .eol :: toks) = .ok (test, toks) := by
  rcases h with ⟨c, a, rfl, hc, ha⟩
  have hcondition := hc.parse (.separator :: a ++ .eol :: toks)
  have haction := ha.parse (.eol :: toks)
  rw [List.append_assoc, parseTest, hcondition]
  simp only [List.cons_append, haction]

theorem parseTest_fault {toks : List Token} : parseTest regcomp toks = .error .fault ↔ RegexOnNumber toks := by
  rw [← @parseCondition_fault regcomp]
  constructor
  · intro h
    unfold parseTest at h
    split at h
    next stop hcondition =>
      cases h
      exact hcondition
    · split at h
      next haction =>
        cases h
        exact absurd haction (parseAction_ne_fault _)
      · cases h
      · cases h
    · cases h
  · intro h
    rw [parseTest, h]

/-- The tokens of some lines. -/
def lineTokens (lines : List (List Token)) : List Token :=
  lines.flatMap fun line => line ++ [.eol]

theorem lineTokens_cons (line : List Token) (lines : List (List Token)) :
    lineTokens (line :: lines) = line ++ .eol :: lineTokens lines := by
  simp [lineTokens]

theorem length_le_lineTokens (lines : List (List Token)) : lines.length ≤ (lineTokens lines).length := by
  induction lines with
  | nil => exact Nat.zero_le _
  | cons line lines ih =>
      rw [lineTokens_cons, List.length_append, List.length_cons, List.length_cons]
      omega

theorem parseTests_sound {fuel : Nat} {tests result : List StribTest} {toks : List Token}
    (h : parseTests regcomp fuel tests toks = .ok result) :
    ∃ lines new, toks = lineTokens lines ∧ List.Forall₂ (IsRule regcomp) lines new ∧ result = tests ++ new := by
  induction fuel generalizing tests toks with
  | zero =>
      cases toks with
      | nil =>
          cases h
          exact ⟨[], [], rfl, .nil, (List.append_nil _).symm⟩
      | cons tok toks => cases h
  | succ fuel ih =>
      cases toks with
      | nil =>
          cases h
          exact ⟨[], [], rfl, .nil, (List.append_nil _).symm⟩
      | cons tok toks =>
          rw [parseTests] at h
          · split at h
            · cases h
            next test toks' htest =>
              split at h
              · cases h
              · rcases parseTest_sound htest with ⟨line, hline, hrule⟩
                rcases ih h with ⟨lines, new, rfl, hrules, rfl⟩
                exact ⟨line :: lines, test :: new, hline.trans (lineTokens_cons _ _).symm, .cons hrule hrules,
                  by simp⟩
          · simp

/-- One round of `yyparse`. -/
theorem parseTests_rule {line : List Token} {test : StribTest} (h : IsRule regcomp line test)
    {tests : List StribTest} (hmax : tests.length + 1 < NB_MAX_TESTS) (fuel : Nat) (toks : List Token) :
    parseTests regcomp (fuel + 1) tests (line ++ .eol :: toks) = parseTests regcomp fuel (tests ++ [test]) toks := by
  rw [parseTests]
  · simp only [h.parse, if_neg (Nat.not_le.2 hmax)]
  · simp

theorem parseTests_rules {lines : List (List Token)} {new : List StribTest}
    (h : List.Forall₂ (IsRule regcomp) lines new) {tests : List StribTest}
    (hmax : tests.length + lines.length < NB_MAX_TESTS) {fuel : Nat} (hfuel : lines.length ≤ fuel)
    (toks : List Token) :
    parseTests regcomp fuel tests (lineTokens lines ++ toks) =
      parseTests regcomp (fuel - lines.length) (tests ++ new) toks := by
  induction h generalizing tests fuel with
  | nil => simp [lineTokens]
  | @cons line test lines new hrule _ ih =>
      obtain ⟨fuel, rfl⟩ : ∃ f, fuel = f + 1 := ⟨fuel - 1, by simp at hfuel; omega⟩
      rw [List.length_cons] at hmax hfuel
      rw [lineTokens_cons, List.append_assoc, List.cons_append, parseTests_rule hrule (by omega),
        ih (by simp; omega) (by omega), List.append_assoc, List.length_cons, Nat.succ_sub_succ]
      rfl

/-- Rules, and then a regular expression on a number. -/
def RegexFault (regcomp : Bytes → Bool) (toks : List Token) : Prop :=
  ∃ lines tests toks', toks = lineTokens lines ++ toks' ∧ List.Forall₂ (IsRule regcomp) lines tests ∧
    lines.length < NB_MAX_TESTS ∧ RegexOnNumber toks'

theorem parseTests_fault {fuel : Nat} {tests : List StribTest} {toks : List Token}
    (hmax : tests.length < NB_MAX_TESTS) (h : parseTests regcomp fuel tests toks = .error .fault) :
    ∃ lines new toks', toks = lineTokens lines ++ toks' ∧ List.Forall₂ (IsRule regcomp) lines new ∧
      tests.length + lines.length < NB_MAX_TESTS ∧ RegexOnNumber toks' := by
  induction fuel generalizing tests toks with
  | zero => cases toks <;> cases h
  | succ fuel ih =>
      cases toks with
      | nil => cases h
      | cons tok toks =>
          rw [parseTests] at h
          · split at h
            next stop htest =>
              cases h
              exact ⟨[], [], _, rfl, .nil, hmax, parseTest_fault.1 htest⟩
            next test toks' htest =>
              split at h
              · cases h
              next hless =>
                rcases parseTest_sound htest with ⟨line, hline, hrule⟩
                rcases ih (by simpa using hless) h with ⟨lines, new, toks'', rfl, hrules, hlt, hfault⟩
                refine ⟨line :: lines, test :: new, toks'', ?_, .cons hrule hrules, ?_, hfault⟩
                · rw [hline, lineTokens_cons, List.append_assoc, List.cons_append]
                · simp only [List.length_append, List.length_cons, List.length_nil] at hlt ⊢
                  omega
          · simp

theorem yyparse_fault {toks : List Token} : yyparse regcomp toks = .error .fault ↔ RegexFault regcomp toks := by
  constructor
  · intro h
    have hzero : ([] : List StribTest).length < NB_MAX_TESTS := by decide
    rcases parseTests_fault hzero h with ⟨lines, new, toks', heq, hrules, hlt, hfault⟩
    exact ⟨lines, new, toks', heq, hrules, by simpa using hlt, hfault⟩
  · rintro ⟨lines, new, toks', rfl, hrules, hlt, hfault⟩
    have hlines := length_le_lineTokens lines
    have htest := (@parseTest_fault regcomp _).2 hfault
    rcases hfault with ⟨name, text, number, rest, rfl, -⟩
    rw [yyparse, parseTests_rules hrules (by simpa using hlt) (by rw [List.length_append]; omega)]
    obtain ⟨fuel, hfuel⟩ : ∃ f, (lineTokens lines ++ Token.fieldname name :: .binaryop text :: .number number ::
        rest).length - lines.length = f + 1 := by
      refine ⟨_, (Nat.succ_pred_eq_of_pos ?_).symm⟩
      rw [List.length_append, List.length_cons]
      omega
    rw [hfuel, parseTests]
    · rw [htest]
    · simp

/-- A rule does not hold the end of a line. -/
theorem eol_not_mem {line : List Token} {test : StribTest} (h : IsRule regcomp line test) : Token.eol ∉ line := by
  obtain ⟨condition, action⟩ := test
  rcases h with ⟨c, a, rfl, hc, ha⟩
  have hvalue : ∀ {v value}, IsValue v value → Token.eol ∉ v := by
    intro v value hv
    cases hv <;> simp
  have hcondition : Token.eol ∉ c := by
    cases hc with
    | always => simp
    | unary name text => simp
    | binary name text hv _ => simpa using hvalue hv
  have haction : Token.eol ∉ a := by
    cases ha <;> simp
  simp [hcondition, haction]

/-- There is no empty line among rules. -/
theorem lineTokens_ne_two_eol {lines : List (List Token)}
    (h : ∀ line ∈ lines, ∃ test, IsRule regcomp line test) (toks : List Token) :
    lineTokens lines ≠ toks ++ [.eol, .eol] := by
  intro heq
  rcases List.eq_nil_or_concat lines with rfl | ⟨lines, line, rfl⟩
  · simp [lineTokens] at heq
  · rcases h line (by simp) with ⟨test, hrule⟩
    have hlast : lineTokens (lines ++ [line]) = (lineTokens lines ++ line) ++ [.eol] := by simp [lineTokens]
    have htwo : toks ++ [Token.eol, .eol] = (toks ++ [.eol]) ++ [.eol] := by simp
    rw [List.concat_eq_append, hlast, htwo] at heq
    have hfront := List.append_inj_left' heq rfl
    have hne : line ≠ [] := by
      rcases hrule with ⟨c, a, rfl, -, -⟩
      simp
    have hend := congrArg List.getLast? hfront
    rw [List.getLast?_append_of_ne_nil _ hne, List.getLast?_concat] at hend
    exact eol_not_mem hrule (List.mem_of_getLast? hend)

/-! ## What `strib_parse` accepts -/

/-- A header of rules is accepted with one test for each, in order, and a header with another line is refused. -/
structure StribParses (regcomp : Bytes → Bool) (pending : Bytes) (h : Header) : Prop where
  accepts : ∀ tests, (stanzas h).length < NB_MAX_TESTS →
    List.Forall₂ (fun value test => IsRule regcomp (yylex value) test) (stanzas h) tests →
      stribParse regcomp pending h = .ok tests
  refuses : (∃ value ∈ stanzas h, ¬ ∃ test, IsRule regcomp (yylex value) test) →
    ∃ e, stribParse regcomp pending h = .error e

/-- `conf_write` ends the text with an empty line. -/
theorem confWrite_eq {h : Header} (hne : stanzas h ≠ []) : ∃ text, confWrite h = text ++ List.replicate 2 10 := by
  rcases List.eq_nil_or_concat (stanzas h) with hnil | ⟨values, value, hlast⟩
  · exact absurd hnil hne
  · refine ⟨values.flatMap (fun value => value ++ [10]) ++ value, ?_⟩
    rw [confWrite, hlast]
    simp [List.replicate]

theorem forall₂_exists {α β : Type*} {R : α → β → Prop} {l : List α} {l' : List β} (h : List.Forall₂ R l l') :
    ∀ a ∈ l, ∃ b, R a b := by
  induction h with
  | nil => exact fun a ha => absurd ha List.not_mem_nil
  | cons hr _ ih =>
      intro a ha
      rcases List.mem_cons.1 ha with rfl | ha
      · exact ⟨_, hr⟩
      · exact ih a ha

theorem exists_forall₂ {α β : Type*} {R : α → β → Prop} {l : List α} (h : ∀ a ∈ l, ∃ b, R a b) :
    ∃ l', List.Forall₂ R l l' := by
  induction l with
  | nil => exact ⟨[], .nil⟩
  | cons a l ih =>
      rcases h a List.mem_cons_self with ⟨b, hb⟩
      rcases ih fun a ha => h a (List.mem_cons_of_mem _ ha) with ⟨l', hl'⟩
      exact ⟨b :: l', .cons hb hl'⟩

theorem stribParse_eq_ok {pending : Bytes} {h : Header} {tests : List StribTest}
    (hok : stribParse regcomp pending h = .ok tests) :
    yyparse regcomp (yylex (pending ++ confWrite h)) = .ok tests := by
  unfold stribParse at hok
  split at hok <;> simp_all

theorem stribParse_eq_fault {pending : Bytes} {h : Header} :
    stribParse regcomp pending h = .fault ↔ RegexFault regcomp (yylex (pending ++ confWrite h)) := by
  rw [← yyparse_fault]
  unfold stribParse
  split <;> simp_all

/-- No header with a stanza is accepted: the empty line is not in the grammar. -/
theorem stribParse_ne_ok (pending : Bytes) {h : Header} (hne : stanzas h ≠ []) (tests : List StribTest) :
    stribParse regcomp pending h ≠ .ok tests := by
  intro hok
  rcases parseTests_sound (stribParse_eq_ok hok) with ⟨lines, new, hlines, hrules, -⟩
  rcases confWrite_eq hne with ⟨text, htext⟩
  rw [htext, ← List.append_assoc, yylex_newlines] at hlines
  exact lineTokens_ne_two_eol (forall₂_exists hrules) _ hlines.symm

/-- Without a stanza, the empty line can only end a rule that was pending. -/
theorem stribParse_ne_ok_nil (pending : Bytes) {h : Header} (hnil : stanzas h = []) :
    stribParse regcomp pending h ≠ .ok [] := by
  intro hok
  rcases parseTests_sound (stribParse_eq_ok hok) with ⟨lines, new, hlines, hrules, hnew⟩
  obtain rfl : new = [] := by simpa using hnew.symm
  cases hrules
  rw [confWrite, hnil, List.flatMap_nil, List.nil_append, ← List.replicate_one, yylex_newlines] at hlines
  simp [lineTokens] at hlines

/-- `strib_parse` does what its grammar says for a header that the grammar refuses (or with too many rules),
unless it takes a number for a regular expression. -/
theorem stribParses_iff (regcomp : Bytes → Bool) (pending : Bytes) (h : Header) :
    StribParses regcomp pending h ↔
      ((∃ value ∈ stanzas h, ¬ ∃ test, IsRule regcomp (yylex value) test) ∧
          ¬ RegexFault regcomp (yylex (pending ++ confWrite h))) ∨
        ((∀ value ∈ stanzas h, ∃ test, IsRule regcomp (yylex value) test) ∧
          NB_MAX_TESTS ≤ (stanzas h).length) := by
  by_cases hrules : ∀ value ∈ stanzas h, ∃ test, IsRule regcomp (yylex value) test
  · have hno : ¬ ∃ value ∈ stanzas h, ¬ ∃ test, IsRule regcomp (yylex value) test := by
      rintro ⟨value, hmem, hrule⟩
      exact hrule (hrules value hmem)
    constructor
    · intro hparses
      refine Or.inr ⟨hrules, ?_⟩
      by_contra hfew
      -- no header is accepted: right rules that are few enough are refused too
      rcases exists_forall₂ hrules with ⟨tests, htests⟩
      have hok := hparses.accepts tests (Nat.lt_of_not_le hfew) htests
      by_cases hne : stanzas h = []
      · rw [hne] at htests
        cases htests
        exact stribParse_ne_ok_nil pending hne hok
      · exact stribParse_ne_ok pending hne tests hok
    · rintro (⟨hsome, -⟩ | ⟨-, hmany⟩)
      · exact absurd hsome hno
      · exact ⟨fun _ hfew _ => absurd hmany (Nat.not_le.2 hfew), fun hsome => absurd hsome hno⟩
  · have hsome : ∃ value ∈ stanzas h, ¬ ∃ test, IsRule regcomp (yylex value) test := by
      simpa using hrules
    have hne : stanzas h ≠ [] := by
      rintro hnil
      rcases hsome with ⟨value, hmem, -⟩
      rw [hnil] at hmem
      exact absurd hmem List.not_mem_nil
    constructor
    · intro hparses
      refine Or.inl ⟨hsome, fun hfault => ?_⟩
      rcases hparses.refuses hsome with ⟨e, he⟩
      rw [stribParse_eq_fault.2 hfault] at he
      cases he
    · rintro (⟨-, hfault⟩ | ⟨hall, -⟩)
      · refine ⟨fun tests _ htests => absurd (forall₂_exists htests) hrules, fun _ => ?_⟩
        cases hparse : stribParse regcomp pending h with
        | ok tests => exact absurd hparse (stribParse_ne_ok pending hne tests)
        | error e => exact ⟨e, rfl⟩
        | fault => exact absurd (stribParse_eq_fault.1 hparse) hfault
      · exact absurd hall hrules

/-- One rule that applies to all messages is refused. -/
theorem not_stribParses : ¬ ∀ (regcomp : Bytes → Bool) (pending : Bytes) (h : Header),
    StribParses regcomp pending h := by
  intro h
  let header : Header := [⟨STRIB_STANZA, ascii "always : dielete"⟩]
  let test : StribTest := ⟨{ op := .always, fieldName := none, value := none }, { type := .delete, dest := none }⟩
  have hlex : yylex (ascii "always : dielete") = [.always, .separator, .delete] := by decide
  have hstanzas : stanzas header = [ascii "always : dielete"] := by decide
  have hrule : IsRule (fun _ => true) (yylex (ascii "always : dielete")) test := by
    rw [hlex]
    exact ⟨_, _, rfl, .always, .delete⟩
  have hfew : (stanzas header).length < NB_MAX_TESTS := by decide
  have hok := (h (fun _ => true) [] header).accepts [test] hfew (hstanzas ▸ .cons hrule .nil)
  exact stribParse_ne_ok [] (hstanzas ▸ List.cons_ne_nil _ _) _ hok

end Scambio
