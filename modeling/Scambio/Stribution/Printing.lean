import Scambio.Stribution.Parser

/-!
# Printing — a test on a line (`test_dump` of `stribution/stribution.c`)

What is printed is read again by the lexer and the parser.  Its pieces start with a blank, where no token goes on
(`Reads`), but for the deletion each is made of the tokens of the rule.

* `testDump_reads`         : the tokens of a test that is printed;
* `parseTest_testDump_iff` : the tests that survive.
-/

namespace Scambio

open Library

/-! ## `test_dump` -/

def op2str : StribOp → Bytes
  | .always => ascii "always"
  | .set => ascii "set"
  | .unset => ascii "unset"
  | .gt => ascii ">"
  | .ge => ascii ">="
  | .lt => ascii "<"
  | .le => ascii "<="
  | .eq => ascii "="
  | .re => ascii "=~"
  | .invalid => ascii "INVALID"

def action2str : ActionType → Bytes
  | .delete => ascii "delete"
  | .copy => ascii "copyto"
  | .move => ascii "moveto"
  | .invalid => ascii "INVALID"

def ActionType.hasDest (type : ActionType) : Bool :=
  type != .delete

/-- `%s` -/
def printString : Option Bytes → Bytes
  | none => ascii "(null)"
  | some s => s

def quoted (s : Bytes) : Bytes :=
  34 :: (s ++ [34])

def valueDump : Option StribValue → Bytes
  | some (.string s) => ascii " " ++ quoted s
  | some (.number n) => ascii " " ++ printInt n
  | some (.deref name) => ascii " ! " ++ name
  -- the type is TYPE_STRING and the pointer NULL
  | none => ascii " " ++ quoted (printString none)

def conditionDump (cond : StribCondition) : Bytes :=
  if cond.op.isConstant then op2str cond.op
  else
    printString cond.fieldName ++ ascii " " ++ op2str cond.op ++ if cond.op.isUnary then [] else valueDump cond.value

def destDump : Option StribDest → Bytes
  | some (.string s) => ascii " " ++ quoted s
  | some (.deref name) => ascii " ! " ++ name
  | none => ascii " " ++ quoted (printString none)

def actionDump (action : StribAction) : Bytes :=
  ascii " : " ++ action2str action.type ++ if action.type.hasDest then destDump action.dest else []

/-- `test_dump` -/
def testDump (test : StribTest) : Bytes :=
  conditionDump test.condition ++ actionDump test.action ++ ascii "\n"

/-! ## Pieces between blanks -/

/-- Nothing goes on with this text. -/
def BlankFirst (y : Bytes) : Prop :=
  ∀ c ∈ y.head?, c = 32 ∨ c = 10

theorem BlankFirst.append {x y : Bytes} (hx : BlankFirst x) (hy : BlankFirst y) : BlankFirst (x ++ y) := by
  cases x with
  | nil => exact hy
  | cons c x => exact hx

/-- A piece of a line, with its tokens. -/
def Reads (x : Bytes) (toks : List Token) : Prop :=
  ∀ y, BlankFirst y → yylex (x ++ y) = toks ++ yylex y

theorem Reads.append {x z : Bytes} {toks toks' : List Token} (hx : Reads x toks) (hz : Reads z toks')
    (hblank : BlankFirst z) : Reads (x ++ z) (toks ++ toks') := by
  intro y hy
  rw [List.append_assoc, hx _ (hblank.append hy), hz y hy, List.append_assoc]

/-- A blank is matched alone, or inside a string. -/
theorem blank_match {r : Regex} {f : Bytes → Option Token} (hmem : (r, f) ∈ lexRules) {w : Bytes}
    (hw : w ∈ r.matches') {c : UInt8} (hc : c = 32 ∨ c = 10) (hmem' : c ∈ w) :
    (w.length = 1 ∧ (c = 32 → f w = none)) ∨ ∃ s, w = 34 :: s := by
  rcases hc with rfl | rfl
  · rcases exists_lexRule hmem hw with ⟨⟨i, hlt⟩, hi, hchars⟩
    rcases (exprChars_lexRules ⟨i, hlt⟩).2.1 (hchars 32 hmem') with heq | heq
    · cases heq
      obtain rfl : stringRegex = r := (Prod.mk.inj hi).1
      rcases mem_stringRegex.1 hw with ⟨s, -, rfl⟩
      exact Or.inr ⟨_, rfl⟩
    · cases heq
      obtain ⟨rfl, rfl⟩ : oneOf (ascii " \t") = r ∧ (fun _ => (none : Option Token)) = f := Prod.mk.inj hi
      rcases mem_oneOf.1 hw with ⟨c, -, rfl⟩
      exact Or.inl ⟨rfl, fun _ => rfl⟩
  · rcases newline_match hmem hw hmem' with ⟨rfl, -⟩ | ⟨s, rfl⟩
    · exact Or.inl ⟨rfl, fun h => absurd h (by decide)⟩
    · exact Or.inr ⟨_, rfl⟩

/-- A text without a quote is cut where a blank follows. -/
theorem reads_yylex {x : Bytes} (hx : 34 ∉ x) : Reads x (yylex x) := by
  intro y hy
  apply yylex_append
  apply lexemes_append
  intro r f hmem u v hu hux hv hpfx hmatch
  cases v with
  | nil => exact hv rfl
  | cons c v =>
      have hhead : c ∈ y.head? := by
        rcases hpfx with ⟨rest, rfl⟩
        rfl
      rcases blank_match hmem hmatch (hy c hhead) (List.mem_append_right u List.mem_cons_self) with ⟨hone, -⟩ | ⟨s, hs⟩
      · have hpos := List.length_pos_of_ne_nil hu
        simp only [List.length_append, List.length_cons] at hone
        omega
      · cases u with
        | nil => exact hu rfl
        | cons q u =>
            have hq : q = 34 := (List.cons.inj hs).1
            exact hx (hux.subset (hq ▸ List.mem_cons_self))

theorem yylex_blank_cons (x : Bytes) : yylex (32 :: x) = yylex x := by
  have hmem : (oneOf (ascii " \t"), fun _ => (none : Option Token)) ∈ lexRules := by simp [lexRules]
  have hle : 1 ≤ (32 :: x : Bytes).length := by simp
  have hblank : (32 :: x : Bytes).take 1 ∈ (oneOf (ascii " \t")).matches' :=
    mem_oneOf.2 ⟨32, by decide +kernel, rfl⟩
  obtain ⟨f, m, hm, hge⟩ := exists_munch hmem Nat.one_pos hle hblank
  rcases munch_matches hm with ⟨-, hlen, r, hr, hmatch⟩
  obtain ⟨m, rfl⟩ : ∃ k, m = k + 1 := ⟨m - 1, by omega⟩
  rw [List.take_succ_cons] at hmatch
  rcases blank_match hr hmatch (Or.inl rfl) List.mem_cons_self with ⟨hone, hnone⟩ | ⟨s, hs⟩
  · have hzero : m = 0 := by
      simp only [List.length_cons, List.length_take] at hone hlen
      omega
    subst hzero
    rw [yylex, lexemes_some hm, List.take_succ_cons]
    exact List.filterMap_cons_none (hnone rfl)
  · exact absurd (List.cons.inj hs).1 (by decide)

theorem Reads.blank {x : Bytes} {toks : List Token} (h : Reads x toks) : Reads (32 :: x) toks := by
  intro y hy
  rw [List.cons_append, yylex_blank_cons]
  exact h y hy

/-- A rule that takes the text, and nothing longer. -/
theorem yylex_munch {f : Bytes → Option Token} {tok : Token} {x y : Bytes}
    (hm : munch lexRules (x ++ y) = some (f, x.length)) (hf : f x = some tok) :
    yylex (x ++ y) = tok :: yylex y := by
  rw [yylex, lexemes_some hm, List.take_left' rfl, List.drop_left' rfl]
  exact List.filterMap_cons_some hf

/-- A quote is matched by the rule of strings only. -/
theorem quote_match {r : Regex} {f : Bytes → Option Token} (hmem : (r, f) ∈ lexRules) {w : Bytes}
    (hw : w ∈ r.matches') (hquote : (34 : UInt8) ∈ w) : StringText w := by
  rcases exists_lexRule hmem hw with ⟨⟨i, hlt⟩, hi, hchars⟩
  cases (exprChars_lexRules ⟨i, hlt⟩).2.2 (hchars 34 hquote)
  obtain rfl : stringRegex = r := (Prod.mk.inj hi).1
  exact mem_stringRegex.1 hw

theorem reads_quoted {s : Bytes} (hs : 34 ∉ s) : Reads (quoted s) [.string (quoted s)] := by
  intro y _
  refine yylex_munch (f := fun yytext => some (.string yytext)) ?_ rfl
  refine @munch_eq _ _ _ (lexRules.take 8) (lexRules.drop 9) stringRegex _ _ _ (by simp [quoted])
    (mem_stringRegex.2 ⟨s, hs, rfl⟩) ?_ ?_
  · intro rule hrule hmatch
    rcases List.mem_take_iff_getElem.1 hrule with ⟨i, hi, rfl⟩
    have hlt := lt_min_iff.1 hi
    have heq := (exprChars_lexRules ⟨i, hlt.2⟩).2.2 (mem_exprChars hmatch 34 List.mem_cons_self)
    exact absurd heq (Nat.ne_of_lt hlt.1)
  · intro r f hmem v hv _ hmatch
    -- the last quote of a longer string is not the one of `s`
    rcases quote_match hmem hmatch List.mem_cons_self with ⟨s', hs', heq⟩
    rcases List.eq_nil_or_concat v with rfl | ⟨v, c, rfl⟩
    · exact hv rfl
    · rw [quoted, List.concat_eq_append, List.cons_append, List.cons.injEq, ← List.append_assoc] at heq
      have hsame : s ++ [34] ++ v = s' := (List.append_inj' heq.2 rfl).1
      exact hs' (hsame ▸ by simp)

/-- Letters are in the rules of words only. -/
theorem letters_not_mem : (∀ c ∈ letters, c ∉ exprChars numberRegex) ∧ (∀ c ∈ letters, c ∉ exprChars (lit (ascii ":"))) ∧
    (∀ c ∈ letters, c ∉ exprChars (lit (ascii "!"))) ∧
      (∀ c ∈ letters, c ∉ exprChars (lit (ascii "<") + lit (ascii "<=") + lit (ascii ">") + lit (ascii ">=") +
        lit (ascii "=~") + lit (ascii "="))) ∧
        (34 : UInt8) ∉ letters := by
  decide +kernel

/-- A name is a token, if it is no keyword. -/
theorem yylex_fieldname {name : Bytes} (h : FieldnameText name) : yylex name = [.fieldname name] := by
  obtain ⟨⟨c, rest, rfl, hc, hrest⟩, hfree⟩ := h
  have hmatch : c :: rest ∈ fieldnameRegex.matches' := mem_fieldnameRegex.2 ⟨c, rest, rfl, hc, hrest⟩
  have hm : munch (lexRules.take 9 ++ (fieldnameRegex, fun yytext => some (.fieldname yytext)) :: lexRules.drop 10)
      ((c :: rest) ++ []) = some (fun yytext => some (Token.fieldname yytext), (c :: rest).length) := by
    refine munch_eq (List.cons_ne_nil _ _) hmatch ?_ ?_
    · have hletter : ∀ r : Regex, (∀ c ∈ letters, c ∉ exprChars r) → c :: rest ∉ r.matches' :=
        fun r hr hw => hr c hc (mem_exprChars hw c List.mem_cons_self)
      have hkeyword : ∀ word ∈ keywords, c :: rest ∉ (lit word).matches' := by
        intro word hword hw
        exact hfree (mem_lit.1 hw ▸ hword)
      have hplus : ∀ {r s : Regex}, c :: rest ∉ r.matches' → c :: rest ∉ s.matches' → c :: rest ∉ (r + s).matches' :=
        fun hr hs hw => hw.elim hr hs
      simp only [lexRules, List.take_succ_cons, List.take_zero, List.forall_mem_cons, List.not_mem_nil,
        false_implies, implies_true, and_true]
      obtain ⟨hnumber, hseparator, hderef, hbinary, hquote⟩ := letters_not_mem
      refine ⟨?_, ?_, ?_, ?_, ?_, ?_, ?_, ?_, ?_⟩
      · exact hletter _ hnumber
      · exact hletter _ hseparator
      · exact hletter _ hderef
      · exact hkeyword _ (by simp [keywords])
      · exact hplus (hkeyword _ (by simp [keywords])) (hkeyword _ (by simp [keywords]))
      · exact hletter _ hbinary
      · exact hkeyword _ (by simp [keywords])
      · exact hplus (hkeyword _ (by simp [keywords])) (hkeyword _ (by simp [keywords]))
      · intro hw
        rcases mem_stringRegex.1 hw with ⟨s, -, heq⟩
        exact hquote ((List.cons.inj heq).1 ▸ hc)
    · intro r f _ v hv hpfx
      exact absurd (List.prefix_nil.1 hpfx) hv
  have hread := yylex_munch hm rfl
  rwa [List.append_nil] at hread

theorem yylex_printInt (n : Int) : yylex (printInt n) = [.number (printInt n)] := by
  have hdigits : ∀ d ∈ decimal n.natAbs, isDigit d = true := fun d hd => isDigit_of_mem_decimal hd
  have hnumber := mem_numberRegex (decimal_ne_nil n.natAbs) hdigits
  have hmatch : printInt n ∈ numberRegex.matches' := by
    unfold printInt
    split
    · exact hnumber.2
    · exact hnumber.1
  have hne : printInt n ≠ [] := by
    unfold printInt
    split
    · simp
    · exact decimal_ne_nil _
  have hm : munch ([] ++ (numberRegex, fun yytext => some (.number yytext)) :: lexRules.drop 1)
      (printInt n ++ []) = some (fun yytext => some (Token.number yytext), (printInt n).length) := by
    refine munch_eq hne hmatch (by simp) ?_
    intro r f _ v hv hpfx
    exact absurd (List.prefix_nil.1 hpfx) hv
  have hread := yylex_munch hm rfl
  rwa [List.append_nil] at hread

/-! ## Words of a line -/

/-- The words that are printed, and their tokens. -/
def printedWords : List (Bytes × Token) :=
  [(ascii "always", .always), (ascii "!", .deref), (ascii ":", .separator), (ascii "\n", .eol),
    (ascii "delete", .fieldname (ascii "delete"))] ++
    [ascii "unset", ascii "set"].map (fun text => (text, .unaryop text)) ++
    binaryopTexts.map (fun text => (text, .binaryop text)) ++
    [ascii "copyto", ascii "moveto"].map fun text => (text, .destaction text)

theorem yylex_printedWords : ∀ p ∈ printedWords, 34 ∉ p.1 ∧ yylex p.1 = [p.2] := by
  decide +kernel

theorem reads_word {word : Bytes} {tok : Token} (h : (word, tok) ∈ printedWords) : Reads word [tok] := by
  rcases yylex_printedWords _ h with ⟨hquote, hlex⟩
  have hreads := reads_yylex hquote
  rwa [hlex] at hreads

theorem quote_not_mem_fieldname {name : Bytes} (h : FieldnameText name) : 34 ∉ name := by
  rcases h.spelled with ⟨c, rest, rfl, hc, hrest⟩
  have hchar : (34 : UInt8) ∉ fieldnameChars := by decide +kernel
  intro hquote
  rcases List.mem_cons.1 hquote with rfl | hquote
  · exact letters_not_mem.2.2.2.2 hc
  · exact hchar (hrest 34 hquote)

theorem quote_not_mem_printInt (n : Int) : 34 ∉ printInt n := by
  have hdigits : (34 : UInt8) ∉ decimal n.natAbs := by
    intro hquote
    exact absurd (isDigit_of_mem_decimal hquote) (by decide)
  unfold printInt
  split
  · simpa using hdigits
  · exact hdigits

theorem reads_fieldname {name : Bytes} (h : FieldnameText name) : Reads name [.fieldname name] :=
  yylex_fieldname h ▸ reads_yylex (quote_not_mem_fieldname h)

theorem reads_printInt (n : Int) : Reads (printInt n) [.number (printInt n)] :=
  yylex_printInt n ▸ reads_yylex (quote_not_mem_printInt n)

/-- ` ! name` -/
theorem reads_deref {name : Bytes} (h : FieldnameText name) : Reads (ascii " ! " ++ name) [.deref, .fieldname name] := by
  have hderef : Reads (ascii "!") [.deref] := reads_word (by simp [printedWords])
  exact (hderef.append (reads_fieldname h).blank (by simp [BlankFirst])).blank

theorem copystring_quoted (s : Bytes) : copystring (quoted s) = s := by
  simp [copystring, quoted]

theorem strtoll_range (s : Bytes) : -2 ^ 63 ≤ (strtoll s).1 ∧ (strtoll s).1 < 2 ^ 63 := by
  unfold strtoll
  simp only
  cases scanNumber (readSign s).2 with
  | none => simp
  | some p =>
      simp only
      split <;> omega

/-! ## Pieces of a test -/

/-- A value is printed as one that is equal. -/
theorem valueDump_reads {toks : List Token} {value : StribValue} (h : IsValue toks value)
    (htext : ∀ tok ∈ toks, tok.FromText) :
    BlankFirst (valueDump (some value)) ∧ ∃ toks', Reads (valueDump (some value)) toks' ∧ IsValue toks' value := by
  cases h with
  | string text =>
      have hstring : StringText text := htext (.string text) List.mem_cons_self
      rcases hstring with ⟨s, hs, rfl⟩
      have hvalue := IsValue.string (quoted s)
      rw [copystring_quoted] at hvalue
      have hcopy : copystring (34 :: (s ++ [34])) = s := copystring_quoted s
      rw [hcopy]
      exact ⟨by simp [BlankFirst, valueDump, ascii, charByte], _, (reads_quoted hs).blank, hvalue⟩
  | number text =>
      have hrange := strtoll_range text
      have hvalue := IsValue.number (printInt (strtoll text).1)
      rw [strtoll_printInt hrange.1 hrange.2] at hvalue
      exact ⟨by simp [BlankFirst, valueDump, ascii, charByte], _, (reads_printInt _).blank, hvalue⟩
  | deref name =>
      have hname : FieldnameText name := htext (.fieldname name) (by simp)
      exact ⟨by simp [BlankFirst, valueDump, ascii, charByte], _, reads_deref hname, .deref name⟩

variable {regcomp : Bytes → Bool}

/-- An operator is printed as it was read. -/
theorem unaryop_text {text : Bytes} (h : text = ascii "unset" ∨ text = ascii "set") :
    (str2unaryop text).isConstant = false ∧ (str2unaryop text).isUnary = true ∧ op2str (str2unaryop text) = text := by
  rcases h with rfl | rfl <;> decide

theorem binaryop_text {text : Bytes} (h : text ∈ binaryopTexts) :
    (str2binaryop text).isConstant = false ∧ (str2binaryop text).isUnary = false ∧ op2str (str2binaryop text) = text := by
  revert text
  decide

theorem destaction_text {text : Bytes} (h : text = ascii "copyto" ∨ text = ascii "moveto") :
    str2destaction text ≠ .delete ∧ (str2destaction text).hasDest = true ∧ action2str (str2destaction text) = text := by
  rcases h with rfl | rfl <;> decide

/-- A condition is printed as one that is equal. -/
theorem conditionDump_reads {toks : List Token} {cond : StribCondition} (h : IsCondition regcomp toks cond)
    (htext : ∀ tok ∈ toks, tok.FromText) :
    ∃ toks', Reads (conditionDump cond) toks' ∧ IsCondition regcomp toks' cond := by
  have hblank : ∀ word : Bytes, BlankFirst (ascii " " ++ word) := by
    intro word
    simp [BlankFirst, ascii, charByte]
  cases h with
  | always =>
      have hword : Reads (ascii "always") [.always] := reads_word (by simp [printedWords])
      exact ⟨[.always], hword, .always⟩
  | unary name text =>
      have hname : FieldnameText name := htext (.fieldname name) (by simp)
      have hunary : text = ascii "unset" ∨ text = ascii "set" := htext (.unaryop text) (by simp)
      rcases unaryop_text hunary with ⟨hconstant, hisUnary, hop⟩
      have hword : Reads text [.unaryop text] := reads_word (by rcases hunary with rfl | rfl <;> simp [printedWords])
      refine ⟨[.fieldname name] ++ [.unaryop text], ?_, .unary name text⟩
      simp only [conditionDump, hconstant, hisUnary, hop, Bool.false_eq_true, if_false, if_true, printString,
        List.append_nil, List.append_assoc]
      exact (reads_fieldname hname).append hword.blank (hblank _)
  | @binary name text v value hvalue hcompiles =>
      have hname : FieldnameText name := htext (.fieldname name) (by simp)
      have hbinary : text ∈ binaryopTexts := htext (.binaryop text) (by simp)
      rcases binaryop_text hbinary with ⟨hconstant, hisUnary, hop⟩
      have hword : Reads text [.binaryop text] := reads_word (by simp [printedWords, hbinary])
      have hsub : ∀ tok ∈ v, tok.FromText :=
        fun tok htok => htext tok (List.mem_cons_of_mem _ (List.mem_cons_of_mem _ htok))
      rcases valueDump_reads hvalue hsub with ⟨hfirst, v', hreads, hvalue'⟩
      refine ⟨[.fieldname name] ++ ([.binaryop text] ++ v'), ?_, .binary name text hvalue' hcompiles⟩
      simp only [conditionDump, hconstant, hisUnary, hop, Bool.false_eq_true, if_false, printString, List.append_assoc]
      exact (reads_fieldname hname).append (hword.blank.append hreads hfirst) (hblank _)

/-- An action is printed as one that is equal, or as a name for the deletion. -/
theorem actionDump_reads {toks : List Token} {action : StribAction} (h : IsAction toks action)
    (htext : ∀ tok ∈ toks, tok.FromText) :
    ∃ toks', Reads (actionDump action) (.separator :: toks') ∧
      if action.type = .delete then toks' = [.fieldname (ascii "delete")] else IsAction toks' action := by
  have hseparated : ∀ {word : Bytes} {tok : Token}, (word, tok) ∈ printedWords →
      Reads (ascii " : " ++ word) [.separator, tok] := by
    intro word tok hmem
    have hseparator : Reads (ascii ":") [.separator] := reads_word (by simp [printedWords])
    exact (hseparator.append (reads_word hmem).blank (by simp [BlankFirst])).blank
  have hdestText : ∀ {text : Bytes}, (text = ascii "copyto" ∨ text = ascii "moveto") →
      Reads (ascii " : " ++ text) [.separator, .destaction text] := by
    rintro text (rfl | rfl)
    · exact hseparated (by simp [printedWords])
    · exact hseparated (by simp [printedWords])
  cases h with
  | delete =>
      have hword : Reads (ascii " : " ++ ascii "delete") [.separator, .fieldname (ascii "delete")] :=
        hseparated (by simp [printedWords])
      exact ⟨_, hword, rfl⟩
  | string text dest =>
      have hdest : text = ascii "copyto" ∨ text = ascii "moveto" := htext (.destaction text) (by simp)
      rcases destaction_text hdest with ⟨htype, hhas, hprint⟩
      have hstring : StringText dest := htext (.string dest) (by simp)
      rcases hstring with ⟨s, hs, rfl⟩
      have hcopy : copystring (34 :: (s ++ [34])) = s := copystring_quoted s
      have haction := IsAction.string text (quoted s)
      rw [copystring_quoted] at haction
      rw [hcopy]
      refine ⟨[.destaction text, .string (quoted s)], ?_, by rw [if_neg htype]; exact haction⟩
      simp only [actionDump, hhas, hprint, if_true, destDump]
      exact (hdestText hdest).append (reads_quoted hs).blank (by simp [BlankFirst, ascii, charByte])
  | deref text name =>
      have hdest : text = ascii "copyto" ∨ text = ascii "moveto" := htext (.destaction text) (by simp)
      rcases destaction_text hdest with ⟨htype, hhas, hprint⟩
      have hname : FieldnameText name := htext (.fieldname name) (by simp)
      refine ⟨[.destaction text, .deref, .fieldname name], ?_, by rw [if_neg htype]; exact .deref text name⟩
      simp only [actionDump, hhas, hprint, if_true, destDump]
      exact (hdestText hdest).append (reads_deref hname) (by simp [BlankFirst, ascii, charByte])

/-! ## What survives -/

/-- The tokens of a test that was built and is printed. -/
theorem testDump_reads {text : Bytes} {test : StribTest} {rest : List Token}
    (h : parseTest regcomp (yylex text) = .ok (test, rest)) :
    ∃ c a, yylex (testDump test) = c ++ .separator :: (a ++ [.eol]) ∧ IsCondition regcomp c test.condition ∧
      if test.action.type = .delete then a = [.fieldname (ascii "delete")] else IsAction a test.action := by
  rcases parseTest_sound h with ⟨line, hline, c, a, rfl, hcondition, haction⟩
  have htext : ∀ tok ∈ c ++ .separator :: a, tok.FromText := by
    intro tok htok
    have hmem : tok ∈ yylex text := hline ▸ List.mem_append_left _ htok
    exact fromText_of_mem_yylex hmem
  rcases conditionDump_reads hcondition fun tok htok => htext tok (List.mem_append_left _ htok) with ⟨c', hc, hcondition'⟩
  rcases actionDump_reads haction fun tok htok =>
    htext tok (List.mem_append_right _ (List.mem_cons_of_mem _ htok)) with ⟨a', ha, haction'⟩
  refine ⟨c', a', ?_, hcondition', haction'⟩
  have hblank : BlankFirst (actionDump test.action) := by simp [BlankFirst, actionDump, ascii, charByte]
  have heol : yylex (ascii "\n") = [.eol] := (yylex_printedWords (ascii "\n", .eol) (by simp [printedWords])).2
  rw [testDump, hc.append ha hblank (ascii "\n") (by simp [BlankFirst, ascii, charByte]), heol]
  simp

/-- A test is read again as it was printed, unless it is a deletion. -/
theorem parseTest_testDump_iff {text : Bytes} {test : StribTest} {rest : List Token}
    (h : parseTest regcomp (yylex text) = .ok (test, rest)) :
    parseTest regcomp (yylex (testDump test)) = .ok (test, []) ↔ test.action.type ≠ .delete := by
  rcases testDump_reads h with ⟨c, a, hlex, hcondition, haction⟩
  by_cases hdelete : test.action.type = .delete
  · -- `delete` is the name of a field
    rw [if_pos hdelete] at haction
    have hparse : parseTest regcomp (yylex (testDump test)) = .error .syntaxError := by
      rw [hlex, haction, parseTest, hcondition.parse]
      rfl
    simp [hparse, hdelete]
  · rw [if_neg hdelete] at haction
    have hrule : IsRule regcomp (c ++ .separator :: a) test := ⟨c, a, rfl, hcondition, haction⟩
    have hparse := hrule.parse []
    rw [hlex]
    simpa [hdelete] using hparse

theorem parseTest_testDump_iff_sample :
    parseTest (fun _ => true) (yylex (testDump
        ⟨⟨.ge, some (ascii "size"), some (.number (-8))⟩, ⟨.copy, some (.deref (ascii "to"))⟩⟩)) =
      .ok (⟨⟨.ge, some (ascii "size"), some (.number (-8))⟩, ⟨.copy, some (.deref (ascii "to"))⟩⟩, []) ↔
    ActionType.copy ≠ .delete := by
  have hparse : parseTest (fun _ => true) (yylex (ascii "size >= -010 : copyto!to\n")) =
      .ok (⟨⟨.ge, some (ascii "size"), some (.number (-8))⟩, ⟨.copy, some (.deref (ascii "to"))⟩⟩, []) := by
    decide +kernel
  exact parseTest_testDump_iff hparse

/-- A deletion is not read again. -/
theorem not_parseTest_testDump : ¬ ∀ (regcomp : Bytes → Bool) (text : Bytes) (test : StribTest) (rest : List Token),
    parseTest regcomp (yylex text) = .ok (test, rest) →
      parseTest regcomp (yylex (testDump test)) = .ok (test, []) := by
  intro h
  have hbuilt : parseTest (fun _ => true) (yylex (ascii "always : dielete\n")) =
      .ok (⟨⟨.always, none, none⟩, ⟨.delete, none⟩⟩, []) := by decide +kernel
  have hstop : parseTest (fun _ => true) (yylex (testDump ⟨⟨.always, none, none⟩, ⟨.delete, none⟩⟩)) =
      .error .syntaxError := by decide +kernel
  have hparse := h _ _ _ _ hbuilt
  rw [hstop] at hparse
  cases hparse

end Scambio
