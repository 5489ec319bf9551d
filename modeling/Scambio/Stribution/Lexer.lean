import Scambio.Commons.CString
import Scambio.Library.Munch

/-!
# Lexer — the tokens of the configuration (`stribution/strib_lexer.l`)

The rules are those of the file, in their order; a byte that none of them matches is echoed by flex, which is
left out.  The line numbers are only logged.
-/

namespace Scambio

open Library

/-- The tokens, with the text that `yylval` points to. -/
inductive Token
  | number (text : Bytes)
  | separator
  | deref
  | always
  | unaryop (text : Bytes)
  | binaryop (text : Bytes)
  | delete
  | destaction (text : Bytes)
  | string (text : Bytes)
  | fieldname (text : Bytes)
  | eol
  deriving DecidableEq, Repr

abbrev Regex := RegularExpression UInt8

def byteRange (first last : UInt8) : Bytes :=
  (List.range (last.toNat + 1 - first.toNat)).map fun i => UInt8.ofNat (first.toNat + i)

/-- `[0-9]` -/
def digits : Regex :=
  oneOf (byteRange 48 57)

/-- `[a-zA-Z]` -/
def letters : Bytes :=
  byteRange 97 122 ++ byteRange 65 90

/-- `[-+]?[0-9]+` -/
def numberRegex : Regex :=
  (1 + oneOf (ascii "-+")) * (digits * .star digits)

/-- `\"[^"]*\"` -/
def stringRegex : Regex :=
  lit [34] * (.star (oneOf ((byteRange 0 255).filter (· != 34))) * lit [34])

/-- `[a-zA-Z][-a-zA-Z0-9:_/.@]*` -/
def fieldnameRegex : Regex :=
  oneOf letters * .star (oneOf (45 :: letters ++ byteRange 48 57 ++ ascii ":_/.@"))

/-- The rules; a rule without a token is ignored. -/
def lexRules : List (Regex × (Bytes → Option Token)) :=
  [(numberRegex, fun yytext => some (.number yytext)),
    (lit (ascii ":"), fun _ => some .separator),
    (lit (ascii "!"), fun _ => some .deref),
    (lit (ascii "always"), fun _ => some .always),
    (lit (ascii "unset") + lit (ascii "set"), fun yytext => some (.unaryop yytext)),
    (lit (ascii "<") + lit (ascii "<=") + lit (ascii ">") + lit (ascii ">=") + lit (ascii "=~") + lit (ascii "="),
      fun yytext => some (.binaryop yytext)),
    (lit (ascii "dielete"), fun _ => some .delete),
    (lit (ascii "copyto") + lit (ascii "moveto"), fun yytext => some (.destaction yytext)),
    (stringRegex, fun yytext => some (.string yytext)),
    (fieldnameRegex, fun yytext => some (.fieldname yytext)),
    (oneOf (ascii " \t"), fun _ => none),
    (lit (ascii "\n"), fun _ => some .eol)]

/-- The tokens that `yylex` returns for a text. -/
def yylex (text : Bytes) : List Token :=
  (lexemes lexRules text).filterMap fun lexeme => lexeme.1 lexeme.2

/-- `set` is a keyword, but field names may start with it and hold colons. -/
example : yylex (ascii "set set:") = [.unaryop (ascii "set"), .fieldname (ascii "set:")] := by decide

/-! ## Ends of line -/

/-- The rules that a newline, a space or a quote comes in. -/
theorem exprChars_lexRules : ∀ i : Fin lexRules.length,
    (10 ∈ exprChars (lexRules.get i).1 → i.1 = 8 ∨ i.1 = 11) ∧
      (32 ∈ exprChars (lexRules.get i).1 → i.1 = 8 ∨ i.1 = 10) ∧
        (34 ∈ exprChars (lexRules.get i).1 → i.1 = 8) := by
  decide

/-- A rule has a place in the list, and the characters that it matches. -/
theorem exists_lexRule {r : Regex} {f : Bytes → Option Token} (hmem : (r, f) ∈ lexRules) {w : Bytes}
    (hw : w ∈ r.matches') :
    ∃ i : Fin lexRules.length, lexRules.get i = (r, f) ∧ ∀ c ∈ w, c ∈ exprChars (lexRules.get i).1 := by
  obtain ⟨i, hi⟩ := List.mem_iff_get.1 hmem
  refine ⟨i, hi, ?_⟩
  rw [hi]
  exact mem_exprChars hw

/-- A newline is matched alone, or inside a string. -/
theorem newline_match {r : Regex} {f : Bytes → Option Token} (hmem : (r, f) ∈ lexRules) {w : Bytes}
    (hw : w ∈ r.matches') (hnl : (10 : UInt8) ∈ w) :
    (w = [10] ∧ f w = some .eol) ∨ ∃ s, w = 34 :: (s ++ [34]) := by
  rcases exists_lexRule hmem hw with ⟨⟨i, hlt⟩, hi, hchars⟩
  rcases (exprChars_lexRules ⟨i, hlt⟩).1 (hchars 10 hnl) with heq | heq
  · cases heq
    obtain rfl : stringRegex = r := (Prod.mk.inj hi).1
    rcases Language.mem_mul.1 hw with ⟨q, hq, v, hv, rfl⟩
    rcases Language.mem_mul.1 hv with ⟨s, -, q', hq', rfl⟩
    rw [mem_lit.1 hq, mem_lit.1 hq']
    exact Or.inr ⟨s, rfl⟩
  · cases heq
    obtain ⟨rfl, rfl⟩ : lit (ascii "\n") = r ∧ (fun _ => some Token.eol) = f := Prod.mk.inj hi
    exact Or.inl ⟨mem_lit.1 hw, rfl⟩

theorem yylex_append {x y : Bytes} (h : lexemes lexRules (x ++ y) = lexemes lexRules x ++ lexemes lexRules y) :
    yylex (x ++ y) = yylex x ++ yylex y := by
  rw [yylex, h, List.filterMap_append]
  rfl

theorem yylex_newline_cons (x : Bytes) : yylex (10 :: x) = .eol :: yylex x := by
  have hmem : (lit (ascii "\n"), fun _ => some Token.eol) ∈ lexRules := by simp [lexRules]
  have hle : 1 ≤ (10 :: x : Bytes).length := by simp
  obtain ⟨f, m, hm, -⟩ := exists_munch hmem Nat.one_pos hle (mem_lit.2 rfl)
  have hspec := munch_matches hm
  rcases hspec with ⟨hpos, -, r, hr, hmatch⟩
  obtain ⟨m, rfl⟩ : ∃ k, m = k + 1 := ⟨m - 1, by omega⟩
  rw [List.take_succ_cons] at hmatch
  rcases newline_match hr hmatch List.mem_cons_self with ⟨hone, heol⟩ | ⟨s, hs⟩
  · have hrest : x.take m = [] := (List.cons.inj hone).2
    rw [hrest] at heol
    have hdrop : (10 :: x).drop (m + 1) = x := by
      rw [List.drop_succ_cons]
      rcases List.take_eq_nil_iff.1 hrest with rfl | rfl
      · rfl
      · exact List.drop_nil
    rw [yylex, lexemes_some hm, hdrop, List.take_succ_cons, hrest]
    exact List.filterMap_cons_some heol
  · exact absurd (List.cons.inj hs).1 (by decide)

theorem yylex_replicate (n : Nat) : yylex (List.replicate n 10) = List.replicate n .eol := by
  induction n with
  | zero => rfl
  | succ n ih => rw [List.replicate_succ, yylex_newline_cons, ih, List.replicate_succ]

/-- The last ends of line of a text are tokens of their own. -/
theorem yylex_newlines (x : Bytes) (n : Nat) :
    yylex (x ++ List.replicate n 10) = yylex x ++ List.replicate n .eol := by
  have hcut : lexemes lexRules (x ++ List.replicate n 10) =
      lexemes lexRules x ++ lexemes lexRules (List.replicate n 10) := by
    apply lexemes_append
    intro r f hmem u v hu _ hv hpfx hmatch
    have hall : ∀ c ∈ v, c = 10 := fun c hc => List.eq_of_mem_replicate (hpfx.subset hc)
    have hnl : (10 : UInt8) ∈ v := by
      rcases List.exists_mem_of_ne_nil v hv with ⟨c, hc⟩
      exact hall c hc ▸ hc
    rcases newline_match hmem hmatch (List.mem_append_right _ hnl) with ⟨hone, -⟩ | ⟨s, hs⟩
    · have hlen := congrArg List.length hone
      have hpos := List.length_pos_of_ne_nil hu
      have hpos' := List.length_pos_of_ne_nil hv
      simp only [List.length_append, List.length_singleton] at hlen
      omega
    · -- the match would be a string, but there is no quote after `x`
      have hlast := congrArg List.getLast? hs
      rw [List.getLast?_append_of_ne_nil _ hv, ← List.cons_append, List.getLast?_concat] at hlast
      have hquote := hall 34 (List.mem_of_getLast? hlast)
      exact absurd hquote (by decide)
  rw [yylex_append hcut, yylex_replicate]

/-! ## Texts of tokens -/

/-- `[-a-zA-Z0-9:_/.@]` -/
def fieldnameChars : Bytes :=
  45 :: letters ++ byteRange 48 57 ++ ascii ":_/.@"

/-- The names that are tokens of their own. -/
def keywords : List Bytes :=
  [ascii "always", ascii "unset", ascii "set", ascii "dielete", ascii "copyto", ascii "moveto"]

/-- The text of a FIELDNAME. -/
structure FieldnameText (text : Bytes) : Prop where
  spelled : ∃ c rest, text = c :: rest ∧ c ∈ letters ∧ ∀ d ∈ rest, d ∈ fieldnameChars
  free : text ∉ keywords

/-- The text of a STRING. -/
def StringText (text : Bytes) : Prop :=
  ∃ s, 34 ∉ s ∧ text = 34 :: (s ++ [34])

def binaryopTexts : List Bytes :=
  [ascii "<", ascii "<=", ascii ">", ascii ">=", ascii "=~", ascii "="]

/-- What is known of a token that comes from a text. -/
def Token.FromText : Token → Prop
  | .unaryop text => text = ascii "unset" ∨ text = ascii "set"
  | .binaryop text => text ∈ binaryopTexts
  | .destaction text => text = ascii "copyto" ∨ text = ascii "moveto"
  | .string text => StringText text
  | .fieldname text => FieldnameText text
  | _ => True

theorem mem_byteRange {first last c : UInt8} :
    c ∈ byteRange first last ↔ first.toNat ≤ c.toNat ∧ c.toNat ≤ last.toNat := by
  have hc := c.toNat_lt
  have hlast := last.toNat_lt
  simp only [byteRange, List.mem_map, List.mem_range]
  constructor
  · rintro ⟨i, hi, rfl⟩
    have hlt : first.toNat + i < UInt8.size := by
      have hsize : UInt8.size = 256 := rfl
      omega
    rw [UInt8.toNat_ofNat_of_lt' hlt]
    omega
  · rintro ⟨hle, hge⟩
    refine ⟨c.toNat - first.toNat, by omega, ?_⟩
    rw [Nat.add_sub_cancel' hle, UInt8.ofNat_toNat]

theorem mem_fieldnameRegex {w : Bytes} :
    w ∈ fieldnameRegex.matches' ↔ ∃ c rest, w = c :: rest ∧ c ∈ letters ∧ ∀ d ∈ rest, d ∈ fieldnameChars := by
  constructor
  · intro h
    rcases Language.mem_mul.1 h with ⟨u, hu, v, hv, rfl⟩
    rcases mem_oneOf.1 hu with ⟨c, hc, rfl⟩
    exact ⟨c, v, rfl, hc, mem_star_oneOf.1 hv⟩
  · rintro ⟨c, rest, rfl, hc, hrest⟩
    exact Language.mem_mul.2 ⟨[c], mem_oneOf.2 ⟨c, hc, rfl⟩, rest, mem_star_oneOf.2 hrest, rfl⟩

theorem mem_stringRegex {w : Bytes} : w ∈ stringRegex.matches' ↔ StringText w := by
  have hclass : ∀ c : UInt8, c ∈ (byteRange 0 255).filter (· != 34) ↔ c ≠ 34 := by
    intro c
    have hc : c.toNat ≤ 255 := Nat.le_of_lt_succ c.toNat_lt
    rw [List.mem_filter, mem_byteRange, bne_iff_ne]
    exact and_iff_right ⟨Nat.zero_le _, hc⟩
  have hstar : ∀ s : Bytes, s ∈ (RegularExpression.star (oneOf ((byteRange 0 255).filter (· != 34)))).matches' ↔
      34 ∉ s := by
    intro s
    rw [mem_star_oneOf]
    simp only [hclass]
    exact ⟨fun h hmem => h 34 hmem rfl, fun h c hc heq => h (heq ▸ hc)⟩
  constructor
  · intro h
    rcases Language.mem_mul.1 h with ⟨q, hq, v, hv, rfl⟩
    rcases Language.mem_mul.1 hv with ⟨s, hs, q', hq', rfl⟩
    rw [mem_lit.1 hq, mem_lit.1 hq']
    exact ⟨s, (hstar s).1 hs, rfl⟩
  · rintro ⟨s, hs, rfl⟩
    exact Language.mem_mul.2 ⟨[34], mem_lit.2 rfl, s ++ [34],
      Language.mem_mul.2 ⟨s, (hstar s).2 hs, [34], mem_lit.2 rfl, rfl⟩, rfl⟩

theorem mem_numberRegex {ds : Bytes} (hne : ds ≠ []) (hds : ∀ d ∈ ds, isDigit d = true) :
    ds ∈ numberRegex.matches' ∧ 45 :: ds ∈ numberRegex.matches' := by
  have hclass : ∀ d : UInt8, isDigit d = true → d ∈ byteRange 48 57 := by
    intro d hd
    rw [isDigit, Bool.and_eq_true, decide_eq_true_eq, decide_eq_true_eq] at hd
    exact mem_byteRange.2 hd
  have hdigits : ds ∈ (digits * RegularExpression.star digits).matches' := by
    cases ds with
    | nil => exact absurd rfl hne
    | cons d ds =>
        have hrest : ∀ c ∈ ds, c ∈ byteRange 48 57 := fun c hc => hclass c (hds c (List.mem_cons_of_mem _ hc))
        exact Language.mem_mul.2 ⟨[d], mem_oneOf.2 ⟨d, hclass d (hds d List.mem_cons_self), rfl⟩, ds,
          mem_star_oneOf.2 hrest, rfl⟩
  constructor
  · exact Language.mem_mul.2 ⟨[], Or.inl ((Language.mem_one _).2 rfl), ds, hdigits, rfl⟩
  · exact Language.mem_mul.2 ⟨[45], Or.inr (mem_oneOf.2 ⟨45, by decide, rfl⟩), ds, hdigits, rfl⟩

/-- The texts of the tokens of a text are as the rules have them, and no name is a keyword. -/
theorem fromText_of_mem_yylex {tok : Token} {text : Bytes} (h : tok ∈ yylex text) : tok.FromText := by
  rcases List.mem_filterMap.1 h with ⟨⟨f, w⟩, hmem, htok⟩
  rcases mem_lexemes hmem with ⟨before, r, after, hrules, hmatch, hbefore⟩
  have hplus : ∀ {r s : Regex} {w : Bytes}, w ∈ (r + s).matches' → w ∈ r.matches' ∨ w ∈ s.matches' := id
  -- the place of the rule in the list tells which rules are in front of it
  rcases before with _ | ⟨r₀, _ | ⟨r₁, _ | ⟨r₂, _ | ⟨r₃, _ | ⟨r₄, _ | ⟨r₅, _ | ⟨r₆, _ | ⟨r₇, _ | ⟨r₈, _ | ⟨r₉,
    _ | ⟨r₁₀, _ | ⟨r₁₁, before⟩⟩⟩⟩⟩⟩⟩⟩⟩⟩⟩⟩
  all_goals simp only [lexRules, List.nil_append, List.cons_append, List.cons.injEq, Prod.mk.injEq] at hrules
  · obtain ⟨⟨rfl, rfl⟩, -⟩ := hrules
    cases htok
    trivial
  · obtain ⟨-, ⟨rfl, rfl⟩, -⟩ := hrules
    cases htok
    trivial
  · obtain ⟨-, -, ⟨rfl, rfl⟩, -⟩ := hrules
    cases htok
    trivial
  · obtain ⟨-, -, -, ⟨rfl, rfl⟩, -⟩ := hrules
    cases htok
    trivial
  · obtain ⟨-, -, -, -, ⟨rfl, rfl⟩, -⟩ := hrules
    cases htok
    rcases hplus hmatch with h | h
    · exact Or.inl (mem_lit.1 h)
    · exact Or.inr (mem_lit.1 h)
  · obtain ⟨-, -, -, -, -, ⟨rfl, rfl⟩, -⟩ := hrules
    cases htok
    rcases hplus hmatch with h | h
    · rcases hplus h with h | h
      · rcases hplus h with h | h
        · rcases hplus h with h | h
          · rcases hplus h with h | h
            · simp [Token.FromText, binaryopTexts, mem_lit.1 h]
            · simp [Token.FromText, binaryopTexts, mem_lit.1 h]
          · simp [Token.FromText, binaryopTexts, mem_lit.1 h]
        · simp [Token.FromText, binaryopTexts, mem_lit.1 h]
      · simp [Token.FromText, binaryopTexts, mem_lit.1 h]
    · simp [Token.FromText, binaryopTexts, mem_lit.1 h]
  · obtain ⟨-, -, -, -, -, -, ⟨rfl, rfl⟩, -⟩ := hrules
    cases htok
    trivial
  · obtain ⟨-, -, -, -, -, -, -, ⟨rfl, rfl⟩, -⟩ := hrules
    cases htok
    rcases hplus hmatch with h | h
    · exact Or.inl (mem_lit.1 h)
    · exact Or.inr (mem_lit.1 h)
  · obtain ⟨-, -, -, -, -, -, -, -, ⟨rfl, rfl⟩, -⟩ := hrules
    cases htok
    exact mem_stringRegex.1 hmatch
  · obtain ⟨-, -, -, rfl, rfl, -, rfl, rfl, -, ⟨rfl, rfl⟩, -⟩ := hrules
    cases htok
    refine ⟨mem_fieldnameRegex.1 hmatch, fun hkeyword => ?_⟩
    simp only [List.forall_mem_cons] at hbefore
    obtain ⟨-, -, -, halways, hunary, -, hdelete, hdest, -⟩ := hbefore
    simp only [keywords, List.mem_cons, List.not_mem_nil, or_false] at hkeyword
    rcases hkeyword with rfl | rfl | rfl | rfl | rfl | rfl
    · exact halways (mem_lit.2 rfl)
    · exact hunary (Or.inl (mem_lit.2 rfl))
    · exact hunary (Or.inr (mem_lit.2 rfl))
    · exact hdelete (mem_lit.2 rfl)
    · exact hdest (Or.inl (mem_lit.2 rfl))
    · exact hdest (Or.inr (mem_lit.2 rfl))
  · obtain ⟨-, -, -, -, -, -, -, -, -, -, ⟨rfl, rfl⟩, -⟩ := hrules
    cases htok
  · obtain ⟨-, -, -, -, -, -, -, -, -, -, -, ⟨rfl, rfl⟩, -⟩ := hrules
    cases htok
    trivial
  · simp at hrules

end Scambio
