import TupleLogic.Proofs.SExprTokens
import TupleLogic.Proofs.TokenGrammar
import TupleLogic.Script.Reader

/-! Comments in texts. A text in which every comment ends with its line is read as
the same tokens wherever it stands. Comments that report no cardinality are dropped
inside parentheses, and where they are not, nothing but the names of assertions
comes from them. -/

namespace TupleLogic

/-! ## Texts -/

namespace Token

open Text

/-- The text is written with these tokens, and each of its comments ends with its
line. -/
inductive Written : List Char → List Token → Prop
  | nil : Written [] []
  | blank {c : Char} {cs : List Char} {ts : List Token} : isBlank c = true → Written cs ts →
      Written (c :: cs) ts
  | comment {text cs : List Char} {ts : List Token} : (∀ c ∈ text, isCommentChar c = true) →
      Written cs ts → Written (';' :: text ++ '\n' :: cs) (.atom (commentAtom (trim text)) :: ts)
  | token {c : Char} {cs rest : List Char} {t : Token} {ts : List Token} : isBlank c = false →
      c ≠ ';' → lexeme c cs = .ok (t, rest) → Written rest ts → Written (c :: cs) (t :: ts)

section Lexemes

variable {p : Char → Bool} {more : List Char} (cs : List Char)

theorem takeWhile_append_delimited (hp : ∀ c, p c = true → Symbol.isSymbolChar c = true)
    (hmore : Delimited more) : (cs ++ more).takeWhile p = cs.takeWhile p := by
  induction cs with
  | nil => exact takeWhile_delimited hp (List.forall_mem_nil _) hmore
  | cons c cs ih => rw [List.cons_append, List.takeWhile_cons, List.takeWhile_cons, ih]

theorem dropWhile_append_delimited (hp : ∀ c, p c = true → Symbol.isSymbolChar c = true)
    (hmore : Delimited more) : (cs ++ more).dropWhile p = cs.dropWhile p ++ more := by
  induction cs with
  | nil => exact dropWhile_delimited hp (List.forall_mem_nil _) hmore
  | cons c cs ih =>
    rw [List.cons_append, List.dropWhile_cons, List.dropWhile_cons, ih]
    split <;> rfl

variable {cs}

/-- Where a run of such characters has an end, more text does not change it. -/
theorem runs_append {c : Char} {rest : List Char} (h : cs.dropWhile p = c :: rest)
    (more : List Char) : (cs ++ more).takeWhile p = cs.takeWhile p ∧
      (cs ++ more).dropWhile p = c :: (rest ++ more) := by
  have hne : (cs.dropWhile p).isEmpty = false := by rw [h]; rfl
  rw [List.takeWhile_append, List.dropWhile_append, hne, h]
  refine ⟨if_neg fun hlen => ?_, rfl⟩
  have hall : cs.takeWhile p = cs := (List.takeWhile_prefix p).eq_of_length hlen
  have hsplit := List.takeWhile_append_dropWhile (p := p) (l := cs)
  rw [hall, h] at hsplit
  simp at hsplit

theorem numeralTail_append (c : Char) (hmore : Delimited more) :
    numeralTail c (cs ++ more) = numeralTail c cs := by
  unfold numeralTail
  split
  · rfl
  · exact takeWhile_append_delimited cs (fun _ => isSymbolChar_of_isDigit) hmore

/-- What is read at a character is read before a delimiter too, unless the text ends in
the middle of it. -/
theorem lexeme_append {c : Char} (hc : c ≠ ';') (hstop : lexeme c cs ≠ .error .endOfInput)
    (hmore : Delimited more) :
    lexeme c (cs ++ more) = (lexeme c cs).map fun r => (r.1, r.2 ++ more) := by
  have htake := takeWhile_append_delimited cs (fun _ => id) hmore
  have hdrop := dropWhile_append_delimited cs (fun _ => id) hmore
  unfold lexeme at hstop ⊢
  by_cases hopening : c = '('
  · rw [if_pos hopening, if_pos hopening]
    rfl
  simp only [if_neg hopening] at hstop ⊢
  by_cases hclosing : c = ')'
  · rw [if_pos hclosing, if_pos hclosing]
    rfl
  simp only [if_neg hclosing, if_neg hc] at hstop ⊢
  by_cases hkeyword : c = ':'
  · simp only [if_pos hkeyword] at hstop ⊢
    rw [htake, hdrop]
    cases hname : cs.takeWhile Symbol.isSymbolChar with
    | nil =>
      rw [hname] at hstop
      cases cs with
      | nil => exact absurd rfl hstop
      | cons d ds => rfl
    | cons d name => rfl
  simp only [if_neg hkeyword] at hstop ⊢
  by_cases hstring : c = '"'
  · simp only [if_pos hstring] at hstop ⊢
    cases hend : cs.dropWhile isStringChar with
    | nil =>
      rw [hend] at hstop
      exact absurd rfl hstop
    | cons d end' =>
      obtain ⟨htake, hdrop⟩ := runs_append hend more
      rw [hdrop, htake]
      rfl
  simp only [if_neg hstring] at hstop ⊢
  by_cases hquoted : c = '|'
  · simp only [if_pos hquoted] at hstop ⊢
    cases hend : cs.dropWhile Symbol.isQuotable with
    | nil =>
      rw [hend] at hstop
      exact absurd rfl hstop
    | cons d end' =>
      obtain ⟨htake, hdrop⟩ := runs_append hend more
      rw [hdrop, htake]
      split
      · rename_i heq
        obtain ⟨rfl, rfl⟩ := List.cons.inj heq
        rfl
      · rename_i hd
        split
        · rename_i heq
          exact absurd (congrArg (· ++ more) heq) (hd _)
        · rfl
  simp only [if_neg hquoted]
  by_cases hdigit : isDigit c = true
  · rw [if_pos hdigit, if_pos hdigit, numeralTail_append c hmore]
    split
    · rw [List.drop_append_of_le_length (isPrefix_numeralTail c cs).length_le]
      rfl
    · rfl
  simp only [if_neg hdigit]
  split
  · rw [htake, hdrop]
    rfl
  · rfl

theorem lexeme_append_ok {c : Char} {rest : List Char} {t : Token} (hc : c ≠ ';')
    (h : lexeme c cs = .ok (t, rest)) (hmore : Delimited more) :
    lexeme c (cs ++ more) = .ok (t, rest ++ more) := by
  rw [lexeme_append hc (by rw [h]; intro heq; cases heq) hmore, h]
  rfl

theorem lexeme_append_found {c d : Char} (h : lexeme c cs = .error (.found d))
    (hmore : Delimited more) : lexeme c (cs ++ more) = .error (.found d) := by
  have hc : c ≠ ';' := by
    rintro rfl
    cases h
  rw [lexeme_append hc (by rw [h]; intro heq; cases heq) hmore, h]
  rfl

/-- A comment that has an end keeps it. -/
theorem lexeme_comment_append {rest : List Char} {t : Token} (h : lexeme ';' cs = .ok (t, rest))
    (hrest : rest ≠ []) : lexeme ';' (cs ++ more) = .ok (t, rest ++ more) := by
  cases h
  obtain ⟨d, rest, hend⟩ := List.exists_cons_of_ne_nil hrest
  obtain ⟨htake, hdrop⟩ := runs_append hend more
  rw [hend, List.cons_append, ← hdrop, ← htake]
  rfl

/-- A text with a character that starts no token has it before a delimiter, too. -/
theorem tokens_append_found {c : Char} (h : tokens cs = .error (.found c))
    (hmore : Delimited more) : tokens (cs ++ more) = .error (.found c) := by
  fun_induction tokens cs with
  | case1 cs hblank => cases h
  | case2 cs d rest hrest stop hlex =>
    cases h
    rw [tokens_eq, (runs_append hrest more).2]
    simp only [lexeme_append_found hlex hmore]
  | case3 cs d rest hrest t rest' hlex ih =>
    have hrest' : tokens rest' = .error (.found c) := by
      cases htokens : tokens rest' with
      | ok ts =>
        rw [htokens] at h
        cases h
      | error stop =>
        rw [htokens] at h
        cases h
        rfl
    have hlex' : lexeme d (rest ++ more) = .ok (t, rest' ++ more) := by
      by_cases hd : d = ';'
      · subst hd
        refine lexeme_comment_append hlex ?_
        rintro rfl
        rw [tokens_nil] at hrest'
        cases hrest'
      · exact lexeme_append_ok hd hlex hmore
    rw [tokens_eq, (runs_append hrest more).2]
    simp only [hlex', ih hrest']
    rfl

end Lexemes

section Texts

variable {cs ds : List Char} {ts us : List Token}

theorem Written.append (h : Written cs ts) (h' : Written ds us) (hds : Delimited ds) :
    Written (cs ++ ds) (ts ++ us) := by
  induction h with
  | nil => exact h'
  | blank hc _ ih => exact .blank hc ih
  | @comment text cs ts htext _ ih =>
    rw [List.append_assoc]
    exact .comment htext ih
  | token hblank hc hlex _ ih => exact .token hblank hc (lexeme_append_ok hc hlex hds) ih

theorem Written.parenthesized (h : Written cs ts) :
    Written ('(' :: (cs ++ [')'])) (.opening :: (ts ++ [.closing])) := by
  have hclosing : Written [')'] [.closing] := .token rfl (by decide) rfl .nil
  exact .token rfl (by decide) rfl (h.append hclosing (delimited_cons [] rfl))

/-- What is written is read in front of more text, if one of them is set off. -/
theorem Written.tokens_append {more : List Char} (h : Written cs ts)
    (hplace : OpenBefore cs ∨ Delimited more) :
    tokens (cs ++ more) = (tokens more).map (ts ++ ·) := by
  induction h with
  | nil =>
    rw [List.nil_append]
    cases Token.tokens more <;> rfl
  | @blank c cs ts hc _ ih =>
    rw [List.cons_append, tokens_blank _ hc, ih (hplace.imp_left (.of_append [c]))]
  | @comment text cs ts htext _ ih =>
    have hopen : OpenBefore (';' :: text ++ '\n' :: cs) → OpenBefore cs := by
      intro hopen
      exact .of_append (';' :: text ++ ['\n']) (by simpa using hopen)
    rw [List.append_assoc]
    change Token.tokens (';' :: text ++ '\n' :: (cs ++ more)) = _
    rw [tokens_comment htext, ih (hplace.imp_left hopen)]
    exact map_tokens [_] ts
  | @token c cs rest t ts hblank hc hlex _ ih =>
    obtain ⟨form, ds, rfl, hleads⟩ := leads_of_lexeme hlex
    rw [List.cons_append, List.append_assoc, tokens_lexeme hblank (hleads.append hc hplace).lexeme,
      ih (hplace.imp_left (.of_append (c :: ds)))]
    exact map_tokens [t] ts

theorem Written.tokens (h : Written cs ts) : tokens cs = .ok ts := by
  have hnil : Delimited [] := fun c hc => by cases hc
  have htokens := h.tokens_append (.inr hnil)
  rw [List.append_nil, tokens_nil] at htokens
  rw [htokens]
  exact congrArg Except.ok (List.append_nil ts)

/-- Blanks alone are no text, although they are written with no tokens. -/
theorem Written.ofText {text : String} (h : Written text.toList ts) (hne : ts = [] → text = "") :
    ofText text = .ok ts :=
  ofText_eq_ok_iff.mpr ⟨h.tokens, hne⟩

theorem ofText_found {text : String} {c : Char} (h : Token.tokens text.toList = .error (.found c)) :
    ofText text = .error (.found c) := by
  have hne : Token.tokens text.toList ≠ .ok [] := by
    rw [h]
    exact fun heq => by cases heq
  rw [ofText_eq_tokens_of_ne hne, h]

end Texts

end Token

/-! ## S-expressions -/

namespace SExpr

def isComment : SExpr → Bool
  | .atom a => a.isComment
  | .list _ => false

theorem eq_comment_of_isComment {e : SExpr} (h : e.isComment = true) :
    ∃ c, e = .atom (.comment c) := by
  cases e with
  | list _ => cases h
  | atom a =>
    cases a with
    | comment c => exact ⟨c, rfl⟩
    | symbol _ | keyword _ | numeral _ | string _ | cardinality _ _ => cases h

mutual
/-- The s-expression without the comments inside of it. Reports of cardinalities
stay. -/
def uncommented : SExpr → SExpr
  | .atom a => .atom a
  | .list items => .list (uncommentedAll items)

def uncommentedAll : List SExpr → List SExpr
  | [] => []
  | e :: es => if e.isComment then uncommentedAll es else e.uncommented :: uncommentedAll es
end

theorem uncommentedAll_dropWhile (es : List SExpr) :
    uncommentedAll (es.dropWhile isComment) = uncommentedAll es := by
  induction es with
  | nil => rfl
  | cons e es ih =>
    rw [List.dropWhile_cons]
    split
    · rename_i he
      rw [ih, uncommentedAll, if_pos he]
    · rfl

mutual
theorem dropNestedComments_uncommented : ∀ (e : SExpr) (depth : Nat) (ts : List Token),
    depth = 0 ∨ e.isComment = false → dropNestedComments depth (e.tokens ++ ts) =
      e.uncommented.tokens ++ dropNestedComments depth ts
  | .atom a, depth, ts, h => by
    rw [uncommented, tokens, List.singleton_append, List.singleton_append]
    rcases h with rfl | h
    · cases a <;> rfl
    · exact dropNestedComments_atom depth ts h
  | .list items, depth, ts, _ => by
    rw [uncommented, tokens, tokens, List.cons_append, List.cons_append, List.append_assoc,
      List.append_assoc, dropNestedComments, dropNestedComments_uncommentedAll items depth,
      List.singleton_append, dropNestedComments, Nat.add_sub_cancel]
    rfl

theorem dropNestedComments_uncommentedAll : ∀ (es : List SExpr) (depth : Nat) (ts : List Token),
    dropNestedComments (depth + 1) (tokensAll es ++ ts) =
      tokensAll (uncommentedAll es) ++ dropNestedComments (depth + 1) ts
  | [], depth, ts => rfl
  | e :: es, depth, ts => by
    rw [tokensAll, uncommentedAll, List.append_assoc]
    split
    · rename_i he
      obtain ⟨c, rfl⟩ := eq_comment_of_isComment he
      rw [tokens, List.singleton_append, dropNestedComments, if_neg (Nat.succ_ne_zero depth),
        dropNestedComments_uncommentedAll es depth]
    · rename_i he
      rw [dropNestedComments_uncommented e (depth + 1) _ (.inr (Bool.eq_false_iff.mpr he)),
        dropNestedComments_uncommentedAll es depth, tokensAll, List.append_assoc]
end

/-- The s-expressions of a text, without the comments in parentheses. -/
def ofText (text : String) : Except ReadError (List SExpr) := do
  let ts ← (Token.ofText text).mapError .lexing
  (ofTokens (dropNestedComments 0 ts)).mapError .unbalanced

/-- At the top, comments are kept. -/
theorem dropNestedComments_map (es : List SExpr) :
    dropNestedComments 0 (tokensAll es) = tokensAll (es.map uncommented) := by
  induction es with
  | nil => rfl
  | cons e es ih =>
    rw [tokensAll, dropNestedComments_uncommented e 0 _ (.inl rfl), ih]
    rfl

theorem ofText_written {text : String} {items : List SExpr}
    (h : Token.Written text.toList (tokensAll items)) (hne : items = [] → text = "") :
    ofText text = .ok (items.map uncommented) := by
  have hitems : tokensAll items = [] → text = "" := by
    intro hnil
    cases items with
    | nil => exact hne rfl
    | cons e es => cases e <;> cases hnil
  rw [ofText, h.ofText hitems]
  change (ofTokens (dropNestedComments 0 (tokensAll items))).mapError ReadError.unbalanced = _
  rw [dropNestedComments_map, ofTokens_tokensAll]
  rfl

end SExpr

namespace Script

theorem read_eq_ofText (dialect : Dialect) (text : String) :
    read dialect text = SExpr.ofText text >>= ofSExprs dialect := by
  rw [read, SExpr.ofText]
  cases (Token.ofText text).mapError ReadError.lexing <;> rfl

/-- A text that is written with the tokens of s-expressions stands for them, less the
comments in parentheses. -/
theorem read_written {text : String} {items : List SExpr} (dialect : Dialect)
    (h : Token.Written text.toList (SExpr.tokensAll items)) (hne : items = [] → text = "") :
    read dialect text = ofSExprs dialect (items.map SExpr.uncommented) := by
  rw [read_eq_ofText, SExpr.ofText_written h hne]
  rfl

theorem read_found {text : String} {c : Char} (dialect : Dialect)
    (h : Token.tokens text.toList = .error (.found c)) :
    read dialect text = .error (.lexing (.found c)) := by
  rw [read, Token.ofText_found h]
  rfl

namespace Reader

/-- Nothing in the report of a solver has a name. -/
theorem readCommand_model (name name' : Option String) (items : List SExpr) :
    readCommand .model name items = readCommand .model name' items := by
  unfold readCommand
  split
  · simp only [reduceCtorEq, false_and, if_false]
  · rfl

/-- So comments between commands mean no more than those inside of them. -/
theorem readCommands_model (name name' : Option String) (counts : List (String × Nat))
    (items : List SExpr) : readCommands .model name counts (items.map SExpr.uncommented) =
      readCommands .model name' counts (SExpr.uncommentedAll items) := by
  induction items generalizing name name' counts with
  | nil => rfl
  | cons e es ih =>
    cases e with
    | list items =>
      change (readCommand .model name _ >>= fun _ => readCommands .model none counts _) =
        (readCommand .model name' _ >>= fun _ => readCommands .model none counts _)
      rw [readCommand_model name name', ih none none]
    | atom a =>
      cases a with
      | comment c => exact ih (some c) name' counts
      | cardinality sort count => exact ih none none (insertCount (sort, count) counts)
      | symbol _ | keyword _ | numeral _ | string _ => rfl

end Reader

end Script

end TupleLogic
