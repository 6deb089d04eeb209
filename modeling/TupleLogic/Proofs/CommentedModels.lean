import TupleLogic.Proofs.ModelSpellings

/-! Comments put into the report of a solver. Between any two tokens a comment that
reports no cardinality becomes a token of its own and changes no other. In
parentheses it is dropped again. Outside of them it stays, and is passed over by the
commands around it, but then a list that wraps all commands no longer stands alone
and is not unwrapped. -/

namespace TupleLogic

/-! ## Texts -/

namespace Token

open Text

/-- Reading `before ++ after` comes to `after` with the tokens `ts` behind it. A
comment is behind it once its line is. -/
inductive Splits : List Char → List Token → List Char → Prop
  | start {after : List Char} : Splits [] [] after
  | blank {c : Char} {cs after : List Char} {ts : List Token} : isBlank c = true →
      Splits cs ts after → Splits (c :: cs) ts after
  | comment {text cs after : List Char} {ts : List Token} :
      (∀ c ∈ text, isCommentChar c = true) → Splits cs ts after →
      Splits (';' :: text ++ '\n' :: cs) (.atom (commentAtom (trim text)) :: ts) after
  | token {c : Char} {body cs after : List Char} {t : Token} {ts : List Token} :
      isBlank c = false → c ≠ ';' → lexeme c (body ++ (cs ++ after)) = .ok (t, cs ++ after) →
      Splits cs ts after → Splits (c :: (body ++ cs)) (t :: ts) after

/-- A token is read as it is if the text is cut anywhere after it. -/
theorem lexeme_cut {c : Char} {body cs more : List Char} {t : Token}
    (h : lexeme c (body ++ (cs ++ more)) = .ok (t, cs ++ more)) :
    lexeme c (body ++ cs) = .ok (t, cs) := by
  obtain ⟨form, ds, htext, hleads⟩ := leads_of_lexeme h
  obtain rfl := List.append_cancel_right htext
  exact hleads.cut.lexeme

section Splits

variable {before after : List Char} {ts : List Token}

theorem Splits.written (h : Splits before ts after) : Written before ts := by
  induction h with
  | start => exact .nil
  | blank hc _ ih => exact .blank hc ih
  | comment htext _ ih => exact .comment htext ih
  | token hc hne hlex _ ih => exact .token hc hne (lexeme_cut hlex) ih

theorem Splits.tokens (h : Splits before ts after) :
    Token.tokens (before ++ after) = (Token.tokens after).map (ts ++ ·) := by
  induction h with
  | @start after =>
    rw [List.nil_append]
    cases Token.tokens after <;> rfl
  | blank hc _ ih => rw [List.cons_append, tokens_blank _ hc, ih]
  | @comment text cs after ts htext _ ih =>
    rw [List.append_assoc]
    change Token.tokens (';' :: text ++ '\n' :: (cs ++ after)) = _
    rw [tokens_comment htext, ih]
    exact map_tokens [_] ts
  | @token c body cs after t ts hc hne hlex _ ih =>
    rw [List.cons_append, List.append_assoc, tokens_lexeme hc hlex, ih]
    exact map_tokens [t] ts

/-- What is written stays so before a delimiter. -/
theorem Written.lexes (h : Written before ts) : Lexes before ts := by
  intro rest hrest
  exact h.tokens_append (.inr hrest)

/-- A comment between two tokens is read next to them. -/
theorem Splits.tokens_commented {text : List Char} (h : Splits before ts after)
    (htext : ∀ c ∈ text, isCommentChar c = true) :
    Token.tokens (before ++ (';' :: text ++ '\n' :: after)) =
      (Token.tokens after).map (ts ++ .atom (commentAtom (trim text)) :: ·) := by
  have hdelimited : Delimited (';' :: text ++ '\n' :: after) := delimited_cons _ rfl
  rw [h.written.lexes _ hdelimited, tokens_comment htext]
  cases Token.tokens after <;> rfl

end Splits

/-- Blanks and nothing else, but at least one. -/
def onlyBlanks (text : String) : Bool := !text.toList.isEmpty && text.toList.all isBlank

theorem ofText_onlyBlanks {text : String} (h : onlyBlanks text = true) :
    ofText text = .error .endOfInput :=
  if_pos h

theorem ofText_eq_tokens {text : String} (h : onlyBlanks text = false) :
    ofText text = Token.tokens text.toList := by
  rw [ofText, if_neg]
  exact Bool.eq_false_iff.mp h

/-- Where there are only blanks, there are no tokens on either side of a comment. -/
theorem Splits.of_onlyBlanks {before after : String} {ts : List Token}
    (h : Splits before.toList ts after.toList) (hblank : onlyBlanks (before ++ after) = true) :
    ts = [] ∧ Token.tokens after.toList = .ok [] := by
  rw [onlyBlanks, Bool.and_eq_true, String.toList_append] at hblank
  have htokens := h.tokens
  rw [tokens_eq_nil_iff.mpr hblank.2] at htokens
  cases hafter : Token.tokens after.toList with
  | error stop =>
    rw [hafter] at htokens
    cases htokens
  | ok us =>
    rw [hafter] at htokens
    obtain ⟨rfl, rfl⟩ := List.append_eq_nil_iff.mp (Except.ok.inj htokens).symm
    exact ⟨rfl, rfl⟩

/-- How many parentheses are open after the tokens. One that closes nothing is passed
over. -/
def depth : Nat → List Token → Nat
  | d, [] => d
  | d, .opening :: ts => depth (d + 1) ts
  | d, .closing :: ts => depth (d - 1) ts
  | d, .atom _ :: ts => depth d ts

end Token

/-! ## S-expressions -/

namespace SExpr

open Token (depth)

theorem dropNestedComments_append (d : Nat) (ts us : List Token) :
    dropNestedComments d (ts ++ us) =
      dropNestedComments d ts ++ dropNestedComments (depth d ts) us := by
  induction ts generalizing d with
  | nil => rfl
  | cons t ts ih =>
    cases t with
    | opening => exact congrArg (Token.opening :: ·) (ih (d + 1))
    | closing => exact congrArg (Token.closing :: ·) (ih (d - 1))
    | atom a =>
      cases ha : a.isComment with
      | false =>
        rw [List.cons_append, dropNestedComments_atom d _ ha, dropNestedComments_atom d _ ha, ih]
        rfl
      | true =>
        obtain ⟨c, rfl⟩ : ∃ c, a = .comment c := by cases a <;> simp_all [Atom.isComment]
        rw [List.cons_append, dropNestedComments, dropNestedComments, ih]
        split <;> rfl

theorem depth_dropNestedComments (d : Nat) (ts : List Token) :
    depth d (dropNestedComments d ts) = depth d ts := by
  induction ts generalizing d with
  | nil => rfl
  | cons t ts ih =>
    cases t with
    | opening => exact ih (d + 1)
    | closing => exact ih (d - 1)
    | atom a =>
      cases ha : a.isComment with
      | false =>
        rw [dropNestedComments_atom d _ ha]
        exact ih d
      | true =>
        obtain ⟨c, rfl⟩ : ∃ c, a = .comment c := by cases a <;> simp_all [Atom.isComment]
        rw [dropNestedComments]
        split <;> exact ih d

/-- Tokens are refused whatever comes after them, or leave as many lists open as there
are parentheses. -/
theorem build_append (ts : List Token) (opened : List (List SExpr)) (items : List SExpr) :
    (∃ stop, ∀ us, build opened items (ts ++ us) = .error stop) ∨
      ∃ opened' items', opened'.length = depth opened.length ts ∧
        ∀ us, build opened items (ts ++ us) = build opened' items' us := by
  induction ts generalizing opened items with
  | nil => exact .inr ⟨opened, items, rfl, fun _ => rfl⟩
  | cons t ts ih =>
    cases t with
    | opening =>
      simp only [List.cons_append, build]
      exact ih (items :: opened) []
    | atom a =>
      simp only [List.cons_append, build]
      exact ih opened (.atom a :: items)
    | closing =>
      cases opened with
      | nil => exact .inl ⟨.found .closing, fun _ => rfl⟩
      | cons outer opened =>
        simp only [List.cons_append, build]
        exact ih opened (.list items.reverse :: outer)

/-- What was read before the lists that are open stands before what is read. -/
theorem build_below (base : List SExpr) (ts : List Token) :
    (∀ items, build [] (items ++ base) ts = (build [] items ts).map (base.reverse ++ ·)) ∧
    ∀ opened outer items, build (opened ++ [outer ++ base]) items ts =
      (build (opened ++ [outer]) items ts).map (base.reverse ++ ·) := by
  induction ts with
  | nil =>
    refine ⟨fun items => ?_, fun opened outer items => ?_⟩
    · simp [build, Except.map]
    · cases opened <;> rfl
  | cons t ts ih =>
    obtain ⟨htop, hopened⟩ := ih
    cases t with
    | opening =>
      refine ⟨fun items => ?_, fun opened outer items => ?_⟩
      · exact hopened [] items []
      · simp only [build]
        exact hopened (items :: opened) outer []
    | atom a =>
      refine ⟨fun items => ?_, fun opened outer items => ?_⟩
      · exact htop (.atom a :: items)
      · simp only [build]
        exact hopened opened outer (.atom a :: items)
    | closing =>
      refine ⟨fun items => rfl, fun opened outer items => ?_⟩
      cases opened with
      | nil => exact htop (.list items.reverse :: outer)
      | cons inner opened => exact hopened opened outer (.list items.reverse :: inner)

/-- A comment outside of parentheses becomes an item between the others. -/
theorem ofTokens_commented {ts : List Token} (hdepth : depth 0 ts = 0) (us : List Token)
    (c : String) : ∃ parts : Except (Stop Token) (List SExpr × List SExpr),
      ofTokens (dropNestedComments 0 (ts ++ us)) = parts.map (fun p => p.1 ++ p.2) ∧
      ofTokens (dropNestedComments 0 (ts ++ .atom (.comment c) :: us)) =
        parts.map fun p => p.1 ++ .atom (.comment c) :: p.2 := by
  rw [dropNestedComments_append, dropNestedComments_append, hdepth, dropNestedComments,
    if_pos rfl, ofTokens, ofTokens]
  rcases build_append (dropNestedComments 0 ts) [] [] with ⟨stop, hstop⟩ | ⟨opened, items, hlen, hbuild⟩
  · exact ⟨.error stop, hstop _, hstop _⟩
  · have hopened : opened = [] := by
      rw [List.length_nil, depth_dropNestedComments, hdepth] at hlen
      exact List.length_eq_zero_iff.mp hlen
    subst hopened
    have hafter (base : List SExpr) := (build_below base (dropNestedComments 0 us)).1 []
    refine ⟨(build [] [] (dropNestedComments 0 us)).map (items.reverse, ·), ?_, ?_⟩
    · rw [hbuild, ← List.nil_append items, hafter]
      cases build [] [] (dropNestedComments 0 us) <;> rfl
    · rw [hbuild, build, ← List.nil_append (SExpr.atom _ :: items), hafter]
      cases build [] [] (dropNestedComments 0 us) <;> simp [Except.map]

/-- Whether a list wraps commands: its first item is `model`, or no symbol. -/
def wraps : List SExpr → Bool
  | .symbol head :: _ => head = "model"
  | _ => true

end SExpr

/-! ## Reports of solvers -/

namespace Script

namespace Reader

theorem unwrap_of_not_wrapping {items : List SExpr}
    (h : ∀ inner, items = [.list inner] → SExpr.wraps inner = false) : unwrap items = items := by
  unfold unwrap
  split
  · rename_i inner
    have hinner := h inner rfl
    split
    · rename_i head rest
      exact if_neg (of_decide_eq_false hinner)
    · rename_i hsymbol
      cases hw : SExpr.wraps inner <;> simp_all [SExpr.wraps]
  · rfl

/-- Names mean nothing in the report of a solver. -/
theorem readCommands_unnamed (name name' : Option String) (counts : List (String × Nat))
    (items : List SExpr) :
    readCommands .model name counts items = readCommands .model name' counts items := by
  cases items with
  | nil => rfl
  | cons e es =>
    cases e with
    | list command =>
      change (readCommand .model name command >>= _) = (readCommand .model name' command >>= _)
      rw [readCommand_model name name']
    | atom a => cases a <;> rfl

theorem readCommands_commented (name : Option String) (counts : List (String × Nat))
    (es fs : List SExpr) (c : String) :
    readCommands .model name counts (es ++ .atom (.comment c) :: fs) =
      readCommands .model name counts (es ++ fs) := by
  induction es generalizing name counts with
  | nil => exact readCommands_unnamed (some c) name counts fs
  | cons e es ih =>
    cases e with
    | list command =>
      exact congrArg (fun rest => readCommand .model name command >>= fun _ => rest) (ih none counts)
    | atom a =>
      cases a with
      | comment text => exact ih (some text) counts
      | cardinality sort count => exact ih none (insertCount (sort, count) counts)
      | symbol _ | keyword _ | numeral _ | string _ => rfl

/-- A list that wraps commands is no command itself. -/
theorem readCommand_wrapping {inner : List SExpr} (h : SExpr.wraps inner = true)
    (name : Option String) : ∃ e, readCommand .model name inner = throw e := by
  unfold readCommand
  split
  · rename_i head args
    obtain rfl : head = "model" := of_decide_eq_true h
    exact ⟨_, rfl⟩
  · exact ⟨_, rfl⟩

end Reader

theorem ofSExprs_commented {es fs : List SExpr} (c : String)
    (h : ∀ inner, es ++ fs = [.list inner] → SExpr.wraps inner = false) :
    ofSExprs .model (es ++ .atom (.comment c) :: fs) = ofSExprs .model (es ++ fs) := by
  have hcommented : Reader.unwrap (es ++ .atom (.comment c) :: fs) =
      es ++ .atom (.comment c) :: fs := by
    refine Reader.unwrap_of_not_wrapping fun inner heq => ?_
    have hmem : SExpr.atom (.comment c) ∈ [SExpr.list inner] := heq ▸ List.mem_append_cons_self
    simp at hmem
  rw [ofSExprs_eq, ofSExprs_eq, hcommented, Reader.unwrap_of_not_wrapping h, ofCommands, ofCommands,
    Reader.readCommands_commented]

/-- Next to a comment, a list that wraps commands is refused. -/
theorem ofSExprs_commented_wrapping {es fs inner : List SExpr} (c : String)
    (h : es ++ fs = [.list inner]) (hwraps : SExpr.wraps inner = true) :
    ∃ e, ofSExprs .model (es ++ .atom (.comment c) :: fs) = .error e := by
  obtain ⟨e, he⟩ := Reader.readCommand_wrapping hwraps (some c)
  obtain ⟨e', he'⟩ := Reader.readCommand_wrapping hwraps none
  cases es with
  | nil =>
    obtain rfl : fs = [.list inner] := h
    refine ⟨e, ?_⟩
    change ((Reader.readCommand .model (some c) inner >>= _) empty >>= _) = _
    rw [he]
    rfl
  | cons e₁ es =>
    obtain ⟨rfl, hes⟩ := List.cons.inj h
    obtain ⟨rfl, rfl⟩ := List.append_eq_nil_iff.mp hes
    refine ⟨e', ?_⟩
    change ((Reader.readCommand .model none inner >>= _) empty >>= _) = _
    rw [he']
    rfl

theorem toOption_ofSExprs_commented (es fs : List SExpr) (c : String) :
    (ofSExprs .model (es ++ .atom (.comment c) :: fs)).toOption =
        (ofSExprs .model (es ++ fs)).toOption ↔
      ∀ inner s, es ++ fs = [.list inner] → ofSExprs .model (es ++ fs) = .ok s →
        SExpr.wraps inner = false := by
  by_cases hwrapped : ∃ inner, es ++ fs = [.list inner] ∧ SExpr.wraps inner = true
  · obtain ⟨inner, hinner, hwraps⟩ := hwrapped
    obtain ⟨e, he⟩ := ofSExprs_commented_wrapping c hinner hwraps
    rw [he]
    cases hread : ofSExprs .model (es ++ fs) with
    | error e' => simp [Except.toOption]
    | ok s =>
      refine ⟨fun hsame => absurd hsame (by simp [Except.toOption]), fun h => ?_⟩
      rw [h inner s hinner rfl] at hwraps
      cases hwraps
  · have hnot : ∀ inner, es ++ fs = [.list inner] → SExpr.wraps inner = false := by
      intro inner hinner
      exact Bool.eq_false_iff.mpr fun hwraps => hwrapped ⟨inner, hinner, hwraps⟩
    rw [ofSExprs_commented c hnot]
    exact ⟨fun _ inner s hinner _ => hnot inner hinner, fun _ => rfl⟩

/-- The text with a comment in it, on a line that ends with the comment. -/
def commented (before comment after : String) : String :=
  before ++ ";" ++ comment ++ "\n" ++ after

section Commented

open Token

variable {before comment after : String} {ts : List Token}
  (hsplit : Splits before.toList ts after.toList)
  (hline : ∀ c ∈ comment.toList, isCommentChar c = true)
  (hplain : (commentAtom (Text.trim comment.toList)).isComment = true)

include hsplit hline hplain

theorem ofText_commented : ∃ c, Token.ofText (commented before comment after) =
    (tokens after.toList).map (ts ++ .atom (.comment c) :: ·) := by
  obtain ⟨c, hc⟩ : ∃ c, commentAtom (Text.trim comment.toList) = .comment c := by
    generalize commentAtom (Text.trim comment.toList) = a at hplain
    cases a <;> simp_all [Atom.isComment]
  have htext : (commented before comment after).toList =
      before.toList ++ (';' :: comment.toList ++ '\n' :: after.toList) := by
    simp [commented]
  have hblank : onlyBlanks (commented before comment after) = false := by
    have hsemicolon : Text.isBlank ';' = false := rfl
    simp [onlyBlanks, htext, hsemicolon]
  refine ⟨c, ?_⟩
  rw [ofText_eq_tokens hblank, htext, hsplit.tokens_commented hline, hc]

/-- In parentheses a comment leaves no trace. -/
theorem read_commented_nested (hblank : onlyBlanks (before ++ after) = false)
    (hdepth : depth 0 ts ≠ 0) :
    read .model (commented before comment after) = read .model (before ++ after) := by
  obtain ⟨c, hc⟩ := ofText_commented hsplit hline hplain
  rw [read, read, hc, ofText_eq_tokens hblank, String.toList_append, hsplit.tokens]
  cases tokens after.toList with
  | error stop => rfl
  | ok us =>
    have hdrop : SExpr.dropNestedComments 0 (ts ++ .atom (.comment c) :: us) =
        SExpr.dropNestedComments 0 (ts ++ us) := by
      rw [SExpr.dropNestedComments_append, SExpr.dropNestedComments_append,
        SExpr.dropNestedComments, if_neg hdepth]
    simp only [Except.map, Except.mapError, bind, Except.bind, hdrop]

/-- Outside of them it stands between the items that are there without it. -/
theorem ofText_commented_top (hblank : onlyBlanks (before ++ after) = false)
    (hdepth : depth 0 ts = 0) : ∃ c, ∃ parts : Except ReadError (List SExpr × List SExpr),
      SExpr.ofText (before ++ after) = parts.map (fun p => p.1 ++ p.2) ∧
      SExpr.ofText (commented before comment after) =
        parts.map fun p => p.1 ++ .atom (.comment c) :: p.2 := by
  obtain ⟨c, hc⟩ := ofText_commented hsplit hline hplain
  refine ⟨c, ?_⟩
  rw [SExpr.ofText, SExpr.ofText, hc, ofText_eq_tokens hblank, String.toList_append, hsplit.tokens]
  cases tokens after.toList with
  | error stop => exact ⟨.error (.lexing stop), rfl, rfl⟩
  | ok us =>
    obtain ⟨parts, hparts, hcommented⟩ := SExpr.ofTokens_commented hdepth us c
    refine ⟨parts.mapError .unbalanced, ?_, ?_⟩
    · change (SExpr.ofTokens (SExpr.dropNestedComments 0 (ts ++ us))).mapError _ = _
      rw [hparts]
      cases parts <;> rfl
    · change (SExpr.ofTokens (SExpr.dropNestedComments 0 (ts ++ .atom (.comment c) :: us))).mapError
        _ = _
      rw [hcommented]
      cases parts <;> rfl

/-- Blanks alone are refused, but not next to a comment. -/
theorem read_commented_blanks (hblank : onlyBlanks (before ++ after) = true) :
    read .model (before ++ after) = .error (.lexing .endOfInput) ∧
      read .model (commented before comment after) = .ok empty := by
  obtain ⟨c, hc⟩ := ofText_commented hsplit hline hplain
  obtain ⟨rfl, hafter⟩ := hsplit.of_onlyBlanks hblank
  constructor
  · rw [read, ofText_onlyBlanks hblank]
    rfl
  · rw [read, hc, hafter]
    rfl

/-- A comment that reports no cardinality leaves the report of a solver as it is,
wherever it stands between two tokens: the same script is read, or both texts are
refused. There are two exceptions. Blanks alone are refused, and accepted with a
comment; and a list that wraps all commands is accepted, and refused with a comment
before or after it. -/
theorem read_commented_iff :
    (read .model (commented before comment after)).toOption =
        (read .model (before ++ after)).toOption ↔
      onlyBlanks (before ++ after) = false ∧
        (depth 0 ts = 0 → ∀ inner s, SExpr.ofText (before ++ after) = .ok [.list inner] →
          read .model (before ++ after) = .ok s → SExpr.wraps inner = false) := by
  cases hblank : onlyBlanks (before ++ after) with
  | true =>
    obtain ⟨htext, hcommented⟩ := read_commented_blanks hsplit hline hplain hblank
    simp [htext, hcommented, Except.toOption]
  | false =>
    by_cases hdepth : depth 0 ts = 0
    · obtain ⟨c, parts, htext, hcommented⟩ := ofText_commented_top hsplit hline hplain hblank hdepth
      rw [read_eq_ofText, read_eq_ofText, htext, hcommented]
      cases parts with
      | error e => simp [Except.map, bind, Except.bind]
      | ok p =>
        have hiff := toOption_ofSExprs_commented p.1 p.2 c
        simpa [Except.map, bind, Except.bind, hdepth] using hiff
    · rw [read_commented_nested hsplit hline hplain hblank hdepth]
      simp [hdepth]

end Commented

theorem written_model : Token.Written "(model (declare-sort A 0))".toList (SExpr.tokensAll
    [.list [.symbol "model", .list [.symbol "declare-sort", .symbol "A", .atom (.numeral 0)]]]) := by
  have hname : Token.Written ['m', 'o', 'd', 'e', 'l'] [.atom (.symbol "model")] :=
    .token rfl (by decide) rfl .nil
  have hcommand := (written_command written_sort).parenthesized
  exact (hname.append (.blank rfl hcommand) (Token.delimited_cons _ rfl)).parenthesized

/-- A comment inside of this report changes nothing, and one before it has it refused. -/
theorem read_commented_iff_model :
    (Token.Splits "(model ".toList [.opening, .atom (.symbol "model")]
        "(declare-sort A 0))".toList ∧
      (read .model (commented "(model " " sorts" "(declare-sort A 0))")).toOption =
        (read .model ("(model " ++ "(declare-sort A 0))")).toOption) ∧
    Token.Splits "".toList [] "(model (declare-sort A 0))".toList ∧
      (read .model (commented "" " header" "(model (declare-sort A 0))")).toOption ≠
        (read .model ("" ++ "(model (declare-sort A 0))")).toOption := by
  have hname : Token.Splits ('m' :: (['o', 'd', 'e', 'l'] ++ [' '])) [.atom (.symbol "model")]
      "(declare-sort A 0))".toList := .token rfl (by decide) rfl (.blank rfl .start)
  have hopening : Token.Splits ('(' :: ([] ++ "model ".toList)) [.opening, .atom (.symbol "model")]
      "(declare-sort A 0))".toList := .token rfl (by decide) rfl hname
  have hinside : Token.Splits "(model ".toList [.opening, .atom (.symbol "model")]
      "(declare-sort A 0))".toList := hopening
  have hbefore : Token.Splits "".toList [] "(model (declare-sort A 0))".toList := .start
  refine ⟨⟨hinside, ?_⟩, hbefore, ?_⟩
  · refine (read_commented_iff hinside (List.all_eq_true.mp rfl) rfl).mpr ⟨by decide, ?_⟩
    intro hdepth
    cases hdepth
  · intro hsame
    have hnot := (read_commented_iff hbefore (List.all_eq_true.mp rfl) rfl).mp hsame
    have htext := SExpr.ofText_written written_model fun hnil => by cases hnil
    have hread := read_written .model written_model fun hnil => by cases hnil
    cases hnot.2 rfl _ _ htext hread

end Script

end TupleLogic
