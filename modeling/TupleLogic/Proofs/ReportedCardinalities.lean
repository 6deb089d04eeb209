import TupleLogic.Proofs.CommentedModels

/-! Cardinalities in the report of a solver. Comments that state how many elements a sort
has may stand anywhere between the commands, before or after the one that declares the
sort: the commands are read as if there were none, and then each declared sort has the
count of the last comment about it. Other counts are dropped. -/

namespace TupleLogic

/-! ## Comments of the form `cardinality of S is n` -/

namespace Text

/-- A run of characters that are not blank. -/
def IsWord (w : List Char) : Prop := w ≠ [] ∧ ∀ c ∈ w, isBlank c = false

theorem isWord_of_all {w : List Char} (hne : w ≠ []) (h : w.all (fun c => !isBlank c) = true) :
    IsWord w :=
  ⟨hne, fun c hc => Bool.not_eq_true' _ ▸ List.all_eq_true.mp h c hc⟩

theorem isWord_cons {c : Char} {w : List Char} :
    IsWord (c :: w) ↔ isBlank c = false ∧ (w = [] ∨ IsWord w) := by
  rw [IsWord, List.forall_mem_cons, IsWord]
  cases w with
  | nil => simp
  | cons d w => simp

theorem words_word {w : List Char} (h : IsWord w) : words w = [w] := by
  induction w with
  | nil => exact absurd rfl h.1
  | cons c w ih =>
    obtain ⟨hc, rfl | hw⟩ := isWord_cons.mp h
    · simp [words, hc]
    · cases w with
      | nil => exact absurd rfl hw.1
      | cons d w =>
        have hd := (isWord_cons.mp hw).1
        rw [words, ih hw]
        simp [hc, hd]

theorem words_append {w : List Char} (h : IsWord w) {c : Char} (hc : isBlank c = true)
    (cs : List Char) : words (w ++ c :: cs) = w :: words cs := by
  induction w with
  | nil => exact absurd rfl h.1
  | cons d w ih =>
    obtain ⟨hd, rfl | hw⟩ := isWord_cons.mp h
    · simp [words, hc, hd]
    · cases w with
      | nil => exact absurd rfl hw.1
      | cons e w =>
        have he := (isWord_cons.mp hw).1
        rw [List.cons_append, List.cons_append, words, ← List.cons_append, ih hw]
        simp [hd, he]

/-- What ends with a word loses nothing behind it. -/
theorem trim_append {c : Char} {cs w : List Char} (hc : isBlank c = false) (h : IsWord w) :
    trim (c :: cs ++ w) = c :: cs ++ w := by
  obtain ⟨d, w', hw⟩ := List.exists_cons_of_ne_nil (List.reverse_ne_nil_iff.mpr h.1)
  have hd : isBlank d = false := h.2 d (List.mem_reverse.mp (hw ▸ List.mem_cons_self))
  rw [trim, List.cons_append, List.dropWhile_cons_of_neg (Bool.eq_false_iff.mp hc),
    ← List.cons_append, List.reverse_append, hw, List.cons_append,
    List.dropWhile_cons_of_neg (Bool.eq_false_iff.mp hd), ← List.cons_append, ← hw,
    ← List.reverse_append, List.reverse_reverse]

/-- A line end is blank, so no word has one. -/
theorem IsWord.isCommentChar {w : List Char} (h : IsWord w) :
    ∀ c ∈ w, Token.isCommentChar c = true := by
  intro c hc
  refine bne_iff_ne.mpr ?_
  rintro rfl
  exact Bool.false_ne_true (h.2 _ hc).symm

theorem isWord_toString (n : Nat) : IsWord (toString n).toList := by
  rw [Nat.toString_eq_ofList_toDigits, String.toList_ofList]
  refine ⟨Nat.toDigits_ne_nil, fun c hc => ?_⟩
  exact Token.isBlank_of_isSymbolChar
    (Token.isSymbolChar_of_isDigit (Token.isDigit_of_mem_toDigits hc))

theorem count?_toString {n : Nat} (h : fitsUnsigned64 n = true) :
    count? (toString n).toList = some n := by
  rw [Nat.toString_eq_ofList_toDigits, String.toList_ofList]
  have hdigits : ∀ c ∈ Nat.toDigits 10 n, isDigit c = true := fun c => Token.isDigit_of_mem_toDigits
  have hsome : (Nat.toDigits 10 n).isEmpty = false :=
    List.isEmpty_eq_false_iff.mpr Nat.toDigits_ne_nil
  have hvalue := Token.decimalValue_toDigits n
  unfold count?
  split
  · rename_i ds hplus
    exact absurd (hdigits '+' (hplus ▸ List.mem_cons_self)) (by decide)
  · simp only [hsome, List.all_eq_true.mpr hdigits, hvalue, h]
    rfl

section Cardinality

variable {sort : String} {n : Nat}

theorem words_cardinality (hsort : IsWord sort.toList) :
    words ("cardinality of " ++ sort ++ " is " ++ toString n).toList =
      ["cardinality".toList, "of".toList, sort.toList, "is".toList, (toString n).toList] := by
  have htext : ("cardinality of " ++ sort ++ " is " ++ toString n).toList =
      "cardinality".toList ++ ' ' :: ("of".toList ++ ' ' :: (sort.toList ++ ' ' ::
        ("is".toList ++ ' ' :: (toString n).toList))) := by
    simp
  have hcardinality : IsWord "cardinality".toList := isWord_of_all (by decide) rfl
  have hof : IsWord "of".toList := isWord_of_all (by decide) rfl
  have his : IsWord "is".toList := isWord_of_all (by decide) rfl
  rw [htext, words_append hcardinality rfl, words_append hof rfl, words_append hsort rfl,
    words_append his rfl, words_word (isWord_toString n)]

theorem trim_cardinality : trim (" cardinality of " ++ sort ++ " is " ++ toString n).toList =
    ("cardinality of " ++ sort ++ " is " ++ toString n).toList := by
  have htext : ("cardinality of " ++ sort ++ " is " ++ toString n).toList =
      'c' :: ("ardinality of ".toList ++ sort.toList ++ " is ".toList) ++ (toString n).toList := by
    simp
  have hblank : (" cardinality of " ++ sort ++ " is " ++ toString n).toList =
      ' ' :: ("cardinality of " ++ sort ++ " is " ++ toString n).toList := by
    simp
  have hletter : isBlank 'c' = false := rfl
  rw [hblank, htext]
  exact trim_append hletter (isWord_toString n)

/-- What a comment reports that is written in the usual way. -/
theorem commentAtom_cardinality (hsort : IsWord sort.toList) (hn : fitsUnsigned64 n = true) :
    Token.commentAtom (trim (" cardinality of " ++ sort ++ " is " ++ toString n).toList) =
      .cardinality sort n := by
  rw [trim_cardinality, Token.commentAtom, words_cardinality hsort]
  simp only [and_self, if_true, count?_toString hn, String.ofList_toList]

end Cardinality

end Text

/-! ## Items -/

namespace SExpr

/-- The sort and the count that an item reports. -/
def count? : SExpr → Option (String × Nat)
  | .atom (.cardinality sort n) => some (sort, n)
  | _ => none

/-- What the items report, in order. -/
def counts (es : List SExpr) : List (String × Nat) := es.filterMap count?

/-- The items that report nothing. -/
def uncounted (es : List SExpr) : List SExpr := es.filter fun e => e.count?.isNone

theorem counts_cons (e : SExpr) (es : List SExpr) :
    counts (e :: es) = e.count?.toList ++ counts es := by
  cases h : e.count? <;> simp [counts, h]

theorem uncounted_cons (e : SExpr) (es : List SExpr) :
    uncounted (e :: es) = if e.count?.isNone then e :: uncounted es else uncounted es := by
  rw [uncounted, List.filter_cons]
  rfl

theorem counts_append (es fs : List SExpr) : counts (es ++ fs) = counts es ++ counts fs :=
  List.filterMap_append

theorem uncounted_append (es fs : List SExpr) :
    uncounted (es ++ fs) = uncounted es ++ uncounted fs :=
  List.filter_append es fs

theorem uncounted_of_counts {es : List SExpr} (h : counts es = []) : uncounted es = es := by
  rw [uncounted, List.filter_eq_self]
  intro e he
  exact Option.isNone_iff_eq_none.mpr (List.filterMap_eq_nil_iff.mp h e he)

theorem counts_uncounted (es : List SExpr) : counts (uncounted es) = [] := by
  rw [counts, List.filterMap_eq_nil_iff]
  intro e he
  exact Option.isNone_iff_eq_none.mp (List.mem_filter.mp he).2

theorem uncounted_uncounted (es : List SExpr) : uncounted (uncounted es) = uncounted es := by
  rw [uncounted, uncounted, List.filter_filter]
  simp

theorem count?_uncommented (e : SExpr) : e.uncommented.count? = e.count? := by
  cases e <;> rfl

theorem count?_of_isComment {e : SExpr} (h : e.isComment = true) : e.count? = none := by
  obtain ⟨c, rfl⟩ := eq_comment_of_isComment h
  rfl

theorem counts_uncommentedAll (es : List SExpr) : counts (uncommentedAll es) = counts es := by
  induction es with
  | nil => rfl
  | cons e es ih =>
    rw [uncommentedAll, counts_cons]
    split
    · rename_i he
      rw [count?_of_isComment he, ih]
      rfl
    · rw [counts_cons, count?_uncommented, ih]

theorem uncounted_uncommentedAll (es : List SExpr) :
    uncounted (uncommentedAll es) = uncommentedAll (uncounted es) := by
  induction es with
  | nil => rfl
  | cons e es ih =>
    rw [uncommentedAll, uncounted_cons]
    by_cases he : e.isComment = true
    · rw [if_pos he, count?_of_isComment he, ih]
      exact (if_pos he).symm
    · rw [if_neg he, uncounted_cons, count?_uncommented, ih]
      split
      · exact (if_neg he).symm
      · rfl

end SExpr

namespace Script

namespace Reader

/-- Counts come out of reading in one way, and all else in another. -/
theorem readCommands_counts (name name' : Option String) (counts : List (String × Nat))
    (es : List SExpr) : readCommands .model name counts es =
      readCommands .model name' [] (SExpr.uncounted es) >>= fun _ =>
        pure ((SExpr.counts es).reverse.foldr insertCount counts) := by
  induction es generalizing name name' counts with
  | nil => rfl
  | cons e es ih =>
    cases e with
    | list command =>
      have hrest : readCommands .model name counts (.list command :: es) =
          readCommand .model name' command >>= fun _ => readCommands .model none counts es := by
        rw [readCommand_model name' name]
        rfl
      rw [hrest, ih none none counts, ← bind_assoc]
      rfl
    | atom a =>
      cases a with
      | comment text => exact ih (some text) (some text) counts
      | cardinality sort n =>
        -- the name of a later assertion is lost here, but there are none in a model
        refine (ih none name' (insertCount (sort, n) counts)).trans ?_
        rw [SExpr.counts_cons, List.reverse_append, List.foldr_append]
        rfl
      | symbol _ | keyword _ | numeral _ | string _ => rfl

end Reader

theorem ofCommands_counts (es : List SExpr) : ofCommands es =
    (ofCommands (SExpr.uncounted es)).map (Reader.attach (SExpr.counts es).reverse) := by
  have hself := Reader.readCommands_counts none none [] (SExpr.uncounted es)
  rw [SExpr.uncounted_uncounted, SExpr.counts_uncounted] at hself
  rw [ofCommands, ofCommands, Reader.readCommands_counts none none [] es, hself]
  have htally : ∀ reports, List.foldr Reader.insertCount [] reports = Reader.tally reports :=
    fun _ => rfl
  simp only [StateT.run_bind, StateT.run_pure, bind_assoc, pure_bind, htally, Reader.attach_tally,
    List.reverse_nil, Reader.attach_nil]
  cases (Reader.readCommands .model none [] (SExpr.uncounted es)).run empty <;> rfl

/-! ## Reports of solvers -/

/-- The count of the last report about a sort. -/
def lastCount (counts : List (String × Nat)) (sort : String) : Option Nat :=
  (counts.filter fun r => r.1 = sort).getLast?.map Prod.snd

/-- The script with each declared sort as large as the last report about it says. -/
def counted (counts : List (String × Nat)) (s : Script) : Script :=
  { s with sorts := s.sorts.map fun d =>
      { d with cardinality := (lastCount counts d.name).or d.cardinality } }

theorem lookup_reverse (counts : List (String × Nat)) (sort : String) :
    counts.reverse.lookup sort = lastCount counts sort := by
  induction counts with
  | nil => rfl
  | cons r counts ih =>
    rw [List.reverse_cons, List.lookup_append, ih, lastCount, lastCount, List.filter_cons]
    obtain ⟨name, n⟩ := r
    by_cases h : name = sort
    · subst h
      cases hlast : (counts.filter fun r => r.1 = name).getLast? <;>
        simp [List.getLast?_cons, hlast]
    · have hne : (sort == name) = false := beq_eq_false_iff_ne.mpr (Ne.symm h)
      simp [h, hne, List.lookup_cons]

theorem attach_reverse (counts : List (String × Nat)) (s : Script) :
    Reader.attach counts.reverse s = counted counts s := by
  rw [Reader.attach, counted]
  congr 2
  funext d
  rw [lookup_reverse]
  cases lastCount counts d.name <;> rfl

/-- What stands in the report of a solver: commands, and a comment on the size of a sort. -/
inductive ModelPart where
  | commands (text : String)
  | count (comment sort : String) (n : Nat)

namespace ModelPart

def text : ModelPart → String
  | .commands text => text
  | .count comment _ _ => ";" ++ comment ++ "\n"

def isCommands : ModelPart → Bool
  | .commands _ => true
  | .count _ _ _ => false

def count? : ModelPart → Option (String × Nat)
  | .commands _ => none
  | .count _ sort n => some (sort, n)

/-- Commands are whole s-expressions, of which none is a report, or have a character that
starts no token; they do not run into a symbol before them. Comments are as they say. -/
def Valid : ModelPart → Prop
  | .commands text => Token.Delimited text.toList ∧
      ((∃ items, Token.Written text.toList (SExpr.tokensAll items) ∧ SExpr.counts items = []) ∨
        ∃ c, Token.tokens text.toList = .error (.found c))
  | .count comment sort n => (∀ c ∈ comment.toList, Token.isCommentChar c = true) ∧
      Token.commentAtom (Text.trim comment.toList) = .cardinality sort n

/-- A comment that is written in the usual way. -/
theorem valid_count {sort : String} {n : Nat} (hsort : Text.IsWord sort.toList)
    (hn : Text.fitsUnsigned64 n = true) :
    Valid (.count (" cardinality of " ++ sort ++ " is " ++ toString n) sort n) := by
  refine ⟨?_, Text.commentAtom_cardinality hsort hn⟩
  simp only [String.toList_append, List.forall_mem_append]
  exact ⟨⟨⟨List.all_eq_true.mp rfl, hsort.isCommentChar⟩, List.all_eq_true.mp rfl⟩,
    (Text.isWord_toString n).isCommentChar⟩

/-- The parts one after the other. -/
def joined (parts : List ModelPart) : String := String.join (parts.map text)

theorem toList_joined_cons (p : ModelPart) (parts : List ModelPart) :
    (joined (p :: parts)).toList = p.text.toList ++ (joined parts).toList := by
  rw [joined, List.map_cons, String.join_cons, String.toList_append, joined]

theorem Valid.delimited {p : ModelPart} (h : p.Valid) : Token.Delimited p.text.toList := by
  cases p with
  | commands text => exact h.1
  | count comment sort n =>
    have htext : (text (.count comment sort n)).toList = ';' :: (comment.toList ++ ['\n']) := by
      simp [text]
    rw [htext]
    exact Token.delimited_cons _ rfl

theorem delimited_joined {parts : List ModelPart} (h : ∀ p ∈ parts, p.Valid) :
    Token.Delimited (joined parts).toList := by
  induction parts with
  | nil =>
    intro c hc
    cases hc
  | cons p parts ih =>
    rw [List.forall_mem_cons] at h
    rw [toList_joined_cons]
    intro c hc
    rw [List.head?_append, Option.mem_def, Option.or_eq_some_iff] at hc
    obtain hc | ⟨_, hc⟩ := hc
    · exact h.1.delimited c hc
    · exact ih h.2 c hc

/-- The parts with their comments and the commands alone are written with the same items
but for the reports, or fail at the same character. -/
theorem written_or_found {parts : List ModelPart} (h : ∀ p ∈ parts, p.Valid) :
    (∃ items, Token.Written (joined parts).toList (SExpr.tokensAll items) ∧
      Token.Written (joined (parts.filter isCommands)).toList
        (SExpr.tokensAll (SExpr.uncounted items)) ∧
      SExpr.counts items = parts.filterMap count?) ∨
    ∃ c, Token.tokens (joined parts).toList = .error (.found c) ∧
      Token.tokens (joined (parts.filter isCommands)).toList = .error (.found c) := by
  induction parts with
  | nil => exact .inl ⟨[], .nil, .nil, rfl⟩
  | cons p parts ih =>
    rw [List.forall_mem_cons] at h
    have hrest := delimited_joined h.2
    have hcommands : Token.Delimited (joined (parts.filter isCommands)).toList :=
      delimited_joined fun q hq => h.2 q (List.mem_filter.mp hq).1
    rw [toList_joined_cons]
    cases p with
    | commands text =>
      rw [List.filter_cons_of_pos rfl, toList_joined_cons, List.filterMap_cons_none rfl]
      obtain ⟨_, ⟨items, hitems, hnone⟩ | ⟨c, hc⟩⟩ := h.1
      · obtain ⟨items', hwritten, hwritten', hcounts⟩ | ⟨c, hc, hc'⟩ := ih h.2
        · refine .inl ⟨items ++ items', ?_, ?_, ?_⟩
          · rw [SExpr.tokensAll_append]
            exact hitems.append hwritten hrest
          · rw [SExpr.uncounted_append, SExpr.uncounted_of_counts hnone, SExpr.tokensAll_append]
            exact hitems.append hwritten' hcommands
          · rw [SExpr.counts_append, hnone, hcounts, List.nil_append]
        · -- the commands are whole, so reading goes on to the failure behind them
          refine .inr ⟨c, ?_, ?_⟩
          · exact (hitems.lexes _ hrest).trans (congrArg _ hc)
          · exact (hitems.lexes _ hcommands).trans (congrArg _ hc')
      · exact .inr ⟨c, Token.tokens_append_found hc hrest, Token.tokens_append_found hc hcommands⟩
    | count comment sort n =>
      have htext : (text (.count comment sort n)).toList ++ (joined parts).toList =
          ';' :: comment.toList ++ '\n' :: (joined parts).toList := by
        simp [text]
      rw [List.filter_cons_of_neg Bool.false_ne_true, htext]
      -- a comment is one token, which the text of the commands lacks
      obtain ⟨items, hwritten, hwritten', hcounts⟩ | ⟨c, hc, hc'⟩ := ih h.2
      · refine .inl ⟨SExpr.report (sort, n) :: items, ?_, hwritten', ?_⟩
        · have hcomment := Token.Written.comment h.1.1 hwritten
          rw [h.1.2] at hcomment
          exact hcomment
        · exact congrArg ((sort, n) :: ·) hcounts
      · exact .inr ⟨c, (Token.tokens_comment h.1.1 _).trans (congrArg _ hc), hc'⟩

end ModelPart

/-- Comments on the sizes of sorts may stand anywhere between the commands of a solver's
report. The commands are read, or refused, as if there were none, and of what is read each
declared sort has the count of the last comment about it, whether that stands before or
after its declaration; a comment about another sort has no effect. Comments of the form
`; cardinality of S is n` are of this kind. -/
theorem read_counted :
    (∀ parts : List ModelPart, (∀ p ∈ parts, p.Valid) →
      read .model ("(model " ++ ModelPart.joined parts ++ ")") =
        (read .model ("(model " ++ ModelPart.joined (parts.filter ModelPart.isCommands) ++ ")")).map
          (counted (parts.filterMap ModelPart.count?))) ∧
    ∀ (sort : String) (n : Nat), Text.IsWord sort.toList → Text.fitsUnsigned64 n = true →
      ModelPart.Valid (.count (" cardinality of " ++ sort ++ " is " ++ toString n) sort n) := by
  refine ⟨fun parts h => ?_, fun sort n hsort hn => ModelPart.valid_count hsort hn⟩
  obtain ⟨items, hwritten, hcommands, hcounts⟩ | ⟨c, hc, hc'⟩ := ModelPart.written_or_found h
  · rw [read_wrapped hwritten, read_wrapped hcommands, ofSExprs_eq, ofSExprs_eq,
      Reader.unwrap_model, Reader.unwrap_model, ofCommands_counts, SExpr.uncounted_uncommentedAll,
      SExpr.counts_uncommentedAll, hcounts, funext (attach_reverse _)]
  · rw [(read_model_found hc).2.1, (read_model_found hc').2.1]
    rfl

/-- The size of `A` is told twice, before and after its declaration, and that of `B`, which
is not declared, once. -/
def countedParts : List ModelPart :=
  [.count " cardinality of A is 9" "A" 9, .commands "(declare-sort A 0)",
    .count " cardinality of B is 1" "B" 1, .commands "(declare-sort C 0)",
    .count " cardinality of A is 3" "A" 3]

theorem read_counted_twice : (∀ p ∈ countedParts, p.Valid) ∧
    read .model ("(model " ++ ModelPart.joined countedParts ++ ")") =
      .ok { empty with sorts := [⟨"A", 0, some 3⟩, ⟨"C", 0, none⟩] } := by
  obtain ⟨hread, hcount⟩ := read_counted
  have hnameA : Text.IsWord "A".toList := Text.isWord_of_all (by decide) rfl
  have hnameB : Text.IsWord "B".toList := Text.isWord_of_all (by decide) rfl
  have hA : Token.Written "(declare-sort A 0)".toList (SExpr.tokensAll
      [.list [.symbol "declare-sort", .symbol "A", .atom (.numeral 0)]]) :=
    (written_command written_sort).parenthesized
  have hsort : Token.Written ['C', ' ', '0'] [.atom (.symbol "C"), .atom (.numeral 0)] :=
    .token rfl (by decide) rfl (.blank rfl (.token rfl (by decide) rfl .nil))
  have hC : Token.Written "(declare-sort C 0)".toList (SExpr.tokensAll
      [.list [.symbol "declare-sort", .symbol "C", .atom (.numeral 0)]]) :=
    (written_command hsort).parenthesized
  have hvalid : ∀ p ∈ countedParts, p.Valid := by
    simp only [countedParts, List.forall_mem_cons]
    refine ⟨hcount "A" 9 hnameA rfl, ⟨Token.delimited_cons _ rfl, .inl ⟨_, hA, rfl⟩⟩,
      hcount "B" 1 hnameB rfl, ⟨Token.delimited_cons _ rfl, .inl ⟨_, hC, rfl⟩⟩,
      hcount "A" 3 hnameA rfl, List.forall_mem_nil _⟩
  refine ⟨hvalid, (hread countedParts hvalid).trans ?_⟩
  have hcommands : Token.Written
      (ModelPart.joined (countedParts.filter ModelPart.isCommands)).toList (SExpr.tokensAll
        [.list [.symbol "declare-sort", .symbol "A", .atom (.numeral 0)],
          .list [.symbol "declare-sort", .symbol "C", .atom (.numeral 0)]]) :=
    hA.append hC (Token.delimited_cons _ rfl)
  rw [read_wrapped hcommands]
  rfl

end Script

end TupleLogic
