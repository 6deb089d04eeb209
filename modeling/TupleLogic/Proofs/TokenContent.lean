import Mathlib.Data.List.DropRight
import TupleLogic.Proofs.RoundTrip
import TupleLogic.Proofs.TokenGrammar

/-! What the atoms of a text hold. The reader takes names and comments over from
the text as they are, so whatever is read has names that can be written and
comments that are trimmed and report nothing. -/

namespace TupleLogic

/-! ## Texts of comments -/

namespace Text

theorem dropWhile_eq_self_of_prefix {p : Char → Bool} {cs ds : List Char} (hcs : cs <+: ds)
    (hds : ds.dropWhile p = ds) : cs.dropWhile p = cs := by
  match cs, ds, hcs with
  | [], _, _ => rfl
  | c :: cs, d :: ds, hcs =>
    obtain ⟨rfl, _⟩ := List.cons_prefix_cons.mp hcs
    by_cases hc : p c = true
    · -- a text that is led by such a character loses it
      rw [List.dropWhile_cons_of_pos hc] at hds
      have hlength := (List.dropWhile_suffix (l := ds) p).length_le
      rw [hds, List.length_cons] at hlength
      omega
    · exact List.dropWhile_cons_of_neg hc

theorem trim_trim (cs : List Char) : trim (trim cs) = trim cs := by
  have htrim : ∀ ds, trim ds = (ds.dropWhile isBlank).rdropWhile isBlank := fun _ => rfl
  have hhead : (trim cs).dropWhile isBlank = trim cs := by
    rw [htrim]
    exact dropWhile_eq_self_of_prefix (List.rdropWhile_prefix _ _) (List.dropWhile_idempotent _ _)
  rw [htrim (trim cs), hhead, htrim]
  exact List.rdropWhile_idempotent _ _

theorem mem_of_mem_trim {c : Char} {cs : List Char} (h : c ∈ trim cs) : c ∈ cs := by
  rw [trim, List.mem_reverse] at h
  have hdrop := (List.dropWhile_suffix _).mem h
  rw [List.mem_reverse] at hdrop
  exact (List.dropWhile_suffix _).mem hdrop

end Text

/-- The text of a comment that is neither padded nor a report. -/
def isPlainComment (text : String) : Bool :=
  text.toList.all Token.isCommentChar && decide (Text.trim text.toList = text.toList) &&
    !Script.reportsCardinality text

/-! ## Atoms of tokens -/

/-- An atom that can come from a text. -/
def Atom.isLexical : Atom → Bool
  | .symbol name => Symbol.writable name
  | .comment text => isPlainComment text
  | _ => true

def Token.isLexical : Token → Bool
  | .opening | .closing => true
  | .atom a => a.isLexical

namespace Token

theorem isQuotable_of_isSymbolChar {c : Char} (h : Symbol.isSymbolChar c = true) :
    Symbol.isQuotable c = true := by
  rw [Symbol.isQuotable, Bool.and_eq_true, bne_iff_ne, bne_iff_ne]
  exact ⟨ne_of_isSymbolChar h (by decide), ne_of_isSymbolChar h (by decide)⟩

theorem commentAtom_of_reports {name : String} (h : Script.reportsCardinality name = true) :
    ∃ sort count, commentAtom name.toList = .cardinality sort count := by
  unfold commentAtom
  split
  · rename_i w₁ w₂ sort w₃ n hwords
    rw [Script.reportsCardinality, hwords] at h
    obtain ⟨hform, hsome⟩ := Bool.and_eq_true_iff.mp h
    obtain ⟨count, hcount⟩ := Option.isSome_iff_exists.mp hsome
    rw [if_pos (decide_eq_true_eq.mp hform), hcount]
    exact ⟨_, count, rfl⟩
  · rename_i hwords
    unfold Script.reportsCardinality at h
    split at h
    · rename_i w₁ w₂ sort w₃ n heq
      exact absurd heq (hwords w₁ w₂ sort w₃ n)
    · cases h

theorem isLexical_commentAtom {cs : List Char} (hline : ∀ c ∈ cs, isCommentChar c = true)
    (htrim : Text.trim cs = cs) : (commentAtom cs).isLexical = true := by
  obtain ⟨name, rfl⟩ : ∃ name : String, cs = name.toList := ⟨_, String.toList_ofList.symm⟩
  cases hreport : Script.reportsCardinality name with
  | false =>
    rw [Script.commentAtom_of_not_reports hreport, Atom.isLexical, isPlainComment, hreport,
      List.all_eq_true.mpr hline, decide_eq_true htrim]
    rfl
  | true =>
    obtain ⟨sort, count, hatom⟩ := commentAtom_of_reports hreport
    rw [hatom]
    rfl

/-- A symbol that is made of characters of the right kind. -/
theorem isLexical_symbol {cs : List Char} (h : ∀ c ∈ cs, Symbol.isQuotable c = true) :
    (Token.atom (.symbol (String.ofList cs))).isLexical = true := by
  rw [isLexical, Atom.isLexical, Symbol.writable, String.toList_ofList]
  exact List.all_eq_true.mpr h

theorem isLexical_of_lexeme {c : Char} {cs rest : List Char} {t : Token}
    (h : lexeme c cs = .ok (t, rest)) : t.isLexical = true := by
  obtain ⟨form, ds, _, hleads⟩ := leads_of_lexeme h
  cases hleads.spells with
  | opening | closing | keyword | string | zero | numeral => rfl
  | comment htext =>
    refine isLexical_commentAtom (fun d hd => ?_) (Text.trim_trim _)
    exact forall_isCommentChar.mpr htext d (Text.mem_of_mem_trim hd)
  | quoted hbar hbackslash => exact isLexical_symbol (forall_isQuotable.mpr ⟨hbar, hbackslash⟩)
  | simple hc _ hname =>
    refine isLexical_symbol fun d hd => isQuotable_of_isSymbolChar ?_
    rcases List.mem_cons.mp hd with rfl | hd
    · exact hc
    · exact hname d hd

theorem isLexical_of_tokens {cs : List Char} {ts : List Token} (h : tokens cs = .ok ts) :
    ∀ t ∈ ts, t.isLexical = true := by
  fun_induction tokens cs generalizing ts with
  | case1 cs hblank =>
    cases h
    exact List.forall_mem_nil _
  | case2 cs c rest hrest stop hlexeme => cases h
  | case3 cs c rest hrest t rest' hlexeme ih =>
    obtain ⟨us, hus, hts⟩ := bind_eq_ok.mp h
    obtain rfl := pure_eq_ok.mp hts
    exact List.forall_mem_cons.mpr ⟨isLexical_of_lexeme hlexeme, ih hus⟩

theorem isLexical_of_ofText {text : String} {ts : List Token} (h : ofText text = .ok ts) :
    ∀ t ∈ ts, t.isLexical = true := by
  unfold ofText at h
  split at h
  · cases h
  · exact isLexical_of_tokens h

end Token

/-! ## Atoms of s-expressions -/

namespace SExpr

mutual
def isLexical : SExpr → Bool
  | .atom a => a.isLexical
  | .list items => isLexicalAll items

def isLexicalAll : List SExpr → Bool
  | [] => true
  | e :: es => e.isLexical && isLexicalAll es
end

theorem isLexicalAll_iff {es : List SExpr} :
    isLexicalAll es = true ↔ ∀ e ∈ es, e.isLexical = true := by
  induction es with
  | nil => simp [isLexicalAll]
  | cons e es ih => rw [isLexicalAll, Bool.and_eq_true, ih, List.forall_mem_cons]

theorem sublist_dropNestedComments (depth : Nat) (ts : List Token) :
    (dropNestedComments depth ts).Sublist ts := by
  fun_induction dropNestedComments depth ts with
  | case1 => exact .refl _
  | case2 depth ts ih => exact ih.cons_cons _
  | case3 depth ts ih => exact ih.cons_cons _
  | case4 c ts ih => exact ih.cons_cons _
  | case5 depth c ts hdepth ih => exact ih.cons _
  | case6 depth t ts _ _ _ ih => exact ih.cons_cons _

/-- Lists are closed one by one, and each then is an item of the one around it. -/
theorem isLexical_of_build {opened : List (List SExpr)} {items es : List SExpr} {ts : List Token}
    (h : build opened items ts = .ok es) (hopened : ∀ outer ∈ opened, isLexicalAll outer = true)
    (hitems : isLexicalAll items = true) (hts : ∀ t ∈ ts, t.isLexical = true) :
    isLexicalAll es = true := by
  have hreverse : ∀ {es : List SExpr}, isLexicalAll es = true → isLexicalAll es.reverse = true := by
    intro es hes
    rw [isLexicalAll_iff] at hes ⊢
    exact fun e he => hes e (List.mem_reverse.mp he)
  fun_induction build opened items ts with
  | case1 items =>
    cases h
    exact hreverse hitems
  | case2 => cases h
  | case3 opened items ts ih =>
    rw [List.forall_mem_cons] at hts
    exact ih h (List.forall_mem_cons.mpr ⟨hitems, hopened⟩) rfl hts.2
  | case4 outer opened items ts ih =>
    rw [List.forall_mem_cons] at hts hopened
    refine ih h hopened.2 ?_ hts.2
    rw [isLexicalAll, isLexical, hreverse hitems, hopened.1]
    rfl
  | case5 => cases h
  | case6 opened items a ts ih =>
    rw [List.forall_mem_cons] at hts
    refine ih h hopened ?_ hts.2
    rw [isLexicalAll, isLexical, hitems, Bool.and_true]
    exact hts.1

end SExpr

end TupleLogic
