import Mathlib.Data.List.TakeWhile
import TupleLogic.Proofs.Lexing

/-! The grammar of tokens. A text is lexed exactly if it is cut into blanks and lexemes
with each lexeme as long as it can be, and there is at most one way to do so. -/

namespace TupleLogic.Token

open Text

/-! ## Lexemes -/

/-- The forms that lexemes have. -/
inductive Form where
  | opening
  | closing
  | comment
  | keyword
  | string
  | quoted
  | numeral
  | simple
  deriving DecidableEq, Repr

/-- Whether the form says nothing of where the lexeme ends. -/
def Form.isRun : Form → Bool
  | .comment | .keyword | .numeral | .simple => true
  | .opening | .closing | .string | .quoted => false

/-- The token that a text of this form stands for. -/
inductive Spells : Form → List Char → Token → Prop
  | opening : Spells .opening ['('] .opening
  | closing : Spells .closing [')'] .closing
  | comment {text : List Char} : '\n' ∉ text →
      Spells .comment (';' :: text) (.atom (commentAtom (trim text)))
  | keyword {name : List Char} : name ≠ [] → (∀ c ∈ name, Symbol.isSymbolChar c = true) →
      Spells .keyword (':' :: name) (.atom (.keyword (String.ofList name)))
  | string {content : List Char} : '"' ∉ content →
      Spells .string ('"' :: (content ++ ['"'])) (.atom (.string (String.ofList content)))
  | quoted {name : List Char} : '|' ∉ name → '\\' ∉ name →
      Spells .quoted ('|' :: (name ++ ['|'])) (.atom (.symbol (String.ofList name)))
  | zero : Spells .numeral ['0'] (.atom (.numeral 0))
  | numeral {c : Char} {digits : List Char} : isDigit c = true → c ≠ '0' →
      (∀ d ∈ digits, isDigit d = true) →
      Spells .numeral (c :: digits) (.atom (.numeral (decimalValue (c :: digits))))
  | simple {c : Char} {name : List Char} : Symbol.isSymbolChar c = true → isDigit c = false →
      (∀ d ∈ name, Symbol.isSymbolChar d = true) →
      Spells .simple (c :: name) (.atom (.symbol (String.ofList (c :: name))))

/-- No longer text of the form stands where `cs` does, before `rest`. -/
def Longest (form : Form) (cs rest : List Char) : Prop :=
  ∀ longer t, Spells form longer t → longer <+: cs ++ rest → longer.length ≤ cs.length

structure Lexeme where
  form : Form
  chars : List Char
  token : Token
  spells : Spells form chars token
  fits : ∀ n, token = .atom (.numeral n) → fitsUnsigned64 n = true

/-- The lexeme is not cut short. -/
def Lexeme.EndsBefore (x : Lexeme) (rest : List Char) : Prop :=
  x.form.isRun = true → Longest x.form x.chars rest

/-- The text consists of lexemes, each after the blanks it is paired with, and of the
blanks `last` after all of them. -/
inductive Cut : List Char → List (List Char × Lexeme) → List Char → Prop
  | last {blanks : List Char} : (∀ c ∈ blanks, isBlank c = true) → Cut blanks [] blanks
  | lexeme {blanks rest last : List Char} {x : Lexeme} {xs : List (List Char × Lexeme)} :
      (∀ c ∈ blanks, isBlank c = true) → x.EndsBefore rest → Cut rest xs last →
      Cut (blanks ++ (x.chars ++ rest)) ((blanks, x) :: xs) last

/-! ## Where a lexeme ends -/

/-- The first character tells the form. -/
def Form.ofHead (c : Char) : Form :=
  if c = '(' then .opening
  else if c = ')' then .closing
  else if c = ';' then .comment
  else if c = ':' then .keyword
  else if c = '"' then .string
  else if c = '|' then .quoted
  else if isDigit c then .numeral
  else .simple

/-- Whether a lexeme that starts with `c` goes on with `d` after any of its characters. -/
def Form.continues (c d : Char) : Form → Bool
  | .comment => isCommentChar d
  | .keyword | .simple => Symbol.isSymbolChar d
  | .numeral => c != '0' && isDigit d
  | .opening | .closing | .string | .quoted => false

theorem Spells.form_eq {form : Form} {c : Char} {cs : List Char} {t : Token}
    (h : Spells form (c :: cs) t) : form = .ofHead c := by
  cases h with
  | opening | closing | comment | keyword | string | quoted | zero => rfl
  | numeral hc =>
    have hs := isSymbolChar_of_isDigit hc
    rw [Form.ofHead, if_neg (ne_of_isSymbolChar hs rfl), if_neg (ne_of_isSymbolChar hs rfl),
      if_neg (ne_of_isSymbolChar hs rfl), if_neg (ne_of_isSymbolChar hs rfl),
      if_neg (ne_of_isSymbolChar hs rfl), if_neg (ne_of_isSymbolChar hs rfl), if_pos hc]
  | simple hs hc =>
    rw [Form.ofHead, if_neg (ne_of_isSymbolChar hs rfl), if_neg (ne_of_isSymbolChar hs rfl),
      if_neg (ne_of_isSymbolChar hs rfl), if_neg (ne_of_isSymbolChar hs rfl),
      if_neg (ne_of_isSymbolChar hs rfl), if_neg (ne_of_isSymbolChar hs rfl),
      if_neg (by rw [hc]; exact Bool.false_ne_true)]

theorem Spells.eq_cons {form : Form} {cs : List Char} {t : Token} (h : Spells form cs t) :
    ∃ c ds, cs = c :: ds ∧ isBlank c = false := by
  cases h with
  | opening | closing | comment | keyword | string | quoted | zero => exact ⟨_, _, rfl, rfl⟩
  | numeral hc => exact ⟨_, _, rfl, isBlank_of_isSymbolChar (isSymbolChar_of_isDigit hc)⟩
  | simple hs => exact ⟨_, _, rfl, isBlank_of_isSymbolChar hs⟩

theorem forall_isCommentChar {text : List Char} :
    (∀ c ∈ text, isCommentChar c = true) ↔ '\n' ∉ text := by
  simp only [isCommentChar, bne_iff_ne]
  exact ⟨fun h hmem => h _ hmem rfl, fun h c hc heq => h (heq ▸ hc)⟩

theorem forall_isQuotable {name : List Char} :
    (∀ c ∈ name, Symbol.isQuotable c = true) ↔ '|' ∉ name ∧ '\\' ∉ name := by
  simp only [Symbol.isQuotable, Bool.and_eq_true, bne_iff_ne]
  constructor
  · exact fun h => ⟨fun hmem => (h _ hmem).1 rfl, fun hmem => (h _ hmem).2 rfl⟩
  · exact fun h c hc => ⟨fun heq => h.1 (heq ▸ hc), fun heq => h.2 (heq ▸ hc)⟩

section Runs

variable {form : Form} {c : Char} {cs rest : List Char} {t : Token}

theorem Spells.continues (h : Spells form (c :: cs) t) (hrun : form.isRun = true) :
    ∀ d ∈ cs, form.continues c d = true := by
  cases h with
  | opening | closing | string | quoted => cases hrun
  | comment htext => exact forall_isCommentChar.mpr htext
  | keyword _ hname => exact hname
  | zero => exact List.forall_mem_nil _
  | numeral _ hzero hdigits =>
    intro d hd
    rw [Form.continues, bne_iff_ne.mpr hzero, hdigits d hd]
    rfl
  | simple _ _ hname => exact hname

theorem Spells.extend {d : Char} (h : Spells form (c :: cs) t)
    (hd : form.continues c d = true) : ∃ u, Spells form (c :: (cs ++ [d])) u := by
  have hall : ∀ {p : Char → Bool}, (∀ e ∈ cs, p e = true) → p d = true →
      ∀ e ∈ cs ++ [d], p e = true := fun hcs hd =>
    List.forall_mem_append.mpr ⟨hcs, List.forall_mem_singleton.mpr hd⟩
  cases h with
  | opening | closing | string | quoted | zero => cases hd
  | comment htext =>
    exact ⟨_, .comment (forall_isCommentChar.mp (hall (forall_isCommentChar.mpr htext) hd))⟩
  | keyword _ hname => exact ⟨_, .keyword (by simp) (hall hname hd)⟩
  | numeral hc hzero hdigits =>
    exact ⟨_, .numeral hc hzero (hall hdigits (Bool.and_eq_true_iff.mp hd).2)⟩
  | simple hc hdigit hname => exact ⟨_, .simple hc hdigit (hall hname hd)⟩

/-- A run is the longest one if the next character does not continue it. -/
theorem Spells.longest_iff (h : Spells form (c :: cs) t) (hrun : form.isRun = true) :
    Longest form (c :: cs) rest ↔ ∀ d ∈ rest.head?, form.continues c d = false := by
  constructor
  · intro hlongest d hd
    rw [Bool.eq_false_iff]
    intro hcontinues
    obtain ⟨u, hu⟩ := h.extend hcontinues
    obtain ⟨rest, rfl⟩ := List.head?_eq_some_iff.mp hd
    have hle := hlongest _ u hu ⟨rest, by simp⟩
    simp at hle
  · intro hstop longer u hu hprefix
    by_contra hlong
    obtain ⟨c', ds, rfl, _⟩ := hu.eq_cons
    obtain ⟨rfl, hds⟩ := List.cons_prefix_cons.mp hprefix
    -- a longer run holds the character after this one
    obtain ⟨es, rfl⟩ := List.prefix_of_prefix_length_le (List.prefix_append cs rest) hds
      (by simp at hlong; omega)
    cases es with
    | nil => simp at hlong
    | cons d es =>
      have hmem := hu.continues hrun d (by simp)
      obtain ⟨_, rfl⟩ := (List.prefix_append_right_inj cs).mp hds
      rw [hstop d rfl] at hmem
      cases hmem

end Runs

theorem Lexeme.endsBefore_iff {x : Lexeme} {c : Char} {cs rest : List Char}
    (hx : x.chars = c :: cs) :
    x.EndsBefore rest ↔ ∀ d ∈ rest.head?, x.form.continues c d = false := by
  have hspells := x.spells
  rw [hx] at hspells
  unfold EndsBefore
  rw [hx]
  by_cases hrun : x.form.isRun = true
  · rw [← hspells.longest_iff hrun]
    exact ⟨fun h => h hrun, fun h _ => h⟩
  · refine iff_of_true (fun h => absurd h hrun) fun d _ => ?_
    cases hform : x.form with
    | opening | closing | string | quoted => rfl
    | comment | keyword | numeral | simple =>
      rw [hform] at hrun
      exact absurd rfl hrun

/-! ## One lexeme -/

/-- A text that starts with `c :: cs` starts with this lexeme, and `rest` comes after. -/
structure Leads (form : Form) (c : Char) (cs rest : List Char) (t : Token) : Prop where
  spells : Spells form (c :: cs) t
  ends : ∀ d ∈ rest.head?, form.continues c d = false
  fits : ∀ n, t = .atom (.numeral n) → fitsUnsigned64 n = true

/-- A run of characters that the next one does not continue. -/
theorem span_eq {p : Char → Bool} {cs rest : List Char} (hcs : ∀ c ∈ cs, p c = true)
    (hrest : ∀ d ∈ rest.head?, p d = false) :
    (cs ++ rest).takeWhile p = cs ∧ (cs ++ rest).dropWhile p = rest := by
  rw [List.takeWhile_append_of_pos hcs, List.dropWhile_append_of_pos hcs]
  cases rest with
  | nil => simp
  | cons d rest =>
    have hd : ¬ p d = true := Bool.eq_false_iff.mp (hrest d rfl)
    rw [List.takeWhile_cons_of_neg hd, List.dropWhile_cons_of_neg hd, List.append_nil]
    exact ⟨rfl, rfl⟩

theorem ends_cons {p : Char → Bool} {c : Char} (cs : List Char) (h : p c = false) :
    ∀ d ∈ (c :: cs).head?, p d = false := by
  intro d hd
  cases hd
  exact h

section Lexemes

variable {form : Form} {c : Char} {cs rest : List Char} {t : Token}

/-- What stands at the front of a text is found there. -/
theorem Leads.lexeme (h : Leads form c cs rest t) : lexeme c (cs ++ rest) = .ok (t, rest) := by
  obtain ⟨hspells, hends, hfits⟩ := h
  cases hspells with
  | opening => rfl
  | closing => rfl
  | comment htext =>
    obtain ⟨htake, hdrop⟩ := span_eq (forall_isCommentChar.mpr htext) hends
    rw [Token.lexeme, if_neg (by decide), if_neg (by decide), if_pos rfl, htake, hdrop]
  | keyword hne hname =>
    obtain ⟨htake, hdrop⟩ := span_eq hname hends
    obtain ⟨d, ds, rfl⟩ := List.exists_cons_of_ne_nil hne
    rw [Token.lexeme, if_neg (by decide), if_neg (by decide), if_neg (by decide), if_pos rfl,
      htake, hdrop]
  | @string content hcontent =>
    have hall : ∀ d ∈ content, isStringChar d = true := fun d hd =>
      bne_iff_ne.mpr fun heq => hcontent (heq ▸ hd)
    obtain ⟨htake, hdrop⟩ := span_eq hall (ends_cons (c := '"') rest rfl)
    rw [List.append_assoc, List.singleton_append, Token.lexeme, if_neg (by decide),
      if_neg (by decide), if_neg (by decide), if_neg (by decide), if_pos rfl, htake, hdrop]
  | quoted hbar hbackslash =>
    have hall := forall_isQuotable.mpr ⟨hbar, hbackslash⟩
    obtain ⟨htake, hdrop⟩ := span_eq hall (ends_cons (c := '|') rest rfl)
    rw [List.append_assoc, List.singleton_append, Token.lexeme, if_neg (by decide),
      if_neg (by decide), if_neg (by decide), if_neg (by decide), if_neg (by decide), if_pos rfl,
      htake, hdrop]
    rfl
  | zero => rfl
  | numeral hc hzero hdigits =>
    have htail : numeralTail c (cs ++ rest) = cs := by
      rw [numeralTail, if_neg hzero]
      refine (span_eq hdigits fun d hd => ?_).1
      have hd := hends d hd
      rwa [Form.continues, bne_iff_ne.mpr hzero, Bool.true_and] at hd
    rw [lexeme_digit _ hc, htail, if_pos (hfits _ rfl), List.drop_left]
  | simple hc hdigit hname =>
    obtain ⟨htake, hdrop⟩ := span_eq hname hends
    rw [lexeme_symbol _ hc hdigit, htake, hdrop]

end Lexemes

/-- A run of characters does end before the next one. -/
theorem head?_dropWhile (p : Char → Bool) (cs : List Char) :
    ∀ d ∈ (cs.dropWhile p).head?, p d = false := by
  intro d hd
  have hhead := List.head?_dropWhile_not p cs
  rw [Option.mem_def.mp hd] at hhead
  exact hhead

theorem not_mem_takeWhile {p : Char → Bool} {e : Char} (he : p e = false) (cs : List Char) :
    e ∉ cs.takeWhile p := by
  intro hmem
  have hp := List.mem_takeWhile_imp hmem
  rw [he] at hp
  cases hp

theorem commentAtom_ne_numeral (text : List Char) (n : Nat) : commentAtom text ≠ .numeral n := by
  unfold commentAtom
  split
  · split
    · split <;> exact fun heq => by cases heq
    · exact fun heq => by cases heq
  · exact fun heq => by cases heq

section Found

variable {cs rest : List Char}

theorem leads_comment (cs : List Char) : Leads .comment ';' (cs.takeWhile isCommentChar)
    (cs.dropWhile isCommentChar) (.atom (commentAtom (trim (cs.takeWhile isCommentChar)))) where
  spells := .comment (not_mem_takeWhile rfl cs)
  ends := head?_dropWhile isCommentChar cs
  fits := fun n heq => absurd (Token.atom.inj heq) (commentAtom_ne_numeral _ n)

theorem leads_keyword (hne : cs.takeWhile Symbol.isSymbolChar ≠ []) :
    Leads .keyword ':' (cs.takeWhile Symbol.isSymbolChar) (cs.dropWhile Symbol.isSymbolChar)
      (.atom (.keyword (String.ofList (cs.takeWhile Symbol.isSymbolChar)))) where
  spells := .keyword hne fun _ => List.mem_takeWhile_imp
  ends := head?_dropWhile Symbol.isSymbolChar cs
  fits := fun _ heq => by cases heq

theorem leads_string (cs rest : List Char) :
    Leads .string '"' (cs.takeWhile isStringChar ++ ['"']) rest
      (.atom (.string (String.ofList (cs.takeWhile isStringChar)))) where
  spells := .string (not_mem_takeWhile rfl cs)
  ends := fun _ _ => rfl
  fits := fun _ heq => by cases heq

theorem leads_quoted (cs rest : List Char) :
    Leads .quoted '|' (cs.takeWhile Symbol.isQuotable ++ ['|']) rest
      (.atom (.symbol (String.ofList (cs.takeWhile Symbol.isQuotable)))) where
  spells := .quoted (not_mem_takeWhile rfl cs) (not_mem_takeWhile rfl cs)
  ends := fun _ _ => rfl
  fits := fun _ heq => by cases heq

theorem isPrefix_numeralTail (c : Char) (cs : List Char) : numeralTail c cs <+: cs := by
  unfold numeralTail
  split
  · exact List.nil_prefix
  · exact List.takeWhile_prefix isDigit

/-- The digits of a numeral are all that there are, unless it is zero. -/
theorem numeralTail_ends (c : Char) (cs : List Char) :
    ∀ d ∈ (cs.drop (numeralTail c cs).length).head?, Form.numeral.continues c d = false := by
  unfold numeralTail
  split
  · rename_i hzero
    subst hzero
    exact fun _ _ => rfl
  · have hsplit := List.prefix_iff_eq_append.mp (List.takeWhile_prefix (l := cs) isDigit)
    have hdrop : cs.drop (cs.takeWhile isDigit).length = cs.dropWhile isDigit :=
      List.append_cancel_left (hsplit.trans List.takeWhile_append_dropWhile.symm)
    intro d hd
    rw [hdrop] at hd
    rw [Form.continues, head?_dropWhile isDigit cs d hd, Bool.and_false]

theorem leads_numeral {c : Char} (hc : isDigit c = true)
    (hfits : fitsUnsigned64 (decimalValue (c :: numeralTail c cs)) = true) :
    Leads .numeral c (numeralTail c cs) (cs.drop (numeralTail c cs).length)
      (.atom (.numeral (decimalValue (c :: numeralTail c cs)))) where
  spells := by
    unfold numeralTail
    split
    · rename_i hzero
      subst hzero
      exact .zero
    · rename_i hzero
      exact .numeral hc hzero fun _ => List.mem_takeWhile_imp
  ends := numeralTail_ends c cs
  fits := fun n heq => by
    cases heq
    exact hfits

theorem leads_simple {c : Char} (hc : Symbol.isSymbolChar c = true) (hdigit : isDigit c = false) :
    Leads .simple c (cs.takeWhile Symbol.isSymbolChar) (cs.dropWhile Symbol.isSymbolChar)
      (.atom (.symbol (String.ofList (c :: cs.takeWhile Symbol.isSymbolChar)))) where
  spells := .simple hc hdigit fun _ => List.mem_takeWhile_imp
  ends := head?_dropWhile Symbol.isSymbolChar cs
  fits := fun _ heq => by cases heq

/-- What is found at the front of a text stands there. -/
theorem leads_of_lexeme {c : Char} {t : Token} (h : lexeme c cs = .ok (t, rest)) :
    ∃ form ds, cs = ds ++ rest ∧ Leads form c ds rest t := by
  have hspan (p : Char → Bool) : cs = cs.takeWhile p ++ cs.dropWhile p :=
    List.takeWhile_append_dropWhile.symm
  have hquote {p : Char → Bool} {d : Char} {ds : List Char} (hend : cs.dropWhile p = d :: ds) :
      cs = (cs.takeWhile p ++ [d]) ++ ds := by
    rw [List.append_assoc, List.singleton_append, ← hend]
    exact hspan p
  -- one case for each form, in the order in which the first character is looked at
  unfold lexeme at h
  by_cases hopening : c = '('
  · rw [if_pos hopening] at h
    cases h
    subst c
    exact ⟨_, [], rfl, .opening, fun _ _ => rfl, fun _ heq => by cases heq⟩
  rw [if_neg hopening] at h
  by_cases hclosing : c = ')'
  · rw [if_pos hclosing] at h
    cases h
    subst c
    exact ⟨_, [], rfl, .closing, fun _ _ => rfl, fun _ heq => by cases heq⟩
  rw [if_neg hclosing] at h
  by_cases hcomment : c = ';'
  · rw [if_pos hcomment] at h
    cases h
    subst c
    exact ⟨_, _, hspan isCommentChar, leads_comment cs⟩
  rw [if_neg hcomment] at h
  by_cases hkeyword : c = ':'
  · rw [if_pos hkeyword] at h
    subst c
    split at h
    · cases h
    · rename_i hne
      cases h
      exact ⟨_, _, hspan Symbol.isSymbolChar, leads_keyword hne⟩
  rw [if_neg hkeyword] at h
  by_cases hstring : c = '"'
  · rw [if_pos hstring] at h
    subst c
    split at h
    · cases h
    · rename_i d rest hend
      cases h
      have hd := head?_dropWhile isStringChar cs d (by rw [hend]; rfl)
      obtain rfl : d = '"' := by simpa [isStringChar] using hd
      exact ⟨_, _, hquote hend, leads_string cs rest⟩
  rw [if_neg hstring] at h
  by_cases hquoted : c = '|'
  · rw [if_pos hquoted] at h
    subst c
    split at h
    · rename_i rest hend
      cases h
      exact ⟨_, _, hquote hend, leads_quoted cs rest⟩
    · cases h
  rw [if_neg hquoted] at h
  by_cases hdigit : isDigit c = true
  · rw [if_pos hdigit] at h
    simp only at h
    split at h
    · rename_i hfits
      cases h
      exact ⟨_, _, (List.prefix_iff_eq_append.mp (isPrefix_numeralTail c cs)).symm,
        leads_numeral hdigit hfits⟩
    · cases h
  rw [if_neg hdigit] at h
  by_cases hsymbol : Symbol.isSymbolChar c = true
  · rw [if_pos hsymbol] at h
    cases h
    exact ⟨_, _, hspan Symbol.isSymbolChar, leads_simple hsymbol (Bool.eq_false_iff.mpr hdigit)⟩
  · rw [if_neg hsymbol] at h
    cases h

end Found

theorem Lexeme.leads {x : Lexeme} {c : Char} {cs rest : List Char} (hx : x.chars = c :: cs)
    (hends : x.EndsBefore rest) : Leads x.form c cs rest x.token :=
  ⟨hx ▸ x.spells, (endsBefore_iff hx).mp hends, x.fits⟩

theorem Leads.exists_lexeme {form : Form} {c : Char} {cs rest : List Char} {t : Token}
    (h : Leads form c cs rest t) :
    ∃ x : Lexeme, x.chars = c :: cs ∧ x.token = t ∧ x.EndsBefore rest :=
  ⟨⟨form, c :: cs, t, h.spells, h.fits⟩, rfl, rfl, (Lexeme.endsBefore_iff rfl).mpr h.ends⟩

/-! ## Places between lexemes -/

/-- Nothing comes before, or an opening parenthesis or a blank does. -/
def OpenBefore (before : List Char) : Prop :=
  ∀ c ∈ before.getLast?, c = '(' ∨ isBlank c = true

/-- Nothing comes after, or a closing parenthesis or a blank does. -/
def ClosedAfter (after : List Char) : Prop := ∀ c ∈ after.head?, c = ')' ∨ isBlank c = true

theorem isSymbolChar_of_isBlank {c : Char} (h : isBlank c = true) :
    Symbol.isSymbolChar c = false :=
  delimited_blank [] h c rfl

theorem ClosedAfter.delimited {after : List Char} (h : ClosedAfter after) : Delimited after := by
  intro c hc
  rcases h c hc with rfl | hblank
  · rfl
  · exact isSymbolChar_of_isBlank hblank

theorem OpenBefore.of_append (cs : List Char) {rest : List Char} (h : OpenBefore (cs ++ rest)) :
    OpenBefore rest := by
  intro c hc
  refine h c ?_
  rw [List.getLast?_append, Option.mem_def.mp hc]
  rfl

section Places

variable {form : Form} {c d : Char} {cs rest more : List Char} {t : Token}

/-- Only comments go on with a character of no symbol. -/
theorem Spells.continues_of_delimited (h : Spells form (c :: cs) t) (hc : c ≠ ';')
    (hd : Symbol.isSymbolChar d = false) : form.continues c d = false := by
  cases h with
  | opening | closing | string | quoted | zero => rfl
  | comment => exact absurd rfl hc
  | keyword | simple => exact hd
  | numeral =>
    have hdigit : isDigit d = false := Bool.eq_false_iff.mpr fun hdigit =>
      Bool.eq_false_iff.mp hd (isSymbolChar_of_isDigit hdigit)
    rw [Form.continues, hdigit, Bool.and_false]

/-- Apart from comments, a lexeme whose last character is a blank or an opening
parenthesis does not go on. -/
theorem Spells.continues_of_openBefore (h : Spells form (c :: cs) t) (hc : c ≠ ';')
    (hcs : OpenBefore (c :: cs)) : form.continues c d = false := by
  have hlast : ¬ Symbol.isSymbolChar ((c :: cs).getLast (List.cons_ne_nil c cs)) = true := by
    rw [Bool.not_eq_true]
    rcases hcs _ (List.getLast?_eq_some_getLast (List.cons_ne_nil c cs)) with heq | hblank
    · rw [heq]
      rfl
    · exact isSymbolChar_of_isBlank hblank
  have hmem := List.getLast_mem (List.cons_ne_nil c cs)
  cases h with
  | opening | closing | string | quoted | zero => rfl
  | comment => exact absurd rfl hc
  | keyword hne hname =>
    rw [List.getLast_cons hne] at hlast
    exact absurd (hname _ (List.getLast_mem hne)) hlast
  | numeral hdigit _ hdigits =>
    have hall : ∀ e ∈ c :: cs, isDigit e = true := List.forall_mem_cons.mpr ⟨hdigit, hdigits⟩
    exact absurd (isSymbolChar_of_isDigit (hall _ hmem)) hlast
  | simple hs _ hname =>
    have hall : ∀ e ∈ c :: cs, Symbol.isSymbolChar e = true :=
      List.forall_mem_cons.mpr ⟨hs, hname⟩
    exact absurd (hall _ hmem) hlast

/-- A lexeme is the same before more text, if this or the lexeme is set off. -/
theorem Leads.append (h : Leads form c cs rest t) (hc : c ≠ ';')
    (hplace : OpenBefore (c :: (cs ++ rest)) ∨ Delimited more) :
    Leads form c cs (rest ++ more) t := by
  refine ⟨h.spells, ?_, h.fits⟩
  cases rest with
  | cons d rest => exact h.ends
  | nil =>
    intro d hd
    rw [List.append_nil] at hplace
    rcases hplace with hopen | hmore
    · exact h.spells.continues_of_openBefore hc hopen
    · exact h.spells.continues_of_delimited hc (hmore d hd)

/-- A lexeme is the same if the text is cut anywhere after it. -/
theorem Leads.cut (h : Leads form c cs (rest ++ more) t) : Leads form c cs rest t := by
  refine ⟨h.spells, fun d hd => h.ends d ?_, h.fits⟩
  obtain ⟨rest, rfl⟩ := List.head?_eq_some_iff.mp hd
  rfl

end Places

/-! ## Whole texts -/

theorem tokens_append_blanks {blanks : List Char} (h : ∀ c ∈ blanks, isBlank c = true)
    (cs : List Char) : tokens (blanks ++ cs) = tokens cs := by
  rw [tokens_eq (blanks ++ cs), tokens_eq cs, List.dropWhile_append_of_pos h]

theorem Cut.tokens {cs last : List Char} {xs : List (List Char × Lexeme)} (h : Cut cs xs last) :
    tokens cs = .ok (xs.map (·.2.token)) := by
  induction h with
  | @last blanks hblanks =>
    have htokens := tokens_append_blanks hblanks []
    rwa [List.append_nil, tokens_nil] at htokens
  | @lexeme blanks rest last x xs hblanks hends _ ih =>
    obtain ⟨c, cs, hx, hc⟩ := x.spells.eq_cons
    have hlexeme := (Lexeme.leads hx hends).lexeme
    rw [tokens_append_blanks hblanks, hx, List.cons_append, tokens_lexeme hc hlexeme, ih]
    rfl

theorem exists_cut_of_tokens {cs : List Char} {ts : List Token} (h : Token.tokens cs = .ok ts) :
    ∃ xs last, Cut cs xs last ∧ xs.map (·.2.token) = ts := by
  fun_induction Token.tokens cs generalizing ts with
  | case1 cs hblank =>
    cases h
    exact ⟨[], cs, .last (List.dropWhile_eq_nil_iff.mp hblank), rfl⟩
  | case2 cs c rest hrest stop hlexeme => cases h
  | case3 cs c rest hrest t rest' hlexeme ih =>
    cases htokens : Token.tokens rest' with
    | error stop =>
      rw [htokens] at h
      cases h
    | ok us =>
      rw [htokens] at h
      cases h
      obtain ⟨xs, last, hcut, rfl⟩ := ih htokens
      obtain ⟨form, ds, rfl, hleads⟩ := leads_of_lexeme hlexeme
      obtain ⟨x, hx, rfl, hends⟩ := hleads.exists_lexeme
      have htext : cs = cs.takeWhile isBlank ++ (x.chars ++ rest') := by
        rw [hx, List.cons_append, ← hrest, List.takeWhile_append_dropWhile]
      rw [htext]
      exact ⟨_, last, .lexeme (fun _ => List.mem_takeWhile_imp) hends hcut, rfl⟩

/-- Where the blanks in front of a lexeme end. -/
theorem span_lexeme {blanks : List Char} (h : ∀ c ∈ blanks, isBlank c = true) (x : Lexeme)
    (rest : List Char) : (blanks ++ (x.chars ++ rest)).takeWhile isBlank = blanks ∧
      (blanks ++ (x.chars ++ rest)).dropWhile isBlank = x.chars ++ rest := by
  obtain ⟨c, cs, hx, hc⟩ := x.spells.eq_cons
  rw [hx]
  exact span_eq h (ends_cons (cs ++ rest) hc)

/-- At the front of a text there is one lexeme at most. -/
theorem Lexeme.unique {x y : Lexeme} {rest rest' : List Char} (hx : x.EndsBefore rest)
    (hy : y.EndsBefore rest') (heq : x.chars ++ rest = y.chars ++ rest') :
    x = y ∧ rest = rest' := by
  obtain ⟨c, cs, hxs, _⟩ := x.spells.eq_cons
  obtain ⟨d, ds, hys, _⟩ := y.spells.eq_cons
  -- both are what `lexeme` finds
  have hxl := (Lexeme.leads hxs hx).lexeme
  have hyl := (Lexeme.leads hys hy).lexeme
  rw [hxs, hys, List.cons_append, List.cons_append, List.cons.injEq] at heq
  obtain ⟨rfl, htail⟩ := heq
  rw [htail, hyl, Except.ok.injEq, Prod.mk.injEq] at hxl
  obtain ⟨htoken, rfl⟩ := hxl
  have hchars : x.chars = y.chars := by rw [hxs, hys, List.append_cancel_right htail]
  have hform : x.form = y.form := by
    have hxf := x.spells
    have hyf := y.spells
    rw [hxs] at hxf
    rw [hys] at hyf
    exact hxf.form_eq.trans hyf.form_eq.symm
  cases x
  cases y
  cases hchars
  cases hform
  cases htoken
  exact ⟨rfl, rfl⟩

/-- A cut follows the blanks at the front of the text. -/
theorem Cut.inversion {cs last : List Char} {xs : List (List Char × Lexeme)} (h : Cut cs xs last) :
    (xs = [] ∧ last = cs ∧ cs.dropWhile isBlank = []) ∨
    ∃ x rest ys, xs = (cs.takeWhile isBlank, x) :: ys ∧ cs.dropWhile isBlank = x.chars ++ rest ∧
      x.EndsBefore rest ∧ Cut rest ys last := by
  cases h with
  | last hblanks => exact .inl ⟨rfl, rfl, List.dropWhile_eq_nil_iff.mpr hblanks⟩
  | @lexeme blanks rest _ x ys hblanks hends hcut =>
    obtain ⟨htake, hdrop⟩ := span_lexeme hblanks x rest
    exact .inr ⟨x, rest, ys, by rw [htake], hdrop, hends, hcut⟩

theorem Cut.unique {cs last last' : List Char} {xs ys : List (List Char × Lexeme)}
    (h : Cut cs xs last) (h' : Cut cs ys last') : xs = ys ∧ last = last' := by
  induction h generalizing ys last' with
  | @last blanks hblanks =>
    have hdrop := List.dropWhile_eq_nil_iff.mpr hblanks
    rcases h'.inversion with ⟨rfl, rfl, _⟩ | ⟨y, rest', _, _, hdrop', _⟩
    · exact ⟨rfl, rfl⟩
    · obtain ⟨c, cs, hy, _⟩ := y.spells.eq_cons
      rw [hdrop, hy] at hdrop'
      cases hdrop'
  | @lexeme blanks rest last x xs hblanks hends _ ih =>
    obtain ⟨htake, hdrop⟩ := span_lexeme hblanks x rest
    rcases h'.inversion with ⟨_, _, hdrop'⟩ | ⟨y, rest', ys, rfl, hdrop', hends', hcut'⟩
    · obtain ⟨c, cs, hx, _⟩ := x.spells.eq_cons
      rw [hdrop, hx] at hdrop'
      cases hdrop'
    · obtain ⟨rfl, rfl⟩ := Lexeme.unique hends hends' (hdrop.symm.trans hdrop')
      obtain ⟨rfl, rfl⟩ := ih hcut'
      exact ⟨by rw [htake], rfl⟩

theorem tokens_eq_nil_iff {cs : List Char} :
    Token.tokens cs = .ok [] ↔ cs.all isBlank = true := by
  rw [List.all_eq_true]
  constructor
  · intro h
    obtain ⟨xs, last, hcut, hxs⟩ := exists_cut_of_tokens h
    cases List.map_eq_nil_iff.mp hxs
    cases hcut with
    | last hblanks => exact hblanks
  · intro h
    exact Cut.tokens (.last h)

/-- Blanks alone are no text, although they are cut into no lexemes. -/
theorem ofText_eq_ok_iff {text : String} {ts : List Token} :
    ofText text = .ok ts ↔ Token.tokens text.toList = .ok ts ∧ (ts = [] → text = "") := by
  unfold ofText
  split
  · rename_i hblank
    obtain ⟨hsome, hblank⟩ := Bool.and_eq_true_iff.mp hblank
    refine iff_of_false (fun heq => by cases heq) ?_
    rintro ⟨htokens, hempty⟩
    rw [tokens_eq_nil_iff.mpr hblank] at htokens
    cases htokens
    rw [hempty rfl] at hsome
    cases hsome
  · rename_i hblank
    refine (and_iff_left_of_imp ?_).symm
    rintro htokens rfl
    rw [tokens_eq_nil_iff.mp htokens, Bool.and_true, Bool.not_eq_true, Bool.not_eq_false',
      List.isEmpty_iff] at hblank
    exact String.toList_eq_nil_iff.mp hblank

theorem ofText_eq_tokens_of_ne {text : String} (h : Token.tokens text.toList ≠ .ok []) :
    ofText text = Token.tokens text.toList := by
  rw [ofText, if_neg]
  intro hblank
  exact h (tokens_eq_nil_iff.mpr (Bool.and_eq_true_iff.mp hblank).2)

/-- A text is lexed as the tokens of its lexemes if it is cut into blanks and lexemes
that are as long as they can be, except for a text of blanks alone, which is refused.
There is one way to cut a text at most. -/
theorem ofText_eq_ok_iff_cut (text : String) :
    (∀ ts, ofText text = .ok ts ↔ (∃ xs last, Cut text.toList xs last ∧
      xs.map (·.2.token) = ts) ∧ (ts = [] → text = "")) ∧
    ∀ xs last ys last', Cut text.toList xs last → Cut text.toList ys last' →
      xs = ys ∧ last = last' := by
  refine ⟨fun ts => ?_, fun xs last ys last' => Cut.unique⟩
  rw [ofText_eq_ok_iff]
  refine and_congr_left fun _ => ⟨exists_cut_of_tokens, ?_⟩
  rintro ⟨xs, last, hcut, rfl⟩
  exact hcut.tokens

def zeroLexeme : Lexeme where
  form := .numeral
  chars := ['0']
  token := .atom (.numeral 0)
  spells := .zero
  fits := fun n heq => by
    cases heq
    rfl

def sevenLexeme : Lexeme where
  form := .numeral
  chars := ['7']
  token := .atom (.numeral 7)
  spells := .numeral rfl (by decide) (List.forall_mem_nil _)
  fits := fun n heq => by
    cases heq
    rfl

def letterLexeme : Lexeme where
  form := .simple
  chars := ['a']
  token := .atom (.symbol "a")
  spells := .simple rfl rfl (List.forall_mem_nil _)
  fits := fun _ heq => by cases heq

theorem cut_adjacent :
    Cut "07a ".toList [([], zeroLexeme), ([], sevenLexeme), ([], letterLexeme)] [' '] := by
  have hzero : zeroLexeme.EndsBefore ['7', 'a', ' '] :=
    (Lexeme.endsBefore_iff rfl).mpr fun _ _ => rfl
  have hseven : sevenLexeme.EndsBefore ['a', ' '] :=
    (Lexeme.endsBefore_iff rfl).mpr (ends_cons _ rfl)
  have hletter : letterLexeme.EndsBefore [' '] :=
    (Lexeme.endsBefore_iff rfl).mpr (ends_cons _ rfl)
  have hblank : ∀ c ∈ [' '], isBlank c = true := List.forall_mem_singleton.mpr rfl
  have hnone := List.forall_mem_nil (isBlank · = true)
  exact .lexeme hnone hzero (.lexeme hnone hseven (.lexeme hnone hletter (.last hblank)))

/-- Three lexemes with nothing between them, since no digit goes on after a zero and no
letter after a digit. -/
theorem ofText_eq_ok_iff_cut_adjacent :
    ofText "07a " = .ok [.atom (.numeral 0), .atom (.numeral 7), .atom (.symbol "a")] ∧
    ∀ ys last, Cut "07a ".toList ys last →
      [([], zeroLexeme), ([], sevenLexeme), ([], letterLexeme)] = ys ∧ [' '] = last := by
  obtain ⟨htokens, hunique⟩ := ofText_eq_ok_iff_cut "07a "
  refine ⟨(htokens _).mpr ⟨⟨_, _, cut_adjacent, rfl⟩, fun heq => by cases heq⟩, ?_⟩
  exact fun ys last => hunique _ _ ys last cut_adjacent

end TupleLogic.Token
