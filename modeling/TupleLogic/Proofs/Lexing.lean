import Mathlib.Tactic.IntervalCases
import TupleLogic.SExpr.Token

/-! Texts that are read as certain tokens, whatever comes after them. Only a
character that would lengthen a symbol or a numeral matters for what is read
before it, so texts can be put next to each other wherever a blank or a
parenthesis stands between their tokens. -/

namespace TupleLogic.Token

open Text

/-! ## Classes of characters -/

theorem toNat_of_isSymbolChar {c : Char} (h : Symbol.isSymbolChar c = true) :
    33 ≤ c.toNat ∧ c.toNat ≤ 126 := by
  have hrange : ∀ {a b : Char}, a ≤ c ∧ c ≤ b → a.toNat ≤ c.toNat ∧ c.toNat ≤ b.toNat := id
  simp only [Symbol.isSymbolChar, Bool.or_eq_true, Bool.and_eq_true, decide_eq_true_eq,
    List.contains_eq_mem, List.mem_cons, List.not_mem_nil, or_false] at h
  rcases h with ((h | h) | h) | h
  · have := hrange h
    simp only [Char.reduceToNat] at this
    omega
  · have := hrange h
    simp only [Char.reduceToNat] at this
    omega
  · have := hrange h
    simp only [Char.reduceToNat] at this
    omega
  · rcases h with rfl | rfl | rfl | rfl | rfl | rfl | rfl | rfl | rfl | rfl | rfl | rfl | rfl |
      rfl | rfl | rfl | rfl <;> decide

theorem isBlank_of_isSymbolChar {c : Char} (h : Symbol.isSymbolChar c = true) :
    isBlank c = false := by
  have hc := toNat_of_isSymbolChar h
  rw [Bool.eq_false_iff]
  intro hb
  simp only [isBlank, inRanges, blankRanges, List.any_cons, List.any_nil, Bool.or_eq_true,
    Bool.and_eq_true, decide_eq_true_eq, Bool.false_eq_true, or_false] at hb
  omega

theorem ne_of_isSymbolChar {c d : Char} (hc : Symbol.isSymbolChar c = true)
    (hd : Symbol.isSymbolChar d = false) : c ≠ d := by
  rintro rfl
  rw [hc] at hd
  cases hd

theorem isSymbolChar_of_isDigit {c : Char} (h : isDigit c = true) :
    Symbol.isSymbolChar c = true := by
  unfold isDigit at h
  simp only [Symbol.isSymbolChar, h, Bool.true_or]

/-! ## Tokens one by one -/

theorem tokens_eq (cs : List Char) : tokens cs =
    match cs.dropWhile isBlank with
    | [] => .ok []
    | c :: rest =>
      match lexeme c rest with
      | .error stop => .error stop
      | .ok (t, rest') => (tokens rest').map (t :: ·) := by
  rw [tokens]
  split
  · rename_i h
    simp only [h]
  · rename_i c rest h
    simp only [h]
    split
    · rename_i h'
      rw [h']
    · rename_i h'
      rw [h']
      rfl

theorem tokens_nil : tokens [] = .ok [] := by
  rw [tokens_eq]
  rfl

theorem tokens_blank {c : Char} (cs : List Char) (h : isBlank c = true) :
    tokens (c :: cs) = tokens cs := by
  rw [tokens_eq (c :: cs), tokens_eq cs, List.dropWhile_cons_of_pos h]

theorem tokens_lexeme {c : Char} {cs rest : List Char} {t : Token} (hc : isBlank c = false)
    (h : lexeme c cs = .ok (t, rest)) : tokens (c :: cs) = (tokens rest).map (t :: ·) := by
  rw [tokens_eq, List.dropWhile_cons_of_neg (by rw [hc]; exact Bool.false_ne_true)]
  simp only [h]

/-! ## Texts followed by more text -/

/-- No character comes next that would lengthen a symbol or a numeral. -/
def Delimited (cs : List Char) : Prop := ∀ c ∈ cs.head?, Symbol.isSymbolChar c = false

theorem delimited_cons {c : Char} (cs : List Char) (h : Symbol.isSymbolChar c = false) :
    Delimited (c :: cs) := by
  intro d hd
  rw [List.head?_cons, Option.mem_some_iff] at hd
  rw [← hd, h]

theorem delimited_blank {c : Char} (cs : List Char) (h : isBlank c = true) :
    Delimited (c :: cs) := by
  refine delimited_cons cs ?_
  rw [Bool.eq_false_iff]
  intro hs
  rw [isBlank_of_isSymbolChar hs] at h
  cases h

theorem takeWhile_delimited {p : Char → Bool} {cs rest : List Char}
    (hp : ∀ c, p c = true → Symbol.isSymbolChar c = true) (hcs : ∀ c ∈ cs, p c = true)
    (hrest : Delimited rest) : (cs ++ rest).takeWhile p = cs := by
  rw [List.takeWhile_append_of_pos hcs]
  cases rest with
  | nil => rw [List.takeWhile_nil, List.append_nil]
  | cons c rest =>
    have hc : ¬ p c = true := fun h => absurd (hp c h) (by rw [hrest c rfl]; exact Bool.false_ne_true)
    rw [List.takeWhile_cons_of_neg hc, List.append_nil]

theorem dropWhile_delimited {p : Char → Bool} {cs rest : List Char}
    (hp : ∀ c, p c = true → Symbol.isSymbolChar c = true) (hcs : ∀ c ∈ cs, p c = true)
    (hrest : Delimited rest) : (cs ++ rest).dropWhile p = rest := by
  rw [List.dropWhile_append_of_pos hcs]
  cases rest with
  | nil => rfl
  | cons c rest =>
    have hc : ¬ p c = true := fun h => absurd (hp c h) (by rw [hrest c rfl]; exact Bool.false_ne_true)
    rw [List.dropWhile_cons_of_neg hc]

/-- The text is read as these tokens, and leaves all that follows as it is. -/
def Lexes (cs : List Char) (ts : List Token) : Prop :=
  ∀ rest, Delimited rest → tokens (cs ++ rest) = (tokens rest).map (ts ++ ·)

theorem map_tokens {rest : List Char} (ts us : List Token) :
    ((tokens rest).map (us ++ ·)).map (ts ++ ·) = (tokens rest).map (ts ++ us ++ ·) := by
  cases tokens rest with
  | error _ => rfl
  | ok vs => exact congrArg Except.ok (List.append_assoc ts us vs).symm

theorem lexes_nil : Lexes [] [] := by
  intro rest _
  rw [List.nil_append]
  cases tokens rest <;> rfl

theorem Lexes.append {cs ds : List Char} {ts us : List Token} (h : Lexes cs ts) (h' : Lexes ds us)
    (hd : ∀ rest, Delimited rest → Delimited (ds ++ rest)) : Lexes (cs ++ ds) (ts ++ us) := by
  intro rest hrest
  rw [List.append_assoc, h _ (hd rest hrest), h' rest hrest, map_tokens]

theorem Lexes.blank {c : Char} {cs : List Char} {ts : List Token} (hc : isBlank c = true)
    (h : Lexes cs ts) : Lexes (c :: cs) ts := by
  intro rest hrest
  rw [List.cons_append, tokens_blank _ hc, h rest hrest]

theorem Lexes.blanks {cs : List Char} {ts : List Token} (n : Nat) (h : Lexes cs ts) :
    Lexes (List.replicate n ' ' ++ cs) ts := by
  induction n with
  | zero => exact h
  | succ n ih => exact ih.blank rfl

theorem tokens_opening (cs : List Char) :
    tokens ('(' :: cs) = (tokens cs).map (.opening :: ·) := tokens_lexeme rfl rfl

theorem tokens_closing (cs : List Char) :
    tokens (')' :: cs) = (tokens cs).map (.closing :: ·) := tokens_lexeme rfl rfl

theorem Lexes.parenthesized {cs : List Char} {ts : List Token} (h : Lexes cs ts) :
    Lexes ('(' :: (cs ++ [')'])) (.opening :: (ts ++ [.closing])) := by
  intro rest _
  rw [List.cons_append, List.append_assoc, tokens_opening, List.singleton_append,
    h _ (delimited_cons _ rfl), tokens_closing]
  cases tokens rest with
  | error _ => rfl
  | ok vs => simp [Except.map]

/-! ## Symbols -/

/-- Characters of symbols that are no digits start nothing but a symbol. -/
theorem lexeme_symbol {c : Char} (cs : List Char) (hc : Symbol.isSymbolChar c = true)
    (hd : isDigit c = false) : lexeme c cs =
      .ok (.atom (.symbol (String.ofList (c :: cs.takeWhile Symbol.isSymbolChar))),
        cs.dropWhile Symbol.isSymbolChar) := by
  unfold lexeme
  rw [if_neg (ne_of_isSymbolChar hc rfl), if_neg (ne_of_isSymbolChar hc rfl),
    if_neg (ne_of_isSymbolChar hc rfl), if_neg (ne_of_isSymbolChar hc rfl),
    if_neg (ne_of_isSymbolChar hc rfl), if_neg (ne_of_isSymbolChar hc rfl),
    if_neg (by rw [hd]; exact Bool.false_ne_true), if_pos hc]

theorem lexes_simple {s : String} (h : Symbol.isSimple s.toList = true) :
    Lexes s.toList [.atom (.symbol s)] := by
  intro rest hrest
  cases hs : s.toList with
  | nil =>
    rw [hs] at h
    cases h
  | cons c cs =>
    rw [hs, Symbol.isSimple, Bool.and_eq_true, Bool.not_eq_true', List.all_eq_true,
      List.forall_mem_cons] at h
    obtain ⟨hd, hc, hcs⟩ := h
    have hlex := lexeme_symbol (cs ++ rest) hc hd
    rw [takeWhile_delimited (fun _ => id) hcs hrest, dropWhile_delimited (fun _ => id) hcs hrest,
      ← hs, String.ofList_toList] at hlex
    exact tokens_lexeme (isBlank_of_isSymbolChar hc) hlex

theorem lexes_quoted {s : String} (h : s.toList.all Symbol.isQuotable = true) :
    Lexes ("|" ++ s ++ "|").toList [.atom (.symbol s)] := by
  intro rest _
  have hall : ∀ c ∈ s.toList, Symbol.isQuotable c = true := List.all_eq_true.mp h
  have htake : (s.toList ++ '|' :: rest).takeWhile Symbol.isQuotable = s.toList := by
    rw [List.takeWhile_append_of_pos hall, List.takeWhile_cons_of_neg (by decide), List.append_nil]
  have hdrop : (s.toList ++ '|' :: rest).dropWhile Symbol.isQuotable = '|' :: rest := by
    rw [List.dropWhile_append_of_pos hall, List.dropWhile_cons_of_neg (by decide)]
  have htext : ("|" ++ s ++ "|").toList ++ rest = '|' :: (s.toList ++ '|' :: rest) := by
    simp [String.toList_append]
  have hlex : lexeme '|' (s.toList ++ '|' :: rest) = .ok (.atom (.symbol s), rest) := by
    unfold lexeme
    simp only [hdrop, htake, String.ofList_toList]
    rfl
  rw [htext, tokens_lexeme rfl hlex]
  rfl

/-- A name is read back from how it is spelled. -/
theorem lexes_spell {name text : String} (h : Symbol.spell name = .ok text) :
    Lexes text.toList [.atom (.symbol name)] := by
  unfold Symbol.spell at h
  split at h
  · rename_i hsimple
    obtain rfl := Except.ok.inj h
    rw [Bool.and_eq_true] at hsimple
    exact lexes_simple hsimple.1
  · split at h
    · rename_i hquotable
      obtain rfl := Except.ok.inj h
      exact lexes_quoted hquotable
    · cases h

theorem lexes_keyword {s : String} (hne : s.toList ≠ [])
    (h : s.toList.all Symbol.isSymbolChar = true) :
    Lexes (':' :: s.toList) [.atom (.keyword s)] := by
  intro rest hrest
  have hall : ∀ c ∈ s.toList, Symbol.isSymbolChar c = true := List.all_eq_true.mp h
  have htake := takeWhile_delimited (fun _ => id) hall hrest
  have hdrop := dropWhile_delimited (fun _ => id) hall hrest
  have hlex : lexeme ':' (s.toList ++ rest) = .ok (.atom (.keyword s), rest) := by
    cases hs : s.toList with
    | nil => exact absurd hs hne
    | cons c cs =>
      rw [hs] at htake hdrop
      unfold lexeme
      simp only [htake, hdrop]
      rw [← hs, String.ofList_toList]
      rfl
  exact tokens_lexeme rfl hlex

/-! ## Numerals -/

theorem isDigit_of_mem_toDigits {n : Nat} {c : Char} (h : c ∈ Nat.toDigits 10 n) :
    isDigit c = true := by
  have hc := Nat.isDigit_of_mem_toDigits (by decide) (by decide) h
  rw [Char.isDigit, Bool.and_eq_true, decide_eq_true_eq, decide_eq_true_eq] at hc
  rw [isDigit, Bool.and_eq_true, decide_eq_true_eq, decide_eq_true_eq]
  exact hc

theorem decimalValue_toDigits (n : Nat) : decimalValue (Nat.toDigits 10 n) = n :=
  Nat.ofDigitChars_ten_toDigits

/-- Only zero is written with a zero in front. -/
theorem head_toDigits_ne {n : Nat} (hn : 0 < n) : ∃ c cs, Nat.toDigits 10 n = c :: cs ∧ c ≠ '0' := by
  induction n using Nat.strongRecOn with
  | ind n ih =>
    by_cases hlt : n < 10
    · refine ⟨_, _, Nat.toDigits_of_lt_base hlt, ?_⟩
      interval_cases n <;> decide
    · obtain ⟨c, cs, hcs, hc⟩ := ih (n / 10) (by omega) (by omega)
      rw [Nat.toDigits_of_base_le (by decide) (by omega), hcs]
      exact ⟨c, _, rfl, hc⟩

theorem toDigits_eq_cons (n : Nat) {rest : List Char} (hrest : Delimited rest) :
    ∃ c cs, Nat.toDigits 10 n = c :: cs ∧ numeralTail c (cs ++ rest) = cs := by
  rcases Nat.eq_zero_or_pos n with rfl | hn
  · exact ⟨'0', [], rfl, rfl⟩
  · obtain ⟨c, cs, hdigits, hc⟩ := head_toDigits_ne hn
    refine ⟨c, cs, hdigits, ?_⟩
    rw [numeralTail, if_neg hc]
    refine takeWhile_delimited (fun _ => isSymbolChar_of_isDigit) (fun d hd => ?_) hrest
    exact isDigit_of_mem_toDigits (hdigits ▸ List.mem_cons_of_mem c hd)

theorem lexeme_digit {c : Char} (cs : List Char) (hc : isDigit c = true) : lexeme c cs =
    if fitsUnsigned64 (decimalValue (c :: numeralTail c cs)) then
      .ok (.atom (.numeral (decimalValue (c :: numeralTail c cs))),
        cs.drop (numeralTail c cs).length)
    else .error (.found c) := by
  have hs := isSymbolChar_of_isDigit hc
  unfold lexeme
  rw [if_neg (ne_of_isSymbolChar hs rfl), if_neg (ne_of_isSymbolChar hs rfl),
    if_neg (ne_of_isSymbolChar hs rfl), if_neg (ne_of_isSymbolChar hs rfl),
    if_neg (ne_of_isSymbolChar hs rfl), if_neg (ne_of_isSymbolChar hs rfl), if_pos hc]

theorem lexes_numeral {n : Nat} (h : fitsUnsigned64 n = true) :
    Lexes (toString n).toList [.atom (.numeral n)] := by
  intro rest hrest
  obtain ⟨c, cs, hdigits, htail⟩ := toDigits_eq_cons n hrest
  have hc : isDigit c = true := isDigit_of_mem_toDigits (hdigits ▸ List.mem_cons_self)
  have htext : (toString n).toList = c :: cs := by
    rw [Nat.toString_eq_ofList_toDigits, String.toList_ofList, hdigits]
  have hlex : lexeme c (cs ++ rest) = .ok (.atom (.numeral n), rest) := by
    have hvalue := decimalValue_toDigits n
    rw [hdigits] at hvalue
    rw [lexeme_digit _ hc, htail, hvalue, if_pos h, List.drop_left]
  rw [htext]
  exact tokens_lexeme (isBlank_of_isSymbolChar (isSymbolChar_of_isDigit hc)) hlex

/-! ## Comments -/

/-- A comment ends with its line. -/
theorem tokens_comment {text : List Char} (h : ∀ c ∈ text, isCommentChar c = true)
    (rest : List Char) : tokens (';' :: text ++ '\n' :: rest) =
      (tokens rest).map (.atom (commentAtom (trim text)) :: ·) := by
  have htake : (text ++ '\n' :: rest).takeWhile isCommentChar = text := by
    rw [List.takeWhile_append_of_pos h, List.takeWhile_cons_of_neg (by decide), List.append_nil]
  have hdrop : (text ++ '\n' :: rest).dropWhile isCommentChar = '\n' :: rest := by
    rw [List.dropWhile_append_of_pos h, List.dropWhile_cons_of_neg (by decide)]
  have hlex : lexeme ';' (text ++ '\n' :: rest) =
      .ok (.atom (commentAtom (trim text)), '\n' :: rest) := by
    unfold lexeme
    simp only [htake, hdrop]
    rfl
  rw [List.cons_append, tokens_lexeme rfl hlex, tokens_blank _ rfl]

end TupleLogic.Token
