import TupleLogic.Proofs.Comments
import TupleLogic.Proofs.TokenContent
import TupleLogic.Proofs.TokenGrammar

/-! How symbols are spelled. A name has a spelling unless it holds a bar or a backslash,
and the spelling is lexed as that name wherever a token can stand: at the front of a
text or after an opening parenthesis or a blank, and before a blank, a closing
parenthesis or the end. -/

namespace TupleLogic.Symbol

open Token

theorem writable_iff {name : String} :
    writable name = true ↔ '|' ∉ name.toList ∧ '\\' ∉ name.toList := by
  rw [writable, List.all_eq_true]
  exact forall_isQuotable

theorem writable_of_isSimple {name : String} (h : isSimple name.toList = true) :
    writable name = true := by
  rw [writable]
  cases hname : name.toList with
  | nil => rfl
  | cons c cs =>
    rw [hname, isSimple, Bool.and_eq_true, List.all_eq_true] at h
    exact List.all_eq_true.mpr fun d hd => isQuotable_of_isSymbolChar (h.2 d hd)

theorem spell_of_not_writable {name : String} (h : writable name = false) :
    spell name = .error (.malformed (.unwritableSymbol name)) := by
  have hsimple : isSimple name.toList = false := by
    rw [Bool.eq_false_iff]
    intro hsimple
    rw [writable_of_isSimple hsimple] at h
    cases h
  rw [writable] at h
  rw [spell, hsimple, h]
  rfl

/-- The spelling of a name is read as the name, between any texts that leave room for a
token. -/
theorem ofText_spell {name text before after : String} {ts : List Token}
    (h : spell name = .ok text) (hwritten : Written before.toList ts)
    (hbefore : OpenBefore before.toList) (hafter : ClosedAfter after.toList) :
    ofText (before ++ text ++ after) =
      (tokens after.toList).map (ts ++ .atom (.symbol name) :: ·) := by
  have htokens : tokens (before ++ text ++ after).toList =
      (tokens after.toList).map (ts ++ .atom (.symbol name) :: ·) := by
    rw [String.toList_append, String.toList_append, List.append_assoc,
      hwritten.tokens_append (.inl hbefore), lexes_spell h _ hafter.delimited, map_tokens]
    cases tokens after.toList <;> simp [Except.map]
  rw [ofText_eq_tokens_of_ne, htokens]
  rw [htokens]
  cases tokens after.toList <;> simp [Except.map]

theorem ofText_spell_alone {name text : String} (h : spell name = .ok text) :
    ofText text = .ok [.atom (.symbol name)] := by
  have hopen : OpenBefore "".toList := fun c hc => by cases hc
  have hclosed : ClosedAfter "".toList := fun c hc => by cases hc
  have hwritten : Written "".toList [] := .nil
  have hread := ofText_spell h hwritten hopen hclosed
  rwa [String.append_empty, String.empty_append, String.toList_empty, tokens_nil] at hread

/-- The spelling tells the name. -/
theorem spell_injective {name other text : String} (h : spell name = .ok text)
    (hother : spell other = .ok text) : other = name := by
  have hread := ofText_spell_alone h
  rw [ofText_spell_alone hother] at hread
  cases hread
  rfl

/-- A name is spelled unless it holds a bar or a backslash. Then its spelling, alone or
anywhere between texts that leave room for a token, is read as this name, and no other
name is spelled so. -/
theorem spell_lexed_back (name : String) :
    (spell name = .error (.malformed (.unwritableSymbol name)) ↔
      '|' ∈ name.toList ∨ '\\' ∈ name.toList) ∧
    (¬ ('|' ∈ name.toList ∨ '\\' ∈ name.toList) → ∃ text, spell name = .ok text ∧
      ofText text = .ok [.atom (.symbol name)] ∧
      (∀ before after ts, Written before.toList ts → OpenBefore before.toList →
        ClosedAfter after.toList → ofText (before ++ text ++ after) =
          (tokens after.toList).map (ts ++ .atom (.symbol name) :: ·)) ∧
      ∀ other, spell other = .ok text → other = name) := by
  have hwritable : ¬ ('|' ∈ name.toList ∨ '\\' ∈ name.toList) ↔ writable name = true := by
    rw [not_or, writable_iff]
  refine ⟨⟨fun herror => ?_, fun hmem => ?_⟩, fun hmem => ?_⟩
  · by_contra hmem
    obtain ⟨text, htext⟩ := spell_of_writable (hwritable.mp hmem)
    rw [htext] at herror
    cases herror
  · refine spell_of_not_writable (Bool.eq_false_iff.mpr fun h => ?_)
    exact hwritable.mpr h hmem
  · obtain ⟨text, htext⟩ := spell_of_writable (hwritable.mp hmem)
    exact ⟨text, htext, ofText_spell_alone htext, fun before after ts => ofText_spell htext,
      fun other => spell_injective htext⟩

/-- A name with a blank in it stands between bars, also next to parentheses. -/
theorem spell_lexed_back_quoted : ∃ text, spell "a b" = .ok text ∧
    ofText ("(" ++ text ++ " )") = .ok [.opening, .atom (.symbol "a b"), .closing] ∧
    ∀ other, spell other = .ok text → other = "a b" := by
  obtain ⟨text, htext, _, hplaced, hunique⟩ := (spell_lexed_back "a b").2 (by decide)
  refine ⟨text, htext, ?_, hunique⟩
  have hopen : OpenBefore "(".toList := fun c hc => .inl (Option.some.inj hc).symm
  have hclosed : ClosedAfter " )".toList := fun c hc => .inr (Option.some.inj hc ▸ rfl)
  rw [hplaced "(" " )" [.opening] (.token rfl (by decide) rfl .nil) hopen hclosed]
  change (tokens [' ', ')']).map _ = _
  rw [tokens_blank _ rfl, tokens_closing, tokens_nil]
  rfl

end TupleLogic.Symbol
