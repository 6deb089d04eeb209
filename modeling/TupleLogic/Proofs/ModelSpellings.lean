import TupleLogic.Proofs.Comments
import TupleLogic.Proofs.SortCounts
import TupleLogic.Proofs.TextStructure

/-! The spellings of a solver's report. Its commands stand alone, in `(model …)` or in
bare parentheses, and mean the same. Only the first and the last spelling can be taken
for each other: one command alone looks like commands in parentheses if it does not
start with its symbol, but with a report of a cardinality. -/

namespace TupleLogic

namespace SExpr

/-- Comments and reports of cardinalities. -/
def isRemark : SExpr → Bool
  | .atom a => a.isRemark
  | .list _ => false

/-- A list whose first item is a symbol other than `model`, comments apart. -/
def IsCommand : SExpr → Prop
  | .atom _ => False
  | .list items => ∃ head rest, items.dropWhile isRemark = .symbol head :: rest ∧ head ≠ "model"

/-- Commands with comments between and inside of them. -/
def Commands (items : List SExpr) : Prop := ∀ e ∈ items, e.isRemark = true ∨ e.IsCommand

theorem Commands.isCommand {command : List SExpr} (h : Commands [.list command]) :
    (SExpr.list command).IsCommand :=
  (List.forall_mem_singleton.mp h).resolve_left Bool.false_ne_true

/-- One command and nothing else, in which a report of a cardinality comes before all
but comments. -/
def OpensWithReport (items : List SExpr) : Prop :=
  ∃ command sort count rest, items = [.list command] ∧
    command.dropWhile isComment = .atom (.cardinality sort count) :: rest

theorem tokensAll_singleton (e : SExpr) : tokensAll [e] = e.tokens := by
  rw [tokensAll, tokensAll, List.append_nil]

/-- A report of a cardinality. -/
def report (r : String × Nat) : SExpr := .atom (.cardinality r.1 r.2)

/-- Without comments, only reports come before the symbol of a command. -/
theorem uncommentedAll_command {items : List SExpr} {head : String} {rest : List SExpr}
    (h : items.dropWhile isRemark = .symbol head :: rest) :
    ∃ reports : List (String × Nat),
      uncommentedAll items = reports.map report ++ .symbol head :: uncommentedAll rest := by
  induction items with
  | nil => cases h
  | cons e es ih =>
    rw [List.dropWhile_cons] at h
    split at h
    · rename_i he
      obtain ⟨reports, hreports⟩ := ih h
      cases e with
      | list _ => cases he
      | atom a =>
        cases a with
        | comment c => exact ⟨reports, hreports⟩
        | cardinality sort count =>
          exact ⟨(sort, count) :: reports, congrArg (report (sort, count) :: ·) hreports⟩
        | symbol _ | keyword _ | numeral _ | string _ => cases he
    · cases h
      exact ⟨[], rfl⟩

/-- What comes first once the comments are gone. -/
theorem uncommentedAll_eq_report {items rest : List SExpr} {r : String × Nat}
    (h : uncommentedAll items = report r :: rest) :
    ∃ rest', items.dropWhile isComment = report r :: rest' := by
  rw [← uncommentedAll_dropWhile] at h
  cases hitems : items.dropWhile isComment with
  | nil =>
    rw [hitems] at h
    cases h
  | cons e es =>
    have he : ¬ e.isComment = true := by
      have hhead := List.head?_dropWhile_not isComment items
      rw [hitems] at hhead
      exact Bool.eq_false_iff.mp hhead
    rw [hitems, uncommentedAll, if_neg he] at h
    cases e with
    | list _ => cases h
    | atom a =>
      obtain ⟨ha, _⟩ := List.cons.inj h
      exact ⟨es, ha ▸ rfl⟩

theorem Commands.uncommentedAll_ne {items : List SExpr} (h : Commands items) (head : String)
    (rest : List SExpr) : uncommentedAll items ≠ .symbol head :: rest := by
  induction items with
  | nil =>
    intro hnil
    cases hnil
  | cons e es ih =>
    obtain ⟨he, hes⟩ := List.forall_mem_cons.mp h
    rw [uncommentedAll]
    split
    · exact ih hes
    · intro heq
      obtain ⟨hsymbol, _⟩ := List.cons.inj heq
      cases e with
      | list _ => cases hsymbol
      | atom a =>
        obtain rfl := SExpr.atom.inj hsymbol
        rcases he with he | he
        · cases he
        · exact he

end SExpr

namespace Script

namespace Reader

theorem unwrap_model (items : List SExpr) :
    unwrap [.list (.symbol "model" :: items)] = items := by
  rw [unwrap]
  exact if_pos rfl

theorem unwrap_parenthesized {items : List SExpr}
    (h : ∀ head rest, items ≠ .symbol head :: rest) : unwrap [.list items] = items := by
  rw [unwrap]
  exact h

theorem unwrap_command {head : String} (hhead : head ≠ "model") (rest : List SExpr) :
    unwrap [.list (.symbol head :: rest)] = [.list (.symbol head :: rest)] := by
  rw [unwrap]
  exact if_neg hhead

/-- Commands that stand alone are not unwrapped. -/
theorem unwrap_commands {items : List SExpr} (hcommands : SExpr.Commands items)
    (hopens : ¬ SExpr.OpensWithReport items) :
    unwrap (items.map SExpr.uncommented) = items.map SExpr.uncommented := by
  rcases items with _ | ⟨_ | command, _ | ⟨e, es⟩⟩
  · rfl
  · rfl
  · rfl
  · obtain ⟨head, rest, hhead, hmodel⟩ := hcommands.isCommand
    obtain ⟨reports, hreports⟩ := SExpr.uncommentedAll_command hhead
    change unwrap [.list (SExpr.uncommentedAll command)] = [.list (SExpr.uncommentedAll command)]
    cases reports with
    | nil =>
      rw [hreports]
      exact unwrap_command hmodel _
    | cons r reports =>
      obtain ⟨rest', hrest⟩ := SExpr.uncommentedAll_eq_report hreports
      exact absurd ⟨command, r.1, r.2, rest', rfl, hrest⟩ hopens
  · rfl

/-- Reports are no commands, and neither is the symbol after them. -/
theorem readCommands_reports (dialect : Dialect) (name : Option String)
    (counts reports : List (String × Nat)) (head : String) (rest : List SExpr) :
    readCommands dialect name counts (reports.map SExpr.report ++ .symbol head :: rest) =
      throw (.expectedCommand (.symbol head)) := by
  induction reports generalizing name counts with
  | nil => rfl
  | cons r reports ih => exact ih none (insertCount r counts)

end Reader

/-- The script of commands that are not wrapped. -/
def ofCommands (commands : List SExpr) : Except ReadError Script := do
  let (counts, s) ← (Reader.readCommands .model none [] commands).run empty
  return Reader.attach counts.reverse s

theorem ofSExprs_eq (items : List SExpr) :
    ofSExprs .model items = ofCommands (Reader.unwrap items) :=
  ofSExprs_eq_attach .model items

section Spellings

variable {text : String} {items : List SExpr}
  (hwritten : Token.Written text.toList (SExpr.tokensAll items))

include hwritten

theorem read_parenthesized (dialect : Dialect) : read dialect ("(" ++ text ++ ")") =
    ofSExprs dialect [.list (SExpr.uncommentedAll items)] := by
  have htext : ("(" ++ text ++ ")").toList = '(' :: (text.toList ++ [')']) := by simp
  have h : Token.Written ("(" ++ text ++ ")").toList (SExpr.tokensAll [.list items]) := by
    rw [htext, SExpr.tokensAll_singleton]
    exact hwritten.parenthesized
  exact read_written dialect h fun hnil => by cases hnil

theorem read_wrapped (dialect : Dialect) : read dialect ("(model " ++ text ++ ")") =
    ofSExprs dialect [.list (.symbol "model" :: SExpr.uncommentedAll items)] := by
  have htext : ("(model " ++ text ++ ")").toList =
      '(' :: ((['m', 'o', 'd', 'e', 'l'] ++ ' ' :: text.toList) ++ [')']) := by simp
  have hname : Token.Written ['m', 'o', 'd', 'e', 'l'] [.atom (.symbol "model")] :=
    .token rfl (by decide) rfl .nil
  have h : Token.Written ("(model " ++ text ++ ")").toList
      (SExpr.tokensAll [.list (.symbol "model" :: items)]) := by
    rw [htext, SExpr.tokensAll_singleton]
    exact (hname.append (.blank rfl hwritten) (Token.delimited_cons _ rfl)).parenthesized
  exact read_written dialect h fun hnil => by cases hnil

variable (hcommands : SExpr.Commands items)

include hcommands

theorem read_model_parenthesized :
    read .model ("(" ++ text ++ ")") = read .model ("(model " ++ text ++ ")") := by
  rw [read_wrapped hwritten, read_parenthesized hwritten, ofSExprs_eq, ofSExprs_eq,
    Reader.unwrap_model, Reader.unwrap_parenthesized hcommands.uncommentedAll_ne]

theorem read_model_bare (hempty : items = [] → text = "")
    (hopens : ¬ SExpr.OpensWithReport items) :
    read .model text = read .model ("(model " ++ text ++ ")") := by
  rw [read_wrapped hwritten, read_written .model hwritten hempty, ofSExprs_eq, ofSExprs_eq,
    Reader.unwrap_model, Reader.unwrap_commands hcommands hopens, ofCommands, ofCommands,
    Reader.readCommands_model none none]

/-- A command that opens with a report is refused, alone because of its symbol and in
parentheses as a whole. -/
theorem read_model_report (hopens : SExpr.OpensWithReport items) :
    ∃ command head rest, items = [.list command] ∧
      command.dropWhile SExpr.isRemark = .symbol head :: rest ∧
      read .model text = .error (.expectedCommand (.symbol head)) ∧
      read .model ("(model " ++ text ++ ")") =
        .error (.expectedCommand (.list (SExpr.uncommentedAll command))) := by
  obtain ⟨command, sort, count, rest', rfl, hreport⟩ := hopens
  obtain ⟨head, rest, hhead, _⟩ := hcommands.isCommand
  obtain ⟨reports, hreports⟩ := SExpr.uncommentedAll_command hhead
  have hfirst : SExpr.uncommentedAll command =
      SExpr.report (sort, count) :: SExpr.uncommentedAll rest' := by
    rw [← SExpr.uncommentedAll_dropWhile, hreport]
    rfl
  refine ⟨command, head, rest, rfl, hhead, ?_, ?_⟩
  · rw [read_written .model hwritten (fun hnil => by cases hnil), ofSExprs_eq]
    change ofCommands (Reader.unwrap [.list (SExpr.uncommentedAll command)]) = _
    rw [Reader.unwrap_parenthesized, hreports, ofCommands, Reader.readCommands_reports]
    · rfl
    · intro head' rest'' heq
      rw [hfirst] at heq
      cases heq
  · rw [read_wrapped hwritten, ofSExprs_eq, Reader.unwrap_model]
    change ofCommands [.list (SExpr.uncommentedAll command)] = _
    rw [hfirst]
    rfl

end Spellings

/-- A character that starts no token is found in every spelling. -/
theorem read_model_found {text : String} {c : Char}
    (h : Token.tokens text.toList = .error (.found c)) :
    read .model text = .error (.lexing (.found c)) ∧
    read .model ("(model " ++ text ++ ")") = .error (.lexing (.found c)) ∧
    read .model ("(" ++ text ++ ")") = .error (.lexing (.found c)) := by
  have hclosed := Token.tokens_append_found h (Token.delimited_cons [] (c := ')') rfl)
  have hname : Token.Lexes "model".toList [.atom (.symbol "model")] := Token.lexes_simple rfl
  have htext : ("(" ++ text ++ ")").toList = '(' :: (text.toList ++ [')']) := by simp
  have htext' : ("(model " ++ text ++ ")").toList =
      '(' :: ("model".toList ++ ' ' :: (text.toList ++ [')'])) := by simp
  refine ⟨read_found .model h, read_found .model ?_, read_found .model ?_⟩
  · rw [htext', Token.tokens_opening, hname _ (Token.delimited_cons _ rfl),
      Token.tokens_blank _ rfl, hclosed]
    rfl
  · rw [htext, Token.tokens_opening, hclosed]
    rfl

/-- Commands mean the same in `(model …)` and in bare parentheses. They mean the same
alone, unless there is only one and it opens with a report: then the items of that one
are taken for commands, and all three spellings are refused, each at the first thing
that is no command. Commands with a character that starts no token are refused for it
in each spelling. -/
theorem read_model_spellings (text : String) :
    (∀ items, Token.Written text.toList (SExpr.tokensAll items) → SExpr.Commands items →
      read .model ("(" ++ text ++ ")") = read .model ("(model " ++ text ++ ")") ∧
      ((items = [] → text = "") → ¬ SExpr.OpensWithReport items →
        read .model text = read .model ("(model " ++ text ++ ")")) ∧
      (SExpr.OpensWithReport items → ∃ command head rest, items = [.list command] ∧
        command.dropWhile SExpr.isRemark = .symbol head :: rest ∧
        read .model text = .error (.expectedCommand (.symbol head)) ∧
        read .model ("(model " ++ text ++ ")") =
          .error (.expectedCommand (.list (SExpr.uncommentedAll command))))) ∧
    ∀ c, Token.tokens text.toList = .error (.found c) →
      read .model text = .error (.lexing (.found c)) ∧
      read .model ("(model " ++ text ++ ")") = .error (.lexing (.found c)) ∧
      read .model ("(" ++ text ++ ")") = .error (.lexing (.found c)) := by
  refine ⟨fun items hwritten hcommands => ⟨?_, ?_, ?_⟩, fun c => read_model_found⟩
  · exact read_model_parenthesized hwritten hcommands
  · exact read_model_bare hwritten hcommands
  · exact read_model_report hwritten hcommands

def reportText : String := "(; cardinality of A is 1\ndeclare-sort A 0)"

def reportCommand : List SExpr :=
  [SExpr.report ("A", 1), .symbol "declare-sort", .symbol "A", .atom (.numeral 0)]

theorem written_report {cs : List Char} {ts : List Token} (h : Token.Written cs ts) :
    Token.Written (';' :: " cardinality of A is 1".toList ++ '\n' :: cs)
      (.atom (.cardinality "A" 1) :: ts) :=
  .comment (List.all_eq_true.mp rfl) h

theorem written_command {cs : List Char} {ts : List Token} (h : Token.Written cs ts) :
    Token.Written ("declare-sort".toList ++ ' ' :: cs) (.atom (.symbol "declare-sort") :: ts) := by
  have hname : Token.Written "declare-sort".toList [.atom (.symbol "declare-sort")] :=
    .token rfl (by decide) rfl .nil
  exact hname.append (.blank rfl h) (Token.delimited_cons _ rfl)

theorem written_sort :
    Token.Written ['A', ' ', '0'] [.atom (.symbol "A"), .atom (.numeral 0)] :=
  .token rfl (by decide) rfl (.blank rfl (.token rfl (by decide) rfl .nil))

theorem written_reportText :
    Token.Written reportText.toList (SExpr.tokensAll [.list reportCommand]) :=
  (written_report (written_command written_sort)).parenthesized

theorem commands_reportCommand : SExpr.Commands [.list reportCommand] :=
  List.forall_mem_singleton.mpr (.inr ⟨"declare-sort", _, rfl, by decide⟩)

/-- Alone, the command of this report and a blank are read in another way than in
parentheses. -/
theorem read_reportText_ne :
    (Token.Written reportText.toList (SExpr.tokensAll [.list reportCommand]) ∧
      SExpr.Commands [.list reportCommand] ∧
      read .model reportText ≠ read .model ("(model " ++ reportText ++ ")") ∧
      read .model reportText ≠ read .model ("(" ++ reportText ++ ")")) ∧
    Token.Written " ".toList (SExpr.tokensAll []) ∧ SExpr.Commands [] ∧
      read .model " " ≠ read .model ("(model " ++ " " ++ ")") ∧
      read .model " " ≠ read .model ("(" ++ " " ++ ")") := by
  have hbare : read .model reportText = .error (.expectedCommand (.symbol "declare-sort")) :=
    read_written .model written_reportText fun hnil => by cases hnil
  have hblank : Token.Written " ".toList (SExpr.tokensAll []) := .blank rfl .nil
  have halone : read .model " " = .error (.lexing .endOfInput) := by
    rw [read, Token.ofText, if_pos (by decide)]
    rfl
  refine ⟨⟨written_reportText, commands_reportCommand, ?_, ?_⟩,
    hblank, List.forall_mem_nil _, ?_, ?_⟩
  · rw [hbare, read_wrapped written_reportText]
    intro heq
    cases heq
  · rw [hbare, read_parenthesized written_reportText]
    intro heq
    cases heq
  · rw [halone, read_wrapped hblank]
    intro heq
    cases heq
  · rw [halone, read_parenthesized hblank]
    intro heq
    cases heq

def commentedText : String :=
  "(declare-sort ; b\nB 0); cardinality of A is 1\n(declare-sort A 0)"

def commentedItems : List SExpr :=
  [.list [.symbol "declare-sort", .atom (.comment "b"), .symbol "B", .atom (.numeral 0)],
    SExpr.report ("A", 1), .list [.symbol "declare-sort", .symbol "A", .atom (.numeral 0)]]

theorem written_commentedText :
    Token.Written commentedText.toList (SExpr.tokensAll commentedItems) := by
  have hsort : Token.Written ['B', ' ', '0'] [.atom (.symbol "B"), .atom (.numeral 0)] :=
    .token rfl (by decide) rfl (.blank rfl (.token rfl (by decide) rfl .nil))
  have hcomment : Token.Written (';' :: [' ', 'b'] ++ '\n' :: ['B', ' ', '0'])
      (.atom (.comment "b") :: [.atom (.symbol "B"), .atom (.numeral 0)]) :=
    .comment (List.all_eq_true.mp rfl) hsort
  have hreport := written_report (written_command written_sort).parenthesized
  exact (written_command hcomment).parenthesized.append hreport (Token.delimited_cons _ rfl)

theorem commands_commentedItems : SExpr.Commands commentedItems := by
  refine List.forall_mem_cons.mpr ⟨.inr ⟨"declare-sort", _, rfl, by decide⟩, ?_⟩
  refine List.forall_mem_cons.mpr ⟨.inl rfl, List.forall_mem_singleton.mpr (.inr ?_)⟩
  exact ⟨"declare-sort", _, rfl, by decide⟩

theorem read_model_spellings_commented :
    (Token.Written commentedText.toList (SExpr.tokensAll commentedItems) ∧
      SExpr.Commands commentedItems ∧
      read .model ("(" ++ commentedText ++ ")") = read .model ("(model " ++ commentedText ++ ")") ∧
      read .model commentedText = read .model ("(model " ++ commentedText ++ ")")) ∧
    (∃ command head rest, [SExpr.list reportCommand] = [.list command] ∧
      command.dropWhile SExpr.isRemark = .symbol head :: rest ∧
      read .model reportText = .error (.expectedCommand (.symbol head)) ∧
      read .model ("(model " ++ reportText ++ ")") =
        .error (.expectedCommand (.list (SExpr.uncommentedAll command)))) ∧
    read .model "(declare-sort A 18446744073709551616)" = .error (.lexing (.found '1')) := by
  obtain ⟨hparenthesized, hbare, _⟩ := (read_model_spellings commentedText).1 commentedItems
    written_commentedText commands_commentedItems
  obtain ⟨_, _, hreport⟩ := (read_model_spellings reportText).1 [.list reportCommand]
    written_reportText commands_reportCommand
  have hfound := (read_model_spellings "(declare-sort A 18446744073709551616)").2 '1'
    (by decide +kernel)
  refine ⟨⟨written_commentedText, commands_commentedItems, hparenthesized,
    hbare (fun hnil => by cases hnil) ?_⟩,
    hreport ⟨reportCommand, "A", 1, _, rfl, rfl⟩, hfound.1⟩
  rintro ⟨_, _, _, _, heq, _⟩
  cases heq

end Script

end TupleLogic
