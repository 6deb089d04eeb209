import TupleLogic.Script.Printer
import TupleLogic.Proofs.Growth

/-! Coloured pages. Colours are control sequences around the texts of a page, and without
them the page is plain. The colour of a parenthesis comes from its depth: parentheses stand
in pairs on every page of every script, and both of a pair are marked with the number of
pairs around them. -/

namespace TupleLogic

/-! ## Results with a property -/

/-- A result, if there is one, has the property. -/
def Gives {ε α : Type} (p : α → Prop) (x : Except ε α) : Prop := ∀ a, x = .ok a → p a

namespace Gives

variable {ε α β : Type} {p : α → Prop} {q : β → Prop}

theorem ok {a : α} (h : p a) : Gives p (.ok a : Except ε α) := by
  rintro _ ⟨⟩
  exact h

theorem error (e : ε) : Gives p (.error e) := by
  rintro _ ⟨⟩

theorem bind {x : Except ε α} {f : α → Except ε β} (hx : Gives p x)
    (hf : ∀ a, p a → Gives q (f a)) : Gives q (x >>= f) := by
  intro b hb
  obtain ⟨a, ha, hfa⟩ := bind_eq_ok.mp hb
  exact hf a (hx a ha) b hfa

theorem anyway {x : Except ε α} {f : α → Except ε β} (hf : ∀ a, Gives q (f a)) :
    Gives q (x >>= f) :=
  bind (p := fun _ => True) (fun _ _ => trivial) fun a _ => hf a

/-- What runs after a check that throws. -/
theorem checked {c : Prop} [Decidable c] {e : ε} {k : Unit → Except ε β} (hk : Gives q (k ())) :
    Gives q (if c then throw e >>= k else k ()) :=
  fun b hb => hk b (checked_eq_ok.mp hb).2

theorem mapM {f : α → Except ε β} {xs : List α} (hf : ∀ x ∈ xs, Gives q (f x)) :
    Gives (fun bs => ∀ b ∈ bs, q b) (xs.mapM f) := by
  induction xs with
  | nil => exact ok (List.forall_mem_nil _)
  | cons x xs ih =>
    rw [List.forall_mem_cons] at hf
    rw [List.mapM_cons]
    exact bind hf.1 fun b hb => bind (ih hf.2) fun bs hbs => ok (List.forall_mem_cons.mpr ⟨hb, hbs⟩)

end Gives

namespace Layout

/-! ## Colour control -/

/-- What a terminal is sent: text, or control of its colours. -/
inductive Emission where
  | text (content : String)
  | control (code : String)

namespace Emission

def written : Emission → String
  | .text s => s
  | .control code => Layout.control code

def isText : Emission → Bool
  | .text _ => true
  | .control _ => false

/-- Everything that is sent, as one text. -/
def sent (es : List Emission) : String := String.join (es.map written)

theorem sent_cons (e : Emission) (es : List Emission) : sent (e :: es) = e.written ++ sent es := by
  rw [sent, List.map_cons, String.join_cons, sent]

theorem sent_append (es fs : List Emission) : sent (es ++ fs) = sent es ++ sent fs := by
  rw [sent, List.map_append, String.join_append, sent, sent]

theorem mem_sent {c : Char} {es : List Emission} :
    c ∈ (sent es).toList ↔ ∃ e ∈ es, c ∈ e.written.toList := by
  rw [sent, String.toList_join, List.flatMap_map, List.mem_flatMap]

end Emission

open Emission

/-- The codes that start an appearance. -/
def Appearance.codes (a : Appearance) : List String :=
  ["0"] ++ (if a.bold then ["1"] else []) ++ (if a.dimmed then ["2"] else []) ++
    (if a.italic then ["3"] else []) ++ (a.colour.map fun c => "3" ++ toString c.code).toList

/-- What a piece of a coloured page sends. -/
def Piece.emissions : Piece → List Emission
  | .text style s => style.appearance.codes.map .control ++ [.text s, .control "0"]
  | .space => [.text " "]
  | .newline indent => [.text ("\n" ++ String.ofList (List.replicate indent ' '))]

def emissions (ps : List Piece) : List Emission := ps.flatMap Piece.emissions

theorem sent_codes (a : Appearance) : sent (a.codes.map .control) = a.controls := by
  obtain ⟨colour, bold, dimmed, italic⟩ := a
  cases colour <;> cases bold <;> cases dimmed <;> cases italic <;>
    simp [Appearance.codes, Appearance.controls, sent, written, String.append_assoc]

theorem texts_codes (codes : List String) : (codes.map Emission.control).filter isText = [] := by
  rw [List.filter_eq_nil_iff, List.forall_mem_map]
  exact fun _ _ => Bool.false_ne_true

theorem Piece.sent_emissions (p : Piece) : sent p.emissions = p.coloured := by
  cases p with
  | text style s =>
    rw [emissions, sent_append, sent_codes]
    simp [sent, written, coloured, render, String.append_assoc]
  | space => rfl
  | newline indent => simp [emissions, sent, written, coloured, render]

theorem Piece.sent_texts (p : Piece) : sent (p.emissions.filter isText) = p.plain := by
  cases p with
  | text style s =>
    rw [emissions, List.filter_append, texts_codes]
    simp [List.filter_cons, sent, written, isText, plain, render]
  | space => rfl
  | newline indent => simp [emissions, List.filter_cons, sent, written, isText, plain, render]

theorem sent_emissions (ps : List Piece) :
    sent (emissions ps) = Script.render Piece.coloured ps := by
  induction ps with
  | nil => rfl
  | cons p ps ih =>
    rw [emissions, List.flatMap_cons, sent_append, p.sent_emissions, ← emissions, ih]
    exact String.join_cons.symm

theorem sent_texts (ps : List Piece) :
    sent ((emissions ps).filter isText) = Script.render Piece.plain ps := by
  induction ps with
  | nil => rfl
  | cons p ps ih =>
    rw [emissions, List.flatMap_cons, List.filter_append, sent_append, p.sent_texts, ← emissions,
      ih]
    exact String.join_cons.symm

/-- Text without colour control, which runs from an escape to the next `m`; `control` says
that it has begun. -/
def uncoloured (control : Bool) : List Char → List Char
  | [] => []
  | c :: cs =>
    if control then uncoloured (c != 'm') cs
    else if c = '\x1b' then uncoloured true cs
    else c :: uncoloured false cs

theorem uncoloured_text {cs : List Char} (h : '\x1b' ∉ cs) (rest : List Char) :
    uncoloured false (cs ++ rest) = cs ++ uncoloured false rest := by
  induction cs with
  | nil => rfl
  | cons c cs ih =>
    rw [List.cons_append, uncoloured, if_neg Bool.false_ne_true,
      if_neg (List.ne_of_not_mem_cons h).symm, ih (List.not_mem_of_not_mem_cons h),
      List.cons_append]

theorem uncoloured_within {cs : List Char} (h : 'm' ∉ cs) (rest : List Char) :
    uncoloured true (cs ++ 'm' :: rest) = uncoloured false rest := by
  induction cs with
  | nil => rfl
  | cons c cs ih =>
    rw [List.cons_append, uncoloured, if_pos rfl,
      bne_iff_ne.mpr (List.ne_of_not_mem_cons h).symm, ih (List.not_mem_of_not_mem_cons h)]

theorem uncoloured_control {code : String} (h : 'm' ∉ code.toList) (rest : List Char) :
    uncoloured false ((control code).toList ++ rest) = uncoloured false rest := by
  have hcode : 'm' ∉ '[' :: code.toList := List.not_mem_cons_of_ne_of_not_mem (by decide) h
  rw [← uncoloured_within hcode rest]
  simp [control, uncoloured]

theorem uncoloured_sent {es : List Emission} (htexts : ∀ s, .text s ∈ es → '\x1b' ∉ s.toList)
    (hcodes : ∀ code, .control code ∈ es → 'm' ∉ code.toList) :
    uncoloured false (sent es).toList = (sent (es.filter isText)).toList := by
  induction es with
  | nil => rfl
  | cons e es ih =>
    have ih := ih (fun s hs => htexts s (List.mem_cons_of_mem _ hs))
      fun code hcode => hcodes code (List.mem_cons_of_mem _ hcode)
    rw [sent_cons, String.toList_append]
    cases e with
    | text s =>
      rw [List.filter_cons_of_pos rfl, sent_cons, String.toList_append, ← ih]
      exact uncoloured_text (htexts s List.mem_cons_self) _
    | control code =>
      rw [List.filter_cons_of_neg Bool.false_ne_true, ← ih]
      exact uncoloured_control (hcodes code List.mem_cons_self) _

theorem Appearance.not_mem_codes (a : Appearance) : ∀ code ∈ a.codes, 'm' ∉ code.toList := by
  intro code hcode
  simp only [codes, List.mem_append, List.mem_ite_nil_right, List.mem_singleton, Option.mem_toList,
    Option.map_eq_some_iff] at hcode
  obtain (((rfl | ⟨_, rfl⟩) | ⟨_, rfl⟩) | ⟨_, rfl⟩) | ⟨c, _, rfl⟩ := hcode
  · decide
  · decide
  · decide
  · decide
  · cases c <;> decide

theorem Piece.code_of_mem {p : Piece} {code : String} (h : .control code ∈ p.emissions) :
    'm' ∉ code.toList := by
  cases p with
  | text style s =>
    obtain h | h := List.mem_append.mp h
    · obtain ⟨_, hcode, h⟩ := List.mem_map.mp h
      obtain rfl := Emission.control.inj h
      exact style.appearance.not_mem_codes _ hcode
    · obtain rfl : code = "0" := by simpa using h
      decide
  | space => simp [emissions] at h
  | newline indent => simp [emissions] at h

/-- Without colour control a coloured page is plain, unless the plain one has escapes too. -/
theorem uncoloured_render {ps : List Piece}
    (h : '\x1b' ∉ (Script.render Piece.plain ps).toList) :
    uncoloured false (Script.render Piece.coloured ps).toList =
      (Script.render Piece.plain ps).toList := by
  rw [← sent_emissions, ← sent_texts]
  apply uncoloured_sent
  · intro s hs hescape
    rw [← sent_texts] at h
    exact h (mem_sent.mpr ⟨.text s, List.mem_filter.mpr ⟨hs, rfl⟩, hescape⟩)
  · intro code hcode
    obtain ⟨p, _, hp⟩ := List.mem_flatMap.mp hcode
    exact p.code_of_mem hp

/-! ## Nested parentheses -/

def Style.isParen : Style → Bool
  | .paren _ => true
  | _ => false

def Piece.isParen : Piece → Bool
  | .text style _ => style.isParen
  | _ => false

open Block (openParen closeParen)

/-- Parentheses stand in pairs, each marked with the number of pairs around it, where
`depth` pairs are around all pieces. -/
inductive Nested : Nat → List Piece → Prop
  | nil {depth : Nat} : Nested depth []
  | cons {depth : Nat} {p : Piece} {ps : List Piece} (hp : p.isParen = false)
      (hps : Nested depth ps) : Nested depth (p :: ps)
  | pair {depth : Nat} {inner ps : List Piece} (hinner : Nested (depth + 1) inner)
      (hps : Nested depth ps) :
      Nested depth (openParen depth :: (inner ++ closeParen depth :: ps))

namespace Nested

variable {depth : Nat} {ps qs : List Piece}

theorem append (hp : Nested depth ps) (hq : Nested depth qs) : Nested depth (ps ++ qs) := by
  induction hp with
  | nil => exact hq
  | cons hp _ ih => exact .cons hp (ih hq)
  | pair hinner _ _ ih =>
    rw [List.cons_append, List.append_assoc, List.cons_append]
    exact .pair hinner (ih hq)

theorem wrap (h : Nested (depth + 1) ps) :
    Nested depth (openParen depth :: ps ++ [closeParen depth]) :=
  .pair h .nil

end Nested

def Piece.opens (p : Piece) : Bool := p.isParen && p.plain == "("

def Piece.closes (p : Piece) : Bool := p.isParen && p.plain == ")"

/-- How many parentheses are opened and not closed again. -/
def unclosed (ps : List Piece) : Int := ps.countP Piece.opens - ps.countP Piece.closes

theorem unclosed_append (ps qs : List Piece) : unclosed (ps ++ qs) = unclosed ps + unclosed qs := by
  unfold unclosed
  rw [List.countP_append, List.countP_append]
  omega

theorem unclosed_cons (p : Piece) (ps : List Piece) :
    unclosed (p :: ps) = unclosed [p] + unclosed ps :=
  unclosed_append [p] ps

@[simp] theorem unclosed_nil : unclosed [] = 0 := rfl

@[simp] theorem unclosed_openParen (depth : Nat) : unclosed [openParen depth] = 1 := rfl

@[simp] theorem unclosed_closeParen (depth : Nat) : unclosed [closeParen depth] = -1 := rfl

theorem unclosed_other {p : Piece} (h : p.isParen = false) : unclosed [p] = 0 := by
  simp [unclosed, Piece.opens, Piece.closes, h]

theorem Nested.unclosed_eq_zero {depth : Nat} {ps : List Piece} (h : Nested depth ps) :
    unclosed ps = 0 := by
  induction h with
  | nil => rfl
  | cons hp _ ih => rw [unclosed_cons, unclosed_other hp, ih, Int.add_zero]
  | pair _ _ hinner ih =>
    rw [unclosed_cons, unclosed_append, unclosed_cons (closeParen _), hinner, ih,
      unclosed_openParen, unclosed_closeParen]
    rfl

/-- What stands at a parenthesis: one that opens has as many open before it as it is marked
with and its partner further on, and one that closes has its partner further back. -/
inductive Paired (before : List Piece) (depth : Nat) (content : String) (after : List Piece) : Prop
  | opening {inner rest : List Piece} (hcontent : content = "(") (hcount : unclosed before = depth)
      (hinner : Nested (depth + 1) inner) (hafter : after = inner ++ closeParen depth :: rest)
  | closing {outer inner : List Piece} (hcontent : content = ")") (hcount : unclosed outer = depth)
      (hinner : Nested (depth + 1) inner) (hbefore : before = outer ++ openParen depth :: inner)

theorem Paired.append {before after : List Piece} {depth : Nat} {content : String}
    (h : Paired before depth content after) (more : List Piece) :
    Paired before depth content (after ++ more) := by
  cases h with
  | opening hcontent hcount hinner hafter =>
    exact .opening hcontent hcount hinner (by rw [hafter, List.append_assoc, List.cons_append])
  | closing hcontent hcount hinner hbefore => exact .closing hcontent hcount hinner hbefore

/-- Among nested pieces, which stand where `depth` parentheses are open, every parenthesis
has a partner. -/
theorem Nested.paired {depth : Nat} {ps : List Piece} (h : Nested depth ps) :
    ∀ {outside before after : List Piece} {d : Nat} {content : String},
      unclosed outside = depth → ps = before ++ .text (.paren d) content :: after →
        Paired (outside ++ before) d content after := by
  induction h with
  | nil =>
    intro outside before after d content _ hps
    exact absurd hps.symm (by simp)
  | @cons depth p ps hp _ ih =>
    intro outside before after d content hcount hps
    obtain ⟨_, hhead⟩ | ⟨later, rfl, htail⟩ := List.cons_eq_append_iff.mp hps
    · obtain rfl := (List.cons.inj hhead).1
      exact Bool.noConfusion hp
    · have hcount : unclosed (outside ++ [p]) = depth := by
        rw [unclosed_append, unclosed_other hp, hcount, Int.add_zero]
      simpa using ih hcount htail
  | @pair depth inner ps hinner _ ih_inner ih =>
    intro outside before after d content hcount hps
    have hinside : unclosed (outside ++ [openParen depth]) = (depth + 1 : Nat) := by
      rw [unclosed_append, hcount, unclosed_openParen]
      rfl
    have hbehind :
        unclosed (outside ++ openParen depth :: inner ++ [closeParen depth]) = depth := by
      rw [unclosed_append, unclosed_append, unclosed_cons, hcount, hinner.unclosed_eq_zero,
        unclosed_openParen, unclosed_closeParen]
      omega
    obtain ⟨rfl, hhead⟩ | ⟨later, rfl, htail⟩ := List.cons_eq_append_iff.mp hps
    · obtain ⟨hopen, rfl⟩ := List.cons.inj hhead
      cases hopen
      exact .opening rfl (by simpa using hcount) hinner rfl
    · -- the parenthesis stands inside the pair, closes it or stands behind it
      obtain ⟨rest, hlater, hrest⟩ | ⟨rest, hlater, hrest⟩ := List.append_eq_append_iff.mp htail
      · obtain ⟨rfl, hclose⟩ | ⟨_, rfl, hbehindPs⟩ := List.cons_eq_append_iff.mp hrest
        · cases hclose
          exact .closing rfl hcount hinner (by simpa using hlater)
        · rw [hlater]
          simpa using ih hbehind hbehindPs
      · obtain ⟨rfl, hclose⟩ | ⟨_, rfl, hafter⟩ := List.cons_eq_append_iff.mp hrest
        · cases hclose
          exact .closing rfl hcount hinner (by simpa using hlater.symm)
        · rw [hafter]
          simpa using (ih_inner hinside hlater).append (closeParen depth :: ps)

namespace Block

mutual
/-- The block's own parentheses are marked with `depth`, and each further in with one more
than those around it; no text of the block is styled as a parenthesis. -/
def Marked (depth : Nat) : Block → Prop
  | .text style _ => style.isParen = false
  | .form d head args => d = depth ∧ head.Marked (depth + 1) ∧ MarkedAll (depth + 1) args
  | .group d items => d = depth ∧ MarkedAll (depth + 1) items

def MarkedAll (depth : Nat) : List Block → Prop
  | [] => True
  | b :: bs => b.Marked depth ∧ MarkedAll depth bs
end

theorem markedAll_iff {depth : Nat} {bs : List Block} :
    MarkedAll depth bs ↔ ∀ b ∈ bs, b.Marked depth := by
  induction bs with
  | nil => exact ⟨fun _ => List.forall_mem_nil _, fun _ => trivial⟩
  | cons b bs ih => rw [MarkedAll, List.forall_mem_cons, ih]

mutual
/-- On one line the marks of a block count the pairs around its parentheses. -/
theorem Marked.flat {depth : Nat} : ∀ {b : Block}, b.Marked depth → Nested depth b.flat
  | .text _ _, h => .cons h .nil
  | .form d head args, h => by
    rw [Marked] at h
    obtain ⟨rfl, hhead, hargs⟩ := h
    rw [Block.flat, List.cons_append]
    exact .wrap (hhead.flat.append hargs.flatAfter)
  | .group d [], h => by
    rw [Marked] at h
    obtain ⟨rfl, _⟩ := h
    exact .wrap .nil
  | .group d (b :: bs), h => by
    rw [Marked, MarkedAll] at h
    obtain ⟨rfl, hb, hbs⟩ := h
    rw [Block.flat, flatAll]
    exact .wrap (hb.flat.append hbs.flatAfter)

theorem MarkedAll.flatAfter {depth : Nat} : ∀ {bs : List Block}, MarkedAll depth bs →
    Nested depth (flatAfter bs)
  | [], _ => .nil
  | b :: bs, h => by
    rw [MarkedAll] at h
    rw [Block.flatAfter]
    exact .cons rfl (h.1.flat.append h.2.flatAfter)
end

mutual
/-- So they do on every page. -/
theorem Marked.layout {depth : Nat} (width : Nat) : ∀ {b : Block} (indent column after : Nat),
    b.Marked depth → Nested depth (b.layout width indent column after)
  | .text _ _, _, _, _, h => .cons h .nil
  | .form d head args, indent, column, after, h => by
    rw [Block.layout]
    split
    · exact h.flat
    · rw [Marked] at h
      obtain ⟨rfl, hhead, hargs⟩ := h
      rw [List.cons_append]
      exact .wrap ((hhead.layout width _ _ _).append (hargs.lines width _ _))
  | .group d [], indent, column, after, h => by
    rw [Block.layout]
    split
    · exact h.flat
    · rw [Marked] at h
      obtain ⟨rfl, _⟩ := h
      exact .wrap .nil
  | .group d (b :: bs), indent, column, after, h => by
    rw [Block.layout]
    split
    · exact h.flat
    · rw [Marked, MarkedAll] at h
      obtain ⟨rfl, hb, hbs⟩ := h
      rw [layoutAll]
      exact .wrap ((hb.layout width _ _ _).append (hbs.lines width _ _))

theorem MarkedAll.lines {depth : Nat} (width : Nat) : ∀ {bs : List Block} (indent after : Nat),
    MarkedAll depth bs → Nested depth (layoutLines width indent after bs)
  | [], _, _, _ => .nil
  | b :: bs, indent, after, h => by
    rw [MarkedAll] at h
    rw [layoutLines]
    exact .cons rfl ((h.1.layout width _ _ _).append (h.2.lines width _ _))
end

end Block

end Layout

namespace Script

open Layout

/-! ## The depths of a script's blocks -/

open Block

section Marked

variable (s : Script)

theorem marked_form {depth : Nat} {head : Block} {args : List Block}
    (hhead : head.Marked (depth + 1)) (hargs : MarkedAll (depth + 1) args) :
    Marked depth (.form depth head args) := by
  rw [Marked]
  exact ⟨rfl, hhead, hargs⟩

theorem marked_group {depth : Nat} {items : List Block} (h : MarkedAll (depth + 1) items) :
    Marked depth (.group depth items) := by
  rw [Marked]
  exact ⟨rfl, h⟩

theorem markedAll_nil {depth : Nat} : MarkedAll depth [] := by
  rw [MarkedAll]
  trivial

theorem markedAll_cons {depth : Nat} {b : Block} {bs : List Block} (h : b.Marked depth)
    (hs : MarkedAll depth bs) : MarkedAll depth (b :: bs) := by
  rw [MarkedAll]
  exact ⟨h, hs⟩

theorem markedAll_singleton {depth : Nat} {b : Block} (h : b.Marked depth) : MarkedAll depth [b] :=
  markedAll_cons h markedAll_nil

/-- A name takes no parentheses, so it is in place at every depth. -/
theorem marked_name (depth : Nat) (name : String) : Gives (Marked depth) (nameBlock name) :=
  .anyway fun _ => .ok rfl

mutual
theorem marked_sort : ∀ (depth : Nat) (sort : TermSort),
    Gives (Marked depth) (sortBlock depth sort)
  | depth, .named n => by
    rw [sortBlock]
    exact .anyway fun _ => .ok rfl
  | depth, .set e => by
    rw [sortBlock]
    exact .bind (marked_sort (depth + 1) e) fun b hb =>
      .ok (marked_form rfl (markedAll_singleton hb))
  | depth, .tuple cs => by
    rw [sortBlock]
    exact .checked (.bind (marked_sorts depth cs) fun bs hbs => .ok (marked_form rfl hbs))
  | _, .int => .ok rfl
  | _, .bool => .ok rfl
  | _, .real => .error _
  | _, .string => .error _

theorem marked_sorts : ∀ (depth : Nat) (sorts : List TermSort),
    Gives (MarkedAll (depth + 1)) (sortBlocks depth sorts)
  | _, [] => .ok markedAll_nil
  | depth, sort :: sorts => by
    rw [sortBlocks]
    exact .bind (marked_sort (depth + 1) sort) fun b hb =>
      .bind (marked_sorts depth sorts) fun bs hbs => .ok (markedAll_cons hb hbs)
end

theorem marked_sortsBlock (depth : Nat) (sorts : List TermSort) :
    Gives (Marked depth) (sortsBlock depth sorts) :=
  .bind (marked_sorts depth sorts) fun _ hbs => .ok (marked_group hbs)

theorem marked_binding (depth : Nat) (id : DeclId) :
    Gives (Marked (depth + 1)) (s.bindingBlock depth id) := by
  refine .anyway fun d => ?_
  cases d with
  | «variable» name sort =>
    exact .bind (marked_name _ name) fun head hhead => .bind (marked_sort (depth + 2) sort)
      fun b hb => .ok (marked_form hhead (markedAll_singleton hb))
  | function name inputs output => exact .error _
  | constant name sort => exact .error _
  | definition name parameters output body => exact .error _

theorem marked_bindings (depth : Nat) (ids : List DeclId) :
    Gives (Marked depth) (s.bindingsBlock depth ids) :=
  .bind (.mapM fun id _ => s.marked_binding depth id) fun _ hbs =>
    .ok (marked_group (markedAll_iff.mpr hbs))

theorem marked_int (depth : Nat) (n : Int) : Marked depth (intBlock depth n) := by
  unfold intBlock
  split
  · exact marked_form rfl (markedAll_singleton rfl)
  · rfl

theorem marked_setLiteral (depth : Nat) (literal : String) (sort : TermSort) :
    Gives (Marked depth) (setLiteralBlock depth literal sort) := by
  rw [setLiteralBlock]
  exact .checked (.bind (marked_sort (depth + 1) sort) fun b hb =>
    .ok (marked_form rfl (markedAll_cons rfl (markedAll_singleton hb))))

theorem marked_selector (depth : Nat) (t : Term) :
    Gives (Marked depth) (selectorBlock depth t) := by
  unfold selectorBlock
  split
  · split
    · exact .error _
    · exact .ok (marked_form rfl (markedAll_cons rfl (markedAll_singleton rfl)))
  · exact .error _

-- by induction on the term, for every depth that it may be printed at
mutual
theorem marked_term : ∀ (depth : Nat) (t : Term), Gives (Marked depth) (s.termBlock depth t)
  | depth, .ref id => by
    rw [termBlock]
    exact .anyway fun d => marked_name depth d.name
  | depth, .int n => .ok (marked_int depth n)
  | _, .bool b => .ok rfl
  | depth, .emptySet sort => marked_setLiteral depth _ sort
  | depth, .fullSet sort => marked_setLiteral depth _ sort
  | depth, .unary op a => by
    rw [termBlock]
    exact .bind (marked_term (depth + 1) a) fun b hb =>
      .ok (marked_form rfl (markedAll_singleton hb))
  | depth, .binary op a b => by
    rw [termBlock]
    split
    · exact .bind (marked_selector (depth + 1) a) fun head hhead =>
        .bind (marked_term (depth + 1) b) fun b hb =>
          .ok (marked_form hhead (markedAll_singleton hb))
    · exact .bind (marked_term (depth + 1) a) fun l hl =>
        .bind (marked_term (depth + 1) b) fun r hr =>
          .ok (marked_form rfl (markedAll_cons hl (markedAll_singleton hr)))
  | depth, .nary op args => by
    rw [termBlock]
    exact .checked (.bind (marked_terms depth args) fun bs hbs => .ok (marked_form rfl hbs))
  | depth, .quantified q vars body => by
    rw [termBlock]
    exact .checked (.bind (s.marked_bindings (depth + 1) vars) fun bindings hbindings =>
      .bind (marked_term (depth + 1) body) fun b hb =>
        .ok (marked_form rfl (markedAll_cons hbindings (markedAll_singleton hb))))
  | depth, .ite c a b => by
    rw [termBlock]
    exact .bind (marked_term (depth + 1) c) fun condition hc =>
      .bind (marked_term (depth + 1) a) fun yes ha => .bind (marked_term (depth + 1) b)
        fun no hb => .ok (marked_form rfl (markedAll_cons hc
          (markedAll_cons ha (markedAll_singleton hb))))
  | depth, .call f args => by
    rw [termBlock]
    -- a call without arguments is a name, and one with arguments has it inside parentheses
    split
    · exact .bind (marked_name depth f) fun head hhead => .ok hhead
    · exact .bind (marked_name (depth + 1) f) fun head hhead =>
        .bind (marked_terms depth args) fun bs hbs => .ok (marked_form hhead hbs)

theorem marked_terms : ∀ (depth : Nat) (ts : List Term),
    Gives (MarkedAll (depth + 1)) (s.termBlocks depth ts)
  | _, [] => .ok markedAll_nil
  | depth, t :: ts => by
    rw [termBlocks]
    exact .bind (marked_term (depth + 1) t) fun b hb =>
      .bind (marked_terms depth ts) fun bs hbs => .ok (markedAll_cons hb hbs)
end

/-- What a script's text is made of: lines of the prelude, comments, and commands, which
stand in parentheses of depth zero. -/
inductive Line : Block → Prop
  | prelude {line : String} (h : line ∈ prelude) : Line (.text .keyword line)
  | comment {text : String} : Line (.text .comment text)
  | command {name : String} {args : List Block} (h : MarkedAll 1 args) :
      Line (commandBlock name args)

theorem line_sortDeclaration (d : SortDeclaration) : Gives Line (sortDeclarationBlock d) :=
  .anyway fun _ => .ok (.command (markedAll_cons rfl (markedAll_singleton rfl)))

theorem line_declaration (d : Declaration) : Gives Line (s.declarationBlock d) := by
  cases d with
  | function name inputs output =>
    exact .bind (marked_name 1 name) fun head hhead =>
      .bind (marked_sortsBlock 1 inputs) fun inputs hinputs =>
        .bind (marked_sort 1 output) fun sort hsort => .ok (.command
          (markedAll_cons hhead (markedAll_cons hinputs (markedAll_singleton hsort))))
  | constant name sort =>
    exact .bind (marked_name 1 name) fun head hhead => .bind (marked_sort 1 sort)
      fun sort hsort => .ok (.command (markedAll_cons hhead (markedAll_singleton hsort)))
  | definition name parameters output body =>
    exact .bind (marked_name 1 name) fun head hhead =>
      .bind (s.marked_bindings 1 parameters) fun bindings hbindings =>
        .bind (marked_sort 1 output) fun sort hsort => .bind (s.marked_term 1 body) fun b hb =>
          .ok (.command (markedAll_cons hhead (markedAll_cons hbindings
            (markedAll_cons hsort (markedAll_singleton hb)))))
  | «variable» name sort => exact .error _

theorem line_comment (name : String) : Gives Line (commentBlock name) := by
  unfold commentBlock
  split
  · exact .error _
  · exact .ok .comment

theorem line_assertion (a : Assertion) :
    Gives (fun bs => ∀ b ∈ bs, Line b) (s.assertionBlocks a) := by
  obtain ⟨name, formula⟩ := a
  refine .bind (s.marked_term 1 formula) fun b hb => ?_
  have hcommand : Line (commandBlock "assert" [b]) := .command (markedAll_singleton hb)
  cases name with
  | none => exact .ok (List.forall_mem_singleton.mpr hcommand)
  | some name =>
    exact .bind (line_comment name) fun comment hcomment =>
      .ok (List.forall_mem_cons.mpr ⟨hcomment, List.forall_mem_singleton.mpr hcommand⟩)

theorem line_blocks : Gives (fun bs => ∀ b ∈ bs, Line b) s.blocks := by
  refine .bind (.mapM fun d _ => line_sortDeclaration d) fun sorts hsorts => ?_
  refine .bind (.mapM fun _ _ => .anyway s.line_declaration) fun declarations hdecls => ?_
  refine .bind (.mapM fun a _ => s.line_assertion a) fun assertions hassertions => .ok ?_
  simp only [List.forall_mem_append, List.forall_mem_map, List.mem_flatten]
  refine ⟨⟨⟨fun line hline => .prelude hline, hsorts⟩, hdecls⟩, ?_⟩
  rintro b ⟨bs, hbs, hb⟩
  exact hassertions bs hbs b hb

end Marked

/-! ## Pages -/

section Pages

variable {s : Script}

theorem Line.marked {b : Block} (h : Line b) : b.Marked 0 := by
  cases h with
  | prelude _ => rfl
  | comment => rfl
  | command h => exact marked_form rfl h

/-- A command is one pair of parentheses on every page. -/
theorem layout_command {name : String} {args : List Block} (h : MarkedAll 1 args) (width : Nat) :
    ∃ inner, Nested 1 inner ∧
      (commandBlock name args).layout width 0 0 0 = openParen 0 :: inner ++ [closeParen 0] := by
  have hname : Marked 1 (.text .keyword name) := rfl
  rw [commandBlock, layout]
  split
  · exact ⟨_, hname.flat.append h.flatAfter, rfl⟩
  · exact ⟨_, (hname.layout width _ _ _).append (h.lines width _ _), rfl⟩

theorem nested_layoutBlocks {bs : List Block} (h : ∀ b ∈ bs, Line b) (width : Nat) :
    Nested 0 (layoutBlocks width bs) := by
  induction bs with
  | nil => exact .nil
  | cons b bs ih =>
    rw [List.forall_mem_cons] at h
    rw [layoutBlocks, List.flatMap_cons]
    exact ((h.1.marked.layout width 0 0 0).append (.cons rfl .nil)).append (ih h.2)

open Emission

/-- A coloured page is the plain one with colour control between its texts, and without the
control it is the plain one. Each command is one pair of parentheses on it, and every
parenthesis is marked with the number of those that are open around it and its partner. -/
theorem printColoured_pairs {bs : List Block} (h : s.blocks = .ok bs) (width : Nat) :
    (∃ coloured plain, s.printColoured width = .ok coloured ∧ s.print width = .ok plain ∧
      coloured = sent (emissions (layoutBlocks width bs)) ∧
      plain = sent ((emissions (layoutBlocks width bs)).filter isText) ∧
      ('\x1b' ∉ plain.toList → uncoloured false coloured.toList = plain.toList)) ∧
    (∀ b ∈ bs, (∃ line ∈ prelude, b = .text .keyword line) ∨ (∃ text, b = .text .comment text) ∨
      ∃ inner, Nested 1 inner ∧ b.layout width 0 0 0 = openParen 0 :: inner ++ [closeParen 0]) ∧
    ∀ before depth content after,
      layoutBlocks width bs = before ++ .text (.paren depth) content :: after →
        Paired before depth content after := by
  have hlines := s.line_blocks bs h
  refine ⟨⟨render Piece.coloured (layoutBlocks width bs),
    render Piece.plain (layoutBlocks width bs), ?_, ?_, (sent_emissions _).symm,
    (sent_texts _).symm, uncoloured_render⟩, ?_, ?_⟩
  · rw [printColoured, h]
    rfl
  · rw [print, h]
    rfl
  · intro b hb
    cases hlines b hb with
    | prelude hline => exact .inl ⟨_, hline, rfl⟩
    | comment => exact .inr (.inl ⟨_, rfl⟩)
    | command hargs => exact .inr (.inr (layout_command hargs width))
  · intro before depth content after hpage
    exact (nested_layoutBlocks hlines width).paired unclosed_nil hpage

/-- The comment has a parenthesis without a partner, and the sign of the number is in four. -/
def deepScript : Script where
  arena := #[.variable "x" .int]
  assertions := [⟨some "1)", .quantified .all [⟨0⟩] (.binary .lt (.int (-1)) (.ref ⟨0⟩))⟩]

def deepBlocks : List Block :=
  prelude.map (.text .keyword ·) ++ [.text .comment "; 1)", commandBlock "assert"
    [.form 1 (.text .keyword "forall")
      [.group 2 [.form 3 (.text .name "x") [.text .sort "Int"]],
        .form 2 (.text .operator "<")
          [.form 3 (.text .operator "-") [.text .literal "1"], .text .name "x"]]]]

theorem printColoured_pairs_deep : deepScript.blocks = .ok deepBlocks ∧
    ∃ before inner rest, unclosed before = 3 ∧ Nested 4 inner ∧
      layoutBlocks 10 deepBlocks = before ++ openParen 3 :: (inner ++ closeParen 3 :: rest) := by
  have hblocks : deepScript.blocks = .ok deepBlocks := rfl
  have hopen : openParen 3 ∈ layoutBlocks 10 deepBlocks := by decide
  obtain ⟨_, _, hpairs⟩ := printColoured_pairs hblocks 10
  obtain ⟨before, after, hpage⟩ := List.append_of_mem hopen
  cases hpairs before 3 "(" after hpage with
  | closing hcontent => exact absurd hcontent (by decide)
  | opening _ hcount hinner hafter =>
    exact ⟨hblocks, before, _, _, hcount, hinner, hafter ▸ hpage⟩

end Pages

end Script

end TupleLogic
