import TupleLogic.Proofs.BoundedAccess

/-! Generated declarations and their names. Variables, elements and sets are drawn
from three counters, and their names have a form of their own. A script can be
redrawn: its generated declarations take new names, in the order in which they were
declared, from another supply. A script whose names were drawn from a supply is the
one that this supply redraws. -/

namespace TupleLogic

/-! ## Names of generated form -/

/-- An underscore, the mark, and digits. -/
def hasForm (mark : Char) (name : String) : Bool :=
  name.toList.take 2 == ['_', mark] && !(name.toList.drop 2).isEmpty &&
    (name.toList.drop 2).all Char.isDigit

/-- The counters that names are drawn from. -/
inductive Source where
  /-- Bound variables. -/
  | bound
  | element
  | set
  deriving DecidableEq, Repr

namespace Source

def mark : Source → Char
  | .bound => 'x'
  | .element => 'a'
  | .set => 'S'

def nameAt : Source → Nat → String
  | .bound => NameSupply.variableName
  | .element => NameSupply.elementName
  | .set => NameSupply.setName

theorem toList_nameAt (source : Source) (n : Nat) :
    (source.nameAt n).toList = '_' :: source.mark :: (toString n).toList := by
  cases source with
  | bound => exact NameSupply.toList_variableName n
  | element => exact NameSupply.toList_elementName n
  | set => exact NameSupply.toList_setName n

theorem nameAt_injective {source : Source} {i j : Nat} (h : source.nameAt i = source.nameAt j) :
    i = j := by
  have hlist := congrArg String.toList h
  rw [toList_nameAt, toList_nameAt, List.cons.injEq, List.cons.injEq] at hlist
  exact NameSupply.eq_of_digits hlist.2.2

theorem hasForm_nameAt (source : Source) (n : Nat) :
    hasForm source.mark (source.nameAt n) = true := by
  have hne : Nat.toDigits 10 n ≠ [] := Nat.toDigits_ne_nil
  have hall : ∀ c ∈ Nat.toDigits 10 n, c.isDigit = true :=
    fun c hc => Nat.isDigit_of_mem_toDigits (by decide) (by decide) hc
  simpa [hasForm, toList_nameAt, hne] using hall

end Source

theorem hasForm_inj {mark mark' : Char} {name : String} (h : hasForm mark name = true)
    (h' : hasForm mark' name = true) : mark = mark' := by
  simp only [hasForm, Bool.and_eq_true, beq_iff_eq] at h h'
  simpa using h.1.1.symm.trans h'.1.1

namespace NameSupply

def draw (names : NameSupply) : Source → String × NameSupply
  | .bound => names.freshVariable
  | .element => names.freshElement
  | .set => names.freshSet

def count (names : NameSupply) : Source → Nat
  | .bound => names.variableCount
  | .element => names.elementCount
  | .set => names.setCount

theorem draw_name (names : NameSupply) (source : Source) :
    (names.draw source).1 = source.nameAt (names.count source + 1) := by
  cases source <;> rfl

theorem count_draw (names : NameSupply) (source source' : Source) :
    (names.draw source).2.count source' =
      names.count source' + if source = source' then 1 else 0 := by
  cases source <;> cases source' <;> rfl

end NameSupply

namespace Declaration

/-- The counter that a generated declaration takes its name from. -/
def source? : Declaration → Option Source
  | .variable name _ => if hasForm 'x' name then some .bound else none
  | .constant name _ => if hasForm 'a' name then some .element else none
  | .function name _ _ => if hasForm 'S' name then some .set else none
  | .definition .. => none

def rename (name : String) : Declaration → Declaration
  | .variable _ sort => .variable name sort
  | .constant _ sort => .constant name sort
  | .function _ inputs output => .function name inputs output
  | .definition _ parameters output body => .definition name parameters output body

/-- A generated declaration takes the next name of its counter. -/
def redrawn (names : NameSupply) (d : Declaration) : Declaration × NameSupply :=
  match d.source? with
  | none => (d, names)
  | some source => (d.rename (names.draw source).1, (names.draw source).2)

theorem name_rename (d : Declaration) (name : String) : (d.rename name).name = name := by
  cases d <;> rfl

theorem sort_rename (d : Declaration) (name : String) : (d.rename name).sort = d.sort := by
  cases d <;> rfl

theorem kind_rename (d : Declaration) (name : String) : (d.rename name).kind = d.kind := by
  cases d <;> rfl

theorem rename_rename (d : Declaration) (name name' : String) :
    (d.rename name).rename name' = d.rename name' := by
  cases d <;> rfl

theorem source?_rename {d : Declaration} {source : Source} (h : d.source? = some source)
    (n : Nat) : (d.rename (source.nameAt n)).source? = some source := by
  have hform := source.hasForm_nameAt n
  cases d with
  | definition => cases h
  | _ =>
    simp only [source?] at h
    split at h
    · obtain rfl := Option.some.inj h
      simp only [Source.mark] at hform
      simp [rename, source?, hform]
    · cases h

variable {names : NameSupply} {d : Declaration}

theorem redrawn_of_none (h : d.source? = none) : d.redrawn names = (d, names) := by
  rw [redrawn, h]

theorem redrawn_of_some {source : Source} (h : d.source? = some source) :
    d.redrawn names = (d.rename (names.draw source).1, (names.draw source).2) := by
  rw [redrawn, h]

/-- Only the name changes. -/
theorem redrawn_eq (names : NameSupply) (d : Declaration) :
    (d.redrawn names).1.sort = d.sort ∧ (d.redrawn names).1.kind = d.kind ∧
      (d.redrawn names).1.source? = d.source? := by
  cases h : d.source? with
  | none => simp [redrawn_of_none h, h]
  | some source =>
    rw [redrawn_of_some h, names.draw_name]
    exact ⟨sort_rename .., kind_rename .., source?_rename h _⟩

theorem redrawn_redrawn (names names' : NameSupply) (d : Declaration) :
    (d.redrawn names').1.redrawn names = d.redrawn names := by
  cases h : d.source? with
  | none => rw [redrawn_of_none h]
  | some source =>
    have h' : (d.redrawn names').1.source? = some source := (redrawn_eq names' d).2.2.trans h
    rw [redrawn_of_some h', redrawn_of_some h, redrawn_of_some h, rename_rename]

theorem count_redrawn (names : NameSupply) (d : Declaration) (source : Source) :
    (d.redrawn names).2.count source =
      names.count source + if d.source? = some source then 1 else 0 := by
  cases h : d.source? with
  | none => simp [redrawn_of_none h]
  | some source' =>
    rw [redrawn_of_some h, names.count_draw]
    simp

end Declaration

/-! ## Declarations in order -/

/-- The declarations with new names for those that are generated, and what is
left of the supply. -/
def redraw : NameSupply → List Declaration → List Declaration × NameSupply
  | names, [] => ([], names)
  | names, d :: ds =>
    ((d.redrawn names).1 :: (redraw (d.redrawn names).2 ds).1, (redraw (d.redrawn names).2 ds).2)

section Redraw

variable (names : NameSupply) (ds : List Declaration)

theorem redraw_append (d : Declaration) : redraw names (ds ++ [d]) =
    ((redraw names ds).1 ++ [(d.redrawn (redraw names ds).2).1],
      (d.redrawn (redraw names ds).2).2) := by
  induction ds generalizing names with
  | nil => rfl
  | cons e ds ih => simp only [List.cons_append, redraw, ih]

theorem length_redraw : (redraw names ds).1.length = ds.length := by
  induction ds generalizing names with
  | nil => rfl
  | cons d ds ih => simp only [redraw, List.length_cons, ih]

variable {ds} in
theorem redraw_of_none (h : ∀ d ∈ ds, d.source? = none) : redraw names ds = (ds, names) := by
  induction ds with
  | nil => rfl
  | cons d ds ih =>
    obtain ⟨hd, hds⟩ := List.forall_mem_cons.mp h
    simp only [redraw, Declaration.redrawn_of_none hd, ih hds]

theorem redraw_getElem? (i : Nat) : ∃ supply, (redraw names ds).1[i]? =
    (ds[i]?).map fun d => (d.redrawn supply).1 := by
  induction ds generalizing names i with
  | nil => exact ⟨names, by simp [redraw]⟩
  | cons d ds ih =>
    cases i with
    | zero => exact ⟨names, rfl⟩
    | succ i => exact ih _ i

/-- The declarations that take their names from a counter. -/
def drawnFrom (source : Source) : List Declaration :=
  ds.filter fun d => d.source? = some source

theorem count_redraw (source : Source) :
    (redraw names ds).2.count source = names.count source + (drawnFrom ds source).length := by
  induction ds generalizing names with
  | nil => rfl
  | cons d ds ih =>
    simp only [redraw, ih, Declaration.count_redrawn, drawnFrom, List.filter_cons]
    by_cases h : d.source? = some source
    · simp [h]
      omega
    · simp [h]

/-- The names of a counter are numbered from where the supply stands. -/
theorem drawnFrom_redraw (source : Source) :
    (drawnFrom (redraw names ds).1 source).map Declaration.name =
      (List.range (drawnFrom ds source).length).map fun i =>
        source.nameAt (names.count source + i + 1) := by
  induction ds generalizing names with
  | nil => rfl
  | cons d ds ih =>
    have ih := ih (d.redrawn names).2
    have hsource := (Declaration.redrawn_eq names d).2.2
    rw [Declaration.count_redrawn] at ih
    by_cases h : d.source? = some source
    · have hname : (d.redrawn names).1.name = source.nameAt (names.count source + 1) := by
        rw [Declaration.redrawn_of_some h, Declaration.name_rename, names.draw_name]
      simp only [redraw, drawnFrom, List.filter_cons, hsource, h, decide_true, if_true,
        List.map_cons, List.length_cons, List.range_succ_eq_map, hname] at ih ⊢
      rw [ih, List.map_map]
      refine congrArg (_ :: ·) (List.map_congr_left fun i _ => ?_)
      simp only [Function.comp]
      congr 1
      omega
    · simp only [redraw, drawnFrom, List.filter_cons, hsource, h, decide_false, if_false,
        Nat.add_zero] at ih ⊢
      exact ih

end Redraw

end TupleLogic
