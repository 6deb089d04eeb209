import TupleLogic.Proofs.Correspondence

/-! Scripts that mean the same by name have the same text. A text is laid out
by the widths of its parts, which do not depend on their styles; so a name that
is read as a literal changes the colours of a page and nothing else. -/

namespace TupleLogic.Layout

namespace Block

mutual
/-- The block without the styles of its texts. -/
def bare : Block → Block
  | .text _ s => .text .name s
  | .form depth head args => .form depth head.bare (bareAll args)
  | .group depth items => .group depth (bareAll items)

def bareAll : List Block → List Block
  | [] => []
  | b :: bs => b.bare :: bareAll bs
end

theorem isEmpty_bareAll (bs : List Block) : (bareAll bs).isEmpty = bs.isEmpty := by
  cases bs <;> rfl

mutual
theorem flatWidth_bare : ∀ b : Block, b.bare.flatWidth = b.flatWidth
  | .text _ _ => rfl
  | .form _ head args => by
    rw [bare, flatWidth, flatWidth, flatWidth_bare head, flatWidths_bare args]
  | .group _ items => by rw [bare, flatWidth, flatWidth, flatWidths_bare items]

theorem flatWidths_bare : ∀ bs : List Block, flatWidths (bareAll bs) = flatWidths bs
  | [] => rfl
  | b :: bs => by rw [bareAll, flatWidths, flatWidths, flatWidth_bare b, flatWidths_bare bs]
end

mutual
theorem chars_flat_bare : ∀ b : Block, chars b.bare.flat = chars b.flat
  | .text _ _ => rfl
  | .form _ head args => by
    simp only [bare, flat, List.cons_append, chars_cons, chars_append,
      chars_flat_bare head, chars_flatAfter_bare args]
  | .group _ [] => rfl
  | .group _ (b :: bs) => by
    simp only [bare, bareAll, flat, flatAll, List.cons_append, chars_cons, chars_append,
      chars_flat_bare b, chars_flatAfter_bare bs]

theorem chars_flatAfter_bare : ∀ bs : List Block,
    chars (flatAfter (bareAll bs)) = chars (flatAfter bs)
  | [] => rfl
  | b :: bs => by
    simp only [bareAll, flatAfter, List.cons_append, chars_cons, chars_append,
      chars_flat_bare b, chars_flatAfter_bare bs]
end

mutual
theorem chars_layout_bare (width : Nat) : ∀ (b : Block) (indent column after : Nat),
    chars (b.bare.layout width indent column after) = chars (b.layout width indent column after)
  | .text _ _, _, _, _ => rfl
  | .form depth head args, indent, column, after => by
    have hwidth := flatWidth_bare (.form depth head args)
    rw [bare] at hwidth
    rw [bare, layout, layout, hwidth]
    by_cases hfits : column + (Block.form depth head args).flatWidth + after ≤ width
    · rw [if_pos hfits, if_pos hfits]
      exact chars_flat_bare (.form depth head args)
    · rw [if_neg hfits, if_neg hfits]
      simp only [List.cons_append, chars_cons, chars_append, isEmpty_bareAll,
        chars_layout_bare width head, chars_layoutLines_bare width args]
  | .group _ [], indent, column, after => rfl
  | .group depth (b :: bs), indent, column, after => by
    have hwidth := flatWidth_bare (.group depth (b :: bs))
    rw [bare] at hwidth
    rw [bare, layout, layout, hwidth]
    by_cases hfits : column + (Block.group depth (b :: bs)).flatWidth + after ≤ width
    · rw [if_pos hfits, if_pos hfits]
      exact chars_flat_bare (.group depth (b :: bs))
    · rw [if_neg hfits, if_neg hfits]
      simp only [bareAll, layoutAll, List.cons_append, chars_cons, chars_append, isEmpty_bareAll,
        chars_layout_bare width b, chars_layoutLines_bare width bs]

theorem chars_layoutLines_bare (width : Nat) : ∀ (bs : List Block) (indent after : Nat),
    chars (layoutLines width indent after (bareAll bs)) = chars (layoutLines width indent after bs)
  | [], _, _ => rfl
  | b :: bs, indent, after => by
    simp only [bareAll, layoutLines, List.cons_append, chars_cons, chars_append,
      isEmpty_bareAll, chars_layout_bare width b, chars_layoutLines_bare width bs]
end

/-- Blocks that differ in the styles of their texts only. -/
def Alike (b b' : Block) : Prop := b.bare = b'.bare

theorem Alike.refl (b : Block) : b.Alike b := rfl

theorem bareAll_eq_of_alike {bs bs' : List Block} (h : List.Forall₂ Alike bs bs') :
    bareAll bs = bareAll bs' := by
  induction h with
  | nil => rfl
  | cons hb _ ih => rw [bareAll, bareAll, ih, show _ = _ from hb]

theorem Alike.form {depth : Nat} {head head' : Block} {args args' : List Block}
    (h : head.Alike head') (hs : List.Forall₂ Alike args args') :
    (Block.form depth head args).Alike (.form depth head' args') := by
  rw [Alike, bare, bare, bareAll_eq_of_alike hs, show _ = _ from h]

theorem Alike.group {depth : Nat} {items items' : List Block}
    (hs : List.Forall₂ Alike items items') :
    (Block.group depth items).Alike (.group depth items') := by
  rw [Alike, bare, bare, bareAll_eq_of_alike hs]

theorem Alike.chars_layout {b b' : Block} (h : b.Alike b') (width indent column after : Nat) :
    chars (b.layout width indent column after) = chars (b'.layout width indent column after) := by
  rw [← chars_layout_bare width b, h, chars_layout_bare width b']

end Block

end TupleLogic.Layout

namespace TupleLogic.Script

open Layout

variable {s t : Script}

/-- Lists that are related one by one have results that are related so. -/
theorem mapM_forall₂ {α β γ δ ε : Type} {f : α → Except ε γ} {g : β → Except ε δ}
    {R : α → β → Prop} {S : γ → δ → Prop} {xs : List α} {ys : List β} {cs : List γ}
    (h : List.Forall₂ R xs ys) (hf : xs.mapM f = .ok cs)
    (hR : ∀ x y c, R x y → f x = .ok c → ∃ d, g y = .ok d ∧ S c d) :
    ∃ ds, ys.mapM g = .ok ds ∧ List.Forall₂ S cs ds := by
  induction h generalizing cs with
  | nil =>
    obtain rfl := pure_eq_ok.mp hf
    exact ⟨[], rfl, .nil⟩
  | @cons x y xs ys hxy _ ih =>
    rw [List.mapM_cons] at hf
    obtain ⟨c, hc, hf⟩ := bind_eq_ok.mp hf
    obtain ⟨cs, hcs, hf⟩ := bind_eq_ok.mp hf
    obtain rfl := pure_eq_ok.mp hf
    obtain ⟨d, hd, hcd⟩ := hR x y c hxy hc
    obtain ⟨ds, hds, hcds⟩ := ih hcs
    exact ⟨d :: ds, by rw [List.mapM_cons, hd, hds]; rfl, .cons hcd hcds⟩

theorem bindingBlock_of_byName {depth : Nat} {i j : DeclId} {b : Block}
    (h : (byName s t).binder i j) (hb : s.bindingBlock depth i = .ok b) :
    t.bindingBlock depth j = .ok b := by
  obtain ⟨name, sort, hi, hj⟩ := h
  rw [bindingBlock, decl_eq_ok.mpr hi] at hb
  rw [bindingBlock, decl_eq_ok.mpr hj]
  exact hb

theorem bindingsBlock_of_byName {depth : Nat} {is js : List DeclId} {b : Block}
    (h : List.Forall₂ (byName s t).binder is js) (hb : s.bindingsBlock depth is = .ok b) :
    ∃ b', t.bindingsBlock depth js = .ok b' ∧ b.Alike b' := by
  obtain ⟨bs, hbs, hb⟩ := bind_eq_ok.mp hb
  obtain rfl := pure_eq_ok.mp hb
  obtain ⟨bs', hbs', halike⟩ := mapM_forall₂ (S := Block.Alike) h hbs fun i j b hij hb =>
    ⟨b, bindingBlock_of_byName hij hb, .refl b⟩
  exact ⟨.group depth bs', bind_eq_ok.mpr ⟨bs', hbs', rfl⟩, .group halike⟩

/-- A name is written as what it means. -/
theorem nameBlock_of_denote (hc : t.Coherent) {depth : Nat} {ρ : Pairing} (hρ : s.Pairs t ρ)
    {name : String} {u : Term} {b : Block} (hu : t.denote (s.scope ρ) name = some u)
    (hb : nameBlock name = .ok b) : ∃ b', t.termBlock depth u = .ok b' ∧ b.Alike b' := by
  -- a declaration of that name is written as that name
  have href : ∀ {j d}, t.arena[j.index]? = some d → d.name = name →
      ∃ b', t.termBlock depth (.ref j) = .ok b' ∧ b.Alike b' := by
    rintro j d hd rfl
    refine ⟨b, ?_, .refl b⟩
    rw [termBlock, decl_eq_ok.mpr hd]
    exact hb
  unfold denote at hu
  split at hu
  · rename_i hname
    obtain rfl := Option.some.inj hu
    subst hname
    obtain rfl := Except.ok.inj hb
    exact ⟨_, rfl, rfl⟩
  split at hu
  · rename_i hname
    obtain rfl := Option.some.inj hu
    subst hname
    obtain rfl := Except.ok.inj hb
    exact ⟨_, rfl, rfl⟩
  split at hu
  · rename_i j hj
    obtain rfl := Option.some.inj hu
    rw [lookup_scope, Option.map_eq_some_iff] at hj
    obtain ⟨p, hp, rfl⟩ := hj
    have hname := List.find?_some hp
    obtain ⟨n, sort, hi, hj⟩ := hρ p (List.mem_of_find?_eq_some hp)
    rw [decide_eq_true_eq, nameOf_eq hi] at hname
    exact href hj hname
  · obtain ⟨j, hj, rfl⟩ := Option.map_eq_some_iff.mp hu
    obtain ⟨d, hd, hname, _⟩ := hc.lookup.mp hj
    exact href hd hname

mutual
theorem termBlock_of_byName (hc : t.Coherent) :
    ∀ {depth : Nat} {a u : Term} {ρ : Pairing} {b : Block}, s.Pairs t ρ →
      a.Corresponds (byName s t) ρ u → s.termBlock depth a = .ok b →
        ∃ b', t.termBlock depth u = .ok b' ∧ b.Alike b'
  | depth, .ref i, u, ρ, b, hρ, hu, hb => by
    rw [Term.Corresponds] at hu
    rw [termBlock] at hb
    obtain ⟨d, hd, hb⟩ := bind_eq_ok.mp hb
    change t.denote (s.scope ρ) (s.nameOf i) = some u at hu
    rw [nameOf_eq (decl_eq_ok.mp hd)] at hu
    exact nameBlock_of_denote hc hρ hu hb
  | depth, .int _, u, ρ, b, _, hu, hb | depth, .bool _, u, ρ, b, _, hu, hb
  | depth, .emptySet _, u, ρ, b, _, hu, hb | depth, .fullSet _, u, ρ, b, _, hu, hb => by
    rw [Term.Corresponds] at hu
    subst hu
    rw [termBlock] at hb ⊢
    exact ⟨b, hb, .refl b⟩
  | depth, .unary op a, u, ρ, b, hρ, hu, hb => by
    rw [Term.Corresponds] at hu
    obtain ⟨a', rfl, ha⟩ := hu
    rw [termBlock] at hb ⊢
    obtain ⟨ba, hba, hb⟩ := bind_eq_ok.mp hb
    obtain rfl := pure_eq_ok.mp hb
    obtain ⟨ba', hba', halike⟩ := termBlock_of_byName hc hρ ha hba
    exact ⟨_, bind_eq_ok.mpr ⟨ba', hba', rfl⟩, .form (.refl _) (.cons halike .nil)⟩
  | depth, .binary op a e, u, ρ, b, hρ, hu, hb => by
    rw [Term.Corresponds] at hu
    obtain ⟨a', e', rfl, ha, he⟩ := hu
    rw [termBlock] at hb ⊢
    by_cases hop : op = .select
    · rw [if_pos hop] at hb ⊢
      obtain ⟨ba, hba, hb⟩ := bind_eq_ok.mp hb
      obtain ⟨be, hbe, hb⟩ := bind_eq_ok.mp hb
      obtain rfl := pure_eq_ok.mp hb
      obtain ⟨be', hbe', halike⟩ := termBlock_of_byName hc hρ he hbe
      -- a selector is made of a number, which corresponds to itself only
      have hsame : a' = a := by
        unfold selectorBlock at hba
        split at hba
        · rwa [Term.Corresponds] at ha
        · cases hba
      subst hsame
      refine ⟨_, bind_eq_ok.mpr ⟨ba, hba, bind_eq_ok.mpr ⟨be', hbe', rfl⟩⟩, ?_⟩
      exact .form (.refl _) (.cons halike .nil)
    · rw [if_neg hop] at hb ⊢
      obtain ⟨ba, hba, hb⟩ := bind_eq_ok.mp hb
      obtain ⟨be, hbe, hb⟩ := bind_eq_ok.mp hb
      obtain rfl := pure_eq_ok.mp hb
      obtain ⟨ba', hba', ha⟩ := termBlock_of_byName hc hρ ha hba
      obtain ⟨be', hbe', he⟩ := termBlock_of_byName hc hρ he hbe
      refine ⟨_, bind_eq_ok.mpr ⟨ba', hba', bind_eq_ok.mpr ⟨be', hbe', rfl⟩⟩, ?_⟩
      exact .form (.refl _) (.cons ha (.cons he .nil))
  | depth, .nary op args, u, ρ, b, hρ, hu, hb => by
    rw [Term.Corresponds] at hu
    obtain ⟨args', rfl, hargs⟩ := hu
    rw [termBlock] at hb ⊢
    obtain ⟨hne, hb⟩ := checked_eq_ok.mp hb
    obtain ⟨bs, hbs, hb⟩ := bind_eq_ok.mp hb
    obtain rfl := pure_eq_ok.mp hb
    obtain ⟨bs', hbs', hempty, halike⟩ := termBlocks_of_byName hc hρ hargs hbs
    rw [← hempty] at hne
    exact ⟨_, checked_eq_ok.mpr ⟨hne, bind_eq_ok.mpr ⟨bs', hbs', rfl⟩⟩, .form (.refl _) halike⟩
  | depth, .quantified q vars body, u, ρ, b, hρ, hu, hb => by
    rw [Term.Corresponds] at hu
    obtain ⟨vars', body', rfl, hvars, hbody⟩ := hu
    rw [termBlock] at hb ⊢
    obtain ⟨hne, hb⟩ := checked_eq_ok.mp hb
    obtain ⟨bvars, hbvars, hb⟩ := bind_eq_ok.mp hb
    obtain ⟨bbody, hbbody, hb⟩ := bind_eq_ok.mp hb
    obtain rfl := pure_eq_ok.mp hb
    obtain ⟨bvars', hbvars', hvarsAlike⟩ := bindingsBlock_of_byName hvars hbvars
    obtain ⟨bbody', hbbody', hbodyAlike⟩ := termBlock_of_byName hc (hρ.bind hvars) hbody hbbody
    have hne' : ¬ vars'.isEmpty = true := by
      cases hvars with
      | nil => exact hne
      | cons _ _ => nofun
    refine ⟨_, checked_eq_ok.mpr ⟨hne', bind_eq_ok.mpr ⟨bvars', hbvars',
      bind_eq_ok.mpr ⟨bbody', hbbody', rfl⟩⟩⟩, ?_⟩
    exact .form (.refl _) (.cons hvarsAlike (.cons hbodyAlike .nil))
  | depth, .ite e a a₂, u, ρ, b, hρ, hu, hb => by
    rw [Term.Corresponds] at hu
    obtain ⟨e', a', a₂', rfl, he, ha, ha₂⟩ := hu
    rw [termBlock] at hb ⊢
    obtain ⟨be, hbe, hb⟩ := bind_eq_ok.mp hb
    obtain ⟨ba, hba, hb⟩ := bind_eq_ok.mp hb
    obtain ⟨ba₂, hba₂, hb⟩ := bind_eq_ok.mp hb
    obtain rfl := pure_eq_ok.mp hb
    obtain ⟨be', hbe', he⟩ := termBlock_of_byName hc hρ he hbe
    obtain ⟨ba', hba', ha⟩ := termBlock_of_byName hc hρ ha hba
    obtain ⟨ba₂', hba₂', ha₂⟩ := termBlock_of_byName hc hρ ha₂ hba₂
    refine ⟨_, bind_eq_ok.mpr ⟨be', hbe', bind_eq_ok.mpr ⟨ba', hba',
      bind_eq_ok.mpr ⟨ba₂', hba₂', rfl⟩⟩⟩, ?_⟩
    exact .form (.refl _) (.cons he (.cons ha (.cons ha₂ .nil)))
  | depth, .call f args, u, ρ, b, hρ, hu, hb => by
    rw [Term.Corresponds] at hu
    obtain ⟨args', rfl, hargs⟩ := hu
    rw [termBlock] at hb ⊢
    obtain ⟨head, hhead, hb⟩ := bind_eq_ok.mp hb
    by_cases hne : args.isEmpty = true
    · obtain rfl := List.isEmpty_iff.mp hne
      rw [Term.CorrespondsAll] at hargs
      subst hargs
      exact ⟨b, bind_eq_ok.mpr ⟨head, hhead, hb⟩, .refl b⟩
    · rw [if_neg hne] at hb
      obtain ⟨bs, hbs, hb⟩ := bind_eq_ok.mp hb
      obtain rfl := pure_eq_ok.mp hb
      obtain ⟨bs', hbs', hempty, halike⟩ := termBlocks_of_byName hc hρ hargs hbs
      rw [← hempty] at hne
      refine ⟨.form depth head bs', bind_eq_ok.mpr ⟨head, hhead, ?_⟩, .form (.refl _) halike⟩
      rw [if_neg hne]
      exact bind_eq_ok.mpr ⟨bs', hbs', rfl⟩

theorem termBlocks_of_byName (hc : t.Coherent) :
    ∀ {depth : Nat} {as us : List Term} {ρ : Pairing} {bs : List Block}, s.Pairs t ρ →
      Term.CorrespondsAll (byName s t) ρ as us → s.termBlocks depth as = .ok bs →
        ∃ bs', t.termBlocks depth us = .ok bs' ∧ us.isEmpty = as.isEmpty ∧
          List.Forall₂ Block.Alike bs bs'
  | depth, [], us, ρ, bs, _, hu, hb => by
    rw [Term.CorrespondsAll] at hu
    subst hu
    rw [termBlocks] at hb
    obtain rfl := Except.ok.inj hb
    exact ⟨[], rfl, rfl, .nil⟩
  | depth, a :: as, us, ρ, bs, hρ, hu, hb => by
    rw [Term.CorrespondsAll] at hu
    obtain ⟨u, us, rfl, hu, hus⟩ := hu
    rw [termBlocks] at hb ⊢
    obtain ⟨b, hbu, hb⟩ := bind_eq_ok.mp hb
    obtain ⟨bs, hbus, hb⟩ := bind_eq_ok.mp hb
    obtain rfl := pure_eq_ok.mp hb
    obtain ⟨b', hb', halike⟩ := termBlock_of_byName hc hρ hu hbu
    obtain ⟨bs', hbs', _, halikes⟩ := termBlocks_of_byName hc hρ hus hbus
    exact ⟨b' :: bs', bind_eq_ok.mpr ⟨b', hb', bind_eq_ok.mpr ⟨bs', hbs', rfl⟩⟩, rfl,
      .cons halike halikes⟩
end

theorem declarationBlock_of_byName (hc : t.Coherent) {d e : Declaration} {b : Block}
    (hde : d.Corresponds (byName s t) e) (hb : s.declarationBlock d = .ok b) :
    ∃ b', t.declarationBlock e = .ok b' ∧ b.Alike b' := by
  match d, hde with
  | .function _ _ _, rfl => exact ⟨b, hb, .refl b⟩
  | .constant _ _, rfl => exact ⟨b, hb, .refl b⟩
  | .definition name parameters output body, ⟨parameters', body', he, hparameters, hbody⟩ =>
    subst he
    obtain ⟨head, hhead, hb⟩ := bind_eq_ok.mp hb
    obtain ⟨bs, hbs, hb⟩ := bind_eq_ok.mp hb
    obtain ⟨bsort, hsort, hb⟩ := bind_eq_ok.mp hb
    obtain ⟨bbody, hbbody, hb⟩ := bind_eq_ok.mp hb
    obtain rfl := pure_eq_ok.mp hb
    obtain ⟨bs', hbs', hparamsAlike⟩ := bindingsBlock_of_byName hparameters hbs
    obtain ⟨bbody', hbbody', hbodyAlike⟩ :=
      termBlock_of_byName hc ((pairs_nil s t).bind hparameters) hbody hbbody
    refine ⟨_, bind_eq_ok.mpr ⟨head, hhead, bind_eq_ok.mpr ⟨bs', hbs', bind_eq_ok.mpr
      ⟨bsort, hsort, bind_eq_ok.mpr ⟨bbody', hbbody', rfl⟩⟩⟩⟩, ?_⟩
    exact .form (.refl _) (.cons (.refl _) (.cons hparamsAlike
      (.cons (.refl _) (.cons hbodyAlike .nil))))

theorem assertionBlocks_of_byName (hc : t.Coherent) {a e : Assertion} {bs : List Block}
    (hname : e.name = a.name) (hae : a.formula.Corresponds (byName s t) [] e.formula)
    (hb : s.assertionBlocks a = .ok bs) :
    ∃ bs', t.assertionBlocks e = .ok bs' ∧ List.Forall₂ Block.Alike bs bs' := by
  obtain ⟨name, formula⟩ := a
  obtain ⟨name', formula'⟩ := e
  obtain rfl : name = name' := hname.symm
  obtain ⟨b, hb', hb⟩ := bind_eq_ok.mp hb
  obtain ⟨b', hbf, halike⟩ := termBlock_of_byName hc (pairs_nil s t) hae hb'
  have hcommand : (commandBlock "assert" [b]).Alike (commandBlock "assert" [b']) :=
    .form (.refl _) (.cons halike .nil)
  cases name with
  | none =>
    obtain rfl := pure_eq_ok.mp hb
    exact ⟨_, bind_eq_ok.mpr ⟨b', hbf, rfl⟩, .cons hcommand .nil⟩
  | some name =>
    obtain ⟨comment, hcomment, hb⟩ := bind_eq_ok.mp hb
    obtain rfl := pure_eq_ok.mp hb
    exact ⟨_, bind_eq_ok.mpr ⟨b', hbf, bind_eq_ok.mpr ⟨comment, hcomment, rfl⟩⟩,
      .cons (.refl _) (.cons hcommand .nil)⟩

theorem blocks_of_byName (hc : t.Coherent) {bs : List Block} (h : Corresponds (byName s t) s t)
    (hnames : t.assertions.map (·.name) = s.assertions.map (·.name)) (hb : s.blocks = .ok bs) :
    ∃ bs', t.blocks = .ok bs' ∧ List.Forall₂ Block.Alike bs bs' := by
  obtain ⟨sorts, hsorts, hb⟩ := bind_eq_ok.mp hb
  obtain ⟨decls, hdecls, hb⟩ := bind_eq_ok.mp hb
  obtain ⟨asserts, hasserts, hb⟩ := bind_eq_ok.mp hb
  obtain rfl := pure_eq_ok.mp hb
  have hsame : List.Forall₂ (fun d e : SortDeclaration => (d.name, d.arity) = (e.name, e.arity))
      s.sorts t.sorts := by
    rw [← List.forall₂_map_right_iff, ← List.forall₂_map_left_iff, List.forall₂_eq_eq_eq]
    exact h.sorts.symm
  obtain ⟨sorts', hsorts', hsortsAlike⟩ :=
    mapM_forall₂ (g := sortDeclarationBlock) (S := Block.Alike) hsame hsorts fun d e b hde hb => by
      obtain ⟨hname, harity⟩ := Prod.mk.inj hde
      rw [sortDeclarationBlock, hname, harity] at hb
      exact ⟨b, hb, .refl b⟩
  obtain ⟨decls', hdecls', hdeclsAlike⟩ :=
    mapM_forall₂ (g := fun id => t.decl id >>= t.declarationBlock) (S := Block.Alike)
      (List.rel_append (List.rel_append h.functions h.constants) h.definitions) hdecls
      fun i j b hij hb => by
        obtain ⟨d, e, hd, he, hde⟩ := hij
        rw [decl_eq_ok.mpr hd] at hb
        rw [decl_eq_ok.mpr he]
        exact declarationBlock_of_byName hc hde hb
  have hsame : List.Forall₂ (fun a e : Assertion => e.name = a.name ∧
      a.formula.Corresponds (byName s t) [] e.formula) s.assertions t.assertions := by
    refine List.forall₂_iff_zip.mpr ⟨h.assertions.length_eq, fun {a e} hae => ⟨?_, ?_⟩⟩
    · have hnames' : List.Forall₂ (fun a e : Assertion => a.name = e.name) s.assertions
          t.assertions := by
        rw [← List.forall₂_map_right_iff, ← List.forall₂_map_left_iff, List.forall₂_eq_eq_eq]
        exact hnames.symm
      exact ((List.forall₂_iff_zip.mp hnames').2 hae).symm
    · exact (List.forall₂_iff_zip.mp h.assertions).2 hae
  obtain ⟨asserts', hasserts', hassertsAlike⟩ :=
    mapM_forall₂ (g := t.assertionBlocks) (S := List.Forall₂ Block.Alike) hsame hasserts
      fun a e bs hae hb => assertionBlocks_of_byName hc hae.1 hae.2 hb
  refine ⟨_, bind_eq_ok.mpr ⟨sorts', hsorts', bind_eq_ok.mpr ⟨decls', hdecls',
    bind_eq_ok.mpr ⟨asserts', hasserts', rfl⟩⟩⟩, ?_⟩
  have hprelude : List.Forall₂ Block.Alike (prelude.map (Block.text .keyword ·))
      (prelude.map (Block.text .keyword ·)) := List.forall₂_same.mpr fun b _ => .refl b
  exact List.rel_append (List.rel_append (List.rel_append hprelude hsortsAlike) hdeclsAlike)
    (List.rel_flatten hassertsAlike)

theorem render_layoutBlocks_of_alike {bs bs' : List Block} (h : List.Forall₂ Block.Alike bs bs')
    (width : Nat) : render Piece.plain (layoutBlocks width bs) =
      render Piece.plain (layoutBlocks width bs') := by
  have hchars : ∀ ps : List Piece, (render Piece.plain ps).toList = chars ps := by
    intro ps
    rw [render, String.toList_join, List.flatMap_map]
    rfl
  rw [← String.toList_inj, hchars, hchars]
  induction h with
  | nil => rfl
  | cons hb _ ih =>
    simp only [layoutBlocks, List.flatMap_cons, chars_append, hb.chars_layout] at ih ⊢
    rw [ih]

/-- What is read by name is printed as it was. -/
theorem print_of_byName (hc : t.Coherent) {width : Nat} {text : String}
    (h : Corresponds (byName s t) s t)
    (hnames : t.assertions.map (·.name) = s.assertions.map (·.name))
    (hprint : s.print width = .ok text) : t.print width = .ok text := by
  obtain ⟨bs, hbs, hprint⟩ := bind_eq_ok.mp hprint
  obtain rfl := pure_eq_ok.mp hprint
  obtain ⟨bs', hbs', halike⟩ := blocks_of_byName hc h hnames hbs
  rw [render_layoutBlocks_of_alike halike]
  exact bind_eq_ok.mpr ⟨bs', hbs', rfl⟩

end TupleLogic.Script
