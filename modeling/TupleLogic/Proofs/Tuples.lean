import Mathlib.Data.Finite.Prod
import Mathlib.Logic.Relation

/-! The algebra of relations as sets of tuples, over any type of columns. It
serves relational expressions, whose columns hold atoms and integers, and
terms, whose columns hold the values of a structure; replacing each column
along an injection commutes with every operation. -/

namespace TupleLogic.Tuples

variable {β γ : Type}

/-- Tuples that agree on the last column of the left and the first column of
the right, without those two columns. -/
def join (r s : Set (List β)) : Set (List β) :=
  {t | ∃ xs m ys, xs ++ [m] ∈ r ∧ m :: ys ∈ s ∧ xs ++ ys = t}

def product (r s : Set (List β)) : Set (List β) := {t | ∃ xs ∈ r, ∃ ys ∈ s, xs ++ ys = t}

def transpose (r : Set (List β)) : Set (List β) := {t | t.reverse ∈ r}

/-- The pairs of a relation, as a relation in the usual sense. -/
def Linked (r : Set (List β)) (x y : β) : Prop := [x, y] ∈ r

def closure (r : Set (List β)) : Set (List β) :=
  {t | ∃ x y, Relation.TransGen (Linked r) x y ∧ [x, y] = t}

/-- The relation with every column replaced along `f`. -/
def image (f : β → γ) (r : Set (List β)) : Set (List γ) := List.map f '' r

section Image

variable {f : β → γ}

theorem image_singleton (t : List β) : image f {t} = {t.map f} := Set.image_singleton

theorem image_empty : image f (∅ : Set (List β)) = ∅ := Set.image_empty _

theorem image_union (r s : Set (List β)) : image f (r ∪ s) = image f r ∪ image f s :=
  Set.image_union _ _ _

variable (hf : Function.Injective f)

include hf

theorem image_injective : Function.Injective (image f) := hf.list_map.image_injective

theorem map_mem_image {r : Set (List β)} {t : List β} : t.map f ∈ image f r ↔ t ∈ r :=
  hf.list_map.mem_set_image

theorem image_subset_image {r s : Set (List β)} : image f r ⊆ image f s ↔ r ⊆ s :=
  Set.image_subset_image_iff hf.list_map

theorem image_inter (r s : Set (List β)) : image f (r ∩ s) = image f r ∩ image f s :=
  Set.image_inter hf.list_map

theorem image_diff (r s : Set (List β)) : image f (r \ s) = image f r \ image f s :=
  Set.image_sdiff hf.list_map r s

theorem image_join (r s : Set (List β)) :
    image f (join r s) = join (image f r) (image f s) := by
  ext t
  constructor
  · rintro ⟨_, ⟨xs, m, ys, hr, hs, rfl⟩, rfl⟩
    exact ⟨xs.map f, f m, ys.map f, ⟨_, hr, by simp⟩, ⟨_, hs, rfl⟩, by simp⟩
  · rintro ⟨xs, m, ys, ⟨u, hu, hux⟩, ⟨w, hw, hwy⟩, rfl⟩
    obtain ⟨xs', ms, rfl, rfl, hms⟩ := List.map_eq_append_iff.mp hux
    obtain ⟨m', rfl, rfl⟩ := List.map_eq_singleton_iff.mp hms
    obtain ⟨n', ys', rfl, hn, rfl⟩ := List.map_eq_cons_iff.mp hwy
    rw [hf hn] at hw
    exact ⟨xs' ++ ys', ⟨xs', m', ys', hu, hw, rfl⟩, by simp⟩

omit hf in
theorem image_transpose (r : Set (List β)) :
    image f (transpose r) = transpose (image f r) := by
  ext t
  constructor
  · rintro ⟨u, hu, rfl⟩
    exact ⟨u.reverse, hu, by simp⟩
  · rintro ⟨u, hu, hut⟩
    refine ⟨u.reverse, ?_, by simp [hut]⟩
    simpa [transpose] using hu

theorem linked_image {r : Set (List β)} {x y : β} : Linked (image f r) (f x) (f y) ↔ Linked r x y :=
  map_mem_image hf (t := [x, y])

/-- A chain in the replaced relation runs through replaced columns only. -/
theorem transGen_image {r : Set (List β)} {x' y' : γ}
    (h : Relation.TransGen (Linked (image f r)) x' y') :
    ∃ x y, f x = x' ∧ f y = y' ∧ Relation.TransGen (Linked r) x y := by
  induction h with
  | single hxy =>
    obtain ⟨u, hu, huv⟩ := hxy
    obtain ⟨x, v, rfl, rfl, hv⟩ := List.map_eq_cons_iff.mp huv
    obtain ⟨y, rfl, rfl⟩ := List.map_eq_singleton_iff.mp hv
    exact ⟨x, y, rfl, rfl, .single hu⟩
  | tail _ hyz ih =>
    obtain ⟨x, y, rfl, rfl, hxy⟩ := ih
    obtain ⟨u, hu, huv⟩ := hyz
    obtain ⟨y', v, rfl, hy, hv⟩ := List.map_eq_cons_iff.mp huv
    obtain ⟨z, rfl, rfl⟩ := List.map_eq_singleton_iff.mp hv
    rw [hf hy] at hu
    exact ⟨x, z, rfl, rfl, hxy.tail hu⟩

theorem image_closure (r : Set (List β)) : image f (closure r) = closure (image f r) := by
  ext t
  constructor
  · rintro ⟨_, ⟨x, y, h, rfl⟩, rfl⟩
    exact ⟨f x, f y, h.lift f fun a b hab => (linked_image hf).mpr hab, rfl⟩
  · rintro ⟨_, _, h, rfl⟩
    obtain ⟨x, y, rfl, rfl, hxy⟩ := transGen_image hf h
    exact ⟨[x, y], ⟨x, y, hxy, rfl⟩, rfl⟩

omit hf in
theorem image_product (r s : Set (List β)) :
    image f (product r s) = product (image f r) (image f s) := by
  ext t
  constructor
  · rintro ⟨_, ⟨xs, hx, ys, hy, rfl⟩, rfl⟩
    exact ⟨xs.map f, ⟨xs, hx, rfl⟩, ys.map f, ⟨ys, hy, rfl⟩, by simp⟩
  · rintro ⟨_, ⟨xs, hx, rfl⟩, _, ⟨ys, hy, rfl⟩, rfl⟩
    exact ⟨xs ++ ys, ⟨xs, hx, ys, hy, rfl⟩, by simp⟩

end Image

section Finite

variable {r s : Set (List β)}

theorem finite_join (hr : r.Finite) (hs : s.Finite) : (join r s).Finite := by
  refine (Set.Finite.image2 (fun t u => t.dropLast ++ u.tail) hr hs).subset ?_
  rintro _ ⟨xs, m, ys, hx, hy, rfl⟩
  exact ⟨_, hx, _, hy, by simp⟩

theorem finite_product (hr : r.Finite) (hs : s.Finite) : (product r s).Finite := by
  refine (Set.Finite.image2 (· ++ ·) hr hs).subset ?_
  rintro _ ⟨xs, hx, ys, hy, rfl⟩
  exact ⟨_, hx, _, hy, rfl⟩

theorem finite_transpose (hr : r.Finite) : (transpose r).Finite := by
  refine (hr.image List.reverse).subset fun t ht => ⟨t.reverse, ht, ?_⟩
  exact t.reverse_reverse

/-- A chain starts like one pair of the relation and ends like another. -/
theorem finite_closure (hr : r.Finite) : (closure r).Finite := by
  refine (Set.Finite.image2 (fun t u => t.take 1 ++ u.drop 1) hr hr).subset ?_
  rintro _ ⟨x, y, h, rfl⟩
  obtain ⟨a, hxa, _⟩ := Relation.TransGen.head'_iff.mp h
  obtain ⟨b, _, hby⟩ := Relation.TransGen.tail'_iff.mp h
  exact ⟨[x, a], hxa, [b, y], hby, rfl⟩

end Finite

end TupleLogic.Tuples
