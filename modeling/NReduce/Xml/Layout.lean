import NReduce.Xml.Axes
import Mathlib.Data.Nat.Basic
import Mathlib.Tactic.ByContra

/-!
# NReduce.Xml.Layout

What the links of a document and the numbers of its nodes have to do with each other. The
descendants of a node `x` are the nodes between `x` and `ext x`.

* `Layout`: the links of each node, in terms of `ext` and of the depth `dep`.
* `Layout.nested`: the intervals of two nodes lie one in the other or one behind the other.
-/

namespace NReduce
namespace Xml

/-- The nodes `l` and what they contain are the nodes from `a` up to `b`. -/
def Tiles (ext : Nat → Nat) : List Nat → Nat → Nat → Prop
  | [], a, b => a = b
  | y :: l, a, b => y = a ∧ Tiles ext l (ext y) b

structure Layout (d : Doc) (ext dep : Nat → Nat) : Prop where
  pos : 0 < d.items.length
  ext_zero : ext 0 = d.items.length
  type_zero : d.type 0 = .document
  parent_zero : d.parent 0 = none
  prev_zero : d.prev 0 = none
  next_zero : d.next 0 = []
  ext_gt : ∀ x < d.items.length, x < ext x
  ext_le : ∀ x < d.items.length, ext x ≤ d.items.length
  /-- every other node is below another -/
  parent : ∀ x < d.items.length, x ≠ 0 → ∃ p, d.parent x = some p ∧ p < x ∧ ext x ≤ ext p ∧
    dep x = dep p + 1 ∧ Tiles ext (d.next x) (ext x) (ext p) ∧ d.type x ≠ .document
  children : ∀ x < d.items.length, Tiles ext (d.children x) (x + 1) (ext x)
  child_parent : ∀ x < d.items.length, ∀ y ∈ d.children x, d.parent y = some x
  parent_child : ∀ x < d.items.length, ∀ p, d.parent x = some p → x ∈ d.children p
  next_parent : ∀ x < d.items.length, ∀ y ∈ d.next x, d.parent y = d.parent x
  prev : ∀ x < d.items.length, ∀ y, d.prev x = some y →
    y < x ∧ ext y = x ∧ d.parent y = d.parent x
  first : ∀ x < d.items.length, ∀ p, d.prev x = none → d.parent x = some p → x = p + 1
  leaf : ∀ x < d.items.length, d.type x ≠ .element → d.type x ≠ .document → d.children x = []

/-! ## Lists of siblings -/

section

variable {ext : Nat → Nat} {l : List Nat} {a b : Nat}

theorem Tiles.le (h : Tiles ext l a b) (hext : ∀ y ∈ l, y < ext y) : a ≤ b := by
  induction l generalizing a with
  | nil => exact Nat.le_of_eq h
  | cons y l ih =>
    obtain ⟨rfl, h⟩ := h
    have hy := hext y (List.mem_cons_self ..)
    have := ih h (fun z hz => hext z (List.mem_cons_of_mem _ hz))
    omega

/-- The last of the siblings ends where all end. -/
theorem Tiles.getLast {y : Nat} (h : Tiles ext l a b) (hl : l.getLast? = some y) : ext y = b := by
  induction l generalizing a with
  | nil => cases hl
  | cons z l ih =>
    obtain ⟨rfl, h⟩ := h
    cases l with
    | nil =>
      cases hl
      exact h
    | cons w l => exact ih h (by rwa [List.getLast?_cons_cons] at hl)

theorem Tiles.mem_bounds (h : Tiles ext l a b) (hext : ∀ y ∈ l, y < ext y) {y : Nat} (hy : y ∈ l) :
    a ≤ y ∧ ext y ≤ b := by
  induction l generalizing a with
  | nil => cases hy
  | cons z l ih =>
    obtain ⟨rfl, h⟩ := h
    have hz := hext z (List.mem_cons_self ..)
    have hext' : ∀ y ∈ l, y < ext y := fun y hy => hext y (List.mem_cons_of_mem _ hy)
    cases hy with
    | head => exact ⟨Nat.le_refl _, h.le hext'⟩
    | tail _ hy =>
      obtain ⟨h1, h2⟩ := ih h hext' hy
      exact ⟨by omega, h2⟩

theorem Tiles.disjoint (h : Tiles ext l a b) (hext : ∀ y ∈ l, y < ext y) {y z : Nat} (hy : y ∈ l)
    (hz : z ∈ l) (hyz : y < z) : ext y ≤ z := by
  induction l generalizing a with
  | nil => cases hy
  | cons w l ih =>
    obtain ⟨rfl, h⟩ := h
    have hext' : ∀ y ∈ l, y < ext y := fun y hy => hext y (List.mem_cons_of_mem _ hy)
    cases hy with
    | head =>
      cases hz with
      | head => omega
      | tail _ hz => exact (h.mem_bounds hext' hz).1
    | tail _ hy =>
      cases hz with
      | head =>
        have := (h.mem_bounds hext' hy).1
        have := hext z (List.mem_cons_self ..)
        omega
      | tail _ hz => exact ih h hext' hy hz

/-- Every node in between is one of the siblings or below one. -/
theorem Tiles.increasing (h : Tiles ext l a b) (hext : ∀ y ∈ l, y < ext y) :
    l.Pairwise (· < ·) := by
  induction l generalizing a with
  | nil => exact .nil
  | cons y l ih =>
    obtain ⟨rfl, h⟩ := h
    have hrest : ∀ z ∈ l, z < ext z := fun z hz => hext z (List.mem_cons_of_mem _ hz)
    refine List.pairwise_cons.mpr ⟨fun z hz => ?_, ih h hrest⟩
    exact Nat.lt_of_lt_of_le (hext y (List.mem_cons_self ..)) (h.mem_bounds hrest hz).1

theorem Tiles.cover (h : Tiles ext l a b) {x : Nat} (ha : a ≤ x) (hb : x < b) :
    ∃ y ∈ l, y ≤ x ∧ x < ext y := by
  induction l generalizing a with
  | nil =>
    rw [Tiles] at h
    omega
  | cons z l ih =>
    obtain ⟨rfl, h⟩ := h
    by_cases hx : x < ext z
    · exact ⟨z, List.mem_cons_self .., ha, hx⟩
    · obtain ⟨y, hy, h1, h2⟩ := ih h (Nat.le_of_not_lt hx)
      exact ⟨y, List.mem_cons_of_mem _ hy, h1, h2⟩

end

/-! ## Intervals -/

namespace Layout

variable {d : Doc} {ext dep : Nat → Nat} (h : Layout d ext dep)
include h

theorem parent_lt {x p : Nat} (hx : x < d.items.length) (hp : d.parent x = some p) :
    x ≠ 0 ∧ p < x ∧ ext x ≤ ext p ∧ dep x = dep p + 1 ∧ Tiles ext (d.next x) (ext x) (ext p) := by
  have hne : x ≠ 0 := by
    rintro rfl
    rw [h.parent_zero] at hp
    cases hp
  obtain ⟨q, hq, h1, h2, h3, h4, -⟩ := h.parent x hx hne
  rw [hp] at hq
  cases hq
  exact ⟨hne, h1, h2, h3, h4⟩

omit h in
theorem lt_of_parent {x p : Nat} (hp : d.parent x = some p) : x < d.items.length := by
  by_contra hlt
  have : d.parent x = none := by
    simp [Doc.parent, Doc.item, List.getD, List.getElem?_eq_none (Nat.le_of_not_lt hlt)]
  rw [hp] at this
  cases this

theorem child_bounds {x y : Nat} (hx : x < d.items.length) (hy : y ∈ d.children x) :
    x < y ∧ ext y ≤ ext x ∧ y < d.items.length := by
  have hpos : ∀ z ∈ d.children x, z < ext z := fun z hz =>
    h.ext_gt z (Layout.lt_of_parent (h.child_parent x hx z hz))
  obtain ⟨h1, h2⟩ := (h.children x hx).mem_bounds hpos hy
  have := hpos y hy
  have := h.ext_le x hx
  omega

theorem children_pos {x : Nat} (hx : x < d.items.length) : ∀ y ∈ d.children x, y < ext y :=
  fun y hy => h.ext_gt y (h.child_bounds hx hy).2.2

/-- Of two nodes, the later one is behind all of the earlier one or in it. -/
theorem nested {y z : Nat} (hz : z < d.items.length) (hyz : y < z) :
    ext y ≤ z ∨ (z < ext y ∧ ext z ≤ ext y) := by
  induction z using Nat.strongRecOn generalizing y with
  | _ z ih =>
    obtain ⟨p, hp, hpz, hep, -⟩ := h.parent z hz (by omega)
    have hpl := Nat.lt_trans hpz hz
    have hgt := h.ext_gt z hz
    obtain hlt | rfl | hgt' := Nat.lt_trichotomy y p
    · obtain h1 | h1 := ih p hpz hpl hlt
      · omega
      · omega
    · omega
    · -- below the same parent: `y` is in an earlier sibling of `z`
      obtain ⟨v, hv, hvy, hyv⟩ := (h.children p hpl).cover (x := y) (by omega) (by omega)
      have hvz := (h.children p hpl).disjoint (h.children_pos hpl) hv (h.parent_child z hz p hp)
        (by omega)
      obtain rfl | hne := Nat.eq_or_lt_of_le hvy
      · exact .inl hvz
      · obtain h1 | h1 := ih y hyz (Nat.lt_trans hyz hz) hne
        · omega
        · omega

/-- A node that is in another and is not the node itself has its parent in there. -/
theorem parent_in {x y p : Nat} (hx : x < d.items.length) (hyx : y < x) (hin : x < ext y)
    (hp : d.parent x = some p) : y ≤ p := by
  obtain ⟨_, hpx, hep, _⟩ := h.parent_lt hx hp
  by_contra hlt
  have hpl := Nat.lt_trans hpx hx
  obtain ⟨v, hv, hvy, hyv⟩ := (h.children p hpl).cover (x := y) (by omega)
    (by have := h.ext_gt x hx; omega)
  have hvx := (h.children p hpl).disjoint (h.children_pos hpl) hv (h.parent_child x hx p hp)
    (by omega)
  obtain rfl | hne := Nat.eq_or_lt_of_le hvy
  · omega
  · obtain h1 | h1 := h.nested (Nat.lt_trans hyx hx) hne
    · omega
    · omega

/-- Below a node, everything is deeper. -/
theorem dep_lt {x y : Nat} (hx : x < d.items.length) (hyx : y < x) (hin : x < ext y) :
    dep y < dep x := by
  induction x using Nat.strongRecOn with
  | _ x ih =>
    obtain ⟨p, hp, hpx, hep, hdep, -⟩ := h.parent x hx (by omega)
    obtain rfl | hlt := Nat.eq_or_lt_of_le (h.parent_in hx hyx hin hp)
    · omega
    · have := ih p hpx (Nat.lt_trans hpx hx) hlt (by omega)
      omega

end Layout

end Xml
end NReduce
