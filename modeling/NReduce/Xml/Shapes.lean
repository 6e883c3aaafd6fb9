import NReduce.Xml.AxisLists
import NReduce.Xml.Forest

/-!
# NReduce.Xml.Shapes

What can be known of a sequence of nodes, so that the nodes on an axis of each of them, put
together, are in order. The parents of nodes in order need not be in order, nor their children.
-/

namespace NReduce
namespace Xml

open Logic

/-- What is known of the sequence on the left of a step. -/
inductive Shape where
  /-- no node -/
  | empty
  /-- one node at most, in the tree -/
  | node
  /-- one node at most -/
  | single
  /-- siblings, or nodes of the tree whose descendants are apart -/
  | apart
  /-- each node is an ancestor of the next one -/
  | chain
  /-- nodes of the tree that are in order, as are their parents, the parents of these and so on;
  a node may be there several times -/
  | upward
  /-- nodes in order -/
  | ordered
  /-- attributes of one element -/
  | attrs
  /-- namespace nodes -/
  | nsnodes
  deriving DecidableEq, Repr

/-- What an axis makes of a sequence, if that is in order for every document. -/
def Shape.after : Shape → Axis → Option Shape
  | .empty, _ => some .empty
  | σ, .self => some σ
  | .node, .following => some .ordered
  | .node, .parent | .single, .parent => some .node
  | .node, .child | .single, .child | .node, .precedingSibling | .single, .precedingSibling
  | .node, .followingSibling | .single, .followingSibling => some .apart
  | .node, .descendant | .single, .descendant | .node, .descendantOrSelf
  | .single, .descendantOrSelf | .node, .preceding | .single, .preceding => some .ordered
  | .node, .ancestor | .single, .ancestor | .node, .ancestorOrSelf
  | .single, .ancestorOrSelf => some .chain
  | .node, .attr | .single, .attr => some .attrs
  | .node, .nsnode | .single, .nsnode => some .nsnodes
  | .apart, .child => some .apart
  | .apart, .descendant | .apart, .descendantOrSelf => some .ordered
  | .apart, .parent => some .upward
  | .chain, .parent => some .chain
  | .chain, .precedingSibling => some .apart
  | .upward, .parent => some .upward
  | .attrs, .descendantOrSelf | .attrs, .ancestorOrSelf => some .attrs
  | .attrs, .child | .attrs, .descendant | .attrs, .parent | .attrs, .ancestor | .attrs, .attr
  | .attrs, .nsnode => some .empty
  | .nsnodes, .descendantOrSelf | .nsnodes, .ancestorOrSelf => some .nsnodes
  | .nsnodes, _ => some .empty
  | _, _ => none

/-- The parent of the parent and so on, `i` times -/
def Doc.ups (d : Doc) : Nat → Nat → Option Nat
  | 0, x => some x
  | i + 1, x => (d.parent x).bind (d.ups i)

/-- `x` is not behind `y`, and so for their parents, the parents of these and so on. -/
def Climb (d : Doc) (x y : Nat) : Prop :=
  ∀ i a b, d.ups i x = some a → d.ups i y = some b → a ≤ b

namespace Shape

def Holds : Shape → Place → Prop
  | .empty, _ => False
  | .node, .tree _ => True
  | .node, _ => False
  | .attrs, .attr .. => True
  | .attrs, _ => False
  | .nsnodes, .ns .. => True
  | .nsnodes, _ => False
  | _, _ => True

/-- How a node of the sequence is related to a later one. -/
def Before (d : Doc) (ext : Nat → Nat) : Shape → Place → Place → Prop
  | .apart, .tree x, .tree y => ext x ≤ y ∧ Climb d x y
  | .apart, .attr x i, .attr y j => x = y ∧ i < j
  | .chain, .tree x, .tree y => x < y ∧ y < ext x
  | .upward, .tree x, .tree y => Climb d x y
  | .ordered, p, q => p.index < q.index
  | .attrs, .attr x i, .attr y j => x = y ∧ i < j
  | .nsnodes, _, _ => True
  | _, _, _ => False

end Shape

theorem Climb.refl (d : Doc) (x : Nat) : Climb d x x := by
  intro i a b ha hb
  rw [ha] at hb
  cases hb
  exact Nat.le_refl a

theorem Climb.le {d : Doc} {x y : Nat} (h : Climb d x y) : x ≤ y := h 0 x y rfl rfl

theorem Climb.parents {d : Doc} {x y p q : Nat} (h : Climb d x y) (hp : d.parent x = some p)
    (hq : d.parent y = some q) : Climb d p q := by
  intro i a b ha hb
  refine h (i + 1) a b ?_ ?_
  · rw [Doc.ups, hp]
    exact ha
  · rw [Doc.ups, hq]
    exact hb

theorem Climb.children {d : Doc} {x y p q : Nat} (h : Climb d p q) (hp : d.parent x = some p)
    (hq : d.parent y = some q) (hle : x ≤ y) : Climb d x y := by
  intro i a b ha hb
  cases i with
  | zero =>
    cases ha
    cases hb
    exact hle
  | succ i =>
    rw [Doc.ups, hp] at ha
    rw [Doc.ups, hq] at hb
    exact h i a b ha hb

-- The proofs below open the axes by `simp`.
attribute [local simp] OnAxis

namespace Layout

variable {d : Doc} {ext dep : Nat → Nat} (h : Layout d ext dep)
include h

/-- The parents of a node and of one of its descendants are related in the same way. -/
theorem chain_parents {x y p q : Nat} (hxy : x ≤ y) (hin : y < ext x) (hp : d.parent x = some p)
    (hq : d.parent y = some q) : p ≤ q ∧ q < ext p ∧ (x < y → x ≤ q) := by
  have hx := Layout.lt_of_parent hp
  have hy := Layout.lt_of_parent hq
  obtain ⟨_, hpx, hep, -⟩ := h.parent_lt hx hp
  obtain ⟨_, hqy, heq, -⟩ := h.parent_lt hy hq
  obtain rfl | hlt := Nat.eq_or_lt_of_le hxy
  · rw [hp] at hq
    cases hq
    exact ⟨Nat.le_refl p, by omega, by omega⟩
  · have := h.parent_in hy hlt hin hq
    exact ⟨by omega, by omega, fun _ => this⟩

theorem climb_of_chain {x y : Nat} (hxy : x ≤ y) (hin : y < ext x) : Climb d x y := by
  intro i
  induction i generalizing x y with
  | zero =>
    intro a b ha hb
    cases ha
    cases hb
    exact hxy
  | succ i ih =>
    intro a b ha hb
    rw [Doc.ups] at ha hb
    obtain ⟨p, hp, ha⟩ := Option.bind_eq_some_iff.mp ha
    obtain ⟨q, hq, hb⟩ := Option.bind_eq_some_iff.mp hb
    obtain ⟨hpq, hqp, -⟩ := h.chain_parents hxy hin hp hq
    exact ih hpq hqp a b ha hb

/-- Two children of one node -/
theorem siblings_apart {x y p : Nat} (hx : d.parent x = some p) (hy : d.parent y = some p)
    (hlt : x < y) : ext x ≤ y ∧ Climb d x y :=
  ⟨h.sibling_le hx hy hlt, (Climb.refl d p).children hx hy (Nat.le_of_lt hlt)⟩

omit h in
/-- On an axis that holds one place at most, any relation holds. -/
theorem pairwise_of_eq {R : Place → Place → Prop} {p : Place} {l : List Place}
    (hl : l.Pairwise (·.index < ·.index)) (hp : ∀ a ∈ l, a = p) : l.Pairwise R := by
  refine hl.imp_of_mem fun {a b} ha hb hlt => ?_
  rw [hp a ha, hp b hb] at hlt
  omega

theorem within_child {p : Place} {l : List Place} (hl : AxisList d ext .child p l) :
    l.Pairwise (Shape.apart.Before d ext) := by
  refine (hl.sorted (by decide)).imp_of_mem fun {a b} ha hb hlt => ?_
  have hna := (hl.mem a ha).1
  have hnb := (hl.mem b hb).1
  cases p <;> cases a <;> cases b <;> simp only [OnAxis] at hna hnb
  exact h.siblings_apart hna hnb hlt

theorem within_precedingSibling {p : Place} {l : List Place}
    (hl : AxisList d ext .precedingSibling p l) : l.Pairwise (Shape.apart.Before d ext) := by
  refine (hl.sorted (by decide)).imp_of_mem fun {a b} ha hb hlt => ?_
  have hna := (hl.mem a ha).1
  have hnb := (hl.mem b hb).1
  cases p <;> cases a <;> cases b <;> simp only [OnAxis] at hna hnb
  · obtain ⟨_, q, hq, ha⟩ := hna
    obtain ⟨_, r, hr, hb⟩ := hnb
    rw [hq] at hr
    cases hr
    exact h.siblings_apart ha hb hlt
  · obtain ⟨rfl, _⟩ := hna
    obtain ⟨rfl, _⟩ := hnb
    exact ⟨rfl, by simpa [Place.index] using hlt⟩

theorem within_followingSibling {p : Place} {l : List Place}
    (hl : AxisList d ext .followingSibling p l) : l.Pairwise (Shape.apart.Before d ext) := by
  refine (hl.sorted (by decide)).imp_of_mem fun {a b} ha hb hlt => ?_
  have hna := (hl.mem a ha).1
  have hnb := (hl.mem b hb).1
  cases p <;> cases a <;> cases b <;> simp only [OnAxis] at hna hnb
  · obtain ⟨_, q, hq, ha⟩ := hna
    obtain ⟨_, r, hr, hb⟩ := hnb
    rw [hq] at hr
    cases hr
    exact h.siblings_apart ha hb hlt
  · obtain ⟨rfl, _⟩ := hna
    obtain ⟨rfl, _⟩ := hnb
    exact ⟨rfl, by simpa [Place.index] using hlt⟩

omit h in
theorem within_ancestor {p : Place} {l : List Place} (hl : AxisList d ext .ancestor p l) :
    l.Pairwise (Shape.chain.Before d ext) := by
  refine (hl.sorted (by decide)).imp_of_mem fun {a b} ha hb hlt => ?_
  have hna := (hl.mem a ha).1
  have hnb := (hl.mem b hb).1
  cases p <;> cases a <;> cases b <;> simp only [OnAxis] at hna hnb
  simp only [Place.index] at hlt
  exact ⟨hlt, by omega⟩

omit h in
theorem within_ancestorOrSelf {p : Place} {l : List Place}
    (hl : AxisList d ext .ancestorOrSelf p l) : l.Pairwise (Shape.chain.Before d ext) := by
  cases p with
  | tree x =>
    refine (hl.sorted (by decide)).imp_of_mem fun {a b} ha hb hlt => ?_
    have hna := (hl.mem a ha).1
    have hnb := (hl.mem b hb).1
    cases a <;> cases b <;> simp only [OnAxis] at hna hnb
    · simp only [Place.index] at hlt
      exact ⟨hlt, by omega⟩
    all_goals first | (cases hnb; done) | cases hna
  | attr x i => exact pairwise_of_eq (hl.sorted (by decide)) fun a ha => (hl.mem a ha).1
  | ns x i => exact pairwise_of_eq (hl.sorted (by decide)) fun a ha => (hl.mem a ha).1

omit h in
theorem within_parent {p : Place} {l : List Place} (hl : AxisList d ext .parent p l)
    {R : Place → Place → Prop} : l.Pairwise R := by
  refine (hl.sorted (by decide)).imp_of_mem fun {a b} ha hb hlt => ?_
  have hna := (hl.mem a ha).1
  have hnb := (hl.mem b hb).1
  cases p <;> cases a <;> cases b <;> simp only [OnAxis] at hna hnb
  rw [hna] at hnb
  cases hnb
  exact absurd hlt (Nat.lt_irrefl _)

omit h in
theorem within_attr {p : Place} {l : List Place} (hl : AxisList d ext .attr p l) :
    l.Pairwise (Shape.attrs.Before d ext) := by
  refine (hl.sorted (by decide)).imp_of_mem fun {a b} ha hb hlt => ?_
  have hna := (hl.mem a ha).1
  have hnb := (hl.mem b hb).1
  cases p <;> cases a <;> cases b <;> simp only [OnAxis] at hna hnb
  subst hna hnb
  exact ⟨rfl, by simpa [Place.index] using hlt⟩

omit h in
/-- The axes of attributes and namespace nodes, but for those that lead to the other attributes -/
theorem eq_of_onAxis {σ τ : Shape} {axis : Axis} {p a : Place}
    (hσ : σ = .attrs ∨ σ = .nsnodes) (hafter : σ.after axis = some τ) (hp : σ.Holds p)
    (ha : OnAxis d ext axis p a) : a = p ∧ σ = τ := by
  obtain rfl | rfl := hσ <;> cases p <;> first
    | exact hp.elim
    | (cases axis <;> cases hafter <;> first | exact ⟨ha, rfl⟩ | exact ha.elim)

theorem exists_axisList {σ τ : Shape} {axis : Axis} {p : Place} (hafter : σ.after axis = some τ)
    (hp : σ.Holds p) (hin : p.In d) : ∃ l, AxisList d ext axis p l := by
  cases p with
  | tree x => exact h.axisList_tree hin axis
  | attr x i =>
    -- what follows an attribute has no order
    refine h.axisList_attr hin ?_
    rintro rfl
    cases σ <;> first | exact hp.elim | cases hafter
  | ns x i => exact axisList_ns hin axis

/-- The nodes on an axis of one node -/
theorem within {σ τ : Shape} {axis : Axis} {p : Place} {l : List Place}
    (hafter : σ.after axis = some τ) (hp : σ.Holds p) (hl : AxisList d ext axis p l) :
    l.Pairwise (τ.Before d ext) := by
  by_cases hσ : σ = .attrs ∨ σ = .nsnodes
  · by_cases hne : axis = .nsnode
    · subst hne
      have hnil : l = [] := by
        refine List.eq_nil_iff_forall_not_mem.mpr fun a ha => ?_
        have hna := (hl.mem a ha).1
        obtain rfl | rfl := hσ <;> cases p <;> first | exact hp.elim | exact hna.elim
      rw [hnil]
      exact .nil
    · exact pairwise_of_eq (hl.sorted hne) fun a ha =>
        (eq_of_onAxis hσ hafter hp (hl.mem a ha).1).1
  · have hattrs : σ ≠ .attrs := fun heq => hσ (.inl heq)
    have hnsnodes : σ ≠ .nsnodes := fun heq => hσ (.inr heq)
    cases axis with
    | self => exact pairwise_of_eq (hl.sorted (by decide)) fun a ha => (hl.mem a ha).1
    | child =>
      have := h.within_child hl
      cases σ <;> cases hafter <;> first | exact this | contradiction
    | precedingSibling =>
      have := h.within_precedingSibling hl
      cases σ <;> cases hafter <;> first | exact this | contradiction
    | followingSibling =>
      have := h.within_followingSibling hl
      cases σ <;> cases hafter <;> first | exact this | contradiction
    | descendant | descendantOrSelf | preceding | following =>
      have := hl.sorted (by decide)
      cases σ <;> cases hafter <;> first | exact this | contradiction
    | ancestor =>
      have := within_ancestor hl
      cases σ <;> cases hafter <;> first | exact this | contradiction
    | ancestorOrSelf =>
      have := within_ancestorOrSelf hl
      cases σ <;> cases hafter <;> first | exact this | contradiction
    | parent => exact within_parent hl
    | attr =>
      have := within_attr hl
      cases σ <;> cases hafter <;> first | exact this | contradiction
    | nsnode =>
      cases σ <;> cases hafter <;>
        first | exact List.pairwise_of_forall fun _ _ => trivial | contradiction

omit h in
theorem holds_after {σ τ : Shape} {axis : Axis} {p a : Place} (hafter : σ.after axis = some τ)
    (hp : σ.Holds p) (ha : OnAxis d ext axis p a) : τ.Holds a := by
  cases σ <;> cases axis <;> cases hafter <;> first
    | trivial
    | exact hp.elim
    | (cases ha; exact hp)
    | (cases p <;> cases a <;> trivial)

theorem across_apart {τ : Shape} {axis : Axis} {p q a b : Place}
    (hafter : Shape.apart.after axis = some τ) (hpq : Shape.apart.Before d ext p q)
    (ha : OnAxis d ext axis p a) (hb : OnAxis d ext axis q b) : τ.Before d ext a b := by
  cases axis with
  | self =>
    cases hafter
    cases ha
    cases hb
    exact hpq
  | child =>
    cases hafter
    cases p <;> cases q <;> cases a <;> cases b <;> simp only [OnAxis, Shape.Before] at *
    obtain ⟨hle, hclimb⟩ := hpq
    obtain ⟨_, _, hea, -⟩ := h.parent_lt (Layout.lt_of_parent ha) ha
    obtain ⟨_, hyb, -⟩ := h.parent_lt (Layout.lt_of_parent hb) hb
    have hgt := h.ext_gt _ (Layout.lt_of_parent ha)
    exact ⟨by omega, hclimb.children ha hb (by omega)⟩
  | descendant =>
    cases hafter
    cases p <;> cases q <;> cases a <;> cases b <;>
      simp only [OnAxis, Shape.Before, Place.index] at *
    omega
  | descendantOrSelf =>
    cases hafter
    cases p <;> cases q <;> simp only [Shape.Before] at hpq
    · cases a <;> cases b <;> simp only [OnAxis, Shape.Before, Place.index, reduceCtorEq] at *
      omega
    · cases ha
      cases hb
      obtain ⟨rfl, hlt⟩ := hpq
      simp only [Shape.Before, Place.index]
      omega
  | parent =>
    cases hafter
    cases p <;> cases q <;> cases a <;> cases b <;> simp only [OnAxis, Shape.Before] at *
    exact hpq.2.parents ha hb
  | _ => cases hafter

theorem across_chain {τ : Shape} {axis : Axis} {p q a b : Place}
    (hafter : Shape.chain.after axis = some τ) (hpq : Shape.chain.Before d ext p q)
    (ha : OnAxis d ext axis p a) (hb : OnAxis d ext axis q b) : τ.Before d ext a b := by
  cases axis with
  | self =>
    cases hafter
    cases ha
    cases hb
    exact hpq
  | parent =>
    cases hafter
    cases p <;> cases q <;> cases a <;> cases b <;> simp only [OnAxis, Shape.Before] at *
    obtain ⟨_, hin, hxq⟩ := h.chain_parents (Nat.le_of_lt hpq.1) hpq.2 ha hb
    obtain ⟨_, hpx, -⟩ := h.parent_lt (Layout.lt_of_parent ha) ha
    have := hxq hpq.1
    exact ⟨by omega, hin⟩
  | precedingSibling =>
    cases hafter
    cases p <;> cases q <;> cases a <;> cases b <;> simp only [OnAxis, Shape.Before] at *
    obtain ⟨hax, u, hxu, hau⟩ := ha
    obtain ⟨hby, w, hyw, hbw⟩ := hb
    obtain ⟨huw, hwu, hxw⟩ := h.chain_parents (Nat.le_of_lt hpq.1) hpq.2 hxu hyw
    obtain ⟨_, hwb, -⟩ := h.parent_lt (Layout.lt_of_parent hbw) hbw
    have hext := h.sibling_le hau hxu hax
    have hgt := h.ext_gt _ (Layout.lt_of_parent hau)
    have := hxw hpq.1
    exact ⟨by omega, (h.climb_of_chain huw hwu).children hau hbw (by omega)⟩
  | _ => cases hafter

/-- The nodes on an axis of two nodes of a sequence -/
theorem across {σ τ : Shape} {axis : Axis} {p q a b : Place} (hafter : σ.after axis = some τ)
    (hp : σ.Holds p) (hq : σ.Holds q) (hpq : σ.Before d ext p q) (ha : OnAxis d ext axis p a)
    (hb : OnAxis d ext axis q b) : τ.Before d ext a b := by
  cases σ with
  | empty => exact hp.elim
  | node | single => cases p <;> cases q <;> exact hpq.elim
  | apart => exact h.across_apart hafter hpq ha hb
  | chain => exact h.across_chain hafter hpq ha hb
  | upward =>
    cases axis with
    | self =>
      cases hafter
      cases ha
      cases hb
      exact hpq
    | parent =>
      cases hafter
      cases p <;> cases q <;> cases a <;> cases b <;> simp only [OnAxis, Shape.Before] at *
      exact hpq.parents ha hb
    | _ => cases hafter
  | ordered =>
    cases axis with
    | self =>
      cases hafter
      cases ha
      cases hb
      exact hpq
    | _ => cases hafter
  | attrs =>
    obtain ⟨rfl, rfl⟩ := eq_of_onAxis (.inl rfl) hafter hp ha
    obtain ⟨rfl, -⟩ := eq_of_onAxis (.inl rfl) hafter hq hb
    exact hpq
  | nsnodes =>
    obtain ⟨rfl, rfl⟩ := eq_of_onAxis (.inr rfl) hafter hp ha
    trivial

end Layout

/-- A sequence of the nodes of a parsed document -/
def Shape.Fits (σ : Shape) (l : List Node) : Prop :=
  ∃ tokens d ext dep, parse tokens = .ok d ∧ Layout d ext dep ∧ ∃ ps : List Place,
    l = ps.map d.at ∧ (∀ p ∈ ps, p.In d ∧ σ.Holds p) ∧ ps.Pairwise (σ.Before d ext)

theorem Shape.Fits.sublist {σ : Shape} {l l' : List Node} (h : σ.Fits l) (hl : l'.Sublist l) :
    σ.Fits l' := by
  obtain ⟨tokens, d, ext, dep, hd, hlay, ps, rfl, hmem, hpair⟩ := h
  obtain ⟨ps', hsub, rfl⟩ := List.sublist_map_iff.mp hl
  exact ⟨tokens, d, ext, dep, hd, hlay, ps', rfl, fun p hp => hmem p (hsub.subset hp),
    hpair.sublist hsub⟩

end Xml
end NReduce
