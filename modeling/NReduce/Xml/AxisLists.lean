import NReduce.Xml.AxesCorrect
import NReduce.Xml.Steps

/-!
# NReduce.Xml.AxisLists

What `compile_axis` gives, for the nodes of a tree, for attributes and for namespace nodes: the
nodes on the axis, in document order or in reverse.
-/

namespace NReduce
namespace Xml

open Logic

namespace Place

/-- `item_index` -/
def index : Place → Nat
  | .tree x => x
  | .attr x i => x + 1 + i
  | .ns .. => 0

def In (d : Doc) : Place → Prop
  | .tree x => x < d.items.length
  | .attr x i => x < d.items.length ∧ i < (d.attributes x).length
  | .ns x i => x < d.items.length ∧ i < (d.namespaces x).length

instance (d : Doc) : (p : Place) → Decidable (p.In d)
  | .tree x => inferInstanceAs (Decidable (x < d.items.length))
  | .attr x i => inferInstanceAs (Decidable (x < d.items.length ∧ i < (d.attributes x).length))
  | .ns x i => inferInstanceAs (Decidable (x < d.items.length ∧ i < (d.namespaces x).length))

end Place

/-- The node at a place of the document. -/
def Doc.at (d : Doc) (p : Place) : Node := ⟨d, p⟩

/-- What is on the axis of a node: `ext x` is the end of the interval of `x` and its descendants. -/
def OnAxis (d : Doc) (ext : Nat → Nat) : Axis → Place → Place → Prop
  | .self, p, a => a = p
  | .child, .tree x, .tree y => d.parent y = some x
  | .descendant, .tree x, .tree y => x < y ∧ y < ext x
  | .descendantOrSelf, .tree x, .tree y => x ≤ y ∧ y < ext x
  | .descendantOrSelf, p, a => a = p
  | .parent, .tree x, .tree y => d.parent x = some y
  | .ancestor, .tree x, .tree y => y < x ∧ x < ext y
  | .ancestorOrSelf, .tree x, .tree y => y ≤ x ∧ x < ext y
  | .ancestorOrSelf, p, a => a = p
  | .precedingSibling, .tree x, .tree y => y < x ∧ ∃ p, d.parent x = some p ∧ d.parent y = some p
  | .precedingSibling, .attr x i, .attr y j => y = x ∧ j < i
  | .followingSibling, .tree x, .tree y => x < y ∧ ∃ p, d.parent x = some p ∧ d.parent y = some p
  | .followingSibling, .attr x i, .attr y j => y = x ∧ i < j
  | .preceding, .tree x, .tree y => ext y ≤ x
  | .preceding, .attr x _, .tree y => ext y ≤ x
  | .preceding, .attr x i, .attr y j => y = x ∧ j < i
  | .following, .tree x, .tree y => ext x ≤ y
  | .attr, .tree x, .attr y _ => y = x
  | .nsnode, .tree x, .ns y _ => y = x
  | _, _, _ => False

/-- `l` are the nodes on an axis, in document order. -/
structure AxisList (d : Doc) (ext : Nat → Nat) (axis : Axis) (p : Place) (l : List Place) :
    Prop where
  nodes : Returns (axis.nodes · (d.at p)) ((if axis.isForward then l else l.reverse).map d.at)
  sorted : axis ≠ .nsnode → l.Pairwise (·.index < ·.index)
  mem : ∀ a ∈ l, OnAxis d ext axis p a ∧ a.In d

theorem AxisList.empty {d : Doc} {ext : Nat → Nat} {axis : Axis} {p : Place}
    (hn : Returns (axis.nodes · (d.at p)) []) : AxisList d ext axis p [] := by
  refine ⟨?_, fun _ => .nil, fun a ha => absurd ha List.not_mem_nil⟩
  cases axis.isForward <;> exact hn

namespace Layout

variable {d : Doc} {ext dep : Nat → Nat} (h : Layout d ext dep)
include h

omit h in
/-- The nodes of the tree on an axis of one. -/
theorem axisList_trees {axis : Axis} {p : Place} {l : List Nat}
    (hn : Returns (axis.nodes · (d.at p))
      ((if axis.isForward then l else l.reverse).map d.tree))
    (hl : l.Pairwise (· < ·))
    (hmem : ∀ y ∈ l, OnAxis d ext axis p (.tree y) ∧ y < d.items.length) :
    AxisList d ext axis p (l.map .tree) := by
  refine ⟨?_, fun _ => List.pairwise_map.mpr hl, fun a ha => ?_⟩
  · have hnode : ∀ l : List Nat, (l.map Place.tree).map d.at = l.map d.tree := fun l => by
      simp [Doc.tree, Doc.at]
    rw [← hnode] at hn
    cases hf : axis.isForward <;> simpa [hf] using hn
  · obtain ⟨y, hy, rfl⟩ := List.mem_map.mp ha
    exact hmem y hy

theorem mem_nodeParentList_lt {x y : Nat} (hy : y ∈ d.nodeParentList x) :
    d.parent x = some y ∧ y < d.items.length := by
  rw [Doc.nodeParentList, Option.mem_toList] at hy
  have hp : d.parent x = some y := by
    cases ht : d.type x <;> simp_all
  exact ⟨hp, h.parent_mem hp⟩

theorem exists_ancestors_increasing {x : Nat} (hx : x < d.items.length) :
    ∃ l : List Nat, Returns (d.nodeAncestors · x) l.reverse ∧ l.Pairwise (· < ·) ∧
      ∀ y ∈ l, y < x ∧ x < ext y := by
  by_cases he : d.type x = .element
  · refine ⟨_, h.nodeAncestors_spec hx he, List.pairwise_lt_range.filter _, fun y hy => ?_⟩
    simpa using hy
  · refine ⟨[], (Returns.const []).succ fun k => ?_, .nil, fun y hy => absurd hy List.not_mem_nil⟩
    rw [Doc.nodeAncestors, if_neg he]

theorem axisList_tree {x : Nat} (hx : x < d.items.length) (axis : Axis) :
    ∃ l, AxisList d ext axis (.tree x) l := by
  have hle := h.ext_le x hx
  have hgt := h.ext_gt x hx
  have hbetween : ∀ a b, (between a b).Pairwise (· < ·) := fun a b => List.pairwise_lt_range' ..
  cases axis with
  | self =>
    refine ⟨_, axisList_trees (l := [x]) (Returns.const _) (List.pairwise_singleton ..)
      fun y hy => ?_⟩
    rw [List.mem_singleton.mp hy]
    exact ⟨rfl, hx⟩
  | child =>
    refine ⟨_, axisList_trees (l := d.children x) (Returns.const _) (h.children_increasing hx)
      fun y hy => ⟨h.child_parent x hx y hy, (h.child_bounds hx hy).2.2⟩⟩
  | descendant =>
    refine ⟨_, axisList_trees (l := between (x + 1) (ext x)) ((h.nodeDescendants_spec hx).map rfl)
      (hbetween _ _) fun y hy => ?_⟩
    rw [mem_between] at hy
    exact ⟨hy, by omega⟩
  | descendantOrSelf =>
    refine ⟨_, axisList_trees (l := between x (ext x))
      (((h.nodeDescendants_spec hx).map rfl).map ?_) (hbetween _ _) fun y hy => ?_⟩
    · rw [between_of_lt hgt]
      rfl
    · rw [mem_between] at hy
      exact ⟨hy, by omega⟩
  | parent =>
    refine ⟨_, axisList_trees (l := d.nodeParentList x) ?_ ?_ fun y hy => h.mem_nodeParentList_lt hy⟩
    · have hrev : (d.nodeParentList x).reverse = d.nodeParentList x := by
        rw [Doc.nodeParentList]
        cases (if d.type x = .element then d.parent x
          else if d.type x = .text then d.parent x else none) <;> rfl
      exact (Returns.const _).congr fun k => by simp [Axis.nodes, Node.nodeParentList, Doc.at, hrev]
    · rw [Doc.nodeParentList]
      cases (if d.type x = .element then d.parent x
        else if d.type x = .text then d.parent x else none) <;> simp
  | ancestor =>
    obtain ⟨l, hl, hsorted, hmem⟩ := h.exists_ancestors_increasing hx
    exact ⟨_, axisList_trees (hl.map rfl) hsorted fun y hy =>
      ⟨hmem y hy, Nat.lt_trans (hmem y hy).1 hx⟩⟩
  | ancestorOrSelf =>
    obtain ⟨l, hl, hsorted, hmem⟩ := h.exists_ancestors_increasing hx
    refine ⟨_, axisList_trees (l := l ++ [x]) ((hl.map rfl).map ?_) ?_ fun y hy => ?_⟩
    · simp [Axis.isForward, Doc.at, Doc.tree]
    · refine List.pairwise_append.mpr ⟨hsorted, List.pairwise_singleton .., fun y hy z hz => ?_⟩
      rw [List.mem_singleton.mp hz]
      exact (hmem y hy).1
    · obtain hy | hy := List.mem_append.mp hy
      · have := hmem y hy
        exact ⟨⟨Nat.le_of_lt this.1, this.2⟩, by omega⟩
      · rw [List.mem_singleton.mp hy]
        exact ⟨⟨Nat.le_refl x, hgt⟩, hx⟩
  | precedingSibling =>
    obtain ⟨l, hl, hmem⟩ := h.nodePrecedingSiblings_spec hx
    refine ⟨_, axisList_trees (l := l.reverse) (hl.map ?_) ?_ fun y hy => ?_⟩
    · simp [Axis.isForward, Doc.at]
    · rw [List.pairwise_reverse]
      exact h.nodePrecedingSiblings_decreasing hx hl
    · obtain ⟨p, hpx, hpy, hlt⟩ := (hmem y).mp (List.mem_reverse.mp hy)
      exact ⟨⟨hlt, p, hpx, hpy⟩, by omega⟩
  | followingSibling =>
    refine ⟨_, axisList_trees (l := d.nodeFollowingSiblings x) (Returns.const _)
      (h.nodeFollowingSiblings_increasing hx) fun y hy => ?_⟩
    obtain ⟨p, hpx, hpy, hlt⟩ := (h.mem_nodeFollowingSiblings hx).mp hy
    exact ⟨⟨hlt, p, hpx, hpy⟩, Layout.lt_of_parent hpy⟩
  | preceding =>
    refine ⟨_, axisList_trees ((h.nodePreceding_spec hx).map rfl)
      (List.pairwise_lt_range.filter _) fun y hy => ?_⟩
    simp only [List.mem_filter, List.mem_range, decide_eq_true_eq] at hy
    exact ⟨hy.2, by omega⟩
  | following =>
    refine ⟨_, axisList_trees (l := between (ext x) d.items.length)
      ((h.nodeFollowing_spec hx).map rfl) (hbetween _ _) fun y hy => ?_⟩
    rw [mem_between] at hy
    exact hy
  | attr =>
    refine ⟨(List.range (d.attributes x).length).map (.attr x), ?_, fun _ => ?_, fun a ha => ?_⟩
    · exact (Returns.const _).congr fun k => by
        simp [Axis.nodes, Axis.isForward, Node.itemAttributes, Doc.attrs, Doc.at, Function.comp_def]
    · rw [List.pairwise_map]
      exact List.pairwise_lt_range.imp fun hij => by simp only [Place.index]; omega
    · obtain ⟨i, hi, rfl⟩ := List.mem_map.mp ha
      exact ⟨rfl, hx, List.mem_range.mp hi⟩
  | nsnode =>
    refine ⟨(List.range (d.namespaces x).length).map (.ns x), ?_, fun hne => absurd rfl hne,
      fun a ha => ?_⟩
    · exact (Returns.const _).congr fun k => by
        simp [Axis.nodes, Axis.isForward, Node.itemNamespaces, Doc.at, Function.comp_def]
    · obtain ⟨i, hi, rfl⟩ := List.mem_map.mp ha
      exact ⟨rfl, hx, List.mem_range.mp hi⟩

omit h in
/-- An attribute with the other attributes of its element. -/
theorem axisList_attrs {x i : Nat} {axis : Axis} (hx : x < d.items.length) {l : List Nat}
    (hn : Returns (axis.nodes · (d.at (.attr x i)))
      (d.attrs x (if axis.isForward then l else l.reverse)))
    (hl : l.Pairwise (· < ·))
    (hmem : ∀ j ∈ l, OnAxis d ext axis (.attr x i) (.attr x j) ∧ j < (d.attributes x).length) :
    AxisList d ext axis (.attr x i) (l.map (.attr x)) := by
  refine ⟨?_, fun _ => List.pairwise_map.mpr (hl.imp fun hlt => ?_), fun a ha => ?_⟩
  · have hnode : ∀ l : List Nat, (l.map (Place.attr x)).map d.at = d.attrs x l := fun l => by
      simp [Doc.attrs, Doc.at]
    rw [← hnode] at hn
    cases hf : axis.isForward <;> simpa [hf] using hn
  · simp only [Place.index]
    omega
  · obtain ⟨j, hj, rfl⟩ := List.mem_map.mp ha
    exact ⟨(hmem j hj).1, hx, (hmem j hj).2⟩

theorem axisList_attr {x i : Nat} (hp : (Place.attr x i).In d) {axis : Axis}
    (hne : axis ≠ .following) : ∃ l, AxisList d ext axis (.attr x i) l := by
  obtain ⟨hx, hi⟩ := hp
  have hself : ∀ {axis : Axis}, OnAxis d ext axis (.attr x i) (.attr x i) →
      (∀ k, axis.nodes k (d.at (.attr x i)) = some [d.at (.attr x i)]) →
      ∃ l, AxisList d ext axis (.attr x i) l := by
    intro axis hon hn
    refine ⟨_, axisList_attrs (l := [i]) hx ?_ (List.pairwise_singleton ..) fun j hj => ?_⟩
    · exact (Returns.const _).congr fun k => by
        rw [hn]
        cases axis.isForward <;> rfl
    · rw [List.mem_singleton.mp hj]
      exact ⟨hon, hi⟩
  cases axis with
  | self => exact hself rfl fun k => rfl
  | descendantOrSelf => exact hself rfl fun k => rfl
  | ancestorOrSelf => exact hself rfl fun k => rfl
  | child => exact ⟨[], .empty (Returns.const _)⟩
  | descendant => exact ⟨[], .empty (Returns.const _)⟩
  | parent => exact ⟨[], .empty (Returns.const _)⟩
  | ancestor => exact ⟨[], .empty (Returns.const _)⟩
  | attr => exact ⟨[], .empty (Returns.const _)⟩
  | nsnode => exact ⟨[], .empty (Returns.const _)⟩
  | precedingSibling =>
    refine ⟨_, axisList_attrs hx (l := List.range i) (Returns.const _) List.pairwise_lt_range
      fun j hj => ?_⟩
    have := List.mem_range.mp hj
    exact ⟨⟨rfl, this⟩, by omega⟩
  | followingSibling =>
    refine ⟨_, axisList_attrs hx (l := List.range' (i + 1) ((d.attributes x).length - (i + 1)))
      (Returns.const _) (List.pairwise_lt_range' ..) fun j hj => ?_⟩
    rw [List.mem_range'_1] at hj
    exact ⟨⟨rfl, by omega⟩, by omega⟩
  | preceding =>
    refine ⟨((List.range x).filter (ext · ≤ x)).map .tree ++ (List.range i).map (.attr x), ?_,
      fun _ => ?_, fun a ha => ?_⟩
    · have hloop := h.nodePreceding_spec hx
      refine (hloop.map (g := (d.attrs x (List.range i).reverse ++ ·.map d.tree)) ?_).congr
        fun k => ?_
      · simp [Axis.isForward, Doc.attrs, Doc.at, Doc.tree, Function.comp_def]
      · exact congrArg (Option.map _) ((preceding_shift (-1) k).2 x 0 0)
    · refine List.pairwise_append.mpr ⟨?_, ?_, fun a ha b hb => ?_⟩
      · exact List.pairwise_map.mpr (List.pairwise_lt_range.filter _)
      · exact List.pairwise_map.mpr (List.pairwise_lt_range.imp fun hlt => by
          simp only [Place.index]; omega)
      · obtain ⟨y, hy, rfl⟩ := List.mem_map.mp ha
        obtain ⟨j, -, rfl⟩ := List.mem_map.mp hb
        have := List.mem_range.mp (List.mem_filter.mp hy).1
        simp only [Place.index]
        omega
    · obtain ha | ha := List.mem_append.mp ha
      · obtain ⟨y, hy, rfl⟩ := List.mem_map.mp ha
        simp only [List.mem_filter, List.mem_range, decide_eq_true_eq] at hy
        exact ⟨hy.2, Nat.lt_trans hy.1 hx⟩
      · obtain ⟨j, hj, rfl⟩ := List.mem_map.mp ha
        have := List.mem_range.mp hj
        exact ⟨⟨rfl, this⟩, hx, by omega⟩
  | following => exact absurd rfl hne

omit h in
theorem axisList_ns {x i : Nat} (hp : (Place.ns x i).In d) (axis : Axis) :
    ∃ l, AxisList d ext axis (.ns x i) l := by
  have hself : ∀ {axis : Axis}, OnAxis d ext axis (.ns x i) (.ns x i) →
      (∀ k, axis.nodes k (d.at (.ns x i)) = some [d.at (.ns x i)]) →
      ∃ l, AxisList d ext axis (.ns x i) l := by
    intro axis hon hn
    refine ⟨[.ns x i], ?_, fun _ => List.pairwise_singleton .., fun a ha => ?_⟩
    · exact (Returns.const _).congr fun k => by
        rw [hn]
        cases axis.isForward <;> rfl
    · rw [List.mem_singleton.mp ha]
      exact ⟨hon, hp⟩
  cases axis with
  | self => exact hself rfl fun k => rfl
  | descendantOrSelf => exact hself rfl fun k => rfl
  | ancestorOrSelf => exact hself rfl fun k => rfl
  | _ => exact ⟨[], .empty (Returns.const _)⟩

end Layout

end Xml
end NReduce
