import NReduce.Logic.Fuel
import NReduce.Logic.Sorting
import NReduce.Xml.Layout

/-!
# NReduce.Xml.AxesCorrect

The axes of a document in terms of the intervals of its nodes.

* `nodeDescendants_spec`, `nodeFollowing_spec`: the nodes of an interval, in order.
* `nodeAncestors_spec`, `nodePreceding_spec`: the earlier nodes whose interval holds the node, and
  the others, the last one first.
* `itemIndex_spec`: the index of a node is its number.
-/

namespace NReduce
namespace Xml

open Logic

/-! ## The axes as functions of the fuel -/

namespace Doc

variable (d : Doc)

theorem nodeAncestors_mono (x : Nat) : Mono (d.nodeAncestors · x) := by
  intro k
  induction k generalizing x with
  | zero => exact .none _
  | succ k ih =>
    dsimp only at ih ⊢
    rw [nodeAncestors, nodeAncestors]
    split
    · cases d.parent x with
      | some parent => exact (ih parent).map _
      | none => exact .refl _
    · exact .refl _

theorem nodePrecedingSiblings_mono (x : Nat) : Mono (d.nodePrecedingSiblings · x) := by
  intro k
  induction k generalizing x with
  | zero => exact .none _
  | succ k ih =>
    dsimp only at ih ⊢
    rw [nodePrecedingSiblings, nodePrecedingSiblings]
    cases d.prev x with
    | some prev => exact (ih prev).map _
    | none => exact .refl _

theorem descList_mono (k : Nat) :
    (∀ lst next, Extends (d.nodeDescList k lst next) (d.nodeDescList (k + 1) lst next)) ∧
      ∀ x next, Extends (d.descLoop k x next) (d.descLoop (k + 1) x next) := by
  induction k with
  | zero => exact ⟨fun _ _ => .none _, fun _ _ => .none _⟩
  | succ k ih =>
    obtain ⟨ihl, ihx⟩ := ih
    constructor
    · intro lst next
      cases lst with
      | nil => exact .refl _
      | cons node lst =>
        exact ((ihl lst next).bind fun below => ihx node below).map _
    · intro x next
      rw [descLoop, descLoop]
      split
      · exact ihl _ next
      · split
        · exact ihl _ next
        · exact .refl _

theorem preceding_mono (k : Nat) :
    (∀ x level done, Extends (d.precLast k x level done) (d.precLast (k + 1) x level done)) ∧
      ∀ x level done, Extends (d.precLoop k x level done) (d.precLoop (k + 1) x level done) := by
  induction k with
  | zero => exact ⟨fun _ _ _ => .none _, fun _ _ _ => .none _⟩
  | succ k ih =>
    obtain ⟨ihl, ihx⟩ := ih
    constructor
    · intro x level done
      rw [precLast, precLast]
      cases (d.children x).getLast? with
      | some lastchild => exact ihl lastchild _ _
      | none => exact (ihx x _ _).map _
    · intro x level done
      rw [precLoop, precLoop]
      cases d.prev x with
      | some prev => exact ihl prev _ _
      | none =>
        cases d.parent x with
        | some parent =>
          dsimp only
          split
          · exact ihx parent _ _
          · exact (ihx parent _ _).map _
        | none => exact .refl _

theorem following_mono (k : Nat) :
    (∀ x, Extends (d.gonext k x) (d.gonext (k + 1) x)) ∧
      ∀ x, Extends (d.traverse k x) (d.traverse (k + 1) x) := by
  induction k with
  | zero => exact ⟨fun _ => .none _, fun _ => .none _⟩
  | succ k ih =>
    obtain ⟨ihn, iht⟩ := ih
    constructor
    · intro x
      rw [gonext, gonext]
      cases d.next x with
      | cons next _ => exact iht next
      | nil =>
        cases d.parent x with
        | some parent => exact ihn parent
        | none => exact .refl _
    · intro x
      rw [traverse, traverse]
      cases d.children x with
      | cons child _ => exact (iht child).map _
      | nil => exact (ihn x).map _

theorem index_mono (k : Nat) :
    (∀ x, Extends (d.lastDescendant k x) (d.lastDescendant (k + 1) x)) ∧
      ∀ x, Extends (d.itemIndex k x) (d.itemIndex (k + 1) x) := by
  induction k with
  | zero => exact ⟨fun _ => .none _, fun _ => .none _⟩
  | succ k ih =>
    obtain ⟨ihl, ihx⟩ := ih
    constructor
    · intro x
      rw [lastDescendant, lastDescendant]
      cases (d.children x).getLast? with
      | some lastchild => exact ihl lastchild
      | none => exact (ihx x).map _
    · intro x
      rw [itemIndex, itemIndex]
      cases d.prev x with
      | some prev => exact ihl prev
      | none =>
        cases d.parent x with
        | some parent => exact (ihx parent).map _
        | none => exact .refl _

end Doc
/-! ## Intervals of numbers -/

/-- The nodes from `a` up to `b`. -/
def between (a b : Nat) : List Nat := List.range' a (b - a)

theorem between_self (a : Nat) : between a a = [] := by simp [between]

theorem between_of_lt {a b : Nat} (h : a < b) : between a b = a :: between (a + 1) b := by
  obtain ⟨n, rfl⟩ : ∃ n, b = a + 1 + n := ⟨b - (a + 1), by omega⟩
  rw [between, between, show a + 1 + n - a = n + 1 by omega, Nat.add_sub_cancel_left,
    List.range'_succ]

theorem between_append {a b c : Nat} (hab : a ≤ b) (hbc : b ≤ c) :
    between a b ++ between b c = between a c := by
  obtain ⟨m, rfl⟩ : ∃ m, b = a + m := ⟨b - a, by omega⟩
  obtain ⟨n, rfl⟩ : ∃ n, c = a + m + n := ⟨c - (a + m), by omega⟩
  rw [between, between, between, Nat.add_sub_cancel_left, Nat.add_sub_cancel_left,
    show a + m + n - a = m + n by omega, List.range'_append_1]

@[simp] theorem mem_between {a b x : Nat} : x ∈ between a b ↔ a ≤ x ∧ x < b := by
  rw [between, List.mem_range'_1]
  omega

namespace Layout

variable {d : Doc} {ext dep : Nat → Nat} (h : Layout d ext dep)
include h

/-! ## Descendants -/

theorem nodeDescList_spec {l : List Nat} {a b : Nat} (ht : Tiles ext l a b)
    (hl : ∀ y ∈ l, y < d.items.length)
    (hloop : ∀ y ∈ l, ∀ next, Returns (d.descLoop · y next) (between (y + 1) (ext y) ++ next))
    (next : List Nat) : Returns (d.nodeDescList · l next) (between a b ++ next) := by
  induction l generalizing a with
  | nil =>
    rw [Tiles] at ht
    subst ht
    rw [between_self]
    exact (Returns.const next).succ fun _ => rfl
  | cons y l ih =>
    obtain ⟨rfl, ht⟩ := ht
    have hgt := h.ext_gt y (hl y (List.mem_cons_self ..))
    have hle := ht.le fun z hz => h.ext_gt z (hl z (List.mem_cons_of_mem _ hz))
    have hrest := ih ht (fun z hz => hl z (List.mem_cons_of_mem _ hz))
      (fun z hz => hloop z (List.mem_cons_of_mem _ hz))
    have hnode := hloop y (List.mem_cons_self ..) (between (ext y) b ++ next)
    rw [← List.append_assoc, between_append hgt hle] at hnode
    refine ((hrest.bind (g := fun next k => d.descLoop k y next) hnode).map (g := (y :: ·)) ?_).succ
      fun k => by rw [Doc.nodeDescList]
    rw [between_of_lt (by omega : y < b), List.cons_append]

theorem descLoop_spec {x : Nat} (hx : x < d.items.length) (next : List Nat) :
    Returns (d.descLoop · x next) (between (x + 1) (ext x) ++ next) := by
  -- the children of a node come after it
  induction hn : d.items.length - x using Nat.strongRecOn generalizing x next with
  | _ n ih =>
    have hlist := h.nodeDescList_spec (h.children x hx) (fun y hy => (h.child_bounds hx hy).2.2)
      (fun y hy next => by
        have hb := h.child_bounds hx hy
        exact ih _ (by omega) hb.2.2 next rfl) next
    cases ht : d.type x with
    | element => exact hlist.succ fun k => by rw [Doc.descLoop, ht, if_pos rfl]
    | document =>
      exact hlist.succ fun k => by rw [Doc.descLoop, ht, if_neg (by simp), if_pos rfl]
    | _ =>
      have hc := h.leaf x hx (by rw [ht]; simp) (by rw [ht]; simp)
      have he := h.children x hx
      rw [hc, Tiles] at he
      rw [← he, between_self]
      exact (Returns.const next).succ fun k => by
        rw [Doc.descLoop, ht, if_neg (by simp), if_neg (by simp)]

theorem nodeDescendants_spec {x : Nat} (hx : x < d.items.length) :
    Returns (d.nodeDescendants · x) (between (x + 1) (ext x)) := by
  have hloop := h.descLoop_spec hx []
  rwa [List.append_nil] at hloop

/-! ## Following -/

theorem gonext_spec {x : Nat} (hx : x < d.items.length)
    (ht : ext x < d.items.length →
      Returns (d.traverse · (ext x)) (between (ext x) d.items.length)) :
    Returns (d.gonext · x) (between (ext x) d.items.length) := by
  -- the search goes up
  induction x using Nat.strongRecOn with
  | _ x ih =>
    by_cases hzero : x = 0
    · subst hzero
      rw [h.ext_zero, between_self]
      exact (Returns.const []).succ fun k => by rw [Doc.gonext, h.next_zero, h.parent_zero]
    · obtain ⟨p, hp, hpx, hep, _, htile, _⟩ := h.parent x hx hzero
      cases hnext : d.next x with
      | nil =>
        rw [hnext, Tiles] at htile
        have hpar := ih p hpx (Nat.lt_trans hpx hx) (by rwa [← htile])
        rw [← htile] at hpar
        exact hpar.succ fun k => by rw [Doc.gonext, hnext, hp]
      | cons y l =>
        have hy := Layout.lt_of_parent ((h.next_parent x hx y (by simp [hnext])).trans hp)
        rw [hnext] at htile
        obtain ⟨rfl, _⟩ := htile
        exact (ht hy).succ fun k => by rw [Doc.gonext, hnext]

theorem traverse_spec {x : Nat} (hx : x < d.items.length) :
    Returns (d.traverse · x) (between x d.items.length) := by
  induction hn : d.items.length - x using Nat.strongRecOn generalizing x with
  | _ n ih =>
    have htile := h.children x hx
    have hcons := (between_of_lt hx).symm
    cases hc : d.children x with
    | nil =>
      rw [hc, Tiles] at htile
      have hgo := h.gonext_spec hx fun hlt => ih _ (by omega) hlt rfl
      rw [← htile] at hgo
      exact (hgo.map (g := (x :: ·)) hcons).succ fun k => by rw [Doc.traverse, hc]
    | cons y l =>
      have hy := h.child_bounds hx (y := y) (by simp [hc])
      rw [hc] at htile
      obtain ⟨rfl, _⟩ := htile
      exact ((ih _ (by omega) hy.2.2 rfl).map (g := (x :: ·)) hcons).succ fun k => by
        rw [Doc.traverse, hc]

theorem nodeFollowing_spec {x : Nat} (hx : x < d.items.length) :
    Returns (d.nodeFollowing · x) (between (ext x) d.items.length) :=
  h.gonext_spec hx h.traverse_spec

/-! ## Ancestors -/

/-- A parent is an element or the document. -/
theorem type_parent {x p : Nat} (hx : x < d.items.length) (hp : d.parent x = some p) :
    d.type p = .element ∨ p = 0 := by
  obtain ⟨_, hpx, -⟩ := h.parent_lt hx hp
  have hpl := Nat.lt_trans hpx hx
  by_cases he : d.type p = .element
  · exact .inl he
  · by_cases hd : d.type p = .document
    · right
      by_contra hne
      obtain ⟨_, _, _, _, _, _, hnot⟩ := h.parent p hpl hne
      exact hnot hd
    · have hmem := h.parent_child x hx p hp
      rw [h.leaf p hpl he hd] at hmem
      cases hmem

/-- The earlier nodes that hold a node: its parent, and those that hold the parent. -/
theorem filter_holds {x p : Nat} (hx : x < d.items.length) (hp : d.parent x = some p) :
    (List.range x).filter (x < ext ·) = (List.range p).filter (p < ext ·) ++ [p] := by
  obtain ⟨_, hpx, hep, -⟩ := h.parent_lt hx hp
  have hpl := Nat.lt_trans hpx hx
  have hgt := h.ext_gt x hx
  have hrange : List.range x = List.range p ++ (p :: between (p + 1) x) := by
    rw [← between_of_lt hpx, List.range_eq_range', List.range_eq_range']
    exact (between_append (Nat.zero_le p) (Nat.le_of_lt hpx)).symm
  have hnone : (between (p + 1) x).filter (x < ext ·) = [] := by
    rw [List.filter_eq_nil_iff]
    intro y hy
    rw [mem_between] at hy
    simp only [decide_eq_true_eq]
    intro hin
    have := h.parent_in hx hy.2 hin hp
    omega
  have hbelow : (List.range p).filter (x < ext ·) = (List.range p).filter (p < ext ·) := by
    apply List.filter_congr
    intro y hy
    rw [List.mem_range] at hy
    rw [decide_eq_decide]
    constructor
    · omega
    · intro hin
      obtain h1 | h1 := h.nested hpl hy
      · omega
      · omega
  rw [hrange, List.filter_append, hbelow, List.filter_cons, hnone, if_pos (by simp; omega)]

theorem nodeAncestors_spec {x : Nat} (hx : x < d.items.length) (he : d.type x = .element) :
    Returns (d.nodeAncestors · x) ((List.range x).filter (x < ext ·)).reverse := by
  induction x using Nat.strongRecOn with
  | _ x ih =>
    have hzero : x ≠ 0 := by
      rintro rfl
      rw [h.type_zero] at he
      cases he
    obtain ⟨p, hp, hpx, -⟩ := h.parent x hx hzero
    have hrest : Returns (d.nodeAncestors · p) ((List.range p).filter (p < ext ·)).reverse := by
      obtain hpe | rfl := h.type_parent hx hp
      · exact ih p hpx (Nat.lt_trans hpx hx) hpe
      · exact (Returns.const []).succ fun k => by
          rw [Doc.nodeAncestors, h.type_zero, if_neg nofun]
    rw [h.filter_holds hx hp, List.reverse_append]
    exact (hrest.map (g := (p :: ·)) rfl).succ fun k => by rw [Doc.nodeAncestors, if_pos he, hp]

/-! ## Preceding -/

theorem precLast_spec {y z : Nat} {level done : Int} (x₀ : Nat) (hy : y < d.items.length)
    (hz : ext y = z) (hle : z ≤ x₀) (hlevel : (dep y : Int) = level + dep x₀)
    (hloop : ∀ w level, w + 1 = z → ext w = z → (dep w : Int) = level + dep x₀ →
      Returns (d.precLoop · w level done) ((List.range w).filter (ext · ≤ x₀)).reverse) :
    Returns (d.precLast · y level done) ((List.range z).filter (ext · ≤ x₀)).reverse := by
  induction hn : z - y using Nat.strongRecOn generalizing y level with
  | _ n ih =>
    have hgt := h.ext_gt y hy
    cases hc : (d.children y).getLast? with
    | some c =>
      have hmem := List.mem_of_getLast? hc
      obtain ⟨hyc, _, hcl⟩ := h.child_bounds hy hmem
      have hec := (h.children y hy).getLast hc
      obtain ⟨_, _, _, hdep, _⟩ := h.parent_lt hcl (h.child_parent y hy c hmem)
      have hlevel' : (dep c : Int) = level + 1 + dep x₀ := by omega
      have := ih (z - c) (by omega) (y := c) hcl (hec.trans hz) hlevel' rfl
      exact this.succ fun k => by rw [Doc.precLast, hc]
    | none =>
      have htile := h.children y hy
      rw [List.getLast?_eq_none_iff.mp hc, Tiles] at htile
      have hw : y + 1 = z := htile.trans hz
      refine ((hloop y level hw hz hlevel).map (g := (y :: ·)) ?_).succ fun k => by
        rw [Doc.precLast, hc]
      rw [← hw, List.range_succ, List.filter_append, List.filter_cons,
        if_pos (by simp; omega), List.filter_nil, List.reverse_append]
      rfl

/-- The walk is at `x`. The levels are done up to the one of `a`, which is the node where the walk
began or one above it, and `x` is not before the parent of `a`. -/
theorem precLoop_spec {x₀ x a : Nat} {level done : Int} (hx₀ : x₀ < d.items.length) (hxa : x ≤ a)
    (ha : a ≤ x₀) (hin : x₀ < ext a) (hpa : ∀ q, d.parent a = some q → q < x)
    (hdone : (dep a : Int) = done + dep x₀) (hlevel : (dep x : Int) = level + dep x₀) :
    Returns (d.precLoop · x level done) ((List.range x).filter (ext · ≤ x₀)).reverse := by
  induction x using Nat.strongRecOn generalizing a level done with
  | _ x ih =>
    have hx : x < d.items.length := by omega
    have hal : a < d.items.length := by omega
    cases hprev : d.prev x with
    | some y =>
      obtain ⟨hyx, hey, hpar⟩ := h.prev x hx y hprev
      have hdep : dep y = dep x := by
        have hne : x ≠ 0 := by omega
        obtain ⟨p, hp, _, _, hdx, -⟩ := h.parent x hx hne
        obtain ⟨_, _, _, hdy, -⟩ := h.parent_lt (Nat.lt_trans hyx hx) (hpar.trans hp)
        omega
      have hlevel' : (dep y : Int) = level + dep x₀ := by omega
      have := h.precLast_spec x₀ (Nat.lt_trans hyx hx) hey (by omega) hlevel'
        fun w level' hw hew hlevel' => by
          apply ih w (by omega) (a := a) (by omega) ha hin ?_ hdone hlevel'
          -- the parent of `a` goes on behind `x`
          intro q hq
          have := hpa q hq
          obtain ⟨_, _, hea, -⟩ := h.parent_lt hal hq
          have hqw : q ≠ w := by
            rintro rfl
            omega
          omega
      exact this.succ fun k => by rw [Doc.precLoop, hprev]
    | none =>
      cases hp : d.parent x with
      | none =>
        have hzero : x = 0 := by
          by_contra hne
          obtain ⟨p, hp', -⟩ := h.parent x hx hne
          rw [hp] at hp'
          cases hp'
        subst hzero
        exact (Returns.const []).succ fun k => by rw [Doc.precLoop, hprev, hp]
      | some p =>
        obtain rfl := h.first x hx p hprev hp
        obtain ⟨_, _, hep, hdep, -⟩ := h.parent_lt hx hp
        have hpl : p < d.items.length := by omega
        by_cases hanc : x₀ < ext p
        · -- the parent is above the node where the walk began
          have hlt : dep p < dep a := by
            obtain h1 | h1 := h.nested hal (show p < a by omega)
            · omega
            · exact h.dep_lt hal (by omega) h1.1
          have hcond : level - 1 < done := by omega
          have hlevel' : (dep p : Int) = level - 1 + dep x₀ := by omega
          have := ih p (by omega) (a := p) (by omega) (by omega) hanc
            (fun q hq => (h.parent_lt hpl hq).2.1) hlevel' hlevel'
          rw [List.range_succ, List.filter_append, List.filter_cons, if_neg (by simp; omega),
            List.filter_nil, List.append_nil]
          exact this.succ fun k => by simp only [Doc.precLoop, hprev, hp, if_pos hcond]
        · obtain ⟨q, hq, hqa, hea, hda, -⟩ := h.parent a hal (by omega)
          have hqp : q < p := by
            have := hpa q hq
            have hne : q ≠ p := by
              rintro rfl
              omega
            omega
          have hlt : dep q < dep p := h.dep_lt hpl hqp (by omega)
          have hcond : ¬ level - 1 < done := by omega
          have hlevel' : (dep p : Int) = level - 1 + dep x₀ := by omega
          have := ih p (by omega) (a := a) (by omega) ha hin
            (fun q' hq' => by
              rw [hq] at hq'
              cases hq'
              exact hqp) hdone hlevel'
          rw [List.range_succ, List.filter_append, List.filter_cons, if_pos (by simp; omega),
            List.filter_nil, List.reverse_append]
          exact (this.map (g := (p :: ·)) rfl).succ fun k => by
            simp only [Doc.precLoop, hprev, hp, if_neg hcond]

omit h in
/-- Only the difference of the two levels matters. -/
theorem preceding_shift (c : Int) (k : Nat) :
    (∀ x level done, d.precLast k x (level + c) (done + c) = d.precLast k x level done) ∧
      ∀ x level done, d.precLoop k x (level + c) (done + c) = d.precLoop k x level done := by
  induction k with
  | zero => exact ⟨fun _ _ _ => rfl, fun _ _ _ => rfl⟩
  | succ k ih =>
    obtain ⟨ihl, ihx⟩ := ih
    constructor
    · intro x level done
      rw [Doc.precLast, Doc.precLast]
      cases (d.children x).getLast? with
      | some lastchild =>
        dsimp only
        rw [← ihl lastchild (level + 1) done, Int.add_right_comm]
      | none => rw [ihx]
    · intro x level done
      rw [Doc.precLoop, Doc.precLoop]
      cases d.prev x with
      | some prev => exact ihl prev level done
      | none =>
        cases d.parent x with
        | some parent =>
          have hlevel : level + c - 1 = level - 1 + c := by omega
          have hdone : (if level - 1 + c < done + c then level - 1 + c else done + c) =
              (if level - 1 < done then level - 1 else done) + c := by
            split <;> split <;> omega
          dsimp only
          rw [hlevel, hdone, ihx]
          simp only [Int.add_lt_add_iff_right]
        | none => rfl

theorem nodePreceding_spec {x : Nat} (hx : x < d.items.length) :
    Returns (d.nodePreceding · x) ((List.range x).filter (ext · ≤ x)).reverse :=
  h.precLoop_spec hx (Nat.le_refl x) (Nat.le_refl x) (h.ext_gt x hx)
    (fun _ hq => (h.parent_lt hx hq).2.1) (by omega) (by omega)

/-! ## The index -/

theorem lastDescendant_spec {y : Nat} (hy : y < d.items.length)
    (hindex : ∀ w, w + 1 = ext y → Returns (d.itemIndex · w) w) :
    Returns (d.lastDescendant · y) (ext y) := by
  induction hn : ext y - y using Nat.strongRecOn generalizing y with
  | _ n ih =>
    have hgt := h.ext_gt y hy
    cases hc : (d.children y).getLast? with
    | some c =>
      have hmem := List.mem_of_getLast? hc
      obtain ⟨hyc, _, hcl⟩ := h.child_bounds hy hmem
      have hec := (h.children y hy).getLast hc
      have := ih (ext c - c) (by omega) hcl (by rwa [hec]) rfl
      rw [hec] at this
      exact this.succ fun k => by rw [Doc.lastDescendant, hc]
    | none =>
      have htile := h.children y hy
      rw [List.getLast?_eq_none_iff.mp hc, Tiles] at htile
      exact ((hindex y htile).map (g := (1 + ·)) (by omega)).succ fun k => by
        rw [Doc.lastDescendant, hc]

theorem itemIndex_spec {x : Nat} (hx : x < d.items.length) : Returns (d.itemIndex · x) x := by
  induction x using Nat.strongRecOn with
  | _ x ih =>
    cases hprev : d.prev x with
    | some y =>
      obtain ⟨hyx, hey, _⟩ := h.prev x hx y hprev
      have := h.lastDescendant_spec (Nat.lt_trans hyx hx) fun w hw => ih w (by omega) (by omega)
      rw [hey] at this
      exact this.succ fun k => by rw [Doc.itemIndex, hprev]
    | none =>
      by_cases hzero : x = 0
      · subst hzero
        exact (Returns.const 0).succ fun k => by rw [Doc.itemIndex, hprev, h.parent_zero]
      · obtain ⟨p, hp, hpx, -⟩ := h.parent x hx hzero
        have := h.first x hx p hprev hp
        exact ((ih p hpx (Nat.lt_trans hpx hx)).map (g := (1 + ·)) (by omega)).succ fun k => by
          rw [Doc.itemIndex, hprev, hp]

/-! ## Siblings -/

theorem mem_children {x y : Nat} (hx : x < d.items.length) :
    y ∈ d.children x ↔ d.parent y = some x :=
  ⟨h.child_parent x hx y, fun hp => h.parent_child y (Layout.lt_of_parent hp) x hp⟩

theorem parent_mem {x p : Nat} (hp : d.parent x = some p) : p < d.items.length :=
  Nat.lt_trans (h.parent_lt (Layout.lt_of_parent hp) hp).2.1 (Layout.lt_of_parent hp)

/-- Of two siblings, the later one is behind all of the earlier one. -/
theorem sibling_le {x y p : Nat} (hx : d.parent x = some p) (hy : d.parent y = some p)
    (hlt : x < y) : ext x ≤ y := by
  have hyl := Layout.lt_of_parent hy
  obtain h1 | h1 := h.nested hyl hlt
  · exact h1
  · have := h.parent_in hyl hlt h1.1 hy
    have := (h.parent_lt (Layout.lt_of_parent hx) hx).2.1
    omega

theorem mem_nodeFollowingSiblings {x y : Nat} (hx : x < d.items.length) :
    y ∈ d.nodeFollowingSiblings x ↔ ∃ p, d.parent x = some p ∧ d.parent y = some p ∧ x < y := by
  rw [Doc.nodeFollowingSiblings]
  by_cases hzero : x = 0
  · subst hzero
    rw [h.next_zero, h.parent_zero]
    simp
  · obtain ⟨p, hp, hpx, hep, _, htile, _⟩ := h.parent x hx hzero
    have hlt : ∀ z ∈ d.next x, z < d.items.length := fun z hz =>
      Layout.lt_of_parent ((h.next_parent x hx z hz).trans hp)
    have hpos : ∀ z ∈ d.next x, z < ext z := fun z hz => h.ext_gt z (hlt z hz)
    have hgt := h.ext_gt x hx
    constructor
    · intro hy
      have := (htile.mem_bounds hpos hy).1
      exact ⟨p, hp, (h.next_parent x hx y hy).trans hp, by omega⟩
    · rintro ⟨q, hq, hqy, hxy⟩
      rw [hp] at hq
      cases hq
      have hle := h.sibling_le hp hqy hxy
      have hyl := Layout.lt_of_parent hqy
      obtain ⟨_, _, hey, _⟩ := h.parent_lt hyl hqy
      obtain ⟨z, hz, hzy, hyz⟩ := htile.cover hle (by have := h.ext_gt y hyl; omega)
      obtain rfl | hne := Nat.eq_or_lt_of_le hzy
      · exact hz
      · have := h.sibling_le ((h.next_parent x hx z hz).trans hp) hqy hne
        omega

theorem nodePrecedingSiblings_spec {x : Nat} (hx : x < d.items.length) :
    ∃ l, Returns (d.nodePrecedingSiblings · x) l ∧
      ∀ y, y ∈ l ↔ ∃ p, d.parent x = some p ∧ d.parent y = some p ∧ y < x := by
  induction x using Nat.strongRecOn with
  | _ x ih =>
    cases hprev : d.prev x with
    | none =>
      refine ⟨[], (Returns.const []).succ fun k => by rw [Doc.nodePrecedingSiblings, hprev], ?_⟩
      intro y
      constructor
      · intro hy
        cases hy
      · rintro ⟨p, hp, hy, hyx⟩
        have := h.first x hx p hprev hp
        have := (h.parent_lt (Layout.lt_of_parent hy) hy).2.1
        omega
    | some w =>
      obtain ⟨hwx, hew, hpar⟩ := h.prev x hx w hprev
      obtain ⟨l, hl, hmem⟩ := ih w hwx (Nat.lt_trans hwx hx)
      refine ⟨w :: l, (hl.map (g := (w :: ·)) rfl).succ fun k => by
        rw [Doc.nodePrecedingSiblings, hprev], fun y => ?_⟩
      rw [List.mem_cons, hmem, hpar]
      constructor
      · rintro (rfl | ⟨p, hp, hy, hyw⟩)
        · obtain ⟨p, hp, -⟩ := h.parent x hx (by omega)
          exact ⟨p, hp, hpar.trans hp, hwx⟩
        · exact ⟨p, hp, hy, by omega⟩
      · rintro ⟨p, hp, hy, hyx⟩
        by_cases hyw : y = w
        · exact .inl hyw
        · refine .inr ⟨p, hp, hy, ?_⟩
          by_contra hge
          have := h.sibling_le (hpar.trans hp) hy (by omega)
          omega

theorem nodePrecedingSiblings_decreasing {x : Nat} (hx : x < d.items.length) {l : List Nat}
    (hl : Returns (d.nodePrecedingSiblings · x) l) : l.Pairwise (· > ·) := by
  induction x using Nat.strongRecOn generalizing l with
  | _ x ih =>
    cases hprev : d.prev x with
    | none =>
      have hnil : Returns (d.nodePrecedingSiblings · x) [] :=
        (Returns.const []).succ fun k => by rw [Doc.nodePrecedingSiblings, hprev]
      rw [hl.unique hnil]
      exact .nil
    | some w =>
      obtain ⟨hwx, -⟩ := h.prev x hx w hprev
      have hw := Nat.lt_trans hwx hx
      obtain ⟨m, hm, hmem⟩ := h.nodePrecedingSiblings_spec hw
      have hcons : Returns (d.nodePrecedingSiblings · x) (w :: m) :=
        (hm.map (g := (w :: ·)) rfl).succ fun k => by rw [Doc.nodePrecedingSiblings, hprev]
      rw [hl.unique hcons]
      refine List.pairwise_cons.mpr ⟨fun y hy => ?_, ih w hwx hw hm⟩
      obtain ⟨p, -, -, hyw⟩ := (hmem y).mp hy
      exact hyw

theorem children_increasing {x : Nat} (hx : x < d.items.length) :
    (d.children x).Pairwise (· < ·) :=
  (h.children x hx).increasing (h.children_pos hx)

theorem nodeFollowingSiblings_increasing {x : Nat} (hx : x < d.items.length) :
    (d.nodeFollowingSiblings x).Pairwise (· < ·) := by
  rw [Doc.nodeFollowingSiblings]
  by_cases hzero : x = 0
  · rw [hzero, h.next_zero]
    exact .nil
  · obtain ⟨p, hp, -⟩ := h.parent x hx hzero
    obtain ⟨_, _, _, _, ht⟩ := h.parent_lt hx hp
    refine ht.increasing fun y hy => h.ext_gt y ?_
    obtain ⟨q, -, hq, -⟩ := (h.mem_nodeFollowingSiblings hx).mp hy
    exact Layout.lt_of_parent hq

/-! ## Sorting -/

omit h in
theorem docorderSplit_eq (k pivot : Nat) (lst before after : List Nat) :
    d.docorderSplit k pivot lst before after =
      splitBy d.itemIndex k pivot lst before after := by
  induction lst generalizing before after with
  | nil => rfl
  | cons item rest ih => simp only [Doc.docorderSplit, splitBy, ih]

omit h in
theorem docorderSort_eq (k : Nat) (lst : List Nat) :
    d.docorderSort k lst = sortBy d.itemIndex k lst := by
  induction k generalizing lst with
  | zero => rfl
  | succ k ih =>
    cases lst with
    | nil => rfl
    | cons pivot lst => simp only [Doc.docorderSort, sortBy, docorderSplit_eq, ih]

theorem docorderSort_spec {lst : List Nat} (hl : ∀ x ∈ lst, x < d.items.length) :
    ∃ l, Returns (d.docorderSort · lst) l ∧ l.Perm lst ∧ l.Pairwise (· ≤ ·) := by
  obtain ⟨l, hret, hperm, hsort⟩ := sortBy_spec (v := id) fun x hx => h.itemIndex_spec (hl x hx)
  exact ⟨l, hret.congr fun k => docorderSort_eq k lst, hperm, hsort⟩

end Layout

end Xml
end NReduce
