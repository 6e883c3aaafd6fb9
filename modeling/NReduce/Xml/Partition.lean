import NReduce.Xml.AxesCorrect
import NReduce.Xml.Forest

/-!
# NReduce.Xml.Partition

What the axes of a parsed document have to do with each other.

* `axes_partition`: from an element, the four main axes and the element itself are all nodes of the
  document, each once and in order.
* `converse_iff`: when opposite axes are converse relations.
-/

namespace NReduce
namespace Xml

open Logic

/-- The nodes of a list of siblings and below, in document order. -/
inductive Preorder (d : Doc) : List Nat → List Nat → Prop where
  | nil : Preorder d [] []
  | cons {x : Nat} {rest below after : List Nat} : Preorder d (d.children x) below →
    Preorder d rest after → Preorder d (x :: rest) (x :: (below ++ after))

namespace Layout

variable {d : Doc} {ext dep : Nat → Nat} (h : Layout d ext dep)
include h

theorem preorder_tiles {l : List Nat} {a b : Nat} (ht : Tiles ext l a b)
    (hl : ∀ y ∈ l, y < d.items.length)
    (hch : ∀ y ∈ l, Preorder d (d.children y) (between (y + 1) (ext y))) :
    Preorder d l (between a b) := by
  induction l generalizing a with
  | nil =>
    rw [Tiles] at ht
    subst ht
    rw [between_self]
    exact .nil
  | cons y l ih =>
    obtain ⟨rfl, ht⟩ := ht
    have hgt := h.ext_gt y (hl y (List.mem_cons_self ..))
    have hle := ht.le fun z hz => h.ext_gt z (hl z (List.mem_cons_of_mem _ hz))
    rw [between_of_lt (by omega), ← between_append hgt hle]
    exact .cons (hch y (List.mem_cons_self ..)) (ih ht (fun z hz => hl z (List.mem_cons_of_mem _ hz))
      (fun z hz => hch z (List.mem_cons_of_mem _ hz)))

theorem preorder_children {x : Nat} (hx : x < d.items.length) :
    Preorder d (d.children x) (between (x + 1) (ext x)) := by
  induction hn : d.items.length - x using Nat.strongRecOn generalizing x with
  | _ n ih =>
    apply h.preorder_tiles (h.children x hx) (fun y hy => (h.child_bounds hx hy).2.2)
    intro y hy
    have hb := h.child_bounds hx hy
    exact ih _ (by omega) hb.2.2 rfl

theorem preorder : Preorder d [0] (List.range d.items.length) := by
  have hc := h.preorder_children h.pos
  rw [h.ext_zero] at hc
  have hdoc := Preorder.cons hc (.nil : Preorder d [] [])
  rwa [List.append_nil, ← between_of_lt h.pos, between, Nat.sub_zero,
    ← List.range_eq_range'] at hdoc

end Layout

/-! ## The axes of an element -/

/-- The nodes `l`, all of them in document order, are divided among the axes of `n`. -/
structure Divided (d : Doc) (n : Nat) (l anc desc fol pre : List Nat) : Prop where
  ancestors : Returns (d.nodeAncestors · n) anc
  descendants : Returns (d.nodeDescendants · n) desc
  following : Returns (d.nodeFollowing · n) fol
  preceding : Returns (d.nodePreceding · n) pre
  once : (n :: (anc ++ desc ++ fol ++ pre)).Perm l
  anc_order : anc.reverse.Sublist l
  desc_order : desc.Sublist l
  fol_order : fol.Sublist l
  pre_order : pre.reverse.Sublist l

theorem between_sublist_range {a b n : Nat} (hab : a ≤ b) (hbn : b ≤ n) :
    (between a b).Sublist (List.range n) := by
  rw [List.range_eq_range', ← Nat.sub_zero n]
  change (between a b).Sublist (between 0 n)
  rw [← between_append (Nat.zero_le a) (Nat.le_trans hab hbn), ← between_append hab hbn]
  exact (List.sublist_append_left ..).trans (List.sublist_append_right ..)

theorem perm_last_to_second (a b c e : List Nat) :
    (a ++ b ++ c ++ e).Perm ((a ++ e) ++ (b ++ c)) := by
  rw [List.append_assoc, List.append_assoc, List.append_assoc, ← List.append_assoc b c e]
  exact List.perm_append_comm.append_left a

theorem Layout.divided {d : Doc} {ext dep : Nat → Nat} (h : Layout d ext dep) {n : Nat}
    (hn : n < d.items.length) (he : d.type n = .element) :
    Divided d n (List.range d.items.length) ((List.range n).filter (n < ext ·)).reverse
      (between (n + 1) (ext n)) (between (ext n) d.items.length)
      ((List.range n).filter (ext · ≤ n)).reverse := by
  have hgt := h.ext_gt n hn
  have hle := h.ext_le n hn
  have hsub : (List.range n).Sublist (List.range d.items.length) := List.range_sublist.mpr (Nat.le_of_lt hn)
  refine ⟨h.nodeAncestors_spec hn he, h.nodeDescendants_spec hn, h.nodeFollowing_spec hn,
    h.nodePreceding_spec hn, ?_, ?_, between_sublist_range hgt hle,
    between_sublist_range hle (Nat.le_refl _), ?_⟩
  · -- the earlier nodes hold `n` or end before it
    have hearlier : ((List.range n).filter (n < ext ·) ++ (List.range n).filter (ext · ≤ n)).Perm
        (List.range n) := by
      have := List.filter_append_perm (fun y => decide (n < ext y)) (List.range n)
      simpa only [← decide_not, Nat.not_lt] using this
    have hrange : List.range d.items.length =
        List.range n ++ (n :: (between (n + 1) (ext n) ++ between (ext n) d.items.length)) := by
      rw [between_append hgt hle, ← between_of_lt hn, List.range_eq_range', List.range_eq_range']
      exact (between_append (Nat.zero_le n) (Nat.le_of_lt hn)).symm
    rw [hrange]
    refine .trans ?_ List.perm_middle.symm
    apply List.Perm.cons
    have hanc := List.reverse_perm ((List.range n).filter (n < ext ·))
    have hpre := List.reverse_perm ((List.range n).filter (ext · ≤ n))
    exact (perm_last_to_second ..).trans (((hanc.append hpre).trans hearlier).append_right _)
  · rw [List.reverse_reverse]
    exact List.filter_sublist.trans hsub
  · rw [List.reverse_reverse]
    exact List.filter_sublist.trans hsub

/-- `l` are the nodes of a parsed document. -/
theorem axes_partition {tokens : List Token} {d : Doc} (hd : parse tokens = .ok d) :
    ∃ (l : List Nat) (index : Nat → Nat), Preorder d [0] l ∧ l.Nodup ∧
      (∀ n ∈ l, d.type n = .element → ∃ anc desc fol pre, Divided d n l anc desc fol pre) ∧
      (∀ n ∈ l, Returns (d.itemIndex · n) (index n)) ∧
      l.Pairwise (fun m n => index m < index n) ∧
      ∀ lst, lst ⊆ l → ∃ sorted, Returns (d.docorderSort · lst) sorted ∧ sorted.Perm lst ∧
        sorted.Pairwise (fun m n => index m ≤ index n) := by
  obtain ⟨ext, dep, h⟩ := parse_layout hd
  refine ⟨List.range d.items.length, id, h.preorder, List.nodup_range, fun n hn he => ?_,
    fun n hn => h.itemIndex_spec (List.mem_range.mp hn), List.pairwise_lt_range, fun lst hl => ?_⟩
  · exact ⟨_, _, _, _, h.divided (List.mem_range.mp hn) he⟩
  · exact h.docorderSort_spec fun x hx => List.mem_range.mp (hl hx)

/-- An element with a text, an element and a comment. -/
def mixedTokens : List Token :=
  [⟨.startElem, ['a']⟩, ⟨.text, ['t']⟩, ⟨.startElem, ['b']⟩, ⟨.endElem, []⟩, ⟨.comment, ['c']⟩,
    ⟨.endElem, []⟩]

def mixedDoc : Doc :=
  .ofForest (.elem ⟨[], [], ['a'], [], []⟩ (.leaf (.text ['t']) (.elem ⟨[], [], ['b'], [], []⟩ .nil
    (.leaf (.comment ['c']) .nil))) .nil)

theorem parse_mixed : parse mixedTokens = .ok mixedDoc := rfl

theorem axes_partition_mixed :
    ∃ (l : List Nat) (index : Nat → Nat), Preorder mixedDoc [0] l ∧ l.Nodup ∧
      (∀ n ∈ l, mixedDoc.type n = .element →
        ∃ anc desc fol pre, Divided mixedDoc n l anc desc fol pre) ∧
      (∀ n ∈ l, Returns (mixedDoc.itemIndex · n) (index n)) ∧
      l.Pairwise (fun m n => index m < index n) ∧
      ∀ lst, lst ⊆ l → ∃ sorted, Returns (mixedDoc.docorderSort · lst) sorted ∧
        sorted.Perm lst ∧ sorted.Pairwise (fun m n => index m ≤ index n) :=
  axes_partition parse_mixed

/-! ## Opposite axes -/

/-- `m` is reached from `n` by the links to the parents. -/
inductive Above (d : Doc) (m : Nat) : Nat → Prop where
  | parent {n : Nat} : d.parent n = some m → Above d m n
  | up {n p : Nat} : d.parent n = some p → Above d m p → Above d m n

/-- The axes return, and the opposite ones are converse for `m` and `n`. -/
def Converse (d : Doc) (m n : Nat) : Prop :=
  ∃ anc desc fol pre psib, Returns (d.nodeAncestors · n) anc ∧
    Returns (d.nodeDescendants · m) desc ∧ Returns (d.nodeFollowing · n) fol ∧
    Returns (d.nodePreceding · m) pre ∧ Returns (d.nodePrecedingSiblings · m) psib ∧
    (m ∈ anc ↔ n ∈ desc) ∧ (m ∈ d.nodeParentList n ↔ n ∈ d.children m) ∧ (m ∈ fol ↔ n ∈ pre) ∧
    (m ∈ d.nodeFollowingSiblings n ↔ n ∈ psib)

namespace Layout

variable {d : Doc} {ext dep : Nat → Nat} (h : Layout d ext dep)
include h

theorem above_iff {m n : Nat} (hn : n < d.items.length) : Above d m n ↔ m < n ∧ n < ext m := by
  constructor
  · intro ha
    induction ha with
    | parent hp =>
      obtain ⟨_, hlt, hle, -⟩ := h.parent_lt hn hp
      exact ⟨hlt, Nat.lt_of_lt_of_le (h.ext_gt _ hn) hle⟩
    | @up n p hp _ ih =>
      obtain ⟨_, hlt, hle, -⟩ := h.parent_lt hn hp
      have hpl := Nat.lt_trans hlt hn
      obtain ⟨h1, h2⟩ := ih hpl
      obtain h3 | h3 := h.nested hpl h1
      · omega
      · exact ⟨by omega, by have := h.ext_gt _ hn; omega⟩
  · rintro ⟨hmn, hin⟩
    induction n using Nat.strongRecOn with
    | _ n ih =>
      obtain ⟨p, hp, hpn, -⟩ := h.parent n hn (by omega)
      obtain rfl | hlt := Nat.eq_or_lt_of_le (h.parent_in hn hmn hin hp)
      · exact .parent hp
      · exact .up hp (ih p hpn (Nat.lt_trans hpn hn) hlt (by omega))

omit h in
/-- The source knows the ancestors of elements only. -/
theorem nodeAncestors_leaf {n : Nat} (he : d.type n ≠ .element) :
    Returns (d.nodeAncestors · n) [] :=
  (Returns.const []).succ fun k => by rw [Doc.nodeAncestors, if_neg he]

theorem exists_ancestors {n : Nat} (hn : n < d.items.length) :
    ∃ anc, Returns (d.nodeAncestors · n) anc ∧
      ∀ m, m ∈ anc ↔ d.type n = .element ∧ Above d m n := by
  by_cases he : d.type n = .element
  · refine ⟨_, h.nodeAncestors_spec hn he, fun m => ?_⟩
    rw [h.above_iff hn]
    simp [he]
  · exact ⟨[], nodeAncestors_leaf he, fun m => by simp [he]⟩

omit h in
theorem mem_nodeParentList {m n : Nat} : m ∈ d.nodeParentList n ↔
    (d.type n = .element ∨ d.type n = .text) ∧ d.parent n = some m := by
  rw [Doc.nodeParentList, Option.mem_toList]
  cases d.type n <;> simp

end Layout

theorem converse_iff {tokens : List Token} {d : Doc} (hd : parse tokens = .ok d) {m n : Nat}
    (hm : m < d.items.length) (hn : n < d.items.length) :
    Converse d m n ↔ d.type n = .element ∨ d.type n = .document ∨ ¬ Above d m n := by
  obtain ⟨ext, dep, h⟩ := parse_layout hd
  obtain ⟨anc, hanc, hmem⟩ := h.exists_ancestors hn
  have hdesc := h.nodeDescendants_spec hm
  have hbelow : n ∈ between (m + 1) (ext m) ↔ Above d m n := by
    rw [mem_between, h.above_iff hn]
    omega
  constructor
  · rintro ⟨anc', desc', _, _, _, hanc', hdesc', _, _, _, hconv, -⟩
    obtain rfl := hanc.unique hanc'
    obtain rfl := hdesc.unique hdesc'
    rw [hmem, hbelow] at hconv
    by_cases ha : Above d m n
    · exact .inl (hconv.mpr ha).1
    · exact .inr (.inr ha)
  · intro hcond
    have hdoc : d.type n = .document → ¬ Above d m n := by
      intro ht ha
      obtain ⟨hlt, _⟩ := (h.above_iff hn).mp ha
      obtain ⟨_, _, _, _, _, _, hne⟩ := h.parent n hn (by omega)
      exact hne ht
    have hcond' : Above d m n → d.type n = .element := by
      intro ha
      obtain he | ht | hnot := hcond
      · exact he
      · exact absurd ha (hdoc ht)
      · exact absurd ha hnot
    obtain ⟨psib, hpsib, hsib⟩ := h.nodePrecedingSiblings_spec hm
    refine ⟨anc, _, _, _, psib, hanc, hdesc, h.nodeFollowing_spec hn, h.nodePreceding_spec hm,
      hpsib, ?_, ?_, ?_, ?_⟩
    · rw [hmem, hbelow]
      exact ⟨fun ha => ha.2, fun ha => ⟨hcond' ha, ha⟩⟩
    · rw [Layout.mem_nodeParentList, h.mem_children hm]
      exact ⟨fun hp => hp.2, fun hp => ⟨.inl (hcond' (.parent hp)), hp⟩⟩
    · have := h.ext_gt n hn
      simp only [mem_between, List.mem_reverse, List.mem_filter, List.mem_range, decide_eq_true_eq]
      omega
    · rw [h.mem_nodeFollowingSiblings hn, hsib]
      constructor
      · rintro ⟨p, h1, h2, h3⟩
        exact ⟨p, h2, h1, h3⟩
      · rintro ⟨p, h1, h2, h3⟩
        exact ⟨p, h2, h1, h3⟩

theorem converse_iff_mixed : Converse mixedDoc 1 3 ↔
    mixedDoc.type 3 = .element ∨ mixedDoc.type 3 = .document ∨ ¬ Above mixedDoc 1 3 :=
  converse_iff parse_mixed (by decide) (by decide)

/-- The text in the element `a` is among its descendants, and has no ancestors. -/
theorem not_converse_text : parse mixedTokens = .ok mixedDoc ∧ ¬ Converse mixedDoc 1 2 := by
  refine ⟨parse_mixed, ?_⟩
  rintro ⟨anc, desc, _, _, _, ⟨n₁, hanc⟩, ⟨n₂, hdesc⟩, _, _, _, hconv, -⟩
  have h1 := hanc (n₁ + 1) (by omega)
  have h2 := hdesc (n₂ + 10) (by omega)
  cases h1
  cases h2
  exact absurd (hconv.mpr (List.mem_cons_self ..)) List.not_mem_nil

end Xml
end NReduce
