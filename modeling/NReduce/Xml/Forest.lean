import NReduce.Xml.Layout
import NReduce.Xml.Parse

/-!
# NReduce.Xml.Forest

A document as a tree, and the links that belong to it. `Forest` is a list of siblings: the first
one, what it contains, and the ones behind it.

* `parse_forest`: a document that `xml::parse` has built is that of a forest.
* `layout_ofForest`: the links of such a document and the numbers of its nodes fit together.
-/

namespace NReduce
namespace Xml

structure Elem where
  nsuri : Str
  nsPrefix : Str
  localname : Str
  attributes : List Attr
  namespaces : List Namespace
  deriving DecidableEq, Repr

inductive Leaf where
  | text (value : Str)
  | comment (value : Str)
  | pi (localname value : Str)
  deriving DecidableEq, Repr

inductive Forest where
  | nil
  | elem (e : Elem) (children next : Forest)
  | leaf (l : Leaf) (next : Forest)
  deriving DecidableEq, Repr

def Leaf.item (parent : Nat) (prev : Option Nat) (next : List Nat) : Leaf → Item
  | text value => mktext2 value (some parent) prev next
  | comment value => mkcomment2 value (some parent) prev next
  | pi localname value => mkpi none (some parent) prev next localname value

def Elem.item (e : Elem) (root : Option Nat) (parent : Nat) (prev : Option Nat)
    (next children : List Nat) : Item :=
  mkelem root (some parent) prev next e.nsuri e.nsPrefix e.localname e.attributes e.namespaces
    children

namespace Forest

def size : Forest → Nat
  | nil => 0
  | elem _ c s => size c + size s + 1
  | leaf _ s => size s + 1

/-- The numbers of the siblings, if the first one has the number `n`. -/
def tops : Forest → Nat → List Nat
  | nil, _ => []
  | elem _ c s, n => n :: tops s (n + 1 + size c)
  | leaf _ s, n => n :: tops s (n + 1)

def items (root : Option Nat) : Forest → Nat → Option Nat → Nat → List Item
  | nil, _, _, _ => []
  | elem e c s, parent, prev, n =>
    e.item root parent prev (tops s (n + 1 + size c)) (tops c (n + 1)) ::
      (items root c n none (n + 1) ++ items root s parent (some n) (n + 1 + size c))
  | leaf l s, parent, prev, n =>
    l.item parent prev (tops s (n + 1)) :: items root s parent (some n) (n + 1)

/-- The end of the interval of each node, and its depth. -/
def marks : Forest → Nat → Nat → List (Nat × Nat)
  | nil, _, _ => []
  | elem _ c s, depth, n =>
    (n + 1 + size c, depth) :: (marks c (depth + 1) (n + 1) ++ marks s depth (n + 1 + size c))
  | leaf _ s, depth, n => (n + 1, depth) :: marks s depth (n + 1)

@[simp] theorem length_items (f : Forest) (root : Option Nat) (parent : Nat) (prev : Option Nat)
    (n : Nat) : (f.items root parent prev n).length = f.size := by
  induction f generalizing parent prev n with
  | nil => rfl
  | elem e c s ihc ihs => simp [items, size, ihc, ihs]
  | leaf l s ih => simp [items, size, ih]

@[simp] theorem length_marks (f : Forest) (depth n : Nat) : (f.marks depth n).length = f.size := by
  induction f generalizing depth n with
  | nil => rfl
  | elem e c s ihc ihs => simp [marks, size, ihc, ihs]
  | leaf l s ih => simp [marks, size, ih]

end Forest

def Doc.ofForest (f : Forest) : Doc := ⟨mkdoc (f.tops 1) :: f.items (some 0) 0 none 1⟩

@[simp] theorem Doc.length_ofForest (f : Forest) : (Doc.ofForest f).items.length = f.size + 1 := by
  simp [ofForest]

/-! ## What the parser builds -/

theorem parse1_forest {k : Nat} {tokens : List Token} {namespaces : List (List Namespace)}
    {root : Option Nat} {parent : Nat} {prev : Option Nat} {n : Nat} {pr : Parsed}
    (h : parse1 k tokens namespaces root parent prev n = .ok pr) :
    ∃ f : Forest, pr.lst = f.tops n ∧ pr.items = f.items root parent prev n := by
  induction k generalizing tokens namespaces parent prev n pr with
  | zero => cases h
  | succ k ih =>
    cases tokens with
    | nil =>
      cases h
      exact ⟨.nil, rfl, rfl⟩
    | cons cur rest =>
      have hleaf : ∀ {l : Leaf} {tokens : List Token} {pr : Parsed},
          (parse1 k tokens namespaces root parent (some n) (n + 1)).map (fun pr =>
            (⟨pr.newrest, n :: pr.lst, l.item parent prev pr.lst :: pr.items⟩ : Parsed)) = .ok pr →
          ∃ f : Forest, pr.lst = f.tops n ∧ pr.items = f.items root parent prev n := by
        intro l tokens pr h
        cases hs : parse1 k tokens namespaces root parent (some n) (n + 1) with
        | error e =>
          rw [hs] at h
          cases h
        | ok pr' =>
          obtain ⟨s, h1, h2⟩ := ih hs
          rw [hs] at h
          cases h
          refine ⟨.leaf l s, ?_, ?_⟩
          · simp only [Forest.tops, h1]
          · simp only [Forest.items, h1, h2]
      cases ht : cur.tag with
      | startElem =>
        simp only [parse1, ht] at h
        cases hnew : parseNamespaces rest with
        | error e =>
          rw [hnew] at h
          cases h
        | ok newnamespaces =>
        cases hskip : skipAttrs rest with
        | error e =>
          rw [hnew, hskip] at h
          cases h
        | ok arest =>
        cases hattrs : parseAttrs (newnamespaces :: namespaces) rest with
        | error e =>
          simp only [hnew, hskip, hattrs, bind, Except.bind] at h
          cases h
        | ok attributes =>
        cases hc : parse1 k arest (newnamespaces :: namespaces) root n none (n + 1) with
        | error e =>
          simp only [hnew, hskip, hattrs, hc, bind, Except.bind] at h
          cases h
        | ok cpr =>
        cases hs : parse1 k cpr.newrest namespaces root parent (some n)
            (n + 1 + cpr.items.length) with
        | error e =>
          simp only [hnew, hskip, hattrs, hc, hs, bind, Except.bind] at h
          cases h
        | ok spr =>
          simp only [hnew, hskip, hattrs, hc, hs, bind, Except.bind] at h
          cases h
          obtain ⟨c, hc1, hc2⟩ := ih hc
          obtain ⟨s, hs1, hs2⟩ := ih hs
          rw [hc2, Forest.length_items] at hs1 hs2
          refine ⟨.elem ⟨nsLookup (getNsPrefix cur.value) (newnamespaces :: namespaces),
            getNsPrefix cur.value, getlocalname cur.value, attributes, newnamespaces⟩ c s, ?_, ?_⟩
          · simp only [Forest.tops, hs1]
          · simp only [Forest.items, Elem.item, hs1, hs2, hc1, hc2]
      | endElem =>
        simp only [parse1, ht] at h
        cases h
        exact ⟨.nil, rfl, rfl⟩
      | text =>
        simp only [parse1, ht] at h
        exact hleaf (l := .text cur.value) h
      | comment =>
        simp only [parse1, ht] at h
        exact hleaf (l := .comment cur.value) h
      | piTarget =>
        simp only [parse1, ht] at h
        cases rest with
        | nil => cases h
        | cons content rest =>
          dsimp only at h
          split at h
          · exact ih h
          · exact hleaf (l := .pi cur.value content.value) h
      | _ =>
        simp only [parse1, ht] at h
        cases h

theorem parse_forest {tokens : List Token} {d : Doc} (h : parse tokens = .ok d) :
    ∃ f, d = .ofForest f := by
  unfold parse at h
  split at h
  · cases h
  · cases hp : parse1 (tokens.length + 1) tokens [] (some 0) 0 none 1 with
    | error e =>
      rw [hp] at h
      cases h
    | ok pr =>
      rw [hp] at h
      cases h
      obtain ⟨f, h1, h2⟩ := parse1_forest hp
      exact ⟨f, by rw [h1, h2]; rfl⟩

/-! ## The links of a forest -/

/-- The items of the forest are those of the document from `n` on. -/
def Lays (d : Doc) (ext dep : Nat → Nat) : Forest → Nat → Option Nat → Nat → Nat → Prop
  | .nil, _, _, _, _ => True
  | .elem e c s, parent, prev, depth, n =>
    d.item n = e.item (some 0) parent prev (s.tops (n + 1 + c.size)) (c.tops (n + 1)) ∧
    ext n = n + 1 + c.size ∧ dep n = depth ∧
    Lays d ext dep c n none (depth + 1) (n + 1) ∧
    Lays d ext dep s parent (some n) depth (n + 1 + c.size)
  | .leaf l s, parent, prev, depth, n =>
    d.item n = l.item parent prev (s.tops (n + 1)) ∧ ext n = n + 1 ∧ dep n = depth ∧
    Lays d ext dep s parent (some n) depth (n + 1)

/-- The links of a node below the document. -/
structure NodeOk (d : Doc) (ext dep : Nat → Nat) (x : Nat) : Prop where
  ext_gt : x < ext x
  parent : ∃ p, d.parent x = some p ∧ p < x ∧ ext x ≤ ext p ∧ dep x = dep p + 1 ∧
    Tiles ext (d.next x) (ext x) (ext p) ∧ d.type x ≠ .document
  children : Tiles ext (d.children x) (x + 1) (ext x)
  child_parent : ∀ y ∈ d.children x, d.parent y = some x
  parent_child : ∀ p, d.parent x = some p → x ∈ d.children p
  next_parent : ∀ y ∈ d.next x, d.parent y = d.parent x
  prev : ∀ y, d.prev x = some y → y < x ∧ ext y = x ∧ d.parent y = d.parent x
  first : ∀ p, d.prev x = none → d.parent x = some p → x = p + 1
  leaf : d.type x ≠ .element → d.type x ≠ .document → d.children x = []

section

variable {d : Doc} {ext dep : Nat → Nat} {parent n depth : Nat} {prev : Option Nat} {f : Forest}

theorem Leaf.item_parent (l : Leaf) (parent : Nat) (prev : Option Nat) (next : List Nat) :
    (l.item parent prev next).parent = some parent := by
  cases l <;> rfl

theorem Lays.tops_parent (h : Lays d ext dep f parent prev depth n) :
    ∀ y ∈ f.tops n, d.parent y = some parent := by
  induction f generalizing prev n with
  | nil =>
    intro y hy
    cases hy
  | elem e c s ihc ihs =>
    obtain ⟨hitem, -, -, -, hs⟩ := h
    intro y hy
    cases hy with
    | head => rw [Doc.parent, hitem]; rfl
    | tail _ hy => exact ihs hs y hy
  | leaf l s ih =>
    obtain ⟨hitem, -, -, hs⟩ := h
    intro y hy
    cases hy with
    | head => rw [Doc.parent, hitem, Leaf.item_parent]
    | tail _ hy => exact ih hs y hy

theorem Lays.tiles (h : Lays d ext dep f parent prev depth n) :
    Tiles ext (f.tops n) n (n + f.size) := by
  induction f generalizing prev n with
  | nil => rfl
  | elem e c s ihc ihs =>
    obtain ⟨-, hext, -, -, hs⟩ := h
    refine ⟨rfl, ?_⟩
    rw [hext, Forest.size, show n + (c.size + s.size + 1) = n + 1 + c.size + s.size by omega]
    exact ihs hs
  | leaf l s ih =>
    obtain ⟨-, hext, -, hs⟩ := h
    refine ⟨rfl, ?_⟩
    rw [hext, Forest.size, show n + (s.size + 1) = n + 1 + s.size by omega]
    exact ih hs

/-- Where the siblings of a forest are, and what is in front of them. -/
structure Below (d : Doc) (ext dep : Nat → Nat) (f : Forest) (parent : Nat) (prev : Option Nat)
    (depth n : Nat) : Prop where
  lays : Lays d ext dep f parent prev depth n
  lt : parent < n
  end_eq : ext parent = n + f.size
  depth_eq : depth = dep parent + 1
  tops : ∀ y ∈ f.tops n, y ∈ d.children parent
  before : ∀ y, prev = some y → y < n ∧ ext y = n ∧ d.parent y = some parent
  first : prev = none → n = parent + 1

/-- The first of the siblings, from the links in its item; `m` is the number of the next one. -/
theorem Below.first_ok {s : Forest} {m : Nat} (h : Below d ext dep f parent prev depth n)
    (hmem : n ∈ f.tops n) (hnm : n < m) (hend : n + f.size = m + s.size) (hext : ext n = m)
    (hdep : dep n = depth) (hs : Lays d ext dep s parent (some n) depth m)
    (hparent : d.parent n = some parent) (hprev : d.prev n = prev) (hnext : d.next n = s.tops m)
    (htype : d.type n ≠ .document) (hchildren : Tiles ext (d.children n) (n + 1) m)
    (hchild : ∀ y ∈ d.children n, d.parent y = some n)
    (hleaf : d.type n ≠ .element → d.children n = []) : NodeOk d ext dep n := by
  have hle := h.end_eq
  rw [hend] at hle
  refine ⟨by omega, ⟨parent, hparent, h.lt, by omega, hdep.trans h.depth_eq, ?_, htype⟩, ?_, hchild,
    ?_, ?_, ?_, ?_, fun hne _ => hleaf hne⟩
  · rw [hnext, hext, hle]
    exact hs.tiles
  · rwa [hext]
  · intro p hp
    rw [hparent] at hp
    cases hp
    exact h.tops n hmem
  · rw [hnext, hparent]
    exact hs.tops_parent
  · rw [hprev, hparent]
    exact h.before
  · rw [hprev, hparent]
    intro p hp heq
    cases heq
    exact h.first hp

/-- The siblings behind the first one -/
theorem Below.rest {s : Forest} {m : Nat} (h : Below d ext dep f parent prev depth n)
    (htops : ∀ y ∈ s.tops m, y ∈ f.tops n) (hnm : n < m) (hend : n + f.size = m + s.size)
    (hext : ext n = m) (hparent : d.parent n = some parent)
    (hs : Lays d ext dep s parent (some n) depth m) :
    Below d ext dep s parent (some n) depth m := by
  refine ⟨hs, Nat.lt_trans h.lt hnm, h.end_eq.trans hend, h.depth_eq,
    fun y hy => h.tops y (htops y hy), ?_, nofun⟩
  intro y hy
  cases hy
  exact ⟨hnm, hext, hparent⟩

theorem Below.nodeOk (h : Below d ext dep f parent prev depth n) {x : Nat} (hn : n ≤ x)
    (hx : x < n + f.size) : NodeOk d ext dep x := by
  induction f generalizing parent prev depth n with
  | nil =>
    rw [Forest.size] at hx
    omega
  | elem e c s ihc ihs =>
    obtain ⟨hitem, hext, hdep, hc, hs⟩ := h.lays
    have hparent : d.parent n = some parent := by
      rw [Doc.parent, hitem]
      rfl
    have hchildren : d.children n = c.tops (n + 1) := by
      rw [Doc.children, hitem]
      rfl
    have hsize : n + (Forest.elem e c s).size = n + 1 + c.size + s.size := by
      rw [Forest.size]
      omega
    have hrest := h.rest (s := s) (m := n + 1 + c.size)
      (fun y hy => List.mem_cons_of_mem _ hy) (by omega) hsize hext hparent hs
    obtain rfl | hlt := Nat.eq_or_lt_of_le hn
    · refine h.first_ok (List.mem_cons_self ..) (by omega) hsize hext hdep hs hparent ?_ ?_ ?_ ?_
        ?_ ?_
      · rw [Doc.prev, hitem]
        rfl
      · rw [Doc.next, hitem]
        rfl
      · rw [Doc.type, hitem]
        intro heq
        cases heq
      · rw [hchildren]
        exact hc.tiles
      · rw [hchildren]
        exact hc.tops_parent
      · intro hne
        rw [Doc.type, hitem] at hne
        exact absurd rfl hne
    · by_cases hin : x < n + 1 + c.size
      · have hbelow : Below d ext dep c n none (depth + 1) (n + 1) := by
          refine ⟨hc, Nat.lt_succ_self n, hext, by rw [hdep], ?_, fun _ heq => (by cases heq), fun _ => rfl⟩
          rw [hchildren]
          exact fun y hy => hy
        exact ihc hbelow hlt hin
      · exact ihs hrest (by omega) (by omega)
  | leaf l s ih =>
    obtain ⟨hitem, hext, hdep, hs⟩ := h.lays
    have hparent : d.parent n = some parent := by
      rw [Doc.parent, hitem, Leaf.item_parent]
    have hchildren : d.children n = [] := by
      rw [Doc.children, hitem]
      cases l <;> rfl
    have hsize : n + (Forest.leaf l s).size = n + 1 + s.size := by
      rw [Forest.size]
      omega
    have hrest := h.rest (s := s) (m := n + 1) (fun y hy => List.mem_cons_of_mem _ hy)
      (by omega) hsize hext hparent hs
    obtain rfl | hlt := Nat.eq_or_lt_of_le hn
    · refine h.first_ok (List.mem_cons_self ..) (by omega) hsize hext hdep hs hparent ?_ ?_ ?_ ?_
        ?_ fun _ => hchildren
      · rw [Doc.prev, hitem]
        cases l <;> rfl
      · rw [Doc.next, hitem]
        cases l <;> rfl
      · rw [Doc.type, hitem]
        cases l <;> exact fun heq => by cases heq
      · rw [hchildren]
        rfl
      · rw [hchildren]
        intro y hy
        cases hy
    · exact ih hrest (by omega) (by omega)

/-- The items from `n` on, and the marks that belong to them. -/
theorem lays_of_items (hitems : ∀ (i : Nat) (it : Item),
      (f.items (some 0) parent prev n)[i]? = some it → d.item (n + i) = it)
    (hmarks : ∀ (i : Nat) (m : Nat × Nat), (f.marks depth n)[i]? = some m →
      ext (n + i) = m.1 ∧ dep (n + i) = m.2) : Lays d ext dep f parent prev depth n := by
  induction f generalizing parent prev depth n with
  | nil => trivial
  | elem e c s ihc ihs =>
    obtain ⟨hext, hdep⟩ := hmarks 0 _ rfl
    refine ⟨hitems 0 _ rfl, hext, hdep, ihc (fun i it hi => ?_) (fun i m hi => ?_),
      ihs (fun i it hi => ?_) (fun i m hi => ?_)⟩
    · rw [show n + 1 + i = n + (i + 1) by omega]
      apply hitems
      rw [Forest.items, List.getElem?_cons_succ, List.getElem?_append_left, hi]
      exact (List.getElem?_eq_some_iff.mp hi).1
    · rw [show n + 1 + i = n + (i + 1) by omega]
      apply hmarks
      rw [Forest.marks, List.getElem?_cons_succ, List.getElem?_append_left, hi]
      exact (List.getElem?_eq_some_iff.mp hi).1
    · rw [show n + 1 + c.size + i = n + (c.size + i + 1) by omega]
      apply hitems
      rw [Forest.items, List.getElem?_cons_succ, List.getElem?_append_right (by simp),
        Forest.length_items, Nat.add_sub_cancel_left, hi]
    · rw [show n + 1 + c.size + i = n + (c.size + i + 1) by omega]
      apply hmarks
      rw [Forest.marks, List.getElem?_cons_succ, List.getElem?_append_right (by simp),
        Forest.length_marks, Nat.add_sub_cancel_left, hi]
  | leaf l s ih =>
    obtain ⟨hext, hdep⟩ := hmarks 0 _ rfl
    refine ⟨hitems 0 _ rfl, hext, hdep, ih (fun i it hi => ?_) (fun i m hi => ?_)⟩
    · rw [show n + 1 + i = n + (i + 1) by omega]
      exact hitems _ _ (by rw [Forest.items, List.getElem?_cons_succ, hi])
    · rw [show n + 1 + i = n + (i + 1) by omega]
      exact hmarks _ _ (by rw [Forest.marks, List.getElem?_cons_succ, hi])

end

/-- The end and the depth of each node of a document. -/
def Forest.mark (f : Forest) : Nat → Nat × Nat
  | 0 => (f.size + 1, 0)
  | x + 1 => (f.marks 1 1).getD x (0, 0)

theorem layout_ofForest (f : Forest) :
    Layout (.ofForest f) (fun x => (f.mark x).1) (fun x => (f.mark x).2) := by
  have hlays : Lays (.ofForest f) (fun x => (f.mark x).1) (fun x => (f.mark x).2) f 0 none 1 1 := by
    apply lays_of_items
    · intro i it hi
      rw [Doc.item, Doc.ofForest, List.getD_eq_getElem?_getD, Nat.add_comm,
        List.getElem?_cons_succ, hi, Option.getD_some]
    · intro i m hi
      rw [Nat.add_comm, Forest.mark, List.getD_eq_getElem?_getD, hi, Option.getD_some]
      exact ⟨rfl, rfl⟩
  have hbelow : Below (.ofForest f) (fun x => (f.mark x).1) (fun x => (f.mark x).2) f 0 none 1 1 :=
    ⟨hlays, Nat.zero_lt_one, Nat.add_comm .., rfl, fun _ hy => hy, fun _ heq => (by cases heq), fun _ => rfl⟩
  have hnode : ∀ x < (Doc.ofForest f).items.length, x ≠ 0 →
      NodeOk (.ofForest f) (fun x => (f.mark x).1) (fun x => (f.mark x).2) x := by
    intro x hx hne
    rw [Doc.length_ofForest] at hx
    exact hbelow.nodeOk (by omega) (by omega)
  have hzero : (Doc.ofForest f).children 0 = f.tops 1 := rfl
  have hend : ∀ x < (Doc.ofForest f).items.length,
      (f.mark x).1 ≤ (Doc.ofForest f).items.length := by
    intro x
    induction x using Nat.strongRecOn with
    | _ x ih =>
      intro hx
      by_cases hne : x = 0
      · subst hne
        exact Nat.le_of_eq (Doc.length_ofForest f).symm
      · obtain ⟨p, -, hpx, hle, -⟩ := (hnode x hx hne).parent
        exact Nat.le_trans hle (ih p hpx (Nat.lt_trans hpx hx))
  refine ⟨by simp, (Doc.length_ofForest f).symm, rfl, rfl, rfl, rfl, ?_, hend,
    fun x hx hne => (hnode x hx hne).parent, ?_, ?_, ?_, ?_, ?_, ?_, ?_⟩
  · intro x hx
    by_cases hne : x = 0
    · subst hne
      exact Nat.succ_pos _
    · exact (hnode x hx hne).ext_gt
  · intro x hx
    by_cases hne : x = 0
    · subst hne
      rw [hzero]
      have htiles := hlays.tiles
      rwa [Nat.add_comm] at htiles
    · exact (hnode x hx hne).children
  · intro x hx
    by_cases hne : x = 0
    · subst hne
      rw [hzero]
      exact hlays.tops_parent
    · exact (hnode x hx hne).child_parent
  · intro x hx p hp
    by_cases hne : x = 0
    · subst hne
      cases hp
    · exact (hnode x hx hne).parent_child p hp
  · intro x hx y hy
    by_cases hne : x = 0
    · subst hne
      cases hy
    · exact (hnode x hx hne).next_parent y hy
  · intro x hx y hy
    by_cases hne : x = 0
    · subst hne
      cases hy
    · exact (hnode x hx hne).prev y hy
  · intro x hx p hprev hp
    by_cases hne : x = 0
    · subst hne
      cases hp
    · exact (hnode x hx hne).first p hprev hp
  · intro x hx he hd
    by_cases hne : x = 0
    · subst hne
      exact absurd rfl hd
    · exact (hnode x hx hne).leaf he hd

/-- The links of a document that the parser has built. -/
theorem parse_layout {tokens : List Token} {d : Doc} (h : parse tokens = .ok d) :
    ∃ ext dep, Layout d ext dep := by
  obtain ⟨f, rfl⟩ := parse_forest h
  exact ⟨_, _, layout_ofForest f⟩

theorem Forest.root_items {f : Forest} {root : Option Nat} {parent : Nat} {prev : Option Nat}
    {n : Nat} {i : Item} (hi : i ∈ f.items root parent prev n) : i.root = root ∨ i.root = none := by
  induction f generalizing parent prev n with
  | nil => cases hi
  | elem e c s ihc ihs =>
    obtain rfl | hi := List.mem_cons.mp hi
    · exact .inl rfl
    · obtain hi | hi := List.mem_append.mp hi
      · exact ihc hi
      · exact ihs hi
  | leaf l s ih =>
    obtain rfl | hi := List.mem_cons.mp hi
    · cases l <;> exact .inr rfl
    · exact ih hi

/-- The root of a node, where it has one, is the document. -/
theorem parse_root {tokens : List Token} {d : Doc} (h : parse tokens = .ok d) {x r : Nat}
    (hr : (d.item x).root = some r) : r = 0 := by
  obtain ⟨f, rfl⟩ := parse_forest h
  cases x with
  | zero => exact (Option.some.inj hr).symm
  | succ x =>
    simp only [Doc.item, Doc.ofForest, List.getD_eq_getElem?_getD, List.getElem?_cons_succ] at hr
    cases hi : (f.items (some 0) 0 none 1)[x]? with
    | none => simp [hi] at hr
    | some i =>
      rw [hi, Option.getD_some] at hr
      obtain h1 | h1 := Forest.root_items (List.mem_of_getElem? hi)
      · rw [h1] at hr
        exact (Option.some.inj hr).symm
      · rw [h1] at hr
        cases hr

end Xml
end NReduce
