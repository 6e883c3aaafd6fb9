import NReduce.Runtime.Lists
import NReduce.Logic.Unfold

/-!
# NReduce.Runtime.ListDenote

What a pointer to a list denotes: its elements, finitely or infinitely many, and the tail it ends
in. Every change that `maybe_expand_array` makes is of one kind, `Store.put`: a cell becomes (or
stays) a reference to an array. `keeps_put` says when this leaves all lists of the store as they are.
-/

namespace NReduce
namespace Runtime
namespace Lists

open Logic
open Stream'

/-! ## Resolving -/

namespace Store

/-- `resolve_pntr`, where it ends. -/
def target (s : Store) (p : Pntr) : Pntr := (s.resolvePntr p).getD p

/-- A pointer to a cell that has been allocated, with an index inside its array. -/
def Valid (s : Store) : Pntr → Prop
  | .num _ => True
  | .obj c i => c < s.ncells ∧
    match s.nodes c with
    | .aref a _ => i < (s.arrays a).size
    | _ => i = 0

structure ArrayOk (s : Store) (arr : Carray) : Prop where
  size_le : arr.size ≤ maxArraySize
  alloc_pos : 0 < arr.alloc
  size_le_alloc : arr.size ≤ arr.alloc
  elements : ∀ l, arr.elements = .pntrs l → ∀ e ∈ l, s.Valid e
  nchars_le : ∀ l, arr.elements = .pntrs l → arr.nchars ≤ l.length
  chars : ∀ l, arr.elements = .pntrs l → ∀ e ∈ l.take arr.nchars, pntrIsChar e = true

structure Wf (s : Store) : Prop where
  cons : ∀ c h t, c < s.ncells → s.nodes c = .cons h t → s.Valid h ∧ s.Valid t
  ind : ∀ c p, c < s.ncells → s.nodes c = .ind p → s.Valid p
  aref : ∀ c a t, c < s.ncells → s.nodes c = .aref a t →
    a < s.narrays ∧ s.Valid t ∧ s.ArrayOk (s.arrays a)
  /-- an array without `multiref` belongs to one cell -/
  single : ∀ c c' a t t', c < s.ncells → c' < s.ncells → s.nodes c = .aref a t →
    s.nodes c' = .aref a t' → (s.arrays a).multiref = false → c = c'
  /-- the indirections form no cycle -/
  ends : ∀ p, s.Valid p → ∃ q, s.resolvePntr p = some q
  nil : s.Valid s.globnilpntr

variable {s : Store}

theorem resolveFrom_mono {k k' : Nat} {p q : Pntr} (hk : k ≤ k')
    (h : s.resolveFrom k p = some q) : s.resolveFrom k' p = some q := by
  induction k generalizing k' p with
  | zero => cases h
  | succ k ih =>
    obtain ⟨j, rfl⟩ : ∃ j, k' = j + 1 := ⟨k' - 1, by omega⟩
    cases p with
    | num d => exact h
    | obj c i =>
      rw [Store.resolveFrom] at h ⊢
      cases hc : s.nodes c with
      | ind dest =>
        simp only [hc] at h
        exact ih (by omega) h
      | _ => simpa only [hc] using h

/-- Where the indirections lead, nothing is an indirection. -/
theorem isInd_of_resolveFrom {k : Nat} {p q : Pntr} (h : s.resolveFrom k p = some q) :
    s.isInd q = false := by
  induction k generalizing p with
  | zero => cases h
  | succ k ih =>
    cases p with
    | num d =>
      cases h
      rfl
    | obj c i =>
      rw [Store.resolveFrom] at h
      cases hc : s.nodes c with
      | ind dest =>
        simp only [hc] at h
        exact ih h
      | _ =>
        simp only [hc] at h
        cases h
        simp only [isInd, node, hc]

theorem valid_of_resolveFrom (hw : s.Wf) {k : Nat} {p q : Pntr} (hp : s.Valid p)
    (h : s.resolveFrom k p = some q) : s.Valid q := by
  induction k generalizing p with
  | zero => cases h
  | succ k ih =>
    cases p with
    | num d =>
      cases h
      trivial
    | obj c i =>
      rw [Store.resolveFrom] at h
      cases hc : s.nodes c with
      | ind dest =>
        simp only [hc] at h
        exact ih (hw.ind c dest hp.1 hc) h
      | _ =>
        simp only [hc] at h
        cases h
        exact hp

theorem Wf.resolve (hw : s.Wf) {p : Pntr} (hp : s.Valid p) :
    s.resolvePntr p = some (s.target p) := by
  obtain ⟨q, hq⟩ := hw.ends p hp
  rw [target, hq, Option.getD_some]

theorem Wf.valid_target (hw : s.Wf) {p : Pntr} (hp : s.Valid p) : s.Valid (s.target p) :=
  valid_of_resolveFrom hw hp (hw.resolve hp)

theorem Wf.isInd_target (hw : s.Wf) {p : Pntr} (hp : s.Valid p) : s.isInd (s.target p) = false :=
  isInd_of_resolveFrom (hw.resolve hp)

theorem target_of_not_isInd {p : Pntr} (h : s.isInd p = false) : s.target p = p := by
  cases p with
  | num d => rfl
  | obj c i =>
    have hr : s.resolvePntr (.obj c i) = some (.obj c i) := by
      rw [Store.resolvePntr, Store.resolveFrom]
      cases hc : s.nodes c with
      | ind dest => simp [isInd, node, hc] at h
      | _ => rfl
    rw [target, hr, Option.getD_some]

theorem Wf.target_target (hw : s.Wf) {p : Pntr} (hp : s.Valid p) :
    s.target (s.target p) = s.target p :=
  target_of_not_isInd (hw.isInd_target hp)

end Store

/-! ## Denotation -/

/-- An element as the program sees it. A number that is a character counts by its value, so that
0 and -0, which are equal, are one item. -/
inductive Item where
  | char (b : BitVec 8)
  | other (p : Pntr)
  deriving DecidableEq

def Item.of (p : Pntr) : Item := if pntrIsChar p then .char (toChar p) else .other p

namespace Store

def item (s : Store) (p : Pntr) : Item := Item.of (s.target p)

def items (s : Store) : Elements → List Item
  | .bytes l => l.map .char
  | .pntrs l => l.map s.item

@[simp] theorem length_items (s : Store) (els : Elements) : (s.items els).length = els.size := by
  cases els <;> simp [items, Elements.size]

/-- The first element of a list and the rest, or the tail where it ends. -/
def move (s : Store) (p : Pntr) : Move Pntr Item Pntr :=
  match s.target p with
  | .num d => .done (.num d)
  | .obj c i =>
    match s.nodes c with
    | .cons h t => .item (s.item h) t
    | .aref a t =>
      match (s.items (s.arrays a).elements)[i]? with
      | some x => .item x (if i + 1 < (s.arrays a).size then .obj c (i + 1) else t)
      | none => .done (.obj c i)
    | _ => .done (.obj c i)

def denote (s : Store) (p : Pntr) : Seq (Item ⊕ Pntr) := unfold s.move p

/-- Elements in front of a sequence. -/
def prepend (xs : List Item) (r : Seq (Item ⊕ Pntr)) : Seq (Item ⊕ Pntr) :=
  xs.foldr (fun x r => .cons (.inl x) r) r

@[simp] theorem prepend_nil (r : Seq (Item ⊕ Pntr)) : prepend [] r = r := rfl

@[simp] theorem prepend_cons (x : Item) (xs : List Item) (r : Seq (Item ⊕ Pntr)) :
    prepend (x :: xs) r = .cons (.inl x) (prepend xs r) := rfl

theorem prepend_append (xs ys : List Item) (r : Seq (Item ⊕ Pntr)) :
    prepend (xs ++ ys) r = prepend xs (prepend ys r) := List.foldr_append

theorem prepend_injective (xs : List Item) : Function.Injective (prepend xs) := by
  induction xs with
  | nil => exact fun _ _ h => h
  | cons x xs ih => exact fun _ _ h => ih (Seq.cons_injective2 h).2

variable {s : Store}

theorem move_congr {p q : Pntr} (h : s.target p = s.target q) : s.move p = s.move q := by
  rw [move, move, h]

theorem denote_congr {p q : Pntr} (h : s.target p = s.target q) : s.denote p = s.denote q :=
  unfold_eq_of_eq (move_congr h)

theorem Wf.denote_target (hw : s.Wf) {p : Pntr} (hp : s.Valid p) :
    s.denote (s.target p) = s.denote p := denote_congr (hw.target_target hp)

theorem move_aref {p : Pntr} {c i a : Nat} {t : Pntr} {x : Item} (hp : s.target p = .obj c i)
    (hc : s.nodes c = .aref a t) (hx : (s.items (s.arrays a).elements)[i]? = some x) :
    s.move p = .item x (if i + 1 < (s.arrays a).size then .obj c (i + 1) else t) := by
  simp only [move, hp, hc, hx]

theorem target_aref {c i a : Nat} {t : Pntr} (hc : s.nodes c = .aref a t) :
    s.target (.obj c i) = .obj c i := target_of_not_isInd (by simp only [isInd, node, hc])

theorem target_cons {c i : Nat} {h t : Pntr} (hc : s.nodes c = .cons h t) :
    s.target (.obj c i) = .obj c i := target_of_not_isInd (by simp only [isInd, node, hc])

theorem denote_cons {c i : Nat} {h t : Pntr} (hc : s.nodes c = .cons h t) :
    s.denote (.obj c i) = .cons (.inl (s.item h)) (s.denote t) :=
  unfold_item (by simp only [move, target_cons hc, hc])

/-- A list that starts inside an array: the rest of the array, then the tail. -/
theorem denote_aref {c a : Nat} {t : Pntr} (hc : s.nodes c = .aref a t) :
    ∀ {i : Nat}, i < (s.arrays a).size →
      s.denote (.obj c i) = prepend ((s.items (s.arrays a).elements).drop i) (s.denote t) := by
  intro i hi
  obtain ⟨k, hk⟩ : ∃ k, (s.arrays a).size = i + 1 + k := ⟨(s.arrays a).size - (i + 1), by omega⟩
  have hlen : i < (s.items (s.arrays a).elements).length := by rwa [length_items]
  have hx : (s.items (s.arrays a).elements)[i]? = some (s.items (s.arrays a).elements)[i] :=
    List.getElem?_eq_getElem hlen
  rw [denote, unfold_item (move_aref (target_aref hc) hc hx), List.drop_eq_getElem_cons hlen,
    prepend_cons]
  -- by induction on how many elements are left
  induction k generalizing i with
  | zero =>
    have hd : (s.items (s.arrays a).elements).drop (i + 1) = [] := by
      apply List.drop_eq_nil_of_le
      rw [length_items]
      exact hk.le
    rw [if_neg (by omega), hd, prepend_nil, denote]
  | succ k ih =>
    have hlen' : i + 1 < (s.items (s.arrays a).elements).length := by
      rw [length_items]
      exact (by omega : i + 1 < (s.arrays a).size)
    rw [if_pos (by omega), List.drop_eq_getElem_cons hlen', prepend_cons]
    have hx' := List.getElem?_eq_getElem hlen'
    rw [unfold_item (move_aref (target_aref hc) hc hx'), ih (by omega) (by omega) hlen' hx']

/-! ## Changes -/

/-- The cell `c` refers to the array `a`, which is now `arr`, and goes on with `t`. Both may be
new. -/
def put (s : Store) (c a : Nat) (arr : Carray) (t : Pntr) : Store :=
  { s with
    nodes := Function.update s.nodes c (.aref a t)
    ncells := max s.ncells (c + 1)
    arrays := Function.update s.arrays a arr
    narrays := max s.narrays (a + 1) }

/-- When `put` keeps the store well formed. -/
structure Placed (s : Store) (c a : Nat) (arr : Carray) (t : Pntr) : Prop where
  cell : c ≤ s.ncells
  not_ind : ∀ p, c < s.ncells → s.nodes c ≠ .ind p
  /-- no other cell refers to the array -/
  own : ∀ c' t', c' < s.ncells → s.nodes c' = .aref a t' → c' = c
  /-- indices into the list stay inside the array -/
  grows : ∀ i, s.Valid (.obj c i) → i < arr.size
  ok : s.ArrayOk arr
  tail : s.Valid t

section

variable {c a : Nat} {arr : Carray} {t : Pntr}

@[simp] theorem put_nodes_self : (s.put c a arr t).nodes c = .aref a t := Function.update_self ..

theorem put_nodes_of_ne {c' : Nat} (h : c' ≠ c) : (s.put c a arr t).nodes c' = s.nodes c' :=
  Function.update_of_ne h ..

@[simp] theorem put_arrays_self : (s.put c a arr t).arrays a = arr := Function.update_self ..

theorem put_arrays_of_ne {b : Nat} (h : b ≠ a) : (s.put c a arr t).arrays b = s.arrays b :=
  Function.update_of_ne h ..

@[simp] theorem put_globnilpntr : (s.put c a arr t).globnilpntr = s.globnilpntr := rfl

theorem valid_put_self {i : Nat} (hi : i < arr.size) : (s.put c a arr t).Valid (.obj c i) :=
  ⟨lt_of_lt_of_le (Nat.lt_succ_self c) (le_max_right _ _), by simpa using hi⟩

variable (hp : s.Placed c a arr t)
include hp

theorem Placed.valid {p : Pntr} (hv : s.Valid p) : (s.put c a arr t).Valid p := by
  cases p with
  | num d => trivial
  | obj c' i =>
    refine ⟨lt_of_lt_of_le hv.1 (le_max_left _ _), ?_⟩
    by_cases hc : c' = c
    · subst hc
      simpa using hp.grows i hv
    · have h2 := hv.2
      rw [put_nodes_of_ne hc]
      cases hn : s.nodes c' with
      | aref a' t' =>
        have ha : a' ≠ a := fun h => hc (hp.own c' t' hv.1 (h ▸ hn))
        simp only [hn] at h2
        simpa only [put_arrays_of_ne ha] using h2
      | _ => simpa only [hn] using h2

theorem Placed.resolveFrom (hw : s.Wf) {k : Nat} {p q : Pntr} (hv : s.Valid p)
    (h : s.resolveFrom k p = some q) : (s.put c a arr t).resolveFrom k p = some q := by
  induction k generalizing p with
  | zero => cases h
  | succ k ih =>
    cases p with
    | num d => exact h
    | obj c' i =>
      rw [Store.resolveFrom] at h ⊢
      by_cases hc : c' = c
      · subst hc
        simp only [put_nodes_self]
        cases hn : s.nodes c' with
        | ind dest => exact absurd hn (hp.not_ind dest hv.1)
        | _ => simpa only [hn] using h
      · rw [put_nodes_of_ne hc]
        cases hn : s.nodes c' with
        | ind dest =>
          simp only [hn] at h
          exact ih (hw.ind c' dest hv.1 hn) h
        | _ => simpa only [hn] using h

theorem Placed.resolve (hw : s.Wf) {p : Pntr} (hv : s.Valid p) :
    (s.put c a arr t).resolvePntr p = some (s.target p) :=
  resolveFrom_mono (Nat.succ_le_succ (le_max_left _ _)) (hp.resolveFrom hw hv (hw.resolve hv))

theorem Placed.target (hw : s.Wf) {p : Pntr} (hv : s.Valid p) :
    (s.put c a arr t).target p = s.target p := by
  rw [Store.target, hp.resolve hw hv, Option.getD_some]

/-- A pointer of the new store is an old one, or it leads into the array. -/
theorem Placed.valid_cases {p : Pntr} (hv : (s.put c a arr t).Valid p) :
    s.Valid p ∨ ∃ i, i < arr.size ∧ p = .obj c i := by
  cases p with
  | num d => exact .inl trivial
  | obj c' i =>
    by_cases hc : c' = c
    · subst hc
      exact .inr ⟨i, by simpa using hv.2, rfl⟩
    · have hlt : c' < s.ncells := by
        have h1 := hv.1
        have hcell := hp.cell
        simp only [put] at h1
        omega
      refine .inl ⟨hlt, ?_⟩
      have h2 := hv.2
      rw [put_nodes_of_ne hc] at h2
      cases hn : s.nodes c' with
      | aref a' t' =>
        have ha : a' ≠ a := fun h => hc (hp.own c' t' hlt (h ▸ hn))
        simp only [hn, put_arrays_of_ne ha] at h2
        exact h2
      | _ => simpa only [hn] using h2

theorem Placed.arrayOk {arr' : Carray} (h : s.ArrayOk arr') : (s.put c a arr t).ArrayOk arr' :=
  ⟨h.size_le, h.alloc_pos, h.size_le_alloc, fun l hl e he => hp.valid (h.elements l hl e he),
    h.nchars_le, h.chars⟩

theorem Placed.lt_of_ne {c' : Nat} (h : c' < (s.put c a arr t).ncells) (hc : c' ≠ c) :
    c' < s.ncells := by
  have hcell := hp.cell
  simp only [put] at h
  omega

theorem Placed.wf (hw : s.Wf) : (s.put c a arr t).Wf where
  cons c' h' t' hlt hn := by
    by_cases hc : c' = c
    · subst hc
      rw [put_nodes_self] at hn
      cases hn
    · rw [put_nodes_of_ne hc] at hn
      have h := hw.cons c' h' t' (hp.lt_of_ne hlt hc) hn
      exact ⟨hp.valid h.1, hp.valid h.2⟩
  ind c' p hlt hn := by
    by_cases hc : c' = c
    · subst hc
      rw [put_nodes_self] at hn
      cases hn
    · rw [put_nodes_of_ne hc] at hn
      exact hp.valid (hw.ind c' p (hp.lt_of_ne hlt hc) hn)
  aref c' a' t' hlt hn := by
    by_cases hc : c' = c
    · subst hc
      rw [put_nodes_self] at hn
      cases hn
      refine ⟨lt_of_lt_of_le (Nat.lt_succ_self a) (le_max_right _ _), hp.valid hp.tail, ?_⟩
      rw [put_arrays_self]
      exact hp.arrayOk hp.ok
    · rw [put_nodes_of_ne hc] at hn
      have hlt' := hp.lt_of_ne hlt hc
      have ha : a' ≠ a := fun h => hc (hp.own c' t' hlt' (h ▸ hn))
      obtain ⟨h1, h2, h3⟩ := hw.aref c' a' t' hlt' hn
      refine ⟨lt_of_lt_of_le h1 (le_max_left _ _), hp.valid h2, ?_⟩
      rw [put_arrays_of_ne ha]
      exact hp.arrayOk h3
  single c₁ c₂ a' t₁ t₂ hlt₁ hlt₂ hn₁ hn₂ hm := by
    by_cases hc₁ : c₁ = c <;> by_cases hc₂ : c₂ = c
    · rw [hc₁, hc₂]
    · subst hc₁
      rw [put_nodes_self] at hn₁
      cases hn₁
      rw [put_nodes_of_ne hc₂] at hn₂
      exact (hp.own c₂ t₂ (hp.lt_of_ne hlt₂ hc₂) hn₂).symm
    · subst hc₂
      rw [put_nodes_self] at hn₂
      cases hn₂
      rw [put_nodes_of_ne hc₁] at hn₁
      exact hp.own c₁ t₁ (hp.lt_of_ne hlt₁ hc₁) hn₁
    · rw [put_nodes_of_ne hc₁] at hn₁
      rw [put_nodes_of_ne hc₂] at hn₂
      have hlt := hp.lt_of_ne hlt₁ hc₁
      have ha : a' ≠ a := fun h => hc₁ (hp.own c₁ t₁ hlt (h ▸ hn₁))
      rw [put_arrays_of_ne ha] at hm
      exact hw.single c₁ c₂ a' t₁ t₂ hlt (hp.lt_of_ne hlt₂ hc₂) hn₁ hn₂ hm
  ends p hv := by
    obtain hv' | ⟨i, hi, rfl⟩ := hp.valid_cases hv
    · exact ⟨_, hp.resolve hw hv'⟩
    · exact ⟨.obj c i, by rw [Store.resolvePntr, Store.resolveFrom, put_nodes_self]⟩
  nil := hp.valid hw.nil

theorem Placed.item (hw : s.Wf) {p : Pntr} (hv : s.Valid p) :
    (s.put c a arr t).item p = s.item p := by
  rw [Store.item, Store.item, hp.target hw hv]

theorem Placed.items (hw : s.Wf) {arr' : Carray} (h : s.ArrayOk arr') :
    (s.put c a arr t).items arr'.elements = s.items arr'.elements := by
  cases hl : arr'.elements with
  | bytes l => rfl
  | pntrs l => exact List.map_congr_left (fun e he => hp.item hw (h.elements l hl e he))

end

/-- The rest of a list is a list of the store. -/
theorem Wf.valid_move (hw : s.Wf) {p q : Pntr} {x : Item} (hv : s.Valid p)
    (h : s.move p = .item x q) : s.Valid q := by
  have ht := hw.valid_target hv
  unfold move at h
  split at h
  · cases h
  · rename_i c i hq
    rw [hq] at ht
    split at h
    · rename_i hd tl hn
      cases h
      exact (hw.cons c hd _ ht.1 hn).2
    · rename_i a tl hn
      split at h
      · cases h
        split
        · rename_i hi
          exact ⟨ht.1, by simpa only [hn] using hi⟩
        · exact (hw.aref c a tl ht.1 hn).2.1
      · cases h
    · cases h

/-- A list that does not start in the changed cell starts as before. -/
theorem Placed.move {c a : Nat} {arr : Carray} {t : Pntr} (hp : s.Placed c a arr t) (hw : s.Wf)
    {p : Pntr} (hv : s.Valid p) (hne : ∀ i, s.target p ≠ .obj c i) :
    (s.put c a arr t).move p = s.move p := by
  have ht := hw.valid_target hv
  simp only [Store.move, hp.target hw hv]
  cases hq : s.target p with
  | num d => rfl
  | obj c' i =>
    rw [hq] at ht
    have hc : c' ≠ c := fun h => hne i (h ▸ hq)
    simp only [put_nodes_of_ne hc]
    cases hn : s.nodes c' with
    | cons h t' => simp only [hp.item hw (hw.cons c' h t' ht.1 hn).1]
    | aref a' t' =>
      have ha : a' ≠ a := fun h => hc (hp.own c' t' ht.1 (h ▸ hn))
      simp only [put_arrays_of_ne ha, hp.items hw (hw.aref c' a' t' ht.1 hn).2.2]
    | _ => rfl

/-- A change that leaves every list of the store as it is. -/
structure Keeps (s s' : Store) : Prop where
  wf : s'.Wf
  valid : ∀ p, s.Valid p → s'.Valid p
  target : ∀ p, s.Valid p → s'.target p = s.target p
  denote : ∀ p, s.Valid p → s'.denote p = s.denote p

theorem Keeps.refl (hw : s.Wf) : Keeps s s := ⟨hw, fun _ h => h, fun _ _ => rfl, fun _ _ => rfl⟩

theorem Keeps.trans {s₁ s₂ s₃ : Store} (h : Keeps s₁ s₂) (h' : Keeps s₂ s₃) : Keeps s₁ s₃ where
  wf := h'.wf
  valid p hp := h'.valid p (h.valid p hp)
  target p hp := (h'.target p (h.valid p hp)).trans (h.target p hp)
  denote p hp := (h'.denote p (h.valid p hp)).trans (h.denote p hp)

/-- The lists stay as they are when each list that starts in the changed cell is the rest of the
new array and the new tail. -/
theorem keeps_put {c a : Nat} {arr : Carray} {t : Pntr} (hw : s.Wf) (hp : s.Placed c a arr t)
    (hsame : ∀ i, s.Valid (.obj c i) →
      s.denote (.obj c i) = prepend ((s.items arr.elements).drop i) (s.denote t)) :
    Keeps s (s.put c a arr t) where
  wf := hp.wf hw
  valid _ h := hp.valid h
  target _ h := hp.target hw h
  denote p hv := by
    let s' := s.put c a arr t
    -- what the pointers of the new store have to denote
    let D : Pntr → Seq (Item ⊕ Pntr) := fun q =>
      match s'.target q with
      | .obj c' i =>
        if c' = c then prepend ((s.items arr.elements).drop i) (s.denote t) else s.denote q
      | .num _ => s.denote q
    have hself : ∀ {q i}, s'.target q = .obj c i →
        D q = prepend ((s.items arr.elements).drop i) (s.denote t) := by
      intro q i hq
      simp only [D, hq, if_true]
    have hold : ∀ q, s.Valid q → D q = s.denote q := by
      intro q hq
      have hst : s'.target q = s.target q := hp.target hw hq
      cases hc : s.target q with
      | num d => simp only [D, hst, hc]
      | obj c' i =>
        by_cases heq : c' = c
        · subst heq
          rw [hself (hst.trans hc), ← hw.denote_target hq, hc]
          exact (hsame i (hc ▸ hw.valid_target hq)).symm
        · simp only [D, hst, hc, if_neg heq]
    have hU : Unfolds s'.move s'.Valid D := by
      intro q hq
      have hwf' : s'.Wf := hp.wf hw
      by_cases hc : ∃ i, s'.target q = .obj c i
      · obtain ⟨i, hi⟩ := hc
        have hlt : i < arr.size := by
          have h2 := (hi ▸ hwf'.valid_target hq : s'.Valid (.obj c i)).2
          simpa [s'] using h2
        have hlen : i < (s.items arr.elements).length := by rwa [length_items]
        have hx : (s'.items (s'.arrays a).elements)[i]? = some (s.items arr.elements)[i] := by
          rw [put_arrays_self, hp.items hw hp.ok]
          exact List.getElem?_eq_getElem hlen
        left
        refine ⟨_, _, move_aref hi put_nodes_self hx, ?_, ?_⟩
        · rw [put_arrays_self]
          split
          · rename_i h
            exact valid_put_self h
          · exact hp.valid hp.tail
        · rw [hself hi, List.drop_eq_getElem_cons hlen, prepend_cons, put_arrays_self]
          split
          · rw [hself (target_aref put_nodes_self)]
          · rename_i h
            rw [hold t hp.tail, List.drop_eq_nil_of_le, prepend_nil]
            rw [length_items]
            exact Nat.le_of_not_lt h
      · have hv : s.Valid q := by
          obtain hv | ⟨i, -, rfl⟩ := hp.valid_cases hq
          · exact hv
          · exact absurd ⟨i, target_aref put_nodes_self⟩ hc
        have hm : s'.move q = s.move q :=
          hp.move hw hv (fun i h => hc ⟨i, (hp.target hw hv).trans h⟩)
        cases hq' : s.move q with
        | item x r =>
          have hr := hw.valid_move hv hq'
          refine .inl ⟨x, r, hm.trans hq', hp.valid hr, ?_⟩
          rw [hold q hv, hold r hr]
          exact unfold_item hq'
        | done r =>
          refine .inr ⟨r, hm.trans hq', ?_⟩
          rw [hold q hv]
          exact unfold_done hq'
    exact (unfold_unique hU (hp.valid hv)).trans (hold p hv)

end Store
end Lists
end Runtime
end NReduce
