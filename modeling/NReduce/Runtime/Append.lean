import NReduce.Runtime.ListDenote

/-!
# NReduce.Runtime.Append

What the functions that `maybe_expand_array` calls do to the store, each as a `Store.put`:
`check_array_convert`, and `carray_append` where it stays in one array and where it goes on in a new
one.
-/

namespace NReduce
namespace Runtime
namespace Lists

open Stream'

namespace Store

variable {s : Store} {c a : Nat} {arr : Carray} {t : Pntr}

/-- No other cell refers to the array. -/
def Own (s : Store) (c a : Nat) : Prop :=
  ∀ c' t', c' < s.ncells → s.nodes c' = .aref a t' → c' = c

theorem Wf.own_new (hw : s.Wf) {b : Nat} (hb : s.narrays ≤ b) : s.Own c b := by
  intro c' t' hlt hn
  exact absurd (hw.aref c' b t' hlt hn).1 (by omega)

/-- The cell `c` refers to `arr`, alone, and goes on with `t`. -/
structure Refers (s : Store) (c a : Nat) (arr : Carray) (t : Pntr) : Prop where
  wf : s.Wf
  lt : c < s.ncells
  node : s.nodes c = .aref a t
  array : s.arrays a = arr
  single : arr.multiref = false

theorem Refers.own (h : s.Refers c a arr t) : s.Own c a := by
  intro c' t' hlt hn
  exact h.wf.single c' c a t' t hlt h.lt hn h.node (by rw [h.array]; exact h.single)

theorem Refers.ok (h : s.Refers c a arr t) : s.ArrayOk arr := by
  have hok := (h.wf.aref c a t h.lt h.node).2.2
  rwa [h.array] at hok

theorem Refers.valid_tail (h : s.Refers c a arr t) : s.Valid t :=
  (h.wf.aref c a t h.lt h.node).2.1

theorem Refers.lt_narrays (h : s.Refers c a arr t) : a < s.narrays :=
  (h.wf.aref c a t h.lt h.node).1

theorem Refers.aref (h : s.Refers c a arr t) : s.aref c = some (a, t) := by
  rw [Store.aref, h.node]

/-- An AREF cell may get a longer array that starts with the items of its own. -/
theorem Refers.placed (h : s.Refers c a arr t) {b : Nat} {arr' : Carray} {t' : Pntr}
    (hown : s.Own c b) (hsize : arr.size ≤ arr'.size) (hok : s.ArrayOk arr') (ht : s.Valid t') :
    s.Placed c b arr' t' where
  cell := h.lt.le
  not_ind p _ hn := by
    rw [h.node] at hn
    cases hn
  own := hown
  grows i hv := by
    have h2 := hv.2
    simp only [h.node, h.array] at h2
    exact lt_of_lt_of_le h2 hsize
  ok := hok
  tail := ht

/-- The lists stay as they are when the array takes over what the tail starts with. -/
theorem Refers.keeps_extend (h : s.Refers c a arr t) {b : Nat} {arr' : Carray} {t' : Pntr}
    (xs : List Item) (hown : s.Own c b) (hok : s.ArrayOk arr') (ht : s.Valid t')
    (hitems : s.items arr'.elements = s.items arr.elements ++ xs)
    (hden : s.denote t = prepend xs (s.denote t')) : Keeps s (s.put c b arr' t') := by
  have hsize : arr.size ≤ arr'.size := by
    have hlen := congrArg List.length hitems
    simp only [length_items, List.length_append] at hlen
    exact (by omega : arr.elements.size ≤ arr'.elements.size)
  apply keeps_put h.wf (h.placed hown hsize hok ht)
  intro i hv
  have hi : i < (s.arrays a).size := by
    have h2 := hv.2
    simpa only [h.node] using h2
  have hle : i ≤ (s.items arr.elements).length := by
    rw [h.array] at hi
    rw [length_items]
    exact hi.le
  rw [denote_aref h.node hi, h.array, hden, hitems, List.drop_append_of_le_length hle,
    prepend_append]

theorem put_refers (hw : (s.put c a arr t).Wf) (hm : arr.multiref = false) :
    (s.put c a arr t).Refers c a arr t :=
  ⟨hw, lt_of_lt_of_le (Nat.lt_succ_self c) (le_max_right _ _), put_nodes_self, put_arrays_self, hm⟩

theorem Refers.put_eq_self (h : s.Refers c a arr t) : s.put c a arr t = s := by
  have h1 := h.lt
  have h2 := h.lt_narrays
  have hn : Function.update s.nodes c (.aref a t) = s.nodes := by
    rw [← h.node, Function.update_eq_self]
  have ha : Function.update s.arrays a arr = s.arrays := by
    rw [← h.array, Function.update_eq_self]
  rw [put, hn, ha, max_eq_left h1, max_eq_left h2]

theorem put_put {arr' : Carray} {t' : Pntr} :
    (s.put c a arr t).put c a arr' t' = s.put c a arr' t' := by
  simp [put]

theorem put_setArray (arr : Carray) {arr' : Carray} :
    (s.put c a arr t).setArray a arr' = s.put c a arr' t := by
  simp [put, setArray]

theorem put_setNode {t' : Pntr} :
    (s.put c a arr t).setNode c (.aref a t') = s.put c a arr t' := by
  simp [put, setNode]

theorem put_aref : (s.put c a arr t).aref c = some (a, t) := by
  rw [Store.aref, put_nodes_self]

theorem Refers.setArray (h : s.Refers c a arr t) {arr' : Carray} :
    s.setArray a arr' = s.put c a arr' t := by
  rw [← put_setArray arr, h.put_eq_self]

theorem Refers.setNode (h : s.Refers c a arr t) {t' : Pntr} :
    s.setNode c (.aref a t') = s.put c a arr t' := by
  rw [← put_setNode (t := t), h.put_eq_self]

/-- `arr'` has the items of `arr`. -/
structure Alike (s : Store) (arr arr' : Carray) : Prop where
  ok : s.ArrayOk arr'
  items : s.items arr'.elements = s.items arr.elements
  single : arr'.multiref = arr.multiref

theorem Alike.size (h : s.Alike arr arr') : arr'.size = arr.size := by
  have hlen := congrArg List.length h.items
  simp only [length_items] at hlen
  exact hlen

theorem Refers.keeps_alike (h : s.Refers c a arr t) {b : Nat} {arr' : Carray} (hb : s.Own c b)
    (ha : s.Alike arr arr') : Keeps s (s.put c b arr' t) :=
  h.keeps_extend [] hb ha.ok h.valid_tail (by rw [ha.items, List.append_nil]) rfl

end Store

open Store

variable {s : Store} {c a : Nat} {arr : Carray} {t : Pntr}

theorem arefSetTail_of_refers (h : s.Refers c a arr t) (t' : Pntr) :
    arefSetTail c t' s = some (s.put c a arr t') := by
  simp only [arefSetTail, h.aref, Option.bind_eq_bind, Option.bind_some, h.setNode]
  rfl

theorem arefResolveTail_of_refers (h : s.Refers c a arr t) :
    arefResolveTail c s = some (s.put c a arr (s.target t)) := by
  simp only [arefResolveTail, h.aref, Option.bind_eq_bind, Option.bind_some]
  cases hi : s.isInd t with
  | true =>
    simp only [if_true, h.wf.resolve h.valid_tail, Option.bind_some, h.setNode]
    rfl
  | false =>
    rw [target_of_not_isInd hi, h.put_eq_self]
    rfl

/-! ## check_array_convert -/

theorem item_target (hw : s.Wf) {p : Pntr} (hp : s.Valid p) : s.item (s.target p) = s.item p := by
  rw [item, item, hw.target_target hp]

/-- A character is not an indirection. -/
theorem item_of_char {p : Pntr} (h : pntrIsChar p = true) : s.item p = .char (toChar p) := by
  cases p with
  | num d =>
    have ht : s.target (.num d) = .num d := rfl
    rw [item, ht, Item.of, if_pos h]
  | obj c i => cases h

theorem pntrIsChar_of_item {p : Pntr} {b : BitVec 8} (h : s.item p = .char b) :
    pntrIsChar (s.target p) = true := by
  rw [item, Item.of] at h
  split at h
  · assumption
  · cases h

/-- The element at `pos`, resolved. -/
theorem arefResolveElement_of_refers (h : s.Refers c a arr t) {l : List Pntr} {pos : Nat}
    (hl : arr.elements = .pntrs l) (hpos : pos < l.length) :
    arefResolveElement c pos s =
      some (s.put c a { arr with elements := .pntrs (l.set pos (s.target l[pos])) } t) := by
  simp only [arefResolveElement, h.aref, h.array, hl, Option.bind_eq_bind, Option.bind_some,
    List.getElem?_eq_getElem hpos]
  cases hi : s.isInd l[pos] with
  | true =>
    have hv := h.ok.elements l hl l[pos] (List.getElem_mem hpos)
    simp only [if_true, h.wf.resolve hv, Option.bind_some, h.setArray]
    rfl
  | false =>
    rw [target_of_not_isInd hi, List.set_getElem_self, ← hl, h.put_eq_self]
    rfl

/-- The array of a string in `l`, with the element after its characters resolved. -/
theorem Store.Alike.resolve_element {arr₀ : Carray} (hw : s.Wf) (h : s.Alike arr₀ arr)
    {l : List Pntr} (hl : arr.elements = .pntrs l) (hpos : arr.nchars < l.length) :
    s.Alike arr₀
      { arr with elements := .pntrs (l.set arr.nchars (s.target l[arr.nchars])) } := by
  have hmem := List.getElem_mem hpos
  have hv := h.ok.elements l hl _ hmem
  have hsize : (l.set arr.nchars (s.target l[arr.nchars])).length = arr.size := by
    rw [List.length_set, Carray.size, hl]
    rfl
  refine ⟨⟨?_, h.ok.alloc_pos, ?_, ?_, ?_, ?_⟩, ?_, h.single⟩
  · exact hsize.trans_le h.ok.size_le
  · exact hsize.trans_le h.ok.size_le_alloc
  · rintro _ ⟨⟩ e he
    obtain he | rfl := List.mem_or_eq_of_mem_set he
    · exact h.ok.elements l hl e he
    · exact hw.valid_target hv
  · rintro _ ⟨⟩
    rw [List.length_set]
    exact h.ok.nchars_le l hl
  · rintro _ ⟨⟩ e he
    rw [List.take_set_of_le (Nat.le_refl _)] at he
    exact h.ok.chars l hl e he
  · rw [← h.items, hl]
    have hlen : arr.nchars < (l.map s.item).length := by rwa [List.length_map]
    have hitem : s.item (s.target l[arr.nchars]) = (l.map s.item)[arr.nchars] := by
      rw [item_target hw hv, List.getElem_map]
    simp only [Store.items, List.map_set, hitem, List.set_getElem_self]

theorem Store.Alike.count_char {arr₀ : Carray} (h : s.Alike arr₀ arr) {l : List Pntr}
    (hl : arr.elements = .pntrs l) (hpos : arr.nchars < l.length)
    (hchar : pntrIsChar l[arr.nchars] = true) :
    s.Alike arr₀ { arr with nchars := arr.nchars + 1 } := by
  refine ⟨⟨h.ok.size_le, h.ok.alloc_pos, h.ok.size_le_alloc, h.ok.elements, ?_, ?_⟩, h.items,
    h.single⟩
  · intro l' hl'
    obtain rfl : l = l' := by simpa using hl.symm.trans hl'
    exact hpos
  · intro l' hl' e he
    obtain rfl : l = l' := by simpa using hl.symm.trans hl'
    rw [List.take_succ_eq_append_getElem hpos, List.mem_append, List.mem_singleton] at he
    obtain he | rfl := he
    · exact h.ok.chars l hl e he
    · exact hchar

/-- The loop leaves an array with the same items. When they are all characters it counts them. -/
theorem countChars_of_refers (h : s.Refers c a arr t) {t' : Pntr} (ht : s.Valid t') {k : Nat} :
    ∀ {arr₁ : Carray}, s.Alike arr arr₁ → arr₁.elements.width = .pntr →
      arr₁.size ≤ arr₁.nchars + k →
      ∃ arr₂, countChars c a k (s.put c a arr₁ t') = some (s.put c a arr₂ t') ∧ s.Alike arr arr₂ ∧
        arr₂.elements.width = .pntr ∧
        ((∀ x ∈ s.items arr.elements, ∃ b, x = .char b) → arr₂.nchars = arr₂.size) := by
  have hplaced : ∀ {arr₁ : Carray}, s.Alike arr arr₁ → s.Placed c a arr₁ t' := fun ha =>
    h.placed h.own ha.size.ge ha.ok ht
  have hrefers : ∀ {arr₁ : Carray}, s.Alike arr arr₁ → (s.put c a arr₁ t').Refers c a arr₁ t' :=
    fun ha => put_refers ((hplaced ha).wf h.wf) (ha.single.trans h.single)
  induction k with
  | zero =>
    intro arr₁ ha hp hk
    refine ⟨arr₁, rfl, ha, hp, fun _ => ?_⟩
    cases hl : arr₁.elements with
    | bytes l => simp [hl, Elements.width] at hp
    | pntrs l =>
      have hle := ha.ok.nchars_le l hl
      simp only [Carray.size, hl, Elements.size] at hk ⊢
      omega
  | succ k ih =>
    intro arr₁ ha hp hk
    cases hl : arr₁.elements with
    | bytes l => simp [hl, Elements.width] at hp
    | pntrs l =>
      have hle := ha.ok.nchars_le l hl
      have hsize : arr₁.size = l.length := by rw [Carray.size, hl, Elements.size]
      by_cases hpos : arr₁.nchars < l.length
      · have hv := ha.ok.elements l hl _ (List.getElem_mem hpos)
        have ha' := ha.resolve_element h.wf hl hpos
        have hres := arefResolveElement_of_refers (hrefers ha) hl hpos
        rw [put_put, (hplaced ha).target h.wf hv] at hres
        have hlen : arr₁.nchars < (l.set arr₁.nchars (s.target l[arr₁.nchars])).length := by
          rwa [List.length_set]
        rw [countChars]
        simp only [put_arrays_self, hsize, if_pos hpos, hres, Option.bind_eq_bind,
          Option.bind_some, List.getElem?_eq_getElem hlen, List.getElem_set_self]
        cases hchar : pntrIsChar (s.target l[arr₁.nchars]) with
        | true =>
          have hchar' : pntrIsChar
              (l.set arr₁.nchars (s.target l[arr₁.nchars]))[arr₁.nchars] = true := by
            rw [List.getElem_set_self]
            exact hchar
          have hcount := ha'.count_char rfl hlen hchar'
          obtain ⟨arr₂, hrun, hrest⟩ := ih hcount rfl (by
            simp only [Carray.size, Elements.size, List.length_set]
            omega)
          refine ⟨arr₂, ?_, hrest⟩
          simp only [if_true, put_setArray]
          exact hrun
        | false =>
          refine ⟨_, rfl, ha', rfl, fun hall => ?_⟩
          have hmem : s.item l[arr₁.nchars] ∈ s.items arr.elements := by
            rw [← ha.items, hl]
            exact List.mem_map_of_mem (List.getElem_mem hpos)
          obtain ⟨b, hb⟩ := hall _ hmem
          rw [pntrIsChar_of_item hb] at hchar
          cases hchar
      · refine ⟨arr₁, ?_, ha, hp, fun _ => ?_⟩
        · rw [countChars]
          simp only [put_arrays_self, hsize, if_neg hpos]
        · omega

/-- The array of characters `l`, as bytes. -/
theorem Store.Alike.convert {arr₀ : Carray} (h : s.Alike arr₀ arr) {l : List Pntr}
    (hl : arr.elements = .pntrs l) (hn : arr.nchars = l.length) :
    s.Alike arr₀ { arr with elements := .bytes (l.map toChar) } := by
  have hsize : (l.map toChar).length = arr.size := by
    rw [List.length_map, Carray.size, hl]
    rfl
  refine ⟨⟨?_, h.ok.alloc_pos, ?_, ?_, ?_, ?_⟩, ?_, h.single⟩
  · exact hsize.trans_le h.ok.size_le
  · exact hsize.trans_le h.ok.size_le_alloc
  · rintro _ ⟨⟩
  · rintro _ ⟨⟩
  · rintro _ ⟨⟩
  · rw [← h.items, hl]
    simp only [Store.items, List.map_map]
    apply List.map_congr_left
    intro e he
    have hchar := h.ok.chars l hl e (by rwa [hn, List.take_length])
    exact (item_of_char hchar).symm

theorem convertToString_put {l : List Pntr} (hl : arr.elements = .pntrs l) (hn : arr.nchars = l.length) :
    convertToString a (s.put c a arr t) =
      some (s.put c a { arr with elements := .bytes (l.map toChar) } t) := by
  simp only [convertToString, put_arrays_self, hl, if_pos hn, put_setArray]

/-- `check_array_convert` resolves the tail and leaves the items of the array. A full array of
characters becomes a string. -/
theorem checkArrayConvert_of_refers (h : s.Refers c a arr t) :
    ∃ arr', checkArrayConvert c s = some (s.put c a arr' (s.target t)) ∧ s.Alike arr arr' ∧
      (arr.elements.width = .byte → arr' = arr) ∧
      (arr.size = maxArraySize → (∀ x ∈ s.items arr.elements, ∃ b, x = .char b) →
        arr'.elements.width = .byte) := by
  have ha : s.Alike arr arr := ⟨h.ok, rfl, rfl⟩
  have ht := h.wf.valid_target h.valid_tail
  simp only [checkArrayConvert, h.aref, Option.bind_eq_bind, Option.bind_some, h.array, h.single,
    arefResolveTail_of_refers h, put_aref, put_arrays_self]
  cases hl : arr.elements with
  | bytes l =>
    refine ⟨arr, ?_, ha, fun _ => rfl, fun _ _ => ?_⟩
    · simp [Elements.width]
    · rw [hl]
      rfl
  | pntrs l =>
    have hw : arr.elements.width = .pntr := by
      rw [hl]
      rfl
    split
    · cases ‹false = true›
    · simp only [Elements.width, true_and]
      split
      · obtain ⟨arr₂, hrun, ha₂, hw₂, hall⟩ :=
          countChars_of_refers h ht ha hw (Nat.le_add_left arr.size arr.nchars)
        simp only [hrun, Option.bind_some, put_arrays_self]
        cases hl₂ : arr₂.elements with
        | bytes l₂ => simp [hl₂, Elements.width] at hw₂
        | pntrs l₂ =>
          have hsize : arr₂.size = l₂.length := by rw [Carray.size, hl₂, Elements.size]
          by_cases hn : arr₂.nchars = l₂.length
          · refine ⟨_, ?_, ha₂.convert hl₂ hn, ?_, fun _ _ => rfl⟩
            · rw [hsize, if_pos hn, convertToString_put hl₂ hn]
            · rintro ⟨⟩
          · refine ⟨arr₂, ?_, ha₂, ?_, fun _ h' => ?_⟩
            · rw [hsize, if_neg hn]
              rfl
            · rintro ⟨⟩
            · rw [hl] at hall
              exact absurd (hall h') (hsize ▸ hn)
      · rename_i hcond
        refine ⟨arr, rfl, ha, ?_, fun h' => absurd (Or.inl h') hcond⟩
        rintro ⟨⟩

/-! ## carray_append -/

theorem growFrom_isSome {k alloc need : Nat} (ha : 0 < alloc) (hk : 0 < k)
    (hneed : need < alloc + k) : ∃ m, growFrom k alloc need = some m ∧ need ≤ m := by
  induction k generalizing alloc with
  | zero => omega
  | succ k ih =>
    rw [growFrom]
    split
    · exact ih (by omega) (by omega) (by omega)
    · exact ⟨alloc, rfl, by omega⟩

theorem grow_isSome {alloc : Nat} (ha : 0 < alloc) (need : Nat) :
    ∃ m, grow alloc need = some m ∧ need ≤ m := growFrom_isSome ha (by omega) (by omega)

/-- The `alloc` of an array with room for `need` elements, if it stays where it is. -/
def reserve (nbytes : Nat) (w : Width) (alloc need : Nat) : Option Nat :=
  if alloc < need then (grow alloc need).filter (fun m => decide (sizereq m w ≤ nbytes))
  else some alloc

theorem reserve_of_le {nbytes alloc need : Nat} {w : Width} (h : need ≤ alloc) :
    reserve nbytes w alloc need = some alloc := if_neg (by omega)

theorem le_of_reserve {nbytes alloc need m : Nat} {w : Width} (ha : 0 < alloc)
    (h : reserve nbytes w alloc need = some m) : need ≤ m := by
  unfold reserve at h
  split at h
  · obtain ⟨m', hm', hle⟩ := grow_isSome ha need
    rw [hm', Option.filter_some] at h
    split at h
    · cases h
      exact hle
    · cases h
  · cases h
    omega

theorem makeRoom_in_place (h : s.Refers c a arr t) {need m : Nat}
    (hr : reserve arr.nbytes arr.elements.width arr.alloc need = some m) :
    makeRoom c need s = some (s.put c a { arr with alloc := m } t) := by
  simp only [makeRoom, h.aref, h.array, Option.bind_eq_bind, Option.bind_some]
  unfold reserve at hr
  split at hr
  · rename_i hlt
    obtain ⟨m', hm', -⟩ := grow_isSome h.ok.alloc_pos need
    rw [hm', Option.filter_some] at hr
    split at hr
    · rename_i hle
      cases hr
      have hle' : ¬ sizereq m arr.elements.width > arr.nbytes := by simpa using hle
      simp only [if_pos hlt, hm', Option.bind_some, if_neg hle', h.setArray]
      rfl
    · cases hr
  · rename_i hlt
    cases hr
    rw [if_neg hlt, h.put_eq_self]
    rfl

/-- The array moves to a new object; the old one is still there, with the new `alloc`. -/
theorem makeRoom_moves (h : s.Refers c a arr t) {need : Nat}
    (hr : reserve arr.nbytes arr.elements.width arr.alloc need = none) :
    ∃ m nbytes, need ≤ m ∧ makeRoom c need s =
      some ((s.put c a { arr with alloc := m } t).put c s.narrays
        { arr with alloc := m, nbytes := nbytes } t) := by
  obtain ⟨m, hm, hle⟩ := grow_isSome h.ok.alloc_pos need
  simp only [makeRoom, h.aref, h.array, Option.bind_eq_bind, Option.bind_some]
  unfold reserve at hr
  split at hr
  · rename_i hlt
    rw [hm, Option.filter_some] at hr
    split at hr
    · cases hr
    · rename_i hreq
      have hreq' : sizereq m arr.elements.width > arr.nbytes := by simpa using hreq
      have h1 : max s.ncells (c + 1) = s.ncells := max_eq_left h.lt
      have h2 : max s.narrays (a + 1) = s.narrays := max_eq_left h.lt_narrays
      refine ⟨m, sizereq m arr.elements.width, hle, ?_⟩
      simp only [if_pos hlt, hm, Option.bind_some, if_pos hreq', allocArray, Store.setArray,
        Store.setNode, put, h1, h2, Function.update_idem]
      simp
  · cases hr

/-- What may differ between two stores: one cell, one array and what is new. -/
structure Store.Changes (s s' : Store) (c a : Nat) : Prop where
  nodes : ∀ d < s.ncells, d ≠ c → s'.nodes d = s.nodes d
  arrays : ∀ b < s.narrays, b ≠ a → s'.arrays b = s.arrays b
  ncells_le : s.ncells ≤ s'.ncells
  narrays_le : s.narrays ≤ s'.narrays

theorem Store.Changes.refl (s : Store) (c a : Nat) : s.Changes s c a :=
  ⟨fun _ _ _ => rfl, fun _ _ _ => rfl, le_rfl, le_rfl⟩

theorem Store.Changes.trans {s₁ s₂ s₃ : Store} {c' a' : Nat} (h : s₁.Changes s₂ c a)
    (h' : s₂.Changes s₃ c' a') (hc : c' = c ∨ s₁.ncells ≤ c') (ha : a' = a ∨ s₁.narrays ≤ a') :
    s₁.Changes s₃ c a where
  nodes d hd hne :=
    (h'.nodes d (lt_of_lt_of_le hd h.ncells_le) (by omega)).trans (h.nodes d hd hne)
  arrays b hb hne :=
    (h'.arrays b (lt_of_lt_of_le hb h.narrays_le) (by omega)).trans (h.arrays b hb hne)
  ncells_le := h.ncells_le.trans h'.ncells_le
  narrays_le := h.narrays_le.trans h'.narrays_le

theorem Store.changes_put {a' : Nat} (ha : a = a' ∨ s.narrays ≤ a) : s.Changes (s.put c a arr t) c a' :=
  ⟨fun _ _ hne => put_nodes_of_ne hne, fun _ _ hne => put_arrays_of_ne (by omega),
    le_max_left _ _, le_max_left _ _⟩

/-- Where the array is after it has got room for `need` elements. -/
structure Moved (s s' : Store) (a a' : Nat) (arr arr' : Carray) (need : Nat) : Prop where
  in_place : ∀ m, reserve arr.nbytes arr.elements.width arr.alloc need = some m →
    a' = a ∧ arr'.alloc = m ∧ arr'.nbytes = arr.nbytes
  away : reserve arr.nbytes arr.elements.width arr.alloc need = none →
    s.narrays ≤ a' ∧ (s'.arrays a).elements = arr.elements

theorem Moved.place {s' : Store} {a' need : Nat} {arr' : Carray}
    (h : Moved s s' a a' arr arr' need) : a' = a ∨ s.narrays ≤ a' := by
  cases hr : reserve arr.nbytes arr.elements.width arr.alloc need with
  | some m => exact .inl (h.in_place m hr).1
  | none => exact .inr (h.away hr).1

/-- The array of `c` gets room. -/
structure Roomy (s s' : Store) (c a a' : Nat) (arr arr' : Carray) (t : Pntr) (need : Nat) :
    Prop where
  refers : s'.Refers c a' arr' t
  keeps : Keeps s s'
  changes : s.Changes s' c a
  elements : arr'.elements = arr.elements
  nchars : arr'.nchars = arr.nchars
  need_le : need ≤ arr'.alloc
  moved : Moved s s' a a' arr arr' need

theorem Roomy.sources {s' : Store} {a' : Nat} {arr' : Carray} {need : Nat}
    (h : Roomy s s' c a a' arr arr' t need) (ha : s.arrays a = arr) {b : Nat} (hb : b < s.narrays) :
    (s'.arrays b).elements = (s.arrays b).elements := by
  by_cases hba : b = a
  · subst hba
    cases hr : reserve arr.nbytes arr.elements.width arr.alloc need with
    | some m =>
      obtain ⟨rfl, -, -⟩ := h.moved.in_place m hr
      rw [h.refers.array, ha, h.elements]
    | none => rw [(h.moved.away hr).2, ha]
  · rw [h.changes.arrays b hb hba]

theorem Store.Alike.alloc {arr₀ : Carray} (h : s.Alike arr₀ arr) (nbytes : Nat) {m : Nat}
    (hm : 0 < m) (hsize : arr.size ≤ m) : s.Alike arr₀ { arr with alloc := m, nbytes := nbytes } :=
  ⟨⟨h.ok.size_le, hm, hsize, h.ok.elements, h.ok.nchars_le, h.ok.chars⟩, h.items, h.single⟩

theorem makeRoom_of_refers (h : s.Refers c a arr t) (need : Nat) (hneed : arr.size ≤ need)
    (hpos : 0 < need) : ∃ s' a' arr', makeRoom c need s = some s' ∧
      Roomy s s' c a a' arr arr' t need := by
  have ha : s.Alike arr arr := ⟨h.ok, rfl, rfl⟩
  cases hr : reserve arr.nbytes arr.elements.width arr.alloc need with
  | some m =>
    have hle := le_of_reserve h.ok.alloc_pos hr
    have hm := ha.alloc arr.nbytes (hpos.trans_le hle) (hneed.trans hle)
    have hk := h.keeps_alike h.own hm
    refine ⟨_, a, _, makeRoom_in_place h hr, put_refers hk.wf h.single, hk, changes_put (.inl rfl),
      rfl, rfl, hle, ?_, ?_⟩
    · intro m' hm'
      rw [hr] at hm'
      cases hm'
      exact ⟨rfl, rfl, rfl⟩
    · intro hn
      rw [hr] at hn
      cases hn
  | none =>
    obtain ⟨m, nbytes, hle, hrun⟩ := makeRoom_moves h hr
    have hm := ha.alloc arr.nbytes (hpos.trans_le hle) (hneed.trans hle)
    have hk := h.keeps_alike h.own hm
    have h₁ := put_refers hk.wf h.single
    have ha₁ : Store.Alike _ _ _ := ⟨h₁.ok, rfl, rfl⟩
    have hnar : (s.put c a { arr with alloc := m } t).narrays = s.narrays :=
      max_eq_left h.lt_narrays
    have hk₁ := h₁.keeps_alike (h₁.wf.own_new hnar.le)
      (ha₁.alloc nbytes (hpos.trans_le hle) (hneed.trans hle))
    refine ⟨_, s.narrays, _, hrun, put_refers hk₁.wf h.single, hk.trans hk₁, ?_, rfl, rfl, hle,
      ?_, ?_⟩
    · exact (changes_put (.inl rfl)).trans (changes_put (.inr hnar.le)) (.inl rfl) (.inl rfl)
    · intro m' hm'
      rw [hr] at hm'
      cases hm'
    · intro _
      refine ⟨le_rfl, ?_⟩
      rw [put_arrays_of_ne h.lt_narrays.ne, put_arrays_self]

theorem Elements.append_of_width {els : Elements} (new : Elements) (h : els.width = new.width) :
    ∃ els', els.append new = some els' ∧ els'.width = els.width ∧
      els'.size = els.size + new.size ∧
      ∀ s : Store, s.items els' = s.items els ++ s.items new := by
  cases els with
  | bytes l =>
    cases new with
    | bytes m => exact ⟨_, rfl, rfl, List.length_append, fun s => List.map_append⟩
    | pntrs m => cases h
  | pntrs l =>
    cases new with
    | bytes m => cases h
    | pntrs m => exact ⟨_, rfl, rfl, List.length_append, fun s => List.map_append⟩

theorem Elements.append_eq_pntrs {els new : Elements} {l : List Pntr}
    (h : els.append new = some (.pntrs l)) :
    ∃ m n, els = .pntrs m ∧ new = .pntrs n ∧ l = m ++ n := by
  cases els with
  | bytes m => cases new <;> cases h
  | pntrs m =>
    cases new with
    | bytes n => cases h
    | pntrs n =>
      cases h
      exact ⟨m, n, rfl, rfl, rfl⟩

/-- The pointers among the elements are valid. -/
def Store.ElementsOk (s : Store) (els : Elements) : Prop := ∀ l, els = .pntrs l → ∀ e ∈ l, s.Valid e

theorem Store.Keeps.elementsOk {s' : Store} (hk : Keeps s s') {els : Elements}
    (h : s.ElementsOk els) : s'.ElementsOk els :=
  fun l hl e he => hk.valid e (h l hl e he)

theorem Store.Keeps.items {s' : Store} (hk : Keeps s s') {els : Elements} (h : s.ElementsOk els) :
    s'.items els = s.items els := by
  cases els with
  | bytes l => rfl
  | pntrs l =>
    apply List.map_congr_left
    intro e he
    rw [item, item, hk.target e (h l rfl e he)]

theorem Store.ArrayOk.append (h : s.ArrayOk arr) {new els : Elements} (hnew : s.ElementsOk new)
    (happ : arr.elements.append new = some els) (hsize : els.size ≤ maxArraySize)
    (halloc : els.size ≤ arr.alloc) : s.ArrayOk { arr with elements := els } where
  size_le := hsize
  alloc_pos := h.alloc_pos
  size_le_alloc := halloc
  elements l hl e he := by
    obtain ⟨m, n, hm, hn, rfl⟩ := Elements.append_eq_pntrs (happ.trans (congrArg some hl))
    obtain he | he := List.mem_append.mp he
    · exact h.elements m hm e he
    · exact hnew n hn e he
  nchars_le l hl := by
    obtain ⟨m, n, hm, -, rfl⟩ := Elements.append_eq_pntrs (happ.trans (congrArg some hl))
    exact (h.nchars_le m hm).trans (by simp)
  chars l hl e he := by
    obtain ⟨m, n, hm, -, rfl⟩ := Elements.append_eq_pntrs (happ.trans (congrArg some hl))
    rw [List.take_append_of_le_length (h.nchars_le m hm)] at he
    exact h.chars m hm e he

/-! ## A new cell behind a full array -/

namespace Store

/-- The array of `c` is `arr₁`, and behind it is a new cell with the array `e`. -/
def chain (s : Store) (c a : Nat) (arr₁ e : Carray) (p : Pntr) : Store :=
  (s.put s.ncells s.narrays e p).put c a arr₁ (.obj s.ncells 0)

/-- What is needed for `chain`. -/
structure Chains (s : Store) (c a : Nat) (arr arr₁ e : Carray) (t : Pntr) : Prop where
  refers : s.Refers c a arr t
  size_le : arr.size ≤ arr₁.size
  ok : s.ArrayOk arr₁
  single : arr₁.multiref = false
  size_pos : 0 < e.size
  new_ok : s.ArrayOk e
  new_single : e.multiref = false

section

variable {arr₁ e : Carray} {p : Pntr} (h : s.Chains c a arr arr₁ e t) (hp : s.Valid p)
include h hp

theorem Chains.placed_new : s.Placed s.ncells s.narrays e p :=
  ⟨le_rfl, fun _ hlt => absurd hlt (lt_irrefl _), h.refers.wf.own_new le_rfl,
    fun _ hv => absurd hv.1 (lt_irrefl _), h.new_ok, hp⟩

theorem Chains.keeps_new : Keeps s (s.put s.ncells s.narrays e p) :=
  keeps_put h.refers.wf (h.placed_new hp) (fun _ hv => absurd hv.1 (lt_irrefl _))

theorem Chains.refers_old : (s.put s.ncells s.narrays e p).Refers c a arr t where
  wf := (h.keeps_new hp).wf
  lt := h.refers.lt.trans_le (le_max_left _ _)
  node := by rw [put_nodes_of_ne h.refers.lt.ne, h.refers.node]
  array := by rw [put_arrays_of_ne h.refers.lt_narrays.ne, h.refers.array]
  single := h.refers.single

theorem Chains.placed :
    (s.put s.ncells s.narrays e p).Placed c a arr₁ (.obj s.ncells 0) :=
  (h.refers_old hp).placed (h.refers_old hp).own h.size_le ((h.placed_new hp).arrayOk h.ok)
    (valid_put_self h.size_pos)

theorem Chains.wf : (s.chain c a arr₁ e p).Wf := (h.placed hp).wf (h.keeps_new hp).wf

theorem Chains.resolve {q : Pntr} (hq : s.Valid q) :
    (s.chain c a arr₁ e p).resolvePntr q = some (s.target q) := by
  rw [chain, (h.placed hp).resolve (h.keeps_new hp).wf ((h.placed_new hp).valid hq),
    (h.placed_new hp).target h.refers.wf hq]

theorem Chains.refers_head : (s.chain c a arr₁ e p).Refers c a arr₁ (.obj s.ncells 0) :=
  put_refers (h.wf hp) h.single

theorem Chains.refers_new : (s.chain c a arr₁ e p).Refers s.ncells s.narrays e p where
  wf := h.wf hp
  lt := by
    simp only [chain, put]
    omega
  node := by rw [chain, put_nodes_of_ne h.refers.lt.ne', put_nodes_self]
  array := by rw [chain, put_arrays_of_ne h.refers.lt_narrays.ne', put_arrays_self]
  single := h.new_single

theorem Chains.setTail (q : Pntr) :
    arefSetTail s.ncells q (s.chain c a arr₁ e p) = some (s.chain c a arr₁ e q) := by
  rw [arefSetTail_of_refers (h.refers_new hp)]
  have hc := h.refers.lt
  have ha := h.refers.lt_narrays
  simp only [chain, put]
  congr 2
  · rw [Function.update_comm hc.ne', Function.update_idem, Function.update_comm hc.ne]
  · omega
  · rw [Function.update_comm ha.ne', Function.update_idem, Function.update_comm ha.ne]
  · omega

omit h hp in
theorem changes_chain : s.Changes (s.chain c a arr₁ e p) c a := by
  have hnew : s.Changes (s.put s.ncells s.narrays e p) c a :=
    ⟨fun _ hd _ => put_nodes_of_ne hd.ne, fun _ hb _ => put_arrays_of_ne hb.ne, le_max_left _ _,
      le_max_left _ _⟩
  exact hnew.trans (changes_put (.inl rfl)) (.inl rfl) (.inl rfl)

/-- The lists stay as they are when the array takes over what the tail starts with, and the new
array the rest of it. -/
theorem Chains.keeps (xs : List Item)
    (hitems : s.items arr₁.elements = s.items arr.elements ++ xs)
    (hden : s.denote t = prepend xs (prepend (s.items e.elements) (s.denote p))) :
    Keeps s (s.chain c a arr₁ e p) := by
  have hk := h.keeps_new hp
  have hplaced := h.placed_new hp
  apply hk.trans
  apply (h.refers_old hp).keeps_extend xs (h.refers_old hp).own (hplaced.arrayOk h.ok)
    (valid_put_self h.size_pos)
  · rw [hplaced.items h.refers.wf h.ok, hplaced.items h.refers.wf h.refers.ok, hitems]
  · have hpos : 0 < ((s.put s.ncells s.narrays e p).arrays s.narrays).size := by
      rw [put_arrays_self]
      exact h.size_pos
    rw [hk.denote t h.refers.valid_tail, hden, denote_aref put_nodes_self hpos, put_arrays_self,
      List.drop_zero, hplaced.items h.refers.wf h.new_ok, hk.denote p hp]

end

end Store

section

variable (misread : Store → Data → Nat → Pntr)

/-- What `carray_append` reads while the arrays that there were keep their elements. -/
def Reads (s : Store) (data : Data) (w : Width) (new : Elements) : Prop :=
  ∀ s' : Store, (∀ b < s.narrays, (s'.arrays b).elements = (s.arrays b).elements) →
    readData misread s' data w new.size = some new

theorem reads_value (s : Store) (p : Pntr) :
    Reads misread s ⟨.value p, 0⟩ .pntr (.pntrs [p]) := fun _ _ => by
  simp [readData, Elements.size]

theorem reads_pntrs {b i : Nat} (hb : b < s.narrays) {l : List Pntr}
    (hl : (s.arrays b).elements = .pntrs l) (hi : i ≤ l.length) :
    Reads misread s ⟨.array b, 8 * i⟩ .pntr (.pntrs (l.drop i)) := by
  intro s' hs'
  have hoff : 8 * i / 8 = i := by omega
  have hle : i + (l.length - i) ≤ l.length := by omega
  have htake : (l.drop i).take (l.length - i) = l.drop i :=
    List.take_of_length_le (by rw [List.length_drop])
  simp [readData, Elements.size, hs' b hb, hl, hoff, hle, htake]

theorem reads_bytes {b i : Nat} (hb : b < s.narrays) {l : List (BitVec 8)}
    (hl : (s.arrays b).elements = .bytes l) (hi : i ≤ l.length) :
    Reads misread s ⟨.array b, i⟩ .byte (.bytes (l.drop i)) := by
  intro s' hs'
  have hle : i + (l.length - i) ≤ l.length := by omega
  have htake : (l.drop i).take (l.length - i) = l.drop i :=
    List.take_of_length_le (by rw [List.length_drop])
  simp [readData, Elements.size, hs' b hb, hl, hle, htake]

/-- The last turn of the loop: what is left fits in the array. -/
theorem appendFrom_last (h : s.Refers c a arr t) {s' : Store} {a' : Nat} {arr' : Carray} {w : Width}
    {data : Data} {new els : Elements} (hfits : arr.size + new.size ≤ maxArraySize)
    (hrun : makeRoom c (arr.size + new.size) s = some s')
    (hroom : Roomy s s' c a a' arr arr' t (arr.size + new.size))
    (hread : readData misread s' data w new.size = some new)
    (happ : arr.elements.append new = some els) (k : Nat) :
    appendFrom misread w (k + 1) c data new.size s =
      some (c, s'.put c a' { arr' with elements := els } t) := by
  have hcount : appendCount arr.size new.size = new.size := if_neg (by omega)
  rw [appendFrom]
  simp only [h.aref, h.array, Option.bind_eq_bind, Option.bind_some, hcount, hrun,
    hroom.refers.aref, hread, hroom.refers.array, hroom.elements, happ, Nat.sub_self, if_true,
    hroom.refers.setArray]
  rfl

/-- The list at `c` has taken over the elements `new`. -/
structure Absorbed (s s' : Store) (c a a' : Nat) (arr arr' : Carray) (t' : Pntr) (els : Elements) :
    Prop where
  refers : s'.Refers c a' arr' t'
  keeps : Keeps s s'
  changes : s.Changes s' c a
  elements : arr'.elements = els
  moved : Moved s s' a a' arr arr' els.size

/-- `carray_append` of what the tail starts with, and the new tail, when it all fits. -/
theorem carrayAppend_fits (h : s.Refers c a arr t) {w : Width} {data : Data} (new : Elements)
    {t' : Pntr} (hw : arr.elements.width = w) (hnew : new.width = w) (hpos : 0 < new.size)
    (hfits : arr.size + new.size ≤ maxArraySize) (hread : Reads misread s data w new)
    (hok : s.ElementsOk new) (ht : s.Valid t')
    (hden : s.denote t = prepend (s.items new) (s.denote t')) :
    ∃ s₁ s₂ a' arr' els, carrayAppend misread c data new.size w s = some (c, s₁) ∧
      arefSetTail c t' s₁ = some s₂ ∧ (∀ p, s.Valid p → s₁.resolvePntr p = some (s.target p)) ∧
      arr.elements.append new = some els ∧ Absorbed s s₂ c a a' arr arr' t' els := by
  obtain ⟨els, happ, hwels, hsize, hitems⟩ := Elements.append_of_width new (hw.trans hnew.symm)
  obtain ⟨s', a', arr', hrun, hroom⟩ := makeRoom_of_refers h (arr.size + new.size)
    (by omega) (by omega)
  have h' := hroom.refers
  have hw' : arr'.elements.append new = some els := by rw [hroom.elements, happ]
  have hok' : s'.ElementsOk new := hroom.keeps.elementsOk hok
  have harr : s'.ArrayOk { arr' with elements := els } := by
    apply h'.ok.append hok' hw'
    · exact hsize.trans_le hfits
    · exact hsize.trans_le hroom.need_le
  have hle : arr'.size ≤ ({ arr' with elements := els } : Carray).size := by
    have hsz : arr'.size = arr.elements.size := by rw [Carray.size, hroom.elements]
    exact hsz.trans_le (by simp only [Carray.size, hsize]; omega)
  have hplaced := h'.placed h'.own hle harr h'.valid_tail
  have hk : Keeps s' (s'.put c a' { arr' with elements := els } t') := by
    apply h'.keeps_extend (s'.items new) h'.own harr (hroom.keeps.valid t' ht)
    · rw [hitems, hroom.elements]
    · rw [hroom.keeps.denote t h.valid_tail, hroom.keeps.denote t' ht, hroom.keeps.items hok, hden]
  refine ⟨s'.put c a' { arr' with elements := els } t, s'.put c a' { arr' with elements := els } t',
    a', { arr' with elements := els }, els, ?_, ?_, ?_, happ, ?_⟩
  · rw [carrayAppend, h.aref]
    simp only [Option.bind_eq_bind, Option.bind_some, h.array, hw, h.single, and_self, if_true]
    exact appendFrom_last misread h hfits hrun hroom
      (hread s' (fun b hb => hroom.sources h.array hb)) happ _
  · rw [arefSetTail_of_refers (put_refers (hplaced.wf h'.wf) h'.single), put_put]
  · intro p hp
    rw [hplaced.resolve h'.wf (hroom.keeps.valid p hp), hroom.keeps.target p hp]
  · refine ⟨put_refers hk.wf h'.single, hroom.keeps.trans hk, ?_, rfl, ?_, ?_⟩
    · exact hroom.changes.trans (changes_put (.inl rfl)) (.inl rfl) hroom.moved.place
    · intro m hm
      rw [hsize] at hm
      exact hroom.moved.in_place m hm
    · intro hm
      rw [hsize] at hm
      obtain ⟨h1, h2⟩ := hroom.moved.away hm
      refine ⟨h1, ?_⟩
      rw [put_arrays_of_ne (by have := h.lt_narrays; omega), h2]

/-! The rest in a new array -/

/-- The full array is checked before a new one is made. Either nothing has been added to it, or it
is a string. -/
theorem checkArrayConvert_full (h : s.Refers c a arr t) {new els : Elements} (arr₁ : Carray)
    (harr₁ : arr₁ = { arr with elements := els }) (happ : arr.elements.append new = some els)
    (hw : new.width = arr.elements.width) (hnew : new.size = 0 ∨ arr.elements.width = .byte)
    (hsize : els.size = maxArraySize) (halloc : els.size ≤ arr.alloc) :
    ∃ arr₂, checkArrayConvert c (s.put c a arr₁ t) = some (s.put c a arr₂ (s.target t)) ∧
      s.ArrayOk arr₂ ∧ s.items arr₂.elements = s.items arr.elements ++ s.items new ∧
      arr₂.multiref = false ∧ (arr.elements.width = .byte → arr₂.elements = els) ∧
      ((∀ x ∈ s.items arr.elements, ∃ b, x = .char b) → arr₂.elements.width = .byte) := by
  obtain ⟨els', happ', hwels, hsz, hitems⟩ := Elements.append_of_width new hw.symm
  obtain rfl : els' = els := by simpa [happ] using happ'.symm
  cases hb : arr.elements.width with
  | pntr =>
    -- no new elements
    have hz : new.size = 0 := by
      obtain hz | hz := hnew
      · exact hz
      · rw [hb] at hz
        cases hz
    have hels : els' = arr.elements := by
      cases hl : arr.elements with
      | bytes l =>
        rw [hl] at hb
        cases hb
      | pntrs l =>
        cases new with
        | bytes m =>
          rw [hb] at hw
          cases hw
        | pntrs m =>
          obtain rfl : m = [] := List.eq_nil_of_length_eq_zero hz
          simpa [hl, Elements.append] using happ.symm
    have hnil : s.items new = [] := List.eq_nil_of_length_eq_zero (by rw [length_items, hz])
    obtain rfl : arr₁ = arr := by rw [harr₁, hels]
    obtain ⟨arr₂, hrun, halike, -, hall⟩ := checkArrayConvert_of_refers h
    refine ⟨arr₂, ?_, halike.ok, ?_, halike.single.trans h.single, ?_, ?_⟩
    · rw [h.put_eq_self, hrun]
    · rw [halike.items, hnil, List.append_nil]
    · rintro ⟨⟩
    · exact hall (by rw [Carray.size, ← hels, hsize])
  | byte =>
    have hok : s.ArrayOk arr₁ := by
      subst harr₁
      apply h.ok.append _ happ hsize.le halloc
      intro l hl
      rw [hl, hb] at hw
      cases hw
    have hle : arr.size ≤ arr₁.size := by
      subst harr₁
      exact (by rw [Carray.size, hsz]; omega : arr.size ≤ els'.size)
    have hplaced := h.placed h.own hle hok h.valid_tail
    have hm : arr₁.multiref = false := by
      subst harr₁
      exact h.single
    have hb₁ : arr₁.elements.width = .byte := by
      subst harr₁
      exact hwels.trans hb
    have h₁ := put_refers (hplaced.wf h.wf) hm
    obtain ⟨arr₂, hrun, -, heq, -⟩ := checkArrayConvert_of_refers h₁
    obtain rfl := heq hb₁
    refine ⟨arr₂, ?_, hok, ?_, hm, ?_, fun _ => hb₁⟩
    · rw [hrun, put_put, hplaced.target h.wf h.valid_tail]
    · subst harr₁
      exact hitems s
    · intro _
      subst harr₁
      rfl

/-- The store with a new cell behind `c`, whatever the order of the writes. -/
theorem put_chain {X : Store} {c a : Nat} (hc : c < X.ncells) (ha : a < X.narrays)
    (arr e₀ e₂ : Carray) (t nil : Pntr) :
    ((((X.put c a arr t).allocArray e₀).2.allocCell (.aref X.narrays nil)).2.setNode c
      (.aref a (.obj X.ncells 0))).setArray X.narrays e₂ =
      (X.put X.ncells X.narrays e₂ nil).put c a arr (.obj X.ncells 0) := by
  have h1 : max X.ncells (c + 1) = X.ncells := max_eq_left hc
  have h2 : max X.narrays (a + 1) = X.narrays := max_eq_left ha
  have h3 : max (X.ncells + 1) (c + 1) = X.ncells + 1 := max_eq_left (by omega)
  have h4 : max (X.narrays + 1) (a + 1) = X.narrays + 1 := max_eq_left (by omega)
  have h5 : max X.ncells (X.ncells + 1) = X.ncells + 1 := max_eq_right (by omega)
  have h6 : max X.narrays (X.narrays + 1) = X.narrays + 1 := max_eq_right (by omega)
  simp only [put, allocArray, Store.allocCell, Store.setNode, Store.setArray, h1, h2, h3, h4, h5, h6,
    Function.update_idem]
  congr 1
  · rw [Function.update_comm hc.ne, Function.update_idem]
  · rw [Function.update_comm ha.ne]

/-- A turn of the loop that needs no room. -/
theorem appendFrom_roomy {w : Width} {data : Data} {new els : Elements}
    (ha : s.aref c = some (a, t))
    (harr : s.arrays a = arr) (hfits : arr.size + new.size ≤ maxArraySize)
    (halloc : arr.size + new.size ≤ arr.alloc)
    (hread : readData misread s data w new.size = some new)
    (happ : arr.elements.append new = some els) (k : Nat) :
    appendFrom misread w (k + 1) c data new.size s =
      some (c, s.setArray a { arr with elements := els }) := by
  have hcount : appendCount arr.size new.size = new.size := if_neg (by omega)
  have hroom : makeRoom c (arr.size + new.size) s = some s := by
    simp only [makeRoom, ha, harr, Option.bind_eq_bind, Option.bind_some]
    rw [if_neg (by omega)]
    rfl
  rw [appendFrom]
  simp only [ha, harr, Option.bind_eq_bind, Option.bind_some, hcount, hroom, hread, happ,
    Nat.sub_self, if_true]
  rfl

theorem carrayNew_of_pos {w : Width} {n : Nat} (hn : 0 < n) (hle : n ≤ maxArraySize) :
    carrayNew w n s = s.allocArray ⟨sizereq n w, n, false, 0, .empty w⟩ := by
  rw [carrayNew, if_neg (by omega), if_neg (by omega)]

theorem Elements.size_empty (w : Width) : (Elements.empty w).size = 0 := by
  cases w <;> rfl

theorem Elements.empty_append {new : Elements} :
    (Elements.empty new.width).append new = some new := by
  cases new <;> rfl

/-- What is read in the second turn of `carray_append`: the full array may have got elements, or
may have been converted if it is no string. -/
def ReadsRest (s : Store) (a : Nat) (els : Elements) (data : Data) (w : Width) (new : Elements) :
    Prop :=
  ∀ s' : Store, (∀ b < s.narrays, b ≠ a → (s'.arrays b).elements = (s.arrays b).elements) →
    (w = .byte → (s'.arrays a).elements = (s.arrays a).elements ∨ (s'.arrays a).elements = els) →
    readData misread s' data w new.size = some new

/-- The two turns when the array gets full. -/
theorem appendFrom_split (h : s.Refers c a arr t) {s' : Store} {a' : Nat} {arr' arr₂ : Carray}
    {w : Width} {data : Data} {new₁ new₂ els : Elements}
    (hfull : arr.size + new₁.size = maxArraySize) (hpos : 0 < new₂.size)
    (hle : new₂.size ≤ maxArraySize) (hw₂ : new₂.width = w)
    (hrun : makeRoom c maxArraySize s = some s')
    (hroom : Roomy s s' c a a' arr arr' t maxArraySize)
    (hread₁ : readData misread s' data w new₁.size = some new₁)
    (happ : arr.elements.append new₁ = some els)
    (hcheck : checkArrayConvert c (s'.put c a' { arr' with elements := els } t) =
      some (s'.put c a' arr₂ (s'.target t)))
    (hwarr : w = .byte → arr₂.elements = els)
    (hread₂ : ReadsRest misread s a els { data with offset := data.offset + new₁.size } w new₂)
    (k : Nat) :
    appendFrom misread w (k + 2) c data (new₁.size + new₂.size) s =
      some (s'.ncells, (s'.put s'.ncells s'.narrays
        ⟨sizereq new₂.size w, new₂.size, false, 0, new₂⟩ s'.globnilpntr).put c a' arr₂
          (.obj s'.ncells 0)) := by
  have h' := hroom.refers
  have hcount : appendCount arr.size (new₁.size + new₂.size) = new₁.size := by
    rw [appendCount, if_pos (by omega)]
    omega
  have hrest : new₁.size + new₂.size - new₁.size = new₂.size := by omega
  have hnar : (s'.put c a' arr₂ (s'.target t)).narrays = s'.narrays := max_eq_left h'.lt_narrays
  have hnc : (s'.put c a' arr₂ (s'.target t)).ncells = s'.ncells := max_eq_left h'.lt
  -- the store in which the second turn starts
  let e₀ : Carray := ⟨sizereq new₂.size w, new₂.size, false, 0, .empty w⟩
  let T := ((s'.put c a' arr₂ (s'.target t)).allocArray e₀).2
  let T' := (T.allocCell (.aref s'.narrays s'.globnilpntr)).2.setNode c (.aref a' (.obj s'.ncells 0))
  have hne : c ≠ s'.ncells := h'.lt.ne
  have hset : arefSetTail c (.obj s'.ncells 0) (T.allocCell (.aref s'.narrays s'.globnilpntr)).2 =
      some T' := by
    have hn : (T.allocCell (.aref s'.narrays s'.globnilpntr)).2.aref c =
        some (a', s'.target t) := by
      simp only [Store.aref, Store.allocCell, T, allocArray, hnc, Function.update_of_ne hne,
        put_nodes_self]
    simp only [arefSetTail, hn, Option.bind_eq_bind, Option.bind_some]
    rfl
  have ha : T'.aref s'.ncells = some (s'.narrays, s'.globnilpntr) := by
    simp only [Store.aref, T', Store.setNode, Store.allocCell, T, allocArray, hnc,
      Function.update_of_ne hne.symm, Function.update_self]
  have harr : T'.arrays s'.narrays = e₀ := by
    simp only [T', Store.setNode, Store.allocCell, T, allocArray, hnar, Function.update_self]
  have hold : ∀ b, b ≠ a' → b < s'.narrays → T'.arrays b = s'.arrays b := by
    intro b hb hlt
    simp only [T', Store.setNode, Store.allocCell, T, allocArray, hnar, Function.update_of_ne hlt.ne,
      put_arrays_of_ne hb]
  have hself : T'.arrays a' = arr₂ := by
    simp only [T', Store.setNode, Store.allocCell, T, allocArray, hnar,
      Function.update_of_ne h'.lt_narrays.ne, put_arrays_self]
  have hread : readData misread T' { data with offset := data.offset + new₁.size } w new₂.size =
      some new₂ := by
    apply hread₂
    · intro b hb hba
      have hba' : b ≠ a' := by
        have := hroom.moved.place
        omega
      rw [hold b hba' (hb.trans_le hroom.changes.narrays_le), hroom.changes.arrays b hb hba]
    · intro hbyte
      by_cases haa : a = a'
      · subst haa
        exact .inr (by rw [hself, hwarr hbyte])
      · left
        rw [hold a haa (h.lt_narrays.trans_le hroom.changes.narrays_le)]
        exact hroom.sources h.array h.lt_narrays
  have happ₂ : e₀.elements.append new₂ = some new₂ := by
    subst hw₂
    exact Elements.empty_append
  have hsecond := appendFrom_roomy misread ha harr
    (by simpa [e₀, Carray.size, Elements.size_empty] using hle)
    (by simp [e₀, Carray.size, Elements.size_empty]) hread happ₂ k
  rw [appendFrom]
  simp only [h.aref, h.array, Option.bind_eq_bind, Option.bind_some, hcount, hfull, hrun, h'.aref,
    hread₁, h'.array, hroom.elements, happ, hrest, if_neg hpos.ne', h'.setArray, hcheck,
    carrayNew_of_pos hpos hle]
  have hb : ((s'.put c a' arr₂ (s'.target t)).allocArray e₀).1 = s'.narrays := hnar
  have hr : (T.allocCell (.aref s'.narrays s'.globnilpntr)).1 = s'.ncells := hnc
  have hg : T.globnilpntr = s'.globnilpntr := rfl
  simp only [e₀, T] at hb hr hg hset hsecond
  rw [hb, hg, hr, hset]
  simp only [Option.bind_some]
  rw [hsecond]
  simp only [T', T, e₀]
  rw [put_chain h'.lt h'.lt_narrays]

/-- The list at `c` is full and goes on in the new cell `r`. -/
structure Chained (s s' : Store) (c a r b : Nat) (arr arr₁ arr₂ : Carray) (t' : Pntr)
    (new : Elements) : Prop where
  refers : s'.Refers r b arr₂ t'
  keeps : Keeps s s'
  changes : s.Changes s' c a
  new_cell : s.ncells ≤ r
  new_array : s.narrays ≤ b
  elements : arr₂.elements = new
  head : ∃ a₁ t₁, s'.Refers c a₁ arr₁ t₁ ∧ (a₁ = a ∨ s.narrays ≤ a₁)
  size_head : arr₁.size = maxArraySize
  width_head : arr.elements.width = .byte ∨ (∀ x ∈ s.items arr.elements, ∃ b, x = .char b) →
    arr₁.elements.width = .byte

/-- `carray_append` of what the tail starts with, and the new tail, when the array gets full. -/
theorem carrayAppend_splits (h : s.Refers c a arr t) {w : Width} (data : Data)
    (new₁ new₂ : Elements) {t' : Pntr} (hw : arr.elements.width = w) (hw₁ : new₁.width = w)
    (hw₂ : new₂.width = w) (hfull : arr.size + new₁.size = maxArraySize) (hpos : 0 < new₂.size)
    (hle : new₂.size ≤ maxArraySize) (hnew : new₁.size = 0 ∨ w = .byte)
    (hread₁ : Reads misread s data w new₁)
    (hread₂ : ∀ els, arr.elements.append new₁ = some els →
      ReadsRest misread s a els { data with offset := data.offset + new₁.size } w new₂)
    (hok : s.ElementsOk new₂) (ht : s.Valid t')
    (hden : s.denote t = prepend (s.items new₁) (prepend (s.items new₂) (s.denote t'))) :
    ∃ s₁ s₂ r b arr₁ arr₂, carrayAppend misread c data (new₁.size + new₂.size) w s = some (r, s₁) ∧
      arefSetTail r t' s₁ = some s₂ ∧ (∀ p, s.Valid p → s₁.resolvePntr p = some (s.target p)) ∧
      Chained s s₂ c a r b arr arr₁ arr₂ t' new₂ := by
  obtain ⟨els, happ, hwels, hsize, hitems⟩ := Elements.append_of_width new₁ (hw.trans hw₁.symm)
  have hsize' : els.size = maxArraySize := hsize.trans hfull
  obtain ⟨X, a', arr', hrun, hroom⟩ := makeRoom_of_refers h maxArraySize
    (by omega) (by decide)
  have h' := hroom.refers
  have hok₁ : s.ElementsOk new₁ := by
    intro l hl e he
    obtain hz | hz := hnew
    · rw [hl] at hz
      obtain rfl : l = [] := List.eq_nil_of_length_eq_zero hz
      cases he
    · rw [hl, hz] at hw₁
      cases hw₁
  obtain ⟨arr₁, hcheck, harr₁, hit₁, hm₁, hbyte, hchars⟩ := checkArrayConvert_full h'
    { arr' with elements := els } rfl (by rw [hroom.elements, happ])
    (by rw [hroom.elements, hw₁, hw]) (by rw [hroom.elements, hw]; exact hnew) hsize'
    (hsize'.trans_le hroom.need_le)
  rw [hroom.elements] at hbyte hit₁ hchars
  have hsplit := appendFrom_split misread h hfull hpos hle hw₂ hrun hroom
    (hread₁ X (fun b hb => hroom.sources h.array hb)) happ hcheck
    (fun hb => hbyte (hw.trans hb)) (hread₂ els happ) (new₁.size + new₂.size)
  let e : Carray := ⟨sizereq new₂.size w, new₂.size, false, 0, new₂⟩
  have hsz₁ : arr₁.size = maxArraySize := by
    have hlen := congrArg List.length hit₁
    simp only [length_items, List.length_append] at hlen
    exact hlen.trans hfull
  have hchain : X.Chains c a' arr' arr₁ e t := by
    refine ⟨h', hsz₁ ▸ h'.ok.size_le, harr₁, hm₁, hpos, ?_, rfl⟩
    exact ⟨hle, hpos, le_rfl, hroom.keeps.elementsOk hok, fun _ _ => Nat.zero_le _,
      fun l _ q hq => by simp [e] at hq⟩
  have hnil := h'.wf.nil
  have ht' := hroom.keeps.valid t' ht
  refine ⟨X.chain c a' arr₁ e X.globnilpntr, X.chain c a' arr₁ e t', X.ncells, X.narrays, arr₁, e,
    ?_, hchain.setTail hnil t', ?_, ?_⟩
  · rw [carrayAppend, h.aref]
    simp only [Option.bind_eq_bind, Option.bind_some, h.array, hw, h.single, and_self, if_true]
    exact hsplit
  · intro q hq
    rw [hchain.resolve hnil (hroom.keeps.valid q hq), hroom.keeps.target q hq]
  · refine ⟨hchain.refers_new ht', ?_, ?_, hroom.changes.ncells_le, hroom.changes.narrays_le, rfl,
      ⟨a', _, hchain.refers_head ht', hroom.moved.place⟩, hsz₁, ?_⟩
    · apply hroom.keeps.trans (hchain.keeps ht' (X.items new₁) _ _)
      · rw [hit₁, hroom.elements]
      · rw [hroom.keeps.denote t h.valid_tail, hden, hroom.keeps.items hok₁, hroom.keeps.denote t' ht]
        exact congrArg _ (congrArg₂ _ (hroom.keeps.items hok).symm rfl)
    · exact hroom.changes.trans changes_chain (.inl rfl) hroom.moved.place
    · rintro (hb | hall)
      · rw [hbyte hb, hwels, hb]
      · apply hchars
        rwa [hroom.keeps.items h.ok.elements]

end

end Lists
end Runtime
end NReduce
