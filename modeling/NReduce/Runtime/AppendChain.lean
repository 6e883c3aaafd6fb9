import NReduce.Runtime.Append

/-!
# NReduce.Runtime.AppendChain

`carray_append` of a block of memory of any size, and the lists that `pointers_to_list` and
`binary_data_to_list` make with it. The loop cuts the block in pieces, one for each array that it
fills: `pieces`. It moves `data` by a number of bytes that is the number of elements of the piece,
so a piece of pointers that is not the first one is read from a wrong place.

`Chain` is the list of arrays that is left. `goOn_chain` says what is in it, whatever is read, and
`append_keeps_iff` when this is what was given.
-/

namespace NReduce
namespace Runtime
namespace Lists

open Stream'

namespace Store

/-- What changes that may alter a list leave as it is. -/
structure Preserves (s s' : Store) : Prop where
  wf : s'.Wf
  valid : ∀ p, s.Valid p → s'.Valid p
  target : ∀ p, s.Valid p → s'.target p = s.target p

variable {s s' : Store} {c a : Nat} {arr : Carray} {t : Pntr}

theorem Preserves.refl (hw : s.Wf) : Preserves s s := ⟨hw, fun _ h => h, fun _ _ => rfl⟩

theorem Preserves.trans {s₁ s₂ s₃ : Store} (h : Preserves s₁ s₂) (h' : Preserves s₂ s₃) : Preserves s₁ s₃ where
  wf := h'.wf
  valid p hp := h'.valid p (h.valid p hp)
  target p hp := (h'.target p (h.valid p hp)).trans (h.target p hp)

theorem Keeps.preserves (h : Keeps s s') : Preserves s s' := ⟨h.wf, h.valid, h.target⟩

theorem Placed.preserves (hp : s.Placed c a arr t) (hw : s.Wf) : Preserves s (s.put c a arr t) :=
  ⟨hp.wf hw, fun _ => hp.valid, fun _ => hp.target hw⟩

theorem Preserves.elementsOk (h : Preserves s s') {els : Elements} (hok : s.ElementsOk els) :
    s'.ElementsOk els :=
  fun l hl e he => h.valid e (hok l hl e he)

theorem Preserves.items (h : Preserves s s') {els : Elements} (hok : s.ElementsOk els) :
    s'.items els = s.items els := by
  cases els with
  | bytes l => rfl
  | pntrs l =>
    refine List.map_congr_left (fun e he => ?_)
    rw [item, item, h.target e (hok l rfl e he)]

/-- Arrays from the one of cell `c` to that of cell `r`, each in the tail of the one before it; the
items in them, in order. -/
inductive Chain (s : Store) : Nat → Nat → List Item → Prop where
  | last {r a : Nat} {t : Pntr} : s.aref r = some (a, t) → (s.arrays a).size ≤ maxArraySize →
      Chain s r r (s.items (s.arrays a).elements)
  | link {c a c' r : Nat} {xs : List Item} : c ≠ r → s.aref c = some (a, .obj c' 0) →
      (s.arrays a).size ≤ maxArraySize → s.Valid (.obj c' 0) → Chain s c' r xs →
      Chain s c r (s.items (s.arrays a).elements ++ xs)

/-- A chain holds one list. -/
theorem Chain.unique {r : Nat} {xs ys : List Item} (h : s.Chain c r xs) (h' : s.Chain c r ys) :
    xs = ys := by
  induction h generalizing ys with
  | last ha _ =>
    cases h' with
    | last ha' _ =>
      rw [ha] at ha'
      cases ha'
      rfl
    | link hne _ _ _ _ => exact absurd rfl hne
  | link hne ha _ _ _ ih =>
    cases h' with
    | last _ _ => exact absurd rfl hne
    | link _ ha' _ _ hrest =>
      rw [ha] at ha'
      cases ha'
      rw [ih hrest]

/-- What a chain with a tail denotes. -/
theorem Chain.denote {r : Nat} {xs : List Item} (h : s.Chain c r xs) (hpos : s.Valid (.obj c 0))
    {b : Nat} (hr : s.aref r = some (b, t)) :
    s.denote (.obj c 0) = prepend xs (s.denote t) := by
  have haref : ∀ {d a : Nat} {u : Pntr}, s.aref d = some (a, u) → s.nodes d = .aref a u := by
    intro d a u hd
    unfold Store.aref at hd
    split at hd
    · cases hd
      assumption
    · cases hd
  have hsize : ∀ {d a : Nat} {u : Pntr}, s.nodes d = .aref a u → s.Valid (.obj d 0) →
      0 < (s.arrays a).size := by
    intro d a u hd hv
    have h2 := hv.2
    simpa only [hd] using h2
  induction h with
  | last ha _ =>
    rw [hr] at ha
    cases ha
    have hn := haref hr
    rw [denote_aref hn (hsize hn hpos), List.drop_zero]
  | link _ ha _ hv _ ih =>
    have hn := haref ha
    rw [denote_aref hn (hsize hn hpos), List.drop_zero, ih hv hr, prepend_append]

end Store

open Store

/-! ## The loop -/

/-- The pieces that a block is cut into, each with the number of its first element: the first one
goes to an array that has `size` elements. -/
def pieces : Nat → Nat → Nat → Nat → List (Nat × Nat)
  | 0, _, _, _ => []
  | turns + 1, size, totalcount, offset =>
    let count := appendCount size totalcount
    (offset, count) ::
      if totalcount - count = 0 then [] else pieces turns 0 (totalcount - count) (offset + count)

section

variable (misread : Store → Data → Nat → Pntr) (w : Width) {s : Store} {c a : Nat} {arr : Carray}
  {t : Pntr}

/-- The loop of `carray_append` from the test of `totalcount` on. -/
def goOn (k c : Nat) (data : Data) (totalcount : Nat) (s : Store) : Option (Nat × Store) :=
  if totalcount = 0 then some (c, s)
  else do
    let s ← checkArrayConvert c s
    let (b, s) := carrayNew w totalcount s
    let (r, s) := s.allocCell (.aref b s.globnilpntr)
    let s ← arefSetTail c (.obj r 0) s
    appendFrom misread w k r data totalcount s

theorem makeRoom_any (h : s.Refers c a arr t) {need : Nat} (hneed : arr.size ≤ need) :
    ∃ s' a' arr', makeRoom c need s = some s' ∧ Roomy s s' c a a' arr arr' t need := by
  rcases Nat.eq_zero_or_pos need with rfl | hpos
  · have hr : reserve arr.nbytes arr.elements.width arr.alloc 0 = some arr.alloc :=
      reserve_of_le (Nat.zero_le _)
    refine ⟨s, a, arr, ?_, h, Keeps.refl h.wf, Changes.refl s c a, rfl, rfl, Nat.zero_le _, ?_, ?_⟩
    · rw [makeRoom_in_place h hr, h.put_eq_self]
    · intro m hm
      rw [hr] at hm
      cases hm
      exact ⟨rfl, rfl, rfl⟩
    · intro hn
      rw [hr] at hn
      cases hn
  · exact makeRoom_of_refers h need hneed hpos

theorem appendCount_le {size totalcount : Nat} (h : size ≤ maxArraySize) :
    size + appendCount size totalcount ≤ maxArraySize := by
  unfold appendCount
  split <;> omega

/-- The first turn of the loop copies a piece to the array that is there. -/
theorem appendFrom_copy (h : s.Refers c a arr t) (hw : arr.elements.width = w) {data : Data}
    {new : Elements} (hnew : new.width = w) {totalcount : Nat}
    (hcount : appendCount arr.size totalcount = new.size)
    (hread : ∀ s', readData misread s' data w new.size = some new) (hok : s.ElementsOk new)
    (k : Nat) : ∃ s₁ a₁ arr₁,
      appendFrom misread w (k + 1) c data totalcount s =
        goOn misread w k c { data with offset := data.offset + new.size } (totalcount - new.size)
          s₁ ∧
      s₁.Refers c a₁ arr₁ t ∧
      s₁.items arr₁.elements = s.items arr.elements ++ s.items new ∧
      Preserves s s₁ ∧ s.Changes s₁ c a ∧ (a₁ = a ∨ s.narrays ≤ a₁) := by
  have hfits : arr.size + new.size ≤ maxArraySize := hcount ▸ appendCount_le h.ok.size_le
  obtain ⟨els, happ, -, hsize, hitems⟩ := Elements.append_of_width new (hw.trans hnew.symm)
  obtain ⟨s', a', arr', hrun, hroom⟩ := makeRoom_any h (Nat.le_add_right arr.size new.size)
  have h' := hroom.refers
  have happ' : arr'.elements.append new = some els := by rw [hroom.elements, happ]
  have harr : s'.ArrayOk { arr' with elements := els } :=
    h'.ok.append (hroom.keeps.elementsOk hok) happ' (hsize.trans_le hfits)
      (hsize.trans_le hroom.need_le)
  have hle : arr'.size ≤ ({ arr' with elements := els } : Carray).size := by
    have hsz : arr'.size = arr.elements.size := by rw [Carray.size, hroom.elements]
    exact hsz.trans_le (by simp only [Carray.size, hsize]; omega)
  have hplaced := h'.placed h'.own hle harr h'.valid_tail
  have hpres := hroom.keeps.preserves.trans (hplaced.preserves h'.wf)
  refine ⟨s'.put c a' { arr' with elements := els } t, a', { arr' with elements := els }, ?_,
    put_refers (hplaced.wf h'.wf) h'.single, ?_, hpres, hroom.changes.trans (changes_put (.inl rfl)) (.inl rfl) hroom.moved.place, hroom.moved.place⟩
  · rw [appendFrom]
    simp only [h.aref, h.array, Option.bind_eq_bind, Option.bind_some, hcount, hrun, h'.aref,
      hread, h'.array, happ', h'.setArray]
    rfl
  · rw [hitems, hpres.items h.ok.elements, hpres.items hok]

/-- The array that is made for the rest of the block has room for the next piece. -/
theorem carrayNew_piece {totalcount : Nat} (hpos : 0 < totalcount) (s : Store) :
    carrayNew w totalcount s = s.allocArray ⟨sizereq (appendCount 0 totalcount) w,
      appendCount 0 totalcount, false, 0, .empty w⟩ := by
  unfold carrayNew appendCount
  by_cases hle : maxArraySize < totalcount
  · simp only [if_pos hle, Nat.zero_add, Nat.sub_zero]
  · simp only [if_neg hle, if_neg hpos.ne', Nat.zero_add]

/-- A turn of the loop with an array that has just been made. -/
theorem appendFrom_fresh {b nbytes : Nat} {nil : Pntr} {data : Data} {new : Elements}
    {totalcount : Nat} (hc : s.aref c = some (b, nil))
    (harr : s.arrays b = ⟨nbytes, new.size, false, 0, .empty w⟩) (hnew : new.width = w)
    (hcount : appendCount 0 totalcount = new.size)
    (hread : readData misread s data w new.size = some new) (k : Nat) :
    appendFrom misread w (k + 1) c data totalcount s =
      goOn misread w k c { data with offset := data.offset + new.size } (totalcount - new.size)
        (s.setArray b ⟨nbytes, new.size, false, 0, new⟩) := by
  subst hnew
  have hsize : (s.arrays b).size = 0 := by
    rw [harr, Carray.size, Elements.size_empty]
  have hroom : makeRoom c new.size s = some s := by
    have halloc : (s.arrays b).alloc = new.size := by rw [harr]
    simp only [makeRoom, hc, Option.bind_eq_bind, Option.bind_some, halloc,
      if_neg (Nat.lt_irrefl _)]
    rfl
  rw [appendFrom]
  simp only [hc, hsize, Option.bind_eq_bind, Option.bind_some, hcount, Nat.zero_add, hroom, hread]
  simp only [harr, Elements.empty_append, Option.bind_some]
  rfl

/-- The loop makes a new array behind the one that is full, and copies the next piece to it. -/
theorem goOn_turn (h : s.Refers c a arr t) {data : Data} {new : Elements} (hnew : new.width = w)
    {totalcount : Nat} (hpos : 0 < totalcount) (hcount : appendCount 0 totalcount = new.size)
    (hread : ∀ s', readData misread s' data w new.size = some new) (hok : s.ElementsOk new)
    (k : Nat) : ∃ s₁ arr₁ e,
      goOn misread w (k + 1) c data totalcount s =
        goOn misread w k s.ncells { data with offset := data.offset + new.size }
          (totalcount - new.size) s₁ ∧
      s₁.Refers s.ncells s.narrays e s.globnilpntr ∧ e.elements = new ∧
      s₁.Refers c a arr₁ (.obj s.ncells 0) ∧ s.items arr₁.elements = s.items arr.elements ∧
      s.ArrayOk arr₁ ∧ Preserves s s₁ ∧ s.Changes s₁ c a := by
  have hlt : 0 < new.size := by
    have hmax : 0 < maxArraySize := by decide
    rw [← hcount]
    unfold appendCount
    split <;> omega
  have hle : new.size ≤ maxArraySize := by
    have hle : 0 + appendCount 0 totalcount ≤ maxArraySize := appendCount_le (Nat.zero_le _)
    rwa [Nat.zero_add, hcount] at hle
  obtain ⟨arr₂, hcheck, halike, hbyte, -⟩ := checkArrayConvert_of_refers h
  let e₀ : Carray := ⟨sizereq new.size w, new.size, false, 0, .empty w⟩
  let e : Carray := { e₀ with elements := new }
  have hchain : s.Chains c a arr arr₂ e t := by
    refine ⟨h, halike.size.ge, halike.ok, halike.single.trans h.single, hlt, ?_, rfl⟩
    exact ⟨hle, hlt, le_rfl, hok, fun _ _ => Nat.zero_le _, fun l _ q hq => by simp [e, e₀] at hq⟩
  have hnil := h.wf.nil
  have hpres : Preserves s (s.chain c a arr₂ e s.globnilpntr) :=
    ((hchain.placed_new hnil).preserves h.wf).trans
      ((hchain.placed hnil).preserves (hchain.keeps_new hnil).wf)
  refine ⟨s.chain c a arr₂ e s.globnilpntr, arr₂, e, ?_, hchain.refers_new hnil, rfl,
    hchain.refers_head hnil, halike.items, halike.ok, hpres, changes_chain⟩
  rw [goOn, if_neg hpos.ne', hcheck]
  simp only [Option.bind_eq_bind, Option.bind_some, carrayNew_piece w hpos, hcount]
  have hnar : (s.put c a arr₂ (s.target t)).narrays = s.narrays := max_eq_left h.lt_narrays
  have hnc : (s.put c a arr₂ (s.target t)).ncells = s.ncells := max_eq_left h.lt
  let X := ((s.put c a arr₂ (s.target t)).allocArray e₀).2
  let T := (X.allocCell (.aref s.narrays s.globnilpntr)).2
  let T' := T.setNode c (.aref a (.obj s.ncells 0))
  have hne : c ≠ s.ncells := h.lt.ne
  have hset : arefSetTail c (.obj s.ncells 0) T = some T' := by
    have hn : T.aref c = some (a, s.target t) := by
      simp only [Store.aref, Store.allocCell, T, X, allocArray, hnc, Function.update_of_ne hne,
        put_nodes_self]
    simp only [arefSetTail, hn, Option.bind_eq_bind, Option.bind_some]
    rfl
  have hr : T'.aref s.ncells = some (s.narrays, s.globnilpntr) := by
    simp only [Store.aref, T', Store.setNode, Store.allocCell, T, X, allocArray, hnc,
      Function.update_of_ne hne.symm, Function.update_self]
  have harr : T'.arrays s.narrays = e₀ := by
    simp only [T', Store.setNode, Store.allocCell, T, X, allocArray, hnar, Function.update_self]
  have hb : ((s.put c a arr₂ (s.target t)).allocArray e₀).1 = s.narrays := hnar
  have hcell : (X.allocCell (.aref s.narrays s.globnilpntr)).1 = s.ncells := hnc
  have hglob : X.globnilpntr = s.globnilpntr := rfl
  have hfinal : T'.setArray s.narrays e = s.chain c a arr₂ e s.globnilpntr :=
    put_chain h.lt h.lt_narrays arr₂ e₀ e (s.target t) s.globnilpntr
  have hfresh := appendFrom_fresh misread w hr harr hnew hcount (hread T') k
  rw [show (⟨sizereq new.size w, new.size, false, 0, new⟩ : Carray) = e from rfl, hfinal] at hfresh
  simp only [X, T, e₀] at hb hcell hglob hset
  rw [hb, hglob, hcell, hset]
  exact hfresh

/-- What is read for a piece, whatever the store is. -/
structure ReadsPiece (s : Store) (src : Source) (got : Nat × Nat → Elements) (p : Nat × Nat) :
    Prop where
  read : ∀ s', readData misread s' ⟨src, p.1⟩ w p.2 = some (got p)
  width : (got p).width = w
  size : (got p).size = p.2
  ok : s.ElementsOk (got p)

variable {misread w}

theorem ReadsPiece.mono {s' : Store} {src : Source} {got : Nat × Nat → Elements} {p : Nat × Nat}
    (h : ReadsPiece misread w s src got p) (hs : Preserves s s') :
    ReadsPiece misread w s' src got p :=
  ⟨h.read, h.width, h.size, hs.elementsOk h.ok⟩

/-- The pieces that are left when the loop comes to the test of `totalcount`. -/
def piecesLeft (k totalcount offset : Nat) : List (Nat × Nat) :=
  if totalcount = 0 then [] else pieces k 0 totalcount offset

theorem pieces_succ (k size totalcount offset : Nat) : pieces (k + 1) size totalcount offset =
    (offset, appendCount size totalcount) ::
      piecesLeft k (totalcount - appendCount size totalcount)
        (offset + appendCount size totalcount) := rfl

theorem appendCount_pos {totalcount : Nat} (h : 0 < totalcount) : 0 < appendCount 0 totalcount := by
  have hmax : 0 < maxArraySize := by decide
  unfold appendCount
  split <;> omega

/-- The items of the pieces -/
def gotItems (s : Store) (got : Nat × Nat → Elements) (l : List (Nat × Nat)) : List Item :=
  l.flatMap (fun p => s.items (got p))

theorem gotItems_congr {s' : Store} {src : Source} {got : Nat × Nat → Elements}
    {l : List (Nat × Nat)} (h : ∀ p ∈ l, ReadsPiece misread w s src got p) (hs : Preserves s s') :
    gotItems s' got l = gotItems s got l := by
  unfold gotItems
  induction l with
  | nil => rfl
  | cons p l ih =>
    rw [List.flatMap_cons, List.flatMap_cons, hs.items (h p (List.mem_cons_self ..)).ok,
      ih (fun q hq => h q (List.mem_cons_of_mem _ hq))]

/-- What the loop leaves: the chain, and nothing else is touched. -/
structure Appended (s s' : Store) (c a r : Nat) (xs : List Item) : Prop where
  chain : s'.Chain c r xs
  preserves : Preserves s s'
  changes : s.Changes s' c a
  refcell : r = c ∨ s.ncells ≤ r
  refers : ∃ b e t', s'.Refers r b e t'

/-- The loop ends, and what it has read is in the chain, in order. -/
theorem goOn_chain {src : Source} {got : Nat × Nat → Elements} (k : Nat) :
    ∀ {s : Store} {c a : Nat} {arr : Carray} {t : Pntr} {totalcount offset : Nat},
      s.Refers c a arr t → totalcount ≤ k →
      (∀ p ∈ piecesLeft k totalcount offset, ReadsPiece misread w s src got p) →
      ∃ r s', goOn misread w k c ⟨src, offset⟩ totalcount s = some (r, s') ∧
        Appended s s' c a r
          (s.items arr.elements ++ gotItems s got (piecesLeft k totalcount offset)) := by
  have hdone : ∀ {k : Nat} {s : Store} {c a : Nat} {arr : Carray} {t : Pntr} {offset : Nat},
      s.Refers c a arr t → ∃ r s', goOn misread w k c ⟨src, offset⟩ 0 s = some (r, s') ∧
        Appended s s' c a r (s.items arr.elements ++ gotItems s got (piecesLeft k 0 offset)) := by
    intro k s c a arr t offset h
    refine ⟨c, s, rfl, ?_, Preserves.refl h.wf, Changes.refl s c a, .inl rfl, a, arr, t, h⟩
    have hlast := Chain.last (s := s) h.aref (by rw [h.array]; exact h.ok.size_le)
    rw [h.array] at hlast
    rw [piecesLeft, if_pos rfl, gotItems, List.flatMap_nil, List.append_nil]
    exact hlast
  induction k with
  | zero =>
    intro s c a arr t totalcount offset h hle _
    obtain rfl : totalcount = 0 := Nat.le_zero.mp hle
    exact hdone h
  | succ k ih =>
    intro s c a arr t totalcount offset h hle hreads
    rcases Nat.eq_zero_or_pos totalcount with rfl | hpos
    · exact hdone h
    let n := appendCount 0 totalcount
    have hleft : piecesLeft (k + 1) totalcount offset =
        (offset, n) :: piecesLeft k (totalcount - n) (offset + n) := if_neg hpos.ne'
    rw [hleft] at hreads ⊢
    have hfirst := hreads _ (List.mem_cons_self ..)
    have hn : 0 < n := appendCount_pos hpos
    obtain ⟨s₁, arr₁, e, hturn, hnew, he, hold, hitems, hok, hpres, hch⟩ :=
      goOn_turn misread w h hfirst.width hpos hfirst.size.symm
        (by rw [hfirst.size]; exact hfirst.read) hfirst.ok k
    rw [hfirst.size] at hturn
    obtain ⟨r, s', hrun, happ⟩ := ih hnew (by omega) (fun p hp =>
      (hreads p (List.mem_cons_of_mem _ hp)).mono hpres)
    have hc₁ : c < s₁.ncells := h.lt.trans_le hch.ncells_le
    have ha₁ : a < s₁.narrays := h.lt_narrays.trans_le hch.narrays_le
    have hca : s'.aref c = some (a, .obj s.ncells 0) := by
      rw [Store.aref, happ.changes.nodes c hc₁ h.lt.ne]
      exact hold.aref
    have harr : s'.arrays a = arr₁ := by
      rw [happ.changes.arrays a ha₁ h.lt_narrays.ne, hold.array]
    have hitems' : s'.items arr₁.elements = s.items arr.elements := by
      rw [(hpres.trans happ.preserves).items hok.elements, hitems]
    have hne : c ≠ r := by
      have hlt := h.lt
      rcases happ.refcell with rfl | hr
      · exact hlt.ne
      · omega
    refine ⟨r, s', hturn.trans hrun, ?_, hpres.trans happ.preserves,
      hch.trans happ.changes (.inr le_rfl) (.inr le_rfl), ?_, happ.refers⟩
    · have hlink := Chain.link hne hca (by rw [harr]; exact hok.size_le)
        (happ.preserves.valid _ hold.valid_tail) happ.chain
      rw [harr, hitems', he, hpres.items hfirst.ok,
        gotItems_congr (fun p hp => hreads p (List.mem_cons_of_mem _ hp)) hpres] at hlink
      exact hlink
    · rcases happ.refcell with rfl | hr
      · exact .inr le_rfl
      · exact .inr (hch.ncells_le.trans hr)

/-- `carray_append`, whatever it reads. -/
theorem carrayAppend_chain {src : Source} {got : Nat × Nat → Elements} (h : s.Refers c a arr t)
    (hw : arr.elements.width = w) {totalcount : Nat}
    (hreads : ∀ p ∈ pieces (totalcount + 2) arr.size totalcount 0, ReadsPiece misread w s src got p) :
    ∃ r s', carrayAppend misread c ⟨src, 0⟩ totalcount w s = some (r, s') ∧
      Appended s s' c a r
        (s.items arr.elements ++ gotItems s got (pieces (totalcount + 2) arr.size totalcount 0)) ∧
      (0 < arr.size + totalcount → s'.Valid (.obj c 0)) := by
  rw [pieces_succ] at hreads ⊢
  have hfirst := hreads _ (List.mem_cons_self ..)
  obtain ⟨s₁, a₁, arr₁, hcopy, hrefers, hitems, hpres, hch, hplace⟩ :=
    appendFrom_copy misread w h hw hfirst.width
      hfirst.size.symm (by rw [hfirst.size]; exact hfirst.read) hfirst.ok (totalcount + 1)
  rw [hfirst.size] at hcopy
  obtain ⟨r, s', hrun, happ⟩ := goOn_chain (totalcount + 1) hrefers (by omega) (fun p hp =>
    (hreads p (List.mem_cons_of_mem _ hp)).mono hpres)
  refine ⟨r, s', ?_, ⟨?_, hpres.trans happ.preserves, hch.trans happ.changes (.inl rfl) hplace, ?_,
    happ.refers⟩, fun hpos => happ.preserves.valid _ ⟨hrefers.lt, ?_⟩⟩
  · rw [carrayAppend, h.aref]
    simp only [Option.bind_eq_bind, Option.bind_some, h.array, hw, h.single, and_self, if_true]
    exact hcopy.trans hrun
  · have hchain := happ.chain
    rw [hitems, gotItems_congr (fun p hp => hreads p (List.mem_cons_of_mem _ hp)) hpres,
      List.append_assoc] at hchain
    exact hchain
  · rcases happ.refcell with rfl | hr
    · exact .inl rfl
    · exact .inr (hch.ncells_le.trans hr)
  · have hlen := congrArg List.length hitems
    rw [List.length_append, length_items, length_items, length_items, hfirst.size] at hlen
    have hsize : (s₁.arrays a₁).size = arr.size + appendCount arr.size totalcount := by
      rw [hrefers.array]
      exact hlen
    simp only [hrefers.node, hsize]
    rcases Nat.eq_zero_or_pos arr.size with hz | hz
    · rw [hz] at hpos ⊢
      have hcount : 0 < appendCount 0 totalcount := appendCount_pos (by omega)
      omega
    · omega

end

/-! ## A block of memory -/

/-- The part of a block that belongs in a piece -/
def blockPiece : Elements → Nat × Nat → Elements
  | .bytes l, p => .bytes ((l.drop p.1).take p.2)
  | .pntrs l, p => .pntrs ((l.drop p.1).take p.2)

/-- What is copied for a piece, where memory holds `d` in between: a distance of pointers is taken
for one of bytes. -/
def copiedPiece (d : Compiler.Double) : Elements → Nat × Nat → Elements
  | .bytes l, p => .bytes ((l.drop p.1).take p.2)
  | .pntrs l, p =>
    if p.1 % 8 = 0 then .pntrs ((l.drop (p.1 / 8)).take p.2)
    else .pntrs (List.replicate p.2 (.num d))

/-- The elements of a piece are also where the loop looks for them. -/
def Found (s : Store) (new : Elements) (p : Nat × Nat) : Prop :=
  match new with
  | .bytes _ => True
  | .pntrs l => p.1 % 8 = 0 ∧
    s.items (.pntrs ((l.drop (p.1 / 8)).take p.2)) = s.items (.pntrs ((l.drop p.1).take p.2))

theorem appendCount_le_total (size totalcount : Nat) :
    appendCount size totalcount ≤ totalcount := by
  unfold appendCount
  split <;> omega

/-- A piece is a part of the block. -/
theorem piece_le {p : Nat × Nat} (k : Nat) : ∀ {size totalcount offset : Nat},
    p ∈ pieces k size totalcount offset → p.1 + p.2 ≤ offset + totalcount := by
  induction k with
  | zero => nofun
  | succ k ih =>
    intro size totalcount offset hp
    have hle := appendCount_le_total size totalcount
    rw [pieces_succ] at hp
    rcases List.mem_cons.mp hp with rfl | hp
    · simp only
      omega
    · unfold piecesLeft at hp
      split at hp
      · cases hp
      · have hin := ih hp
        omega

theorem pos_of_mem_pieces {p : Nat × Nat} (k : Nat) : ∀ {totalcount offset : Nat},
    0 < totalcount → p ∈ pieces k 0 totalcount offset → 0 < p.2 := by
  induction k with
  | zero => nofun
  | succ k ih =>
    intro totalcount offset hpos hp
    rw [pieces_succ] at hp
    rcases List.mem_cons.mp hp with rfl | hp
    · exact appendCount_pos hpos
    · unfold piecesLeft at hp
      split at hp
      · cases hp
      · next hne => exact ih (Nat.pos_of_ne_zero hne) hp

/-- Only the first piece may be empty. -/
theorem pos_of_piece {p : Nat × Nat} {k size totalcount offset : Nat}
    (hp : p ∈ pieces k size totalcount offset) : p.1 = offset ∨ 0 < p.2 := by
  cases k with
  | zero => cases hp
  | succ k =>
    rw [pieces_succ] at hp
    rcases List.mem_cons.mp hp with rfl | hp
    · exact .inl rfl
    · unfold piecesLeft at hp
      split at hp
      · cases hp
      · next hne => exact .inr (pos_of_mem_pieces k (Nat.pos_of_ne_zero hne) hp)

/-- The pieces make up what is left of the block. -/
theorem piecesLeft_cover {α : Type} (xs : List α) (k : Nat) : ∀ {totalcount offset : Nat},
    totalcount ≤ k → offset + totalcount = xs.length →
      (piecesLeft k totalcount offset).flatMap (fun p => (xs.drop p.1).take p.2) =
        xs.drop offset := by
  have hdone : ∀ {k offset : Nat}, offset = xs.length →
      (piecesLeft k 0 offset).flatMap (fun p => (xs.drop p.1).take p.2) = xs.drop offset := by
    rintro k _ rfl
    rw [List.drop_length]
    rfl
  induction k with
  | zero =>
    intro totalcount offset hle hlen
    obtain rfl : totalcount = 0 := Nat.le_zero.mp hle
    exact hdone hlen
  | succ k ih =>
    intro totalcount offset hle hlen
    rcases Nat.eq_zero_or_pos totalcount with rfl | hpos
    · exact hdone hlen
    have hn := appendCount_pos hpos
    have hcount := appendCount_le_total 0 totalcount
    rw [piecesLeft, if_neg hpos.ne', pieces_succ, List.flatMap_cons, ih (by omega) (by omega),
      ← List.drop_drop, List.take_append_drop]

theorem pieces_cover {α : Type} (xs : List α) (size : Nat) :
    (pieces (xs.length + 2) size xs.length 0).flatMap (fun p => (xs.drop p.1).take p.2) = xs := by
  have hcount := appendCount_le_total size xs.length
  rw [pieces_succ, List.flatMap_cons, piecesLeft_cover xs _ (by omega) (by omega), List.drop_zero,
    Nat.zero_add, List.take_append_drop]

theorem items_blockPiece (s : Store) (new : Elements) (p : Nat × Nat) :
    s.items (blockPiece new p) = ((s.items new).drop p.1).take p.2 := by
  cases new with
  | bytes l => simp only [blockPiece, Store.items, List.map_take, List.map_drop]
  | pntrs l => simp only [blockPiece, Store.items, List.map_take, List.map_drop]

/-- The right pieces make up the block. -/
theorem gotItems_blockPiece (s : Store) (new : Elements) (size : Nat) :
    gotItems s (blockPiece new) (pieces (new.size + 2) size new.size 0) = s.items new := by
  have hcover := pieces_cover (s.items new) size
  rw [length_items] at hcover
  simp only [gotItems, items_blockPiece]
  exact hcover

section

variable {misread : Store → Data → Nat → Pntr} {s : Store} {c a : Nat} {arr : Carray} {t : Pntr}
  {new : Elements} {p : Nat × Nat} {d : Compiler.Double}

theorem size_blockPiece (hp : p.1 + p.2 ≤ new.size) : (blockPiece new p).size = p.2 := by
  cases new with
  | bytes l =>
    have hlen : p.1 + p.2 ≤ l.length := hp
    show ((l.drop p.1).take p.2).length = p.2
    rw [List.length_take, List.length_drop]
    omega
  | pntrs l =>
    have hlen : p.1 + p.2 ≤ l.length := hp
    show ((l.drop p.1).take p.2).length = p.2
    rw [List.length_take, List.length_drop]
    omega

theorem size_copiedPiece (d : Compiler.Double) (hp : p.1 + p.2 ≤ new.size) :
    (copiedPiece d new p).size = p.2 := by
  cases new with
  | bytes l => exact size_blockPiece hp
  | pntrs l =>
    have hlen : p.1 + p.2 ≤ l.length := hp
    by_cases hal : p.1 % 8 = 0
    · rw [show copiedPiece d (.pntrs l) p = .pntrs ((l.drop (p.1 / 8)).take p.2) from if_pos hal]
      show ((l.drop (p.1 / 8)).take p.2).length = p.2
      rw [List.length_take, List.length_drop]
      omega
    · rw [show copiedPiece d (.pntrs l) p = .pntrs (List.replicate p.2 (.num d)) from if_neg hal]
      exact List.length_replicate

/-- What is read for a piece of a block, where this is a part of the block. -/
theorem readsPiece_block (hok : s.ElementsOk new) (hp : p.1 + p.2 ≤ new.size)
    (hmis : Found s new p ∨ ∀ s' data k, misread s' data k = .num d) :
    ReadsPiece misread new.width s (.block new) (copiedPiece d new) p := by
  cases new with
  | bytes l => exact ⟨fun s' => if_pos hp, rfl, size_copiedPiece d hp, nofun⟩
  | pntrs l =>
    have hlen : p.1 + p.2 ≤ l.length := hp
    by_cases hal : p.1 % 8 = 0
    · have hgot : copiedPiece d (.pntrs l) p = .pntrs ((l.drop (p.1 / 8)).take p.2) := if_pos hal
      refine ⟨fun s' => ?_, by rw [hgot]; rfl, size_copiedPiece d hp, ?_⟩
      · rw [hgot]
        have hle : p.1 / 8 + p.2 ≤ l.length := by omega
        exact if_pos ⟨hal, hle⟩
      · rw [hgot]
        rintro _ ⟨⟩ e he
        exact hok l rfl e (List.mem_of_mem_drop (List.mem_of_mem_take he))
    · have hgot : copiedPiece d (.pntrs l) p = .pntrs (List.replicate p.2 (.num d)) := if_neg hal
      have hconst : ∀ s' data k, misread s' data k = .num d := by
        rcases hmis with hfound | hconst
        · exact absurd hfound.1 hal
        · exact hconst
      refine ⟨fun s' => ?_, by rw [hgot]; rfl, size_copiedPiece d hp, ?_⟩
      · rw [hgot]
        refine (if_neg (fun h => hal h.1)).trans ?_
        refine congrArg (fun m => some (Elements.pntrs m)) ?_
        rw [List.map_congr_left (g := fun _ => .num d) (fun k _ => hconst _ _ k), List.map_const',
          List.length_range]
      · rw [hgot]
        rintro _ ⟨⟩ e he
        rw [List.eq_of_mem_replicate he]
        trivial

/-- A piece that is found is copied right. -/
theorem Found.items (h : Found s new p) (d : Compiler.Double) :
    s.items (copiedPiece d new p) = s.items (blockPiece new p) := by
  cases new with
  | bytes l => rfl
  | pntrs l =>
    rw [show copiedPiece d (.pntrs l) p = .pntrs ((l.drop (p.1 / 8)).take p.2) from if_pos h.1]
    exact h.2

/-- An infinity, which is not a character -/
def infinity : Compiler.Double := 0x7FF0000000000000

/-- A piece that is copied right whatever memory holds is found. -/
theorem found_of_items (hp : p.1 = 0 ∨ 0 < p.2)
    (h : ∀ d, s.items (copiedPiece d new p) = s.items (blockPiece new p)) : Found s new p := by
  cases new with
  | bytes l => trivial
  | pntrs l =>
    by_cases hal : p.1 % 8 = 0
    · have h0 := h 0
      rw [show copiedPiece 0 (.pntrs l) p = .pntrs ((l.drop (p.1 / 8)).take p.2) from
        if_pos hal] at h0
      exact ⟨hal, h0⟩
    · exfalso
      have hpos : 0 < p.2 := by
        rcases hp with h0 | hpos
        · rw [h0] at hal
          exact absurd rfl hal
        · exact hpos
      have hsame := (h 0).trans (h infinity).symm
      rw [show copiedPiece 0 (.pntrs l) p = .pntrs (List.replicate p.2 (.num 0)) from if_neg hal,
        show copiedPiece infinity (.pntrs l) p = .pntrs (List.replicate p.2 (.num infinity)) from
          if_neg hal] at hsame
      simp only [Store.items, List.map_replicate] at hsame
      have hitem : s.item (.num 0) = s.item (.num infinity) := by
        have hmem : s.item (.num 0) ∈ List.replicate p.2 (s.item (.num infinity)) := by
          rw [← hsame]
          exact List.mem_replicate.mpr ⟨hpos.ne', rfl⟩
        exact List.eq_of_mem_replicate hmem
      have hchar : pntrIsChar (.num 0) = true := by decide +kernel
      have hother : pntrIsChar (.num infinity) = false := by decide +kernel
      have ht : ∀ d, s.target (.num d) = .num d := fun d => rfl
      rw [Store.item, Store.item, ht, ht, Item.of, Item.of, hchar, hother] at hitem
      cases hitem

/-- Two ways to fill the pieces that give the same give the same for each. -/
theorem eq_of_flatMap_eq {α β : Type} {f g : α → List β} {l : List α}
    (hlen : ∀ x ∈ l, (f x).length = (g x).length) (h : l.flatMap f = l.flatMap g) :
    ∀ x ∈ l, f x = g x := by
  induction l with
  | nil => nofun
  | cons y l ih =>
    rw [List.flatMap_cons, List.flatMap_cons] at h
    obtain ⟨hy, hl⟩ := List.append_inj h (hlen y (List.mem_cons_self ..))
    intro x hx
    rcases List.mem_cons.mp hx with rfl | hx
    · exact hy
    · exact ih (fun z hz => hlen z (List.mem_cons_of_mem _ hz)) hl x hx

/-! ## The claim for arrays -/

/-- A change that may alter lists does not alter whether a piece is found. -/
theorem Found.mono {s' : Store} (hp : Preserves s s') (hok : s.ElementsOk new)
    (h : Found s new p) : Found s' new p := by
  cases new with
  | bytes l => trivial
  | pntrs l =>
    have hsub : ∀ i k, s'.items (.pntrs ((l.drop i).take k)) = s.items (.pntrs ((l.drop i).take k)) := by
      intro i k
      refine hp.items ?_
      rintro _ ⟨⟩ e he
      exact hok l rfl e (List.mem_of_mem_drop (List.mem_of_mem_take he))
    exact ⟨h.1, by rw [hsub, hsub, h.2]⟩

/-- `carray_append` of the block ends with a chain of arrays from `c` on that hold what was there
and the block, and `refcell` is the last of them. -/
def AppendsBlock (s : Store) (c a : Nat) (arr : Carray) (new : Elements) : Prop :=
  ∀ misread : Store → Data → Nat → Pntr, ∃ r s',
    carrayAppend misread c ⟨.block new, 0⟩ new.size new.width s = some (r, s') ∧
      Appended s s' c a r (s.items arr.elements ++ s.items new)

variable (misread d) in
/-- What `carray_append` does, for memory of which it does not matter what it holds. -/
theorem carrayAppend_block (h : s.Refers c a arr t) (hw : arr.elements.width = new.width)
    (hok : s.ElementsOk new)
    (hmis : (∀ p ∈ pieces (new.size + 2) arr.size new.size 0, Found s new p) ∨
      ∀ s' data k, misread s' data k = .num d) :
    ∃ r s', carrayAppend misread c ⟨.block new, 0⟩ new.size new.width s = some (r, s') ∧
      Appended s s' c a r (s.items arr.elements ++
        gotItems s (copiedPiece d new) (pieces (new.size + 2) arr.size new.size 0)) ∧
      (0 < arr.size + new.size → s'.Valid (.obj c 0)) := by
  refine carrayAppend_chain h hw (fun p hp => readsPiece_block hok ?_ ?_)
  · have hin := piece_le _ hp
    omega
  · exact hmis.imp (fun hfound => hfound p hp) id

theorem gotItems_found {l : List (Nat × Nat)} (h : ∀ p ∈ l, Found s new p) (d : Compiler.Double) :
    gotItems s (copiedPiece d new) l = gotItems s (blockPiece new) l := by
  unfold gotItems
  induction l with
  | nil => rfl
  | cons p l ih =>
    rw [List.flatMap_cons, List.flatMap_cons, (h p (List.mem_cons_self ..)).items d,
      ih (fun q hq => h q (List.mem_cons_of_mem _ hq))]

/-- The pieces are all found where what was copied is the block, whatever memory holds. -/
theorem found_of_gotItems {size : Nat}
    (h : ∀ d, gotItems s (copiedPiece d new) (pieces (new.size + 2) size new.size 0) = s.items new) :
    ∀ p ∈ pieces (new.size + 2) size new.size 0, Found s new p := by
  intro p hp
  refine found_of_items (pos_of_piece hp) (fun d => ?_)
  have heq : gotItems s (copiedPiece d new) (pieces (new.size + 2) size new.size 0) =
      gotItems s (blockPiece new) (pieces (new.size + 2) size new.size 0) := by
    rw [h d, gotItems_blockPiece]
  refine eq_of_flatMap_eq (fun q hq => ?_) heq p hp
  have hq' := piece_le _ hq
  rw [length_items, length_items, size_copiedPiece d (by omega), size_blockPiece (by omega)]

/-- The block is appended as it should be if and only if each of its pieces is found. -/
theorem appendsBlock_iff (h : s.Refers c a arr t) (hw : arr.elements.width = new.width)
    (hok : s.ElementsOk new) :
    AppendsBlock s c a arr new ↔
      ∀ p ∈ pieces (new.size + 2) arr.size new.size 0, Found s new p := by
  constructor
  · intro hall
    refine found_of_gotItems (fun d => ?_)
    obtain ⟨r, s', hrun, happ⟩ := hall (fun _ _ _ => .num d)
    obtain ⟨r', s'', hrun', happ', -⟩ := carrayAppend_block (fun _ _ _ => .num d) d
      h hw hok (.inr (fun _ _ _ => rfl))
    rw [hrun] at hrun'
    cases hrun'
    exact (List.append_cancel_left (happ'.chain.unique happ.chain))
  · intro hfound misread
    obtain ⟨r, s', hrun, happ, -⟩ := carrayAppend_block misread 0 h hw hok
      (.inl hfound)
    rw [gotItems_found hfound, gotItems_blockPiece] at happ
    exact ⟨r, s', hrun, happ⟩

/-! ## The claim for lists -/

theorem prepend_left_cancel {xs ys : List Item} {D D' : Seq (Item ⊕ Pntr)}
    (hlen : xs.length = ys.length) (h : prepend xs D = prepend ys D') : xs = ys := by
  induction xs generalizing ys with
  | nil => exact (List.eq_nil_of_length_eq_zero hlen.symm).symm
  | cons x xs ih =>
    cases ys with
    | nil => cases hlen
    | cons y ys =>
      rw [prepend_cons, prepend_cons] at h
      obtain ⟨hx, hr⟩ := Seq.cons_injective2 h
      cases hx
      rw [ih (Nat.succ.inj hlen) hr]

/-- The lists of a store that is only added to stay as they are. -/
theorem denote_of_untouched {s' : Store} (hw : s.Wf) (hp : Preserves s s')
    (hn : ∀ d < s.ncells, s'.nodes d = s.nodes d) (ha : ∀ b < s.narrays, s'.arrays b = s.arrays b)
    {p : Pntr} (hv : s.Valid p) : s'.denote p = s.denote p := by
  refine Logic.unfold_congr (P := s.Valid) (fun p hv => ?_) (fun p x q hv h => hw.valid_move hv h) hv
  have ht := hw.valid_target hv
  simp only [Store.move, hp.target p hv]
  cases hq : s.target p with
  | num d => rfl
  | obj d i =>
    rw [hq] at ht
    simp only [hn d ht.1]
    cases hd : s.nodes d with
    | cons h t =>
      have hitem : s'.item h = s.item h := by
        rw [Store.item, Store.item, hp.target h (hw.cons d h t ht.1 hd).1]
      simp only [hitem]
    | aref b t =>
      obtain ⟨hb, -, hok⟩ := hw.aref d b t ht.1 hd
      simp only [ha b hb, hp.items hok.elements]
    | _ => rfl

/-- A chain keeps what is in it when its last cell gets another tail. -/
theorem Store.Chain.setTail {r b : Nat} {e : Carray} {u tail : Pntr} {xs : List Item}
    (h : s.Chain c r xs) (hc : c < s.ncells) (hr : s.Refers r b e u) (ht : s.Valid tail) :
    (s.put r b e tail).Chain c r xs := by
  have hplaced : s.Placed r b e tail := hr.placed hr.own le_rfl hr.ok ht
  induction h with
  | @last r a v ha hsize =>
    rw [hr.aref] at ha
    cases ha
    have hlast := Store.Chain.last (s := s.put r b e tail) put_aref
      (by rw [put_arrays_self]; exact hr.ok.size_le)
    rw [put_arrays_self, hplaced.items hr.wf hr.ok] at hlast
    rw [hr.array]
    exact hlast
  | @link c a c' r xs hne ha hsize hv _ ih =>
    have hn : s.nodes c = .aref a (.obj c' 0) := by
      unfold Store.aref at ha
      split at ha
      · cases ha
        assumption
      · cases ha
    have hab : a ≠ b := fun hab => hne (hr.own c _ hc (hab ▸ hn))
    have hlink := Store.Chain.link (s := s.put r b e tail) hne
      (by rw [Store.aref, put_nodes_of_ne hne, hn])
      (by rw [put_arrays_of_ne hab]; exact hsize) (hplaced.valid hv) (ih hv.1 hr hplaced)
    rw [put_arrays_of_ne hab, hplaced.items hr.wf (hr.wf.aref c a _ hc hn).2.2] at hlink
    exact hlink

/-- The array that `create_array` makes for a block -/
def freshArray (w : Width) (size : Nat) : Carray :=
  ⟨sizereq (appendCount 0 size) w, appendCount 0 size, false, 0, .empty w⟩

theorem createArray_eq {w : Width} {size : Nat} (hpos : 0 < size) : createArray w size s =
    (s.ncells, s.put s.ncells s.narrays (freshArray w size) s.globnilpntr) := by
  have hc : max s.ncells (s.ncells + 1) = s.ncells + 1 := max_eq_right (Nat.le_succ _)
  have ha : max s.narrays (s.narrays + 1) = s.narrays + 1 := max_eq_right (Nat.le_succ _)
  simp only [createArray, carrayNew_piece w hpos, allocArray, Store.allocCell, put, hc, ha]
  rfl

/-- A new cell with a new array -/
theorem createArray_placed (hw : s.Wf) {w : Width} {size : Nat} (hpos : 0 < size) :
    s.Placed s.ncells s.narrays (freshArray w size) s.globnilpntr where
  cell := le_rfl
  not_ind _ hlt := absurd hlt (lt_irrefl _)
  own := hw.own_new le_rfl
  grows _ hv := absurd hv.1 (lt_irrefl _)
  ok := by
    have hsize : (freshArray w size).size = 0 := by
      rw [freshArray, Carray.size, Elements.size_empty]
    refine ⟨?_, appendCount_pos hpos, ?_, ?_, ?_, ?_⟩
    · rw [hsize]
      exact Nat.zero_le _
    · rw [hsize]
      exact Nat.zero_le _
    · intro l hl e he
      rw [Carray.size, hl] at hsize
      rw [List.eq_nil_of_length_eq_zero hsize] at he
      cases he
    · intro l _
      exact Nat.zero_le _
    · intro l _ e he
      cases he
  tail := hw.nil

/-- `pointers_to_list` and `binary_data_to_list` give a list of the block and the tail. -/
def MakesList (s : Store) (new : Elements) (tail : Pntr) : Prop :=
  ∀ misread : Store → Data → Nat → Pntr, ∃ p s',
    blockToList misread new tail s = some (p, s') ∧ Preserves s s' ∧
      s'.denote p = prepend (s.items new) (s.denote tail)

variable (misread d) in
/-- The list that is made, for memory of which it does not matter what it holds. -/
theorem blockToList_spec (hw : s.Wf) (hpos : 0 < new.size) (hok : s.ElementsOk new) {tail : Pntr}
    (ht : s.Valid tail)
    (hmis : (∀ p ∈ pieces (new.size + 2) 0 new.size 0, Found s new p) ∨
      ∀ s' data k, misread s' data k = .num d) :
    ∃ p s', blockToList misread new tail s = some (p, s') ∧ Preserves s s' ∧
      s'.denote p = prepend
        (gotItems s (copiedPiece d new) (pieces (new.size + 2) 0 new.size 0)) (s.denote tail) := by
  let w := new.width
  let e := freshArray w new.size
  let s₀ := s.put s.ncells s.narrays e s.globnilpntr
  have hplaced : s.Placed s.ncells s.narrays e s.globnilpntr := createArray_placed hw hpos
  have hpres := hplaced.preserves hw
  have h₀ : s₀.Refers s.ncells s.narrays e s.globnilpntr := put_refers (hplaced.wf hw) rfl
  have hempty : e.size = 0 := Elements.size_empty w
  have hwe : e.elements.width = w := by
    show (Elements.empty w).width = w
    cases w <;> rfl
  obtain ⟨r, s₁, hrun, happ, hvalid⟩ := carrayAppend_block misread d h₀ hwe
    (hpres.elementsOk hok) (by
      rw [hempty]
      rcases hmis with hfound | hconst
      · exact .inl (fun p hp => (hfound p hp).mono hpres hok)
      · exact .inr hconst)
  have hgot : gotItems s₀ (copiedPiece d new) (pieces (new.size + 2) 0 new.size 0) =
      gotItems s (copiedPiece d new) (pieces (new.size + 2) 0 new.size 0) := by
    have hreads : ∀ p ∈ pieces (new.size + 2) 0 new.size 0,
        ReadsPiece misread new.width s (.block new) (copiedPiece d new) p := by
      intro p hp
      have hin := piece_le _ hp
      exact readsPiece_block hok (by omega) (hmis.imp (fun hfound => hfound p hp) id)
    exact gotItems_congr hreads hpres
  have hnil : s₀.items e.elements = [] := List.eq_nil_of_length_eq_zero (by rw [length_items]; exact hempty)
  rw [hempty, hgot, hnil, List.nil_append] at happ
  have hpres₁ := hpres.trans happ.preserves
  obtain ⟨b, e', u, hr⟩ := happ.refers
  have hplaced₂ : s₁.Placed r b e' tail := hr.placed hr.own le_rfl hr.ok (hpres₁.valid tail ht)
  have hpres₂ := hpres₁.trans (hplaced₂.preserves hr.wf)
  have hlt : s.ncells < s₁.ncells := h₀.lt.trans_le happ.changes.ncells_le
  have hchain := happ.chain.setTail hlt hr (hpres₁.valid tail ht)
  refine ⟨.obj s.ncells 0, s₁.put r b e' tail, ?_, hpres₂, ?_⟩
  · rw [blockToList, if_neg hpos.ne', createArray_eq hpos]
    simp only [Option.bind_eq_bind]
    rw [hrun]
    simp only [Option.bind_some, arefSetTail_of_refers hr]
    rfl
  · rw [hchain.denote (hplaced₂.valid (hvalid (by omega))) put_aref]
    congr 1
    refine denote_of_untouched hw hpres₂ (fun d hd => ?_) (fun k hk => ?_) ht
    · have hne : d ≠ r := by
        rcases happ.refcell with rfl | hle
        · exact hd.ne
        · have := h₀.lt
          omega
      rw [put_nodes_of_ne hne, happ.changes.nodes d (hd.trans h₀.lt) hd.ne]
      exact put_nodes_of_ne hd.ne
    · have harr : (s₁.put r b e' tail).arrays = s₁.arrays := by
        rw [← hr.array]
        exact Function.update_eq_self ..
      rw [harr, happ.changes.arrays k (hk.trans h₀.lt_narrays) hk.ne]
      exact put_arrays_of_ne hk.ne

theorem found_of_zero (hp : p.1 = 0) : Found s new p := by
  cases new with
  | bytes l => trivial
  | pntrs l =>
    have h0 : p.1 % 8 = 0 := by rw [hp]
    have hdiv : p.1 / 8 = p.1 := by rw [hp]
    exact ⟨h0, by rw [hdiv]⟩

theorem makesList_iff (hw : s.Wf) (hok : s.ElementsOk new) {tail : Pntr} (ht : s.Valid tail) :
    MakesList s new tail ↔ ∀ p ∈ pieces (new.size + 2) 0 new.size 0, Found s new p := by
  rcases Nat.eq_zero_or_pos new.size with hz | hpos
  · constructor
    · intro _ p hp
      have hin := piece_le _ hp
      exact found_of_zero (by omega)
    · intro _ misread
      have hnil : s.items new = [] := List.eq_nil_of_length_eq_zero (by rw [length_items, hz])
      exact ⟨tail, s, if_pos hz, Preserves.refl hw, by rw [hnil, prepend_nil]⟩
  constructor
  · intro hall
    refine found_of_gotItems (fun d => ?_)
    obtain ⟨q, s', hrun, -, hden⟩ := hall (fun _ _ _ => .num d)
    obtain ⟨q', s'', hrun', -, hden'⟩ := blockToList_spec (fun _ _ _ => .num d) d
      hw hpos hok ht (.inr (fun _ _ _ => rfl))
    rw [hrun] at hrun'
    cases hrun'
    refine prepend_left_cancel ?_ (hden'.symm.trans hden)
    have hlen := congrArg List.length (gotItems_blockPiece s new 0)
    rw [← hlen, gotItems, gotItems, List.length_flatMap, List.length_flatMap]
    refine congrArg List.sum (List.map_congr_left (fun p hp => ?_))
    have hin := piece_le _ hp
    rw [length_items, length_items, size_copiedPiece d (by omega), size_blockPiece (by omega)]
  · intro hfound misread
    obtain ⟨q, s', hrun, hpres, hden⟩ := blockToList_spec misread 0 hw hpos hok ht
      (.inl hfound)
    rw [gotItems_found hfound, gotItems_blockPiece] at hden
    exact ⟨q, s', hrun, hpres, hden⟩

/-- A block is copied in one piece when it fits. -/
theorem found_of_fits {size : Nat} (h : size + new.size ≤ maxArraySize) :
    ∀ p ∈ pieces (new.size + 2) size new.size 0, Found s new p := by
  intro p hp
  have hcount : appendCount size new.size = new.size := if_neg (by omega)
  rw [pieces_succ, hcount, Nat.sub_self] at hp
  rcases List.mem_cons.mp hp with rfl | hp
  · exact found_of_zero rfl
  · cases hp

end

/-- `carray_append` keeps every element, and `pointers_to_list` gives the list of all of them, if and
only if each piece that the block is cut into is found where the loop looks for it: always for the
first piece, and for bytes; for a later piece of pointers, only when it begins at a number divisible
by 8 and is the same as the elements from an eighth of that number on. `binary_data_to_list` is
right for every block. -/
theorem append_keeps_iff {s : Store} (hw : s.Wf) :
    (∀ (c a : Nat) (arr : Carray) (t : Pntr) (new : Elements), s.Refers c a arr t →
      arr.elements.width = new.width → s.ElementsOk new →
      (AppendsBlock s c a arr new ↔
        ∀ p ∈ pieces (new.size + 2) arr.size new.size 0, Found s new p)) ∧
    (∀ (l : List Pntr) (tail : Pntr), (∀ e ∈ l, s.Valid e) → s.Valid tail →
      (MakesList s (.pntrs l) tail ↔
        ∀ p ∈ pieces (l.length + 2) 0 l.length 0, Found s (.pntrs l) p)) ∧
    (∀ (l : List (BitVec 8)) (tail : Pntr), s.Valid tail → MakesList s (.bytes l) tail) := by
  refine ⟨fun c a arr t new h hwidth hok => appendsBlock_iff h hwidth hok, fun l tail hl ht => ?_,
    fun l tail ht => ?_⟩
  · refine makesList_iff hw ?_ ht
    rintro _ ⟨⟩
    exact hl
  · exact (makesList_iff hw (by rintro _ ⟨⟩) ht).mpr (fun _ _ => trivial)

/-- A heap with NIL only -/
def onlyNil : Store where
  nodes := fun _ => .nil
  ncells := 1
  arrays := fun _ => ⟨0, 8, false, 0, .pntrs []⟩
  narrays := 0
  globnilpntr := .obj 0 0

theorem onlyNil_nil : onlyNil.Valid (.obj 0 0) := ⟨Nat.one_pos, rfl⟩

theorem onlyNil_wf : onlyNil.Wf where
  cons := nofun
  ind := nofun
  aref := nofun
  single := nofun
  ends p hv := by
    cases p with
    | num d => exact ⟨.num d, rfl⟩
    | obj c i => exact ⟨.obj c i, rfl⟩
  nil := onlyNil_nil

/-- Two pointers, and two bytes, become lists. -/
theorem append_keeps_iff_two :
    MakesList onlyNil (.pntrs [.num 0, .obj 0 0]) (.obj 0 0) ∧
      MakesList onlyNil (.bytes [1, 2]) (.obj 0 0) := by
  obtain ⟨-, hpntrs, hbytes⟩ := append_keeps_iff onlyNil_wf
  let new : Elements := .pntrs [.num 0, .obj 0 0]
  have hfound : ∀ p ∈ pieces (new.size + 2) 0 new.size 0, Found onlyNil new p :=
    found_of_fits (by decide)
  refine ⟨(hpntrs _ _ ?_ onlyNil_nil).mpr hfound, hbytes _ _ onlyNil_nil⟩
  intro e he
  rcases List.mem_cons.mp he with rfl | he
  · trivial
  · rw [List.mem_singleton.mp he]
    exact onlyNil_nil

/-- As many numbers as an array can hold, and NIL -/
def longBlock : List Pntr := List.replicate maxArraySize (.num 0) ++ [.obj 0 0]

theorem length_longBlock : longBlock.length = maxArraySize + 1 := by
  rw [longBlock, List.length_append, List.length_replicate, List.length_singleton]

/-- A block of one element more than an array can hold is cut into two pieces. -/
theorem mem_pieces_of_length {n : Nat} (hn : n = maxArraySize + 1) :
    (maxArraySize, 1) ∈ pieces (n + 2) 0 n 0 := by
  have hcount : appendCount 0 n = maxArraySize := by
    rw [appendCount, if_pos (by omega), Nat.sub_zero]
  have hrest : n - maxArraySize = 1 := by omega
  rw [pieces_succ, hcount, hrest, Nat.zero_add, piecesLeft, if_neg Nat.one_ne_zero, pieces_succ]
  exact List.mem_cons_of_mem _ (List.mem_cons_self ..)

theorem second_piece : (maxArraySize, 1) ∈ pieces (longBlock.length + 2) 0 longBlock.length 0 :=
  mem_pieces_of_length length_longBlock

/-- NIL is the only element of the second piece, and a number is copied for it. -/
theorem pointersToList_loses : ¬ MakesList onlyNil (.pntrs longBlock) (.obj 0 0) := by
  intro h
  have hok : onlyNil.ElementsOk (.pntrs longBlock) := by
    rintro _ ⟨⟩ e he
    rcases List.mem_append.mp he with he | he
    · rw [List.eq_of_mem_replicate he]
      trivial
    · rw [List.mem_singleton.mp he]
      exact onlyNil_nil
  obtain ⟨-, hitems⟩ := (makesList_iff onlyNil_wf hok onlyNil_nil).mp h _ second_piece
  have hlast : (longBlock.drop maxArraySize).take 1 = [.obj 0 0] := by
    rw [longBlock, List.drop_left' List.length_replicate]
    rfl
  have hwrong : (longBlock.drop (maxArraySize / 8)).take 1 = [.num 0] := by
    have hlt : maxArraySize / 8 < maxArraySize := by decide
    rw [longBlock, List.drop_append_of_le_length (by rw [List.length_replicate]; omega),
      List.drop_replicate, List.take_append_of_le_length (by rw [List.length_replicate]; omega),
      List.take_replicate, Nat.min_eq_left (by omega)]
    rfl
  simp only [hlast, hwrong] at hitems
  have hitem : onlyNil.item (.num 0) = onlyNil.item (.obj 0 0) := List.head_eq_of_cons_eq hitems
  have hchar : pntrIsChar (.num 0) = true := by decide +kernel
  have hzero : onlyNil.item (.num 0) = Item.of (.num 0) := rfl
  have hnil : onlyNil.item (.obj 0 0) = .other (.obj 0 0) := rfl
  rw [hzero, hnil, Item.of, if_pos hchar] at hitem
  cases hitem

end Lists
end Runtime
end NReduce
