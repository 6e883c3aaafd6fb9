import NReduce.Runtime.Compaction
import Mathlib.Logic.Relation

/-!
# NReduce.Runtime.Strcmp

`strcmp`, `strcmpcons` and `streq` of the prelude (`prelude.elc`) with the builtins `arraystrcmp`,
`head` and `tail` that they use. `strcmp` tries to compare two byte arrays as a whole, and else
compares the first elements and goes on with the tails, and each `tail` may gather a list in an array.

`elements` of a `carray` are of type `char`, so the comparison of byte arrays is one of signed bytes;
`head` reads unsigned ones. `strcmp_right_iff` says when the sign of the result is right.

Numbers are given by their value times 2^1074 (`Bytecode.scaled`), in which doubles are integers.
-/

namespace NReduce
namespace Runtime
namespace Lists

open Logic Store

/-- The number 1 -/
def one : Int := 2 ^ 1074

theorem one_pos : 0 < one := Int.pow_pos (by decide)

/-! ## The builtins -/

/-- The loop of `arraystrcmp` and what follows it, from the two indexes on -/
def compareBytes : List (BitVec 8) → List (BitVec 8) → Int
  | x :: xs, y :: ys => if x ≠ y then (x.toInt - y.toInt) * one else compareBytes xs ys
  | _ :: _, [] => one
  | [], _ :: _ => -one
  | [], [] => 0

/-- `arraystrcmp`: a number, or NIL (`none`). The tails are looked at as they are before they are
resolved. -/
def arraystrcmp (a b : Pntr) (s : Store) : Option (Option Int × Store) :=
  match a, s.node a, b, s.node b with
  | .obj ca ia, some (.aref aarr atail), .obj cb ib, some (.aref barr btail) => do
    let s ← arefResolveTail ca s
    let s ← arefResolveTail cb s
    match (s.arrays aarr).elements, (s.arrays barr).elements with
    | .bytes l, .bytes m =>
      if s.node atail = some .nil ∧ s.node btail = some .nil then
        return (some (compareBytes (l.drop ia) (m.drop ib)), s)
      else return (none, s)
    | _, _ => return (none, s)
  | _, _, _, _ => some (none, s)

/-- A number, where a pointer is one -/
def number (s : Store) (p : Pntr) : Option Int := do
  match ← s.resolvePntr p with
  | .num d => Bytecode.scaled d
  | .obj _ _ => none

/-- `head`, where it is a number -/
def head (p : Pntr) (s : Store) : Option Int :=
  match p, s.node p with
  | _, some (.cons h _) => number s h
  | .obj _ i, some (.aref a _) =>
    match (s.arrays a).elements with
    | .bytes l => (l[i]?).map (fun b => b.toNat * one)
    | .pntrs l => l[i]? >>= number s
  | _, _ => none

section

variable (misread : Store → Data → Nat → Pntr)

/-- `tail`, with a bound on the turns of `maybe_expand_array` -/
def tail (k : Nat) (p : Pntr) (s : Store) : Option (Pntr × Store) := do
  let s ← maybeExpandArray misread k p s
  match p, s.node p with
  | _, some (.cons _ t) => return (t, s)
  | .obj c i, some (.aref a t) =>
    if i + 1 < (s.arrays a).size then return (.obj c (i + 1), s) else return (t, s)
  | _, _ => none

/-! ## The prelude -/

/-- `(if p ..)` takes the second branch. -/
def isNil (s : Store) (p : Pntr) : Bool := s.node p = some .nil

/-- `strcmpcons`, of evaluated lists. `next` is the call of `strcmp`, which evaluates the two tails
first, the last one before the other. -/
def strcmpcons (next : Pntr → Pntr → Store → Option (Int × Store)) (k : Nat) (a b : Pntr)
    (s : Store) : Option (Int × Store) :=
  if isNil s a = false then
    if isNil s b = false then do
      let x ← head a s
      let y ← head b s
      if x = y then do
        let (b', s) ← tail misread k b s
        let (a', s) ← tail misread k a s
        next a' b' s
      else return (x - y, s)
    else some (one, s)
  else if isNil s b = false then some (-one, s)
  else some (0, s)

/-- `strcmp`, with a bound on the calls -/
def strcmp : Nat → Pntr → Pntr → Store → Option (Int × Store)
  | 0, _, _, _ => none
  | k + 1, a, b, s => do
    let a ← s.resolvePntr a
    let b ← s.resolvePntr b
    let (res, s) ← arraystrcmp a b s
    match res with
    | some n => return (n, s)
    | none => strcmpcons misread (strcmp k) k a b s

/-- `streq` -/
def streq (k : Nat) (a b : Pntr) (s : Store) : Option (Bool × Store) := do
  let (n, s) ← strcmp misread k a b s
  return (n == 0, s)

end

/-! ## Strings on the heap -/

/-- `p` is a list with the elements `xs`. -/
def IsString (s : Store) (p : Pntr) (xs : List (BitVec 8)) : Prop :=
  ∃ q, s.Valid q ∧ s.node q = some .nil ∧
    s.denote p = prepend (xs.map .char) (.cons (.inr q) .nil)

/-- The lists and the NIL cells stay as they are. -/
structure Spares (s s' : Store) : Prop extends Keeps s s' where
  nil : ∀ p, s.Valid p → s.node p = some .nil → s'.node p = some .nil

variable {s s' : Store} {p : Pntr} {xs ys : List (BitVec 8)}

theorem Spares.refl (hw : s.Wf) : Spares s s := ⟨.refl hw, fun _ _ h => h⟩

theorem Spares.trans {s₁ s₂ s₃ : Store} (h : Spares s₁ s₂) (h' : Spares s₂ s₃) : Spares s₁ s₃ where
  toKeeps := h.toKeeps.trans h'.toKeeps
  nil p hp hn := h'.nil p (h.valid p hp) (h.nil p hp hn)

theorem Spares.isString (h : Spares s s') (hp : s.Valid p) (hx : IsString s p xs) :
    IsString s' p xs := by
  obtain ⟨q, hq, hn, hd⟩ := hx
  exact ⟨q, h.valid q hq, h.nil q hq hn, (h.denote p hp).trans hd⟩

theorem Spares.isInd (h : Spares s s') (hp : s.Valid p) (hi : s.isInd p = false) :
    s'.isInd p = false := by
  have ht := h.target p hp
  rw [target_of_not_isInd hi] at ht
  rw [← ht]
  exact h.wf.isInd_target (h.valid p hp)

theorem IsString.target (hw : s.Wf) (hp : s.Valid p) (h : IsString s p xs) :
    IsString s (s.target p) xs := by
  obtain ⟨q, hq, hn, hd⟩ := h
  exact ⟨q, hq, hn, (hw.denote_target hp).trans hd⟩

theorem move_of_not_isInd {c i : Nat} (hi : s.isInd (.obj c i) = false) :
    s.move (.obj c i) = match s.nodes c with
      | .cons h t => .item (s.item h) t
      | .aref a t =>
        match (s.items (s.arrays a).elements)[i]? with
        | some x => .item x (if i + 1 < (s.arrays a).size then .obj c (i + 1) else t)
        | none => .done (.obj c i)
      | _ => .done (.obj c i) := by
  cases hn : s.nodes c with
  | aref a t =>
    cases he : (s.items (s.arrays a).elements)[i]? <;>
      simp only [move, target_of_not_isInd hi, hn, he]
  | _ => simp only [move, target_of_not_isInd hi, hn]

theorem eq_of_move_done {r : Pntr} (hi : s.isInd p = false) (hm : s.move p = .done r) : r = p := by
  cases p with
  | num d => cases hm; rfl
  | obj c i =>
    rw [move_of_not_isInd hi] at hm
    split at hm
    · cases hm
    · split at hm
      · cases hm
      · cases hm; rfl
    · cases hm; rfl

theorem isNil_of_move_item {x : Item} {r : Pntr} (hi : s.isInd p = false)
    (hm : s.move p = .item x r) : isNil s p = false := by
  cases p with
  | num d => cases hm
  | obj c i =>
    rw [move_of_not_isInd hi] at hm
    rw [isNil, node, decide_eq_false_iff_not]
    intro hn
    rw [Option.some.inj hn] at hm
    cases hm

/-- A string is NIL, or it starts with a character. -/
theorem IsString.cases (hw : s.Wf) (hp : s.Valid p) (hi : s.isInd p = false)
    (h : IsString s p xs) :
    (xs = [] ∧ isNil s p = true) ∨ ∃ x xs' r, xs = x :: xs' ∧ isNil s p = false ∧
      s.move p = .item (.char x) r ∧ s.Valid r ∧ IsString s r xs' := by
  obtain ⟨q, hq, hn, hd⟩ := h
  cases hm : s.move p with
  | done r =>
    rw [denote, unfold_done hm] at hd
    obtain rfl := eq_of_move_done hi hm
    cases xs with
    | nil =>
      obtain ⟨hqr, -⟩ := Stream'.Seq.cons_injective2 hd
      cases hqr
      exact .inl ⟨rfl, decide_eq_true hn⟩
    | cons x xs' =>
      obtain ⟨hqr, -⟩ := Stream'.Seq.cons_injective2 hd
      cases hqr
  | item y r =>
    have hr := hw.valid_move hp hm
    rw [denote, unfold_item hm] at hd
    cases xs with
    | nil =>
      obtain ⟨hqr, -⟩ := Stream'.Seq.cons_injective2 hd
      cases hqr
    | cons x xs' =>
      obtain ⟨hy, hrest⟩ := Stream'.Seq.cons_injective2 hd
      cases hy
      exact .inr ⟨x, xs', r, rfl, isNil_of_move_item hi hm, rfl, hr, q, hq, hn, hrest⟩

/-! ## head and tail -/

theorem scaled_of_pntrIsChar {d : Compiler.Double} (h : pntrIsChar (.num d) = true) :
    Bytecode.scaled d = some ((toChar (.num d)).toNat * one) := by
  cases hx : Bytecode.scaled d with
  | none => simp [pntrIsChar, hx] at h
  | some x =>
    simp only [pntrIsChar, hx, Bool.and_eq_true, beq_iff_eq, decide_eq_true_eq] at h
    obtain ⟨⟨hmod, hlo⟩, hhi⟩ := h
    have hpos := one_pos
    obtain ⟨n, rfl⟩ : ∃ n, x = n * one :=
      ⟨x / one, (Int.ediv_mul_cancel (Int.dvd_of_emod_eq_zero hmod)).symm⟩
    have hn0 : 0 ≤ n := Int.le_of_mul_le_mul_right ((Int.zero_mul one).symm ▸ hlo) hpos
    have hn1 : n ≤ 255 := Int.le_of_mul_le_mul_right hhi hpos
    have hdiv : n * one / 2 ^ 1074 = n := Int.mul_ediv_cancel n hpos.ne'
    have hnat : ((BitVec.ofInt 8 n).toNat : Int) = n := by
      rw [BitVec.toNat_ofInt]
      omega
    rw [toChar, Bytecode.integerOf, hx, Option.getD_some, hdiv, hnat]

theorem number_of_item {x : BitVec 8} (hw : s.Wf) (hp : s.Valid p) (h : s.item p = .char x) :
    number s p = some (x.toNat * one) := by
  have hc := pntrIsChar_of_item h
  rw [item, Item.of, if_pos hc] at h
  cases h
  rw [number, hw.resolve hp]
  cases hq : s.target p with
  | num d =>
    rw [hq] at hc
    exact scaled_of_pntrIsChar hc
  | obj c i =>
    rw [hq] at hc
    cases hc

theorem head_of_move {x : BitVec 8} {r : Pntr} (hw : s.Wf) (hp : s.Valid p)
    (hi : s.isInd p = false) (hm : s.move p = .item (.char x) r) :
    head p s = some (x.toNat * one) := by
  cases p with
  | num d => cases hm
  | obj c i =>
    rw [move_of_not_isInd hi] at hm
    cases hn : s.nodes c with
    | cons h t =>
      simp only [hn, Move.item.injEq] at hm
      simp only [head, node, hn]
      exact number_of_item hw (hw.cons c h t hp.1 hn).1 hm.1
    | aref a t =>
      obtain ⟨-, -, hok⟩ := hw.aref c a t hp.1 hn
      simp only [hn] at hm
      simp only [head, node, hn]
      cases hl : (s.arrays a).elements with
      | bytes l =>
        simp only [hl, items, List.getElem?_map] at hm ⊢
        cases hx : l[i]? with
        | none => simp [hx] at hm
        | some b =>
          simp only [hx, Option.map_some, Move.item.injEq, Item.char.injEq] at hm ⊢
          rw [hm.1]
      | pntrs l =>
        simp only [hl, items, List.getElem?_map] at hm ⊢
        cases hx : l[i]? with
        | none => simp [hx] at hm
        | some e =>
          simp only [hx, Option.map_some, Move.item.injEq] at hm
          exact number_of_item hw (hok.elements l hl e (List.mem_of_getElem? hx)) hm.1
    | _ => simp [hn] at hm

/-- What `tail` gives once the list has been gathered: the rest of `Store.move`. -/
theorem tail_of_move {misread : Store → Data → Nat → Pntr} {k : Nat} {x : Item} {r : Pntr}
    (hi : s'.isInd p = false) (hrun : maybeExpandArray misread k p s = some s')
    (hm : s'.move p = .item x r) : tail misread k p s = some (r, s') := by
  cases p with
  | num d => cases hm
  | obj c i =>
    rw [move_of_not_isInd hi] at hm
    rw [tail, hrun]
    cases hn : s'.nodes c with
    | cons h t =>
      simp only [hn, Move.item.injEq] at hm
      simp [node, hn, hm.2]
    | aref a t =>
      simp only [hn] at hm
      split at hm
      · cases hm
        simp only [node, hn, Option.bind_eq_bind, Option.bind_some]
        split <;> rfl
      · cases hm
    | _ => simp [hn] at hm

theorem Store.Changes.node_nil {c a : Nat} (h : s.Changes s' c a) (hc : s.nodes c ≠ .nil)
    (hp : s.Valid p) (hn : s.node p = some .nil) : s'.node p = some .nil := by
  cases p with
  | num d => cases hn
  | obj d i =>
    have hd : d ≠ c := by
      rintro rfl
      exact hc (Option.some.inj hn)
    rw [node, h.nodes d hp.1 hd]
    exact hn

section

variable (misread : Store → Data → Nat → Pntr)

theorem maybeExpandArray_spares (hw : s.Wf) (hp : s.Valid p) (hst : Settled s p) :
    ∃ s' N, Spares s s' ∧ ∀ k ≥ N, maybeExpandArray misread k p s = some s' := by
  obtain ⟨s', N, hk, heff, hrun⟩ := maybeExpandArray_keeps misread hw hp hst
  refine ⟨s', N, ⟨hk, fun q hq hn => ?_⟩, hrun⟩
  obtain rfl | ⟨c, i, rfl, ⟨hch, h, t, hc⟩ | ⟨a, t, hc, -, hexp⟩⟩ := heff
  · exact hn
  · exact hch.node_nil (by simp [hc]) hq hn
  · exact hexp.changes.node_nil (by simp [hc]) hq hn

/-- A run of two steps, with another first step. -/
theorem bind_mono_left {α β : Type} {o o' : Option α} {f : α → Option β} {y : β}
    (h : ∀ x, o = some x → o' = some x) (hf : o.bind f = some y) : o'.bind f = some y := by
  obtain ⟨x, hx, hfx⟩ := Option.bind_eq_some_iff.mp hf
  exact Option.bind_eq_some_iff.mpr ⟨x, h x hx, hfx⟩

theorem tail_mono {k k' : Nat} {x : Pntr × Store} (hk : k ≤ k') (h : tail misread k p s = some x) :
    tail misread k' p s = some x :=
  bind_mono_left (fun _ => maybeExpandArray_mono misread hk) h

/-- `tail` of a string, where the list settles. -/
theorem tail_of_isString {x : BitVec 8} (hw : s.Wf) (hp : s.Valid p) (hi : s.isInd p = false)
    (hst : Settled s p) (h : IsString s p (x :: xs)) :
    ∃ r s' N, Spares s s' ∧ s'.Valid r ∧ IsString s' r xs ∧
      ∀ k ≥ N, tail misread k p s = some (r, s') := by
  obtain ⟨s', N, hsp, hrun⟩ := maybeExpandArray_spares misread hw hp hst
  have hi' := hsp.isInd hp hi
  obtain ⟨hxs, -⟩ | ⟨y, ys, r, hxs, -, hm, hr, hstr⟩ :=
    (hsp.isString hp h).cases hsp.wf (hsp.valid p hp) hi'
  · cases hxs
  · cases hxs
    exact ⟨r, s', N, hsp, hr, hstr, fun k hk => tail_of_move hi' (hrun k hk) hm⟩

end

/-! ## arraystrcmp -/

/-- The tail of an AREF cell without its indirection. The array may belong to more cells. -/
structure TailResolved (s s' : Store) : Prop extends Spares s s' where
  arrays : s'.arrays = s.arrays
  ncells_le : s.ncells ≤ s'.ncells
  aref : ∀ c a t, s.nodes c = .aref a t → ∃ t', s'.nodes c = .aref a t'
  nil_iff : ∀ p, s'.node p = some .nil ↔ s.node p = some .nil

theorem TailResolved.refl (hw : s.Wf) : TailResolved s s :=
  ⟨.refl hw, rfl, le_rfl, fun _ _ t h => ⟨t, h⟩, fun _ => Iff.rfl⟩

theorem TailResolved.trans {s₁ s₂ s₃ : Store} (h : TailResolved s₁ s₂) (h' : TailResolved s₂ s₃) :
    TailResolved s₁ s₃ where
  toSpares := h.toSpares.trans h'.toSpares
  arrays := h'.arrays.trans h.arrays
  ncells_le := h.ncells_le.trans h'.ncells_le
  aref c a t hn := by
    obtain ⟨t', hn'⟩ := h.aref c a t hn
    exact h'.aref c a t' hn'
  nil_iff p := (h'.nil_iff p).trans (h.nil_iff p)

theorem setNode_nodes_self {c : Nat} {n : Node} : (s.setNode c n).nodes c = n :=
  Function.update_self ..

theorem setNode_arrays {c : Nat} {n : Node} : (s.setNode c n).arrays = s.arrays := rfl

theorem setNode_nodes_of_ne {c d : Nat} {n : Node} (h : d ≠ c) :
    (s.setNode c n).nodes d = s.nodes d := Function.update_of_ne h ..

section

variable {c a : Nat} {t : Pntr} (hn : s.nodes c = .aref a t)
include hn

/-- Where the changed cell is not looked at, or only for being an AREF cell of the array `a`. -/
theorem setTail_resolveFrom (t' : Pntr) (k : Nat) :
    ∀ p, (s.setNode c (.aref a t')).resolveFrom k p = s.resolveFrom k p := by
  induction k with
  | zero => exact fun _ => rfl
  | succ k ih =>
    intro p
    cases p with
    | num d => rfl
    | obj d i =>
      rw [Store.resolveFrom, Store.resolveFrom]
      by_cases hd : d = c
      · subst hd
        simp only [setNode_nodes_self, hn]
      · simp only [setNode_nodes_of_ne hd]
        cases hm : s.nodes d with
        | ind q => exact ih q
        | _ => rfl

theorem setTail_target (t' p : Pntr) : (s.setNode c (.aref a t')).target p = s.target p := by
  rw [Store.target, Store.resolvePntr, setTail_resolveFrom hn]
  rfl

theorem setTail_valid (t' p : Pntr) : (s.setNode c (.aref a t')).Valid p ↔ s.Valid p := by
  cases p with
  | num d => exact Iff.rfl
  | obj d i =>
    by_cases hd : d = c
    · subst hd
      simp only [Store.Valid, setNode_nodes_self, hn]
      rfl
    · simp only [Store.Valid, setNode_nodes_of_ne hd]
      rfl

theorem setTail_arrayOk (t' : Pntr) {arr : Carray} (h : s.ArrayOk arr) :
    (s.setNode c (.aref a t')).ArrayOk arr :=
  ⟨h.size_le, h.alloc_pos, h.size_le_alloc,
    fun l hl e he => (setTail_valid hn t' e).mpr (h.elements l hl e he), h.nchars_le, h.chars⟩

theorem setTail_wf (hw : s.Wf) {t' : Pntr} (ht : s.Valid t') (hc : c < s.ncells) :
    (s.setNode c (.aref a t')).Wf where
  cons d h tl hlt hd := by
    by_cases hdc : d = c
    · subst hdc
      simp [setNode_nodes_self] at hd
    · rw [setNode_nodes_of_ne hdc] at hd
      simp only [setTail_valid hn]
      exact hw.cons d h tl hlt hd
  ind d q hlt hd := by
    by_cases hdc : d = c
    · subst hdc
      simp [setNode_nodes_self] at hd
    · rw [setNode_nodes_of_ne hdc] at hd
      simp only [setTail_valid hn]
      exact hw.ind d q hlt hd
  aref d b u hlt hd := by
    by_cases hdc : d = c
    · subst hdc
      simp only [setNode_nodes_self, Node.aref.injEq] at hd
      obtain ⟨rfl, rfl⟩ := hd
      obtain ⟨ha, -, hok⟩ := hw.aref d a t hlt hn
      exact ⟨ha, (setTail_valid hn _ _).mpr ht, setTail_arrayOk hn _ hok⟩
    · rw [setNode_nodes_of_ne hdc] at hd
      obtain ⟨hb, hu, hok⟩ := hw.aref d b u hlt hd
      exact ⟨hb, (setTail_valid hn _ _).mpr hu, setTail_arrayOk hn _ hok⟩
  single d d' b u u' hlt hlt' hd hd' hm := by
    have hold : ∀ {e v}, (s.setNode c (.aref a t')).nodes e = .aref b v →
        ∃ w, s.nodes e = .aref b w := by
      intro e v he
      by_cases hec : e = c
      · subst hec
        simp only [setNode_nodes_self, Node.aref.injEq] at he
        exact ⟨t, he.1 ▸ hn⟩
      · rw [setNode_nodes_of_ne hec] at he
        exact ⟨v, he⟩
    obtain ⟨w, hw₁⟩ := hold hd
    obtain ⟨w', hw₂⟩ := hold hd'
    exact hw.single d d' b w w' hlt hlt' hw₁ hw₂ hm
  ends p hp := by
    obtain ⟨q, hq⟩ := hw.ends p ((setTail_valid hn t' p).mp hp)
    exact ⟨q, (setTail_resolveFrom hn t' _ p).trans hq⟩
  nil := (setTail_valid hn t' _).mpr hw.nil

theorem setTail_nil (t' p : Pntr) :
    (s.setNode c (.aref a t')).node p = some .nil ↔ s.node p = some .nil := by
  cases p with
  | num d => exact Iff.rfl
  | obj d i =>
    rw [node, node]
    by_cases hd : d = c
    · subst hd
      simp [setNode_nodes_self, hn]
    · rw [setNode_nodes_of_ne hd]

theorem setTail_item (t' p : Pntr) : (s.setNode c (.aref a t')).item p = s.item p := by
  rw [Store.item, Store.item, setTail_target hn]

theorem setTail_items (t' : Pntr) (els : Elements) :
    (s.setNode c (.aref a t')).items els = s.items els := by
  cases els with
  | bytes l => rfl
  | pntrs l => exact List.map_congr_left (fun e _ => setTail_item hn t' e)

/-- Only the step from the last element to the tail may differ. -/
theorem setTail_move (t' q : Pntr) :
    (s.setNode c (.aref a t')).move q = s.move q ∨
      ∃ x, s.move q = .item x t ∧ (s.setNode c (.aref a t')).move q = .item x t' := by
  rw [Store.move, setTail_target hn, Store.move]
  cases s.target q with
  | num d => exact .inl rfl
  | obj d i =>
    by_cases hd : d = c
    · subst hd
      simp only [setNode_nodes_self, hn, setTail_items hn, setNode_arrays]
      cases (s.items (s.arrays a).elements)[i]? with
      | none => exact .inl rfl
      | some x =>
        by_cases hlt : i + 1 < (s.arrays a).size
        · have h : ∀ u, (if i + 1 < (s.arrays a).size then Pntr.obj d (i + 1) else u) = _ :=
            fun u => if_pos hlt
          exact .inl (congrArg (Move.item x) ((h t').trans (h t).symm))
        · exact .inr ⟨x, congrArg (Move.item x) (if_neg hlt), congrArg (Move.item x) (if_neg hlt)⟩
    · left
      simp only [setNode_nodes_of_ne hd, setTail_items hn, setTail_item hn, setNode_arrays]
      rfl

theorem setTail_denote (hw : s.Wf) (hc : c < s.ncells) (hp : s.Valid p) :
    (s.setNode c (.aref a (s.target t))).denote p = s.denote p := by
  have hvt := (hw.aref c a t hc hn).2.1
  refine unfold_unique (P := s.Valid) (fun q hq => ?_) hp
  obtain hm | ⟨x, hold, hnew⟩ := setTail_move hn (s.target t) q
  · cases hm' : s.move q with
    | item x r => exact .inl ⟨x, r, hm.trans hm', hw.valid_move hq hm', unfold_item hm'⟩
    | done r => exact .inr ⟨r, hm.trans hm', unfold_done hm'⟩
  · refine .inl ⟨x, s.target t, hnew, hw.valid_target hvt, ?_⟩
    rw [hw.denote_target hvt]
    exact unfold_item hold

theorem setTail_resolved (hw : s.Wf) (hc : c < s.ncells) :
    TailResolved s (s.setNode c (.aref a (s.target t))) where
  wf := setTail_wf hn hw (hw.valid_target (hw.aref c a t hc hn).2.1) hc
  valid p := (setTail_valid hn _ p).mpr
  target p _ := setTail_target hn _ p
  denote p := setTail_denote hn hw hc
  nil p _ := (setTail_nil hn _ p).mpr
  arrays := rfl
  ncells_le := le_rfl
  aref d b u hd := by
    by_cases hdc : d = c
    · subst hdc
      rw [hn] at hd
      cases hd
      exact ⟨_, setNode_nodes_self⟩
    · exact ⟨u, (setNode_nodes_of_ne hdc).trans hd⟩
  nil_iff := setTail_nil hn _

theorem arefResolveTail_of_aref (hw : s.Wf) (hc : c < s.ncells) :
    ∃ s', arefResolveTail c s = some s' ∧ TailResolved s s' := by
  have hv := (hw.aref c a t hc hn).2.1
  cases hi : s.isInd t with
  | true =>
    refine ⟨_, ?_, setTail_resolved hn hw hc⟩
    simp [arefResolveTail, Store.aref, hn, hi, hw.resolve hv]
  | false =>
    refine ⟨s, ?_, .refl hw⟩
    simp [arefResolveTail, Store.aref, hn, hi]

end

/-- `p` leads to an AREF cell of a byte array with NIL as the tail; `l` is the array from the index
on. -/
def StringArray (s : Store) (p : Pntr) (l : List (BitVec 8)) : Prop :=
  ∃ c i a t m, s.target p = .obj c i ∧ s.nodes c = .aref a t ∧ (s.arrays a).elements = .bytes m ∧
    s.node t = some .nil ∧ l = m.drop i

/-- The condition of `arraystrcmp` for a comparison of arrays. -/
def Fast (s : Store) (a b : Pntr) : Prop := ∃ l m, StringArray s a l ∧ StringArray s b m

theorem StringArray.eq_drop {c i a : Nat} {t : Pntr} {l m : List (BitVec 8)}
    (hn : s.nodes c = .aref a t) (hm : (s.arrays a).elements = .bytes m)
    (h : StringArray s (.obj c i) l) : s.node t = some .nil ∧ l = m.drop i := by
  obtain ⟨c', i', a', t', m', htar, hn', hm', hnil, rfl⟩ := h
  rw [target_aref hn] at htar
  cases htar
  rw [hn] at hn'
  cases hn'
  rw [hm] at hm'
  cases hm'
  exact ⟨hnil, rfl⟩

theorem StringArray.aref {l : List (BitVec 8)} (hi : s.isInd p = false) (h : StringArray s p l) :
    ∃ c i a t m, p = .obj c i ∧ s.nodes c = .aref a t ∧ (s.arrays a).elements = .bytes m := by
  obtain ⟨c, i, a, t, m, htar, hn, hm, -, -⟩ := h
  rw [target_of_not_isInd hi] at htar
  exact ⟨c, i, a, t, m, htar, hn, hm⟩

/-- The two AREF cells of the comparison. -/
theorem arraystrcmp_of_aref {ca aarr cb barr : Nat} {atail btail : Pntr} (ia ib : Nat) (hw : s.Wf)
    (hca : ca < s.ncells) (hcb : cb < s.ncells) (hna : s.nodes ca = .aref aarr atail)
    (hnb : s.nodes cb = .aref barr btail) :
    ∃ s', TailResolved s s' ∧ arraystrcmp (.obj ca ia) (.obj cb ib) s =
      some (match (s.arrays aarr).elements, (s.arrays barr).elements with
        | .bytes l, .bytes m =>
          if s.node atail = some .nil ∧ s.node btail = some .nil then
            some (compareBytes (l.drop ia) (m.drop ib))
          else none
        | _, _ => none, s') := by
  obtain ⟨s₁, hr₁, h₁⟩ := arefResolveTail_of_aref hna hw hca
  obtain ⟨btail', hnb'⟩ := h₁.aref cb barr btail hnb
  obtain ⟨s₂, hr₂, h₂⟩ := arefResolveTail_of_aref hnb' h₁.wf (hcb.trans_le h₁.ncells_le)
  have h := h₁.trans h₂
  have hda : s.node (.obj ca ia) = some (.aref aarr atail) := congrArg some hna
  have hdb : s.node (.obj cb ib) = some (.aref barr btail) := congrArg some hnb
  refine ⟨s₂, h, ?_⟩
  simp only [arraystrcmp, hda, hdb, hr₁, hr₂, Option.bind_eq_bind, Option.bind_some, h.arrays,
    h.nil_iff]
  split
  · split <;> rfl
  · rfl

theorem arraystrcmp_cases {a b : Pntr} (hw : s.Wf) (ha : s.Valid a) (hb : s.Valid b)
    (hia : s.isInd a = false) (hib : s.isInd b = false) :
    ∃ res s', arraystrcmp a b s = some (res, s') ∧ TailResolved s s' ∧
      ((¬ Fast s a b ∧ res = none) ∨
        ∃ l m, StringArray s a l ∧ StringArray s b m ∧ res = some (compareBytes l m)) := by
  by_cases hcells : ∃ ca ia aarr at' cb ib barr bt, a = .obj ca ia ∧ s.nodes ca = .aref aarr at' ∧
      b = .obj cb ib ∧ s.nodes cb = .aref barr bt
  · obtain ⟨ca, ia, aarr, atail, cb, ib, barr, btail, rfl, hna, rfl, hnb⟩ := hcells
    obtain ⟨s', h, hrun⟩ := arraystrcmp_of_aref ia ib hw ha.1 hb.1 hna hnb
    refine ⟨_, s', hrun, h, ?_⟩
    split
    · next l m hl hm =>
      split
      · next hnil =>
        exact .inr ⟨_, _, ⟨ca, ia, aarr, atail, l, target_aref hna, hna, hl, hnil.1, rfl⟩,
          ⟨cb, ib, barr, btail, m, target_aref hnb, hnb, hm, hnil.2, rfl⟩, rfl⟩
      · next hnil =>
        refine .inl ⟨?_, rfl⟩
        rintro ⟨l', m', hl', hm'⟩
        exact hnil ⟨(hl'.eq_drop hna hl).1, (hm'.eq_drop hnb hm).1⟩
    · next hne =>
      refine .inl ⟨?_, rfl⟩
      rintro ⟨l', m', hl', hm'⟩
      obtain ⟨c, i, arr, t, l, hc, hn, hl⟩ := hl'.aref hia
      obtain ⟨d, j, arr', t', m, hd, hn', hm⟩ := hm'.aref hib
      cases hc
      cases hd
      cases hna.symm.trans hn
      cases hnb.symm.trans hn'
      exact hne l m hl hm
  · refine ⟨none, s, ?_, .refl hw, .inl ⟨?_, rfl⟩⟩
    · rw [arraystrcmp]
      rintro ca ia aarr atail cb ib barr btail rfl hna rfl hnb
      exact hcells ⟨ca, ia, aarr, atail, cb, ib, barr, btail, rfl, Option.some.inj hna, rfl,
        Option.some.inj hnb⟩
    · rintro ⟨l, m, hl, hm⟩
      obtain ⟨ca, ia, aarr, atail, -, rfl, hna, -⟩ := hl.aref hia
      obtain ⟨cb, ib, barr, btail, -, rfl, hnb, -⟩ := hm.aref hib
      exact hcells ⟨ca, ia, aarr, atail, cb, ib, barr, btail, rfl, hna, rfl, hnb⟩

/-- The elements in front of the end. -/
theorem eq_of_prepend_end {q r : Pntr} (h : prepend (xs.map .char) (.cons (.inr q) .nil) =
    prepend (ys.map .char) (.cons (.inr r) .nil)) : xs = ys := by
  induction xs generalizing ys with
  | nil =>
    cases ys with
    | nil => rfl
    | cons y ys =>
      obtain ⟨hq, -⟩ := Stream'.Seq.cons_injective2 h
      cases hq
  | cons x xs ih =>
    cases ys with
    | nil =>
      obtain ⟨hq, -⟩ := Stream'.Seq.cons_injective2 h
      cases hq
    | cons y ys =>
      obtain ⟨hx, hrest⟩ := Stream'.Seq.cons_injective2 h
      cases hx
      rw [ih hrest]

theorem IsString.unique (h : IsString s p xs) (h' : IsString s p ys) : xs = ys := by
  obtain ⟨q, -, -, hd⟩ := h
  obtain ⟨r, -, -, hd'⟩ := h'
  exact eq_of_prepend_end (hd.symm.trans hd')

theorem denote_nil (hn : s.node p = some .nil) : s.denote p = .cons (.inr p) .nil := by
  cases p with
  | num d => cases hn
  | obj d j =>
    have hd := Option.some.inj hn
    refine unfold_done ?_
    rw [move_of_not_isInd (by simp [Store.isInd, node, hd]), hd]

theorem isString_of_aref {c a i : Nat} {t : Pntr} {l : List (BitVec 8)}
    (hn : s.nodes c = .aref a t) (hl : (s.arrays a).elements = .bytes l)
    (hi : i < (s.arrays a).size) (ht : s.Valid t) (hnil : s.node t = some .nil) :
    IsString s (.obj c i) (l.drop i) := by
  refine ⟨t, ht, hnil, ?_⟩
  rw [denote_aref hn hi, hl, items, ← List.map_drop, denote_nil hnil]

/-- The elements that `arraystrcmp` compares are the string. -/
theorem StringArray.eq {l : List (BitVec 8)} (hw : s.Wf) (hp : s.Valid p) (h : StringArray s p l)
    (hx : IsString s p xs) : l = xs := by
  obtain ⟨c, i, a, t, m, htar, hn, hm, hnil, rfl⟩ := h
  have hv := htar ▸ hw.valid_target hp
  have hi : i < (s.arrays a).size := by
    have h2 := hv.2
    simpa only [hn] using h2
  have hstr := isString_of_aref hn hm hi (hw.aref c a t hv.1 hn).2.1 hnil
  exact hstr.unique (htar ▸ hx.target hw hp)

/-! ## The order of bytes -/

/-- Where two strings first differ, both elements are below 128, or none is. -/
def SameHalf : List (BitVec 8) → List (BitVec 8) → Prop
  | x :: xs, y :: ys => if x = y then SameHalf xs ys else x.msb = y.msb
  | _, _ => True

theorem compare_bytes (x y : BitVec 8) : compare x y =
    if x.toNat < y.toNat then .lt else if x = y then .eq else .gt := rfl

theorem compare_zero (n : Int) : compare n 0 = if n < 0 then .lt else if n = 0 then .eq else .gt :=
  rfl

theorem compare_cons_of_ne {x y : BitVec 8} (h : x ≠ y) :
    compare (x :: xs) (y :: ys) = compare x y := by
  rw [List.compare_eq_compareLex, List.compareLex_cons_cons, compare_bytes]
  rw [if_neg h]
  split <;> rfl

theorem compare_cons_self (x : BitVec 8) : compare (x :: xs) (x :: ys) = compare xs ys := by
  have hx : compare x x = .eq := by
    rw [compare_bytes, if_neg (lt_irrefl _), if_pos rfl]
  rw [List.compare_eq_compareLex, List.compareLex_cons_cons, hx]
  rfl

theorem compare_mul_one (n : Int) : compare (n * one) 0 = compare n 0 := by
  have hlt : n * one < 0 ↔ n < 0 := by
    constructor
    · intro h
      by_contra hn
      exact absurd h (Int.not_lt.mpr (Int.mul_nonneg (Int.not_lt.mp hn) one_pos.le))
    · exact fun h => Int.mul_neg_of_neg_of_pos h one_pos
  have heq : n * one = 0 ↔ n = 0 := by
    rw [Int.mul_eq_zero]
    exact or_iff_left one_pos.ne'
  simp only [compare_zero, hlt, heq]

theorem compare_one : compare one 0 = .gt := by
  rw [← Int.one_mul one, compare_mul_one]
  rfl

theorem compare_neg_one : compare (-one) 0 = .lt := by
  rw [← Int.neg_one_mul, compare_mul_one]
  rfl

/-- The difference of unsigned bytes -/
theorem compare_toNat_sub (x y : BitVec 8) :
    compare (x.toNat * one - y.toNat * one) 0 = compare x y := by
  rw [← Int.sub_mul, compare_mul_one, compare_zero, compare_bytes]
  have heq : (x.toNat : Int) - y.toNat = 0 ↔ x = y := by
    rw [← BitVec.toNat_inj]
    omega
  have hlt : (x.toNat : Int) - y.toNat < 0 ↔ x.toNat < y.toNat := by omega
  simp only [hlt, heq]

/-- The difference of signed bytes -/
theorem compare_toInt_sub {x y : BitVec 8} (h : x ≠ y) :
    compare ((x.toInt - y.toInt) * one) 0 = compare x y ↔ x.msb = y.msb := by
  have hne : x.toNat ≠ y.toNat := fun he => h (BitVec.toNat_inj.mp he)
  have hx := x.isLt
  have hy := y.isLt
  rw [compare_mul_one, compare_zero, compare_bytes, if_neg h, BitVec.toInt_eq_toNat_cond,
    BitVec.toInt_eq_toNat_cond, BitVec.msb_eq_decide, BitVec.msb_eq_decide, decide_eq_decide]
  grind

theorem compareBytes_right_iff :
    compare (compareBytes xs ys) 0 = compare xs ys ↔ SameHalf xs ys := by
  induction xs generalizing ys with
  | nil =>
    cases ys with
    | nil => exact iff_of_true rfl trivial
    | cons y ys =>
      exact iff_of_true compare_neg_one trivial
  | cons x xs ih =>
    cases ys with
    | nil =>
      exact iff_of_true compare_one trivial
    | cons y ys =>
      rw [compareBytes, SameHalf]
      by_cases h : x = y
      · subst h
        rw [if_neg (not_not.mpr rfl), if_pos rfl, compare_cons_self]
        exact ih
      · rw [if_pos h, if_neg h, compare_cons_of_ne h]
        exact compare_toInt_sub h

theorem compareBytes_eq_zero_iff : compareBytes xs ys = 0 ↔ xs = ys := by
  induction xs generalizing ys with
  | nil =>
    cases ys with
    | nil => exact iff_of_true rfl rfl
    | cons y ys => exact iff_of_false (Int.neg_ne_zero.mpr one_pos.ne') (List.cons_ne_nil y ys).symm
  | cons x xs ih =>
    cases ys with
    | nil => exact iff_of_false one_pos.ne' (List.cons_ne_nil x xs)
    | cons y ys =>
      rw [compareBytes]
      by_cases h : x = y
      · subst h
        rw [if_neg (not_not.mpr rfl), ih, List.cons.injEq]
        exact (and_iff_right rfl).symm
      · rw [if_pos h]
        refine iff_of_false (Int.mul_ne_zero (fun hs => h ?_) one_pos.ne')
          (fun he => h (List.cons.inj he).1)
        exact BitVec.toInt_inj.mp (Int.sub_eq_zero.mp hs)

/-! ## The run of strcmp -/

/-- The arguments of a call of `strcmp`, and the store before it. -/
structure StrcmpCall where
  a : Pntr
  b : Pntr
  store : Store

/-- The call goes on to the tails of `a` and `b`; `s` is the store after `arraystrcmp`. -/
structure GoesOn (c : StrcmpCall) (a b : Pntr) (s : Store) : Prop where
  fst : c.store.resolvePntr c.a = some a
  snd : c.store.resolvePntr c.b = some b
  slow : arraystrcmp a b c.store = some (none, s)
  some_fst : isNil s a = false
  some_snd : isNil s b = false
  heads : ∃ x, head a s = some x ∧ head b s = some x

section

variable (misread : Store → Data → Nat → Pntr)

/-- The next call -/
def Turn (c c' : StrcmpCall) : Prop :=
  ∃ a b s s₁ k, GoesOn c a b s ∧ tail misread k b s = some (c'.b, s₁) ∧
    tail misread k a s₁ = some (c'.a, c'.store)

def Reaches (c c' : StrcmpCall) : Prop := Relation.ReflTransGen (Turn misread) c c'

/-- In each call of `tail` the list settles. -/
def Calm (c : StrcmpCall) : Prop :=
  ∀ c', Reaches misread c c' → ∀ a b s, GoesOn c' a b s →
    Settled s b ∧ ∀ k b' s₁, tail misread k b s = some (b', s₁) → Settled s₁ a

/-- Where the arrays are compared, the first difference is not one of signs. -/
def Signless (c : StrcmpCall) (xs ys : List (BitVec 8)) : Prop :=
  (∃ c', Reaches misread c c' ∧ Fast c'.store c'.a c'.b) → SameHalf xs ys

/-- A pair of strings, as the arguments of `strcmp`. -/
structure Compares (c : StrcmpCall) (xs ys : List (BitVec 8)) : Prop where
  wf : c.store.Wf
  valid_fst : c.store.Valid c.a
  valid_snd : c.store.Valid c.b
  fst : IsString c.store c.a xs
  snd : IsString c.store c.b ys

/-- `strcmp` returns `n`. -/
def Gives (c : StrcmpCall) (n : Int) : Prop :=
  ∃ N s', ∀ k ≥ N, strcmp misread k c.a c.b c.store = some (n, s')

theorem strcmp_turn {a b : Pntr} {s : Store} {c : StrcmpCall} (ha : c.store.resolvePntr c.a = some a)
    (hb : c.store.resolvePntr c.b = some b) (hres : arraystrcmp a b c.store = some (none, s))
    (k : Nat) : strcmp misread (k + 1) c.a c.b c.store =
      strcmpcons misread (strcmp misread k) k a b s := by
  rw [strcmp]
  simp only [ha, hb, hres, Option.bind_eq_bind, Option.bind_some]

theorem gives_of_turn {n : Int} {a b : Pntr} {s s' : Store} {c : StrcmpCall}
    (ha : c.store.resolvePntr c.a = some a) (hb : c.store.resolvePntr c.b = some b)
    (hres : arraystrcmp a b c.store = some (none, s))
    (hcons : ∀ k, strcmpcons misread (strcmp misread k) k a b s = some (n, s')) :
    Gives misread c n := by
  refine ⟨1, s', fun k hk => ?_⟩
  obtain ⟨j, rfl⟩ : ∃ j, k = j + 1 := ⟨k - 1, by omega⟩
  rw [strcmp_turn misread ha hb hres, hcons]

theorem gives_of_fast {n : Int} {a b : Pntr} {s : Store} {c : StrcmpCall}
    (ha : c.store.resolvePntr c.a = some a) (hb : c.store.resolvePntr c.b = some b)
    (hres : arraystrcmp a b c.store = some (some n, s)) : Gives misread c n := by
  refine ⟨1, s, fun k hk => ?_⟩
  obtain ⟨j, rfl⟩ : ∃ j, k = j + 1 := ⟨k - 1, by omega⟩
  rw [strcmp]
  simp only [ha, hb, hres, Option.bind_eq_bind, Option.bind_some]
  rfl

theorem Turn.unique {c c₁ c₂ : StrcmpCall} (h₁ : Turn misread c c₁) (h₂ : Turn misread c c₂) :
    c₁ = c₂ := by
  obtain ⟨a, b, s, s₁, k, hg, htb, hta⟩ := h₁
  obtain ⟨a', b', s', s₁', k', hg', htb', hta'⟩ := h₂
  obtain rfl : a = a' := Option.some.inj (hg.fst.symm.trans hg'.fst)
  obtain rfl : b = b' := Option.some.inj (hg.snd.symm.trans hg'.snd)
  obtain rfl : s = s' := congrArg Prod.snd (Option.some.inj (hg.slow.symm.trans hg'.slow))
  have hb := tail_mono misread (le_max_left k k') htb
  rw [tail_mono misread (le_max_right k k') htb'] at hb
  have ha := tail_mono misread (le_max_left k k') hta
  simp only [Option.some.injEq, Prod.mk.injEq] at hb
  obtain ⟨hb, rfl⟩ := hb
  rw [tail_mono misread (le_max_right k k') hta'] at ha
  simp only [Option.some.injEq, Prod.mk.injEq] at ha
  cases c₁
  cases c₂
  simp_all

/-- A call that does not go on is the last one. -/
theorem signless_of_last {c : StrcmpCall} {xs ys : List (BitVec 8)}
    (hfast : ¬ Fast c.store c.a c.b) (hlast : ∀ c', ¬ Turn misread c c') :
    Signless misread c xs ys := by
  rintro ⟨c', hreach, hf⟩
  obtain rfl | ⟨d, hd, -⟩ := Relation.ReflTransGen.cases_head hreach
  · exact absurd hf hfast
  · exact absurd hd (hlast d)

theorem signless_turn {c c' : StrcmpCall} {x : BitVec 8} {xs ys : List (BitVec 8)}
    (hfast : ¬ Fast c.store c.a c.b) (hturn : Turn misread c c') :
    Signless misread c (x :: xs) (x :: ys) ↔ Signless misread c' xs ys := by
  have hsame : SameHalf (x :: xs) (x :: ys) ↔ SameHalf xs ys := by
    rw [SameHalf, if_pos rfl]
  rw [Signless, Signless, hsame]
  refine ⟨fun h ⟨d, hd, hf⟩ => h ⟨d, hd.head hturn, hf⟩, ?_⟩
  rintro h ⟨d, hd, hf⟩
  obtain rfl | ⟨e, he, hed⟩ := Relation.ReflTransGen.cases_head hd
  · exact absurd hf hfast
  · rw [Turn.unique misread he hturn] at hed
    exact h ⟨d, hed, hf⟩

theorem StringArray.target_iff {l : List (BitVec 8)} (hw : s.Wf) (hp : s.Valid p) :
    StringArray s (s.target p) l ↔ StringArray s p l := by
  rw [StringArray, StringArray, hw.target_target hp]

theorem fast_target_iff {a b : Pntr} (hw : s.Wf) (ha : s.Valid a) (hb : s.Valid b) :
    Fast s (s.target a) (s.target b) ↔ Fast s a b := by
  simp only [Fast, StringArray.target_iff hw ha, StringArray.target_iff hw hb]

/-- The heads agree: one turn, to two strings again. -/
theorem Compares.turn {c : StrcmpCall} {x : BitVec 8} {xs ys : List (BitVec 8)} {a b : Pntr}
    {s : Store} (hcalm : Calm misread c) (hg : GoesOn c a b s)
    (h : Compares ⟨a, b, s⟩ (x :: xs) (x :: ys)) (hia : s.isInd a = false)
    (hib : s.isInd b = false) :
    ∃ c', Turn misread c c' ∧ Compares c' xs ys ∧
      ∀ n, Gives misread c' n → Gives misread c n := by
  obtain ⟨hsb, hsa⟩ := hcalm c .refl a b s hg
  obtain ⟨r', s₁, N, hsp, hr', hys, htb⟩ :=
    tail_of_isString misread h.wf h.valid_snd hib hsb h.snd
  obtain ⟨r, s₂, N', hsp', hr, hxs, hta⟩ := tail_of_isString misread hsp.wf
    (hsp.valid a h.valid_fst) (hsp.isInd h.valid_fst hia) (hsa N r' s₁ (htb N le_rfl))
    (hsp.isString h.valid_fst h.fst)
  refine ⟨⟨r, r', s₂⟩, ⟨a, b, s, s₁, max N N', hg, htb _ (le_max_left _ _),
    hta _ (le_max_right _ _)⟩, ⟨hsp'.wf, hr, hsp'.valid r' hr', hxs, hsp'.isString hr' hys⟩, ?_⟩
  rintro n ⟨M, s₃, hrun⟩
  refine ⟨max M (max N N') + 1, s₃, fun k hk => ?_⟩
  obtain ⟨j, rfl⟩ : ∃ j, k = j + 1 := ⟨k - 1, by omega⟩
  obtain ⟨y, hx, hy⟩ := hg.heads
  rw [strcmp_turn misread hg.fst hg.snd hg.slow, strcmpcons, if_pos hg.some_fst, if_pos hg.some_snd]
  simp only [hx, hy, Option.bind_eq_bind, Option.bind_some, if_true, hta j (by omega),
    htb j (by omega)]
  exact hrun j (by omega)

theorem Calm.turn {c c' : StrcmpCall} (h : Calm misread c) (ht : Turn misread c c') :
    Calm misread c' :=
  fun d hd => h d (hd.head ht)

/-- The result `n` is right when the run is `Signless`. -/
def Right (c : StrcmpCall) (xs ys : List (BitVec 8)) (n : Int) : Prop :=
  (n = 0 ↔ xs = ys) ∧ (compare n 0 = compare xs ys ↔ Signless misread c xs ys)

theorem right_of_fast {c : StrcmpCall} (hfast : Fast c.store c.a c.b) :
    Right misread c xs ys (compareBytes xs ys) := by
  refine ⟨compareBytes_eq_zero_iff, compareBytes_right_iff.trans ?_⟩
  exact ⟨fun h _ => h, fun h => h ⟨c, .refl, hfast⟩⟩

theorem right_of_last {c : StrcmpCall} {n : Int} (hfast : ¬ Fast c.store c.a c.b)
    (hlast : ∀ c', ¬ Turn misread c c') (hn : n = 0 ↔ xs = ys)
    (hcmp : compare n 0 = compare xs ys) : Right misread c xs ys n :=
  ⟨hn, iff_of_true hcmp (signless_of_last misread hfast hlast)⟩

/-- The arguments of a call that does not compare arrays, and the store before `strcmpcons`. -/
structure Slow (c : StrcmpCall) (a b : Pntr) (s : Store) (xs ys : List (BitVec 8)) : Prop where
  fst : c.store.resolvePntr c.a = some a
  snd : c.store.resolvePntr c.b = some b
  slow : arraystrcmp a b c.store = some (none, s)
  not_fast : ¬ Fast c.store c.a c.b
  compares : Compares ⟨a, b, s⟩ xs ys
  not_ind_fst : s.isInd a = false
  not_ind_snd : s.isInd b = false

theorem Compares.cases {c : StrcmpCall} (h : Compares c xs ys) :
    (Fast c.store c.a c.b ∧ Gives misread c (compareBytes xs ys)) ∨
      ∃ a b s, Slow c a b s xs ys := by
  have hva := h.wf.valid_target h.valid_fst
  have hvb := h.wf.valid_target h.valid_snd
  have hia := h.wf.isInd_target h.valid_fst
  have hib := h.wf.isInd_target h.valid_snd
  have hxs := h.fst.target h.wf h.valid_fst
  have hys := h.snd.target h.wf h.valid_snd
  obtain ⟨res, s, hres, hs, ⟨hfast, rfl⟩ | ⟨l, m, hl, hm, rfl⟩⟩ :=
    arraystrcmp_cases h.wf hva hvb hia hib
  · rw [fast_target_iff h.wf h.valid_fst h.valid_snd] at hfast
    exact .inr ⟨_, _, s, h.wf.resolve h.valid_fst, h.wf.resolve h.valid_snd, hres, hfast,
      ⟨hs.wf, hs.valid _ hva, hs.valid _ hvb, hs.isString hva hxs, hs.isString hvb hys⟩,
      hs.isInd hva hia, hs.isInd hvb hib⟩
  · obtain rfl := hl.eq h.wf hva hxs
    obtain rfl := hm.eq h.wf hvb hys
    refine .inl ⟨(fast_target_iff h.wf h.valid_fst h.valid_snd).mp ⟨_, _, hl, hm⟩, ?_⟩
    exact gives_of_fast misread (h.wf.resolve h.valid_fst) (h.wf.resolve h.valid_snd) hres

theorem Slow.goesOn {c : StrcmpCall} {a b : Pntr} {s : Store} (h : Slow c a b s xs ys)
    {a' b' : Pntr} {s' : Store} (hg : GoesOn c a' b' s') : GoesOn c a b s := by
  obtain rfl : a = a' := Option.some.inj (h.fst.symm.trans hg.fst)
  obtain rfl : b = b' := Option.some.inj (h.snd.symm.trans hg.snd)
  obtain rfl : s = s' := congrArg Prod.snd (Option.some.inj (h.slow.symm.trans hg.slow))
  exact hg

/-- A result of `strcmpcons` without a call of `strcmp` -/
theorem Slow.ends {c : StrcmpCall} {a b : Pntr} {s : Store} {n : Int} (h : Slow c a b s xs ys)
    (hlast : ¬ GoesOn c a b s)
    (hcons : ∀ k, strcmpcons misread (strcmp misread k) k a b s = some (n, s))
    (hn : n = 0 ↔ xs = ys) (hcmp : compare n 0 = compare xs ys) :
    ∃ n, Gives misread c n ∧ Right misread c xs ys n :=
  ⟨n, gives_of_turn misread h.fst h.snd h.slow hcons, right_of_last misread h.not_fast
    (fun _ ⟨_, _, _, _, _, hg, _⟩ => hlast (h.goesOn hg)) hn hcmp⟩

theorem toNat_mul_one_ne {x y : BitVec 8} (h : x ≠ y) :
    (x.toNat : Int) * one ≠ y.toNat * one := by
  intro he
  have hn : (x.toNat : Int) = y.toNat := Int.eq_of_mul_eq_mul_right one_pos.ne' he
  exact h (BitVec.toNat_inj.mp (Int.ofNat.inj hn))

theorem strcmpcons_of_ne {next : Pntr → Pntr → Store → Option (Int × Store)} {k : Nat}
    {a b : Pntr} {x y : Int} (hna : isNil s a = false) (hnb : isNil s b = false)
    (ha : head a s = some x) (hb : head b s = some y) (hne : x ≠ y) :
    strcmpcons misread next k a b s = some (x - y, s) := by
  rw [strcmpcons, if_pos hna, if_pos hnb]
  simp only [ha, hb, Option.bind_eq_bind, Option.bind_some, if_neg hne, Option.pure_def]

/-- The heads differ. -/
theorem Slow.differ {c : StrcmpCall} {a b : Pntr} {s : Store} {x y : BitVec 8}
    (h : Slow c a b s (x :: xs) (y :: ys)) (hna : isNil s a = false) (hnb : isNil s b = false)
    (ha : head a s = some (x.toNat * one)) (hb : head b s = some (y.toNat * one)) (hxy : x ≠ y) :
    ∃ n, Gives misread c n ∧ Right misread c (x :: xs) (y :: ys) n := by
  have hne := toNat_mul_one_ne hxy
  apply h.ends misread (n := x.toNat * one - y.toNat * one)
  · intro hg
    obtain ⟨z, hz, hz'⟩ := hg.heads
    rw [ha] at hz
    rw [hb] at hz'
    exact hne (Option.some.inj (hz.trans hz'.symm))
  · exact fun k => strcmpcons_of_ne misread hna hnb ha hb hne
  · exact iff_of_false (fun he => hne (Int.sub_eq_zero.mp he)) (fun he => hxy (List.cons.inj he).1)
  · rw [compare_cons_of_ne hxy, compare_toNat_sub]

/-- The run of `strcmp`, by induction on the first string. -/
theorem strcmp_run {c : StrcmpCall} (h : Compares c xs ys) (hcalm : Calm misread c) :
    ∃ n, Gives misread c n ∧ Right misread c xs ys n := by
  induction xs generalizing c ys with
  | nil =>
    obtain ⟨hfast, hgives⟩ | ⟨a, b, s, hs⟩ := h.cases misread
    · exact ⟨_, hgives, right_of_fast misread hfast⟩
    have hc := hs.compares
    obtain ⟨-, hna⟩ | ⟨x, xs', r, hx, -⟩ := hc.fst.cases hc.wf hc.valid_fst hs.not_ind_fst
    · have hlast : ¬ GoesOn c a b s := fun hg => by simp [hg.some_fst] at hna
      obtain ⟨rfl, hnb⟩ | ⟨y, ys', r, rfl, hnb, -⟩ :=
        hc.snd.cases hc.wf hc.valid_snd hs.not_ind_snd
      · refine hs.ends misread hlast (fun k => ?_) (iff_of_true rfl rfl) rfl
        rw [strcmpcons, if_neg (by simp [hna]), if_neg (by simp [hnb])]
      · refine hs.ends misread hlast (n := -one) (fun k => ?_) ?_ compare_neg_one
        · rw [strcmpcons, if_neg (by simp [hna]), if_pos hnb]
        · exact iff_of_false (Int.neg_ne_zero.mpr one_pos.ne') (List.cons_ne_nil y ys').symm
    · cases hx
  | cons x xs ih =>
    obtain ⟨hfast, hgives⟩ | ⟨a, b, s, hs⟩ := h.cases misread
    · exact ⟨_, hgives, right_of_fast misread hfast⟩
    have hc := hs.compares
    obtain ⟨hx, -⟩ | ⟨_, _, r, hx, hna, hma, -⟩ :=
      hc.fst.cases hc.wf hc.valid_fst hs.not_ind_fst
    · cases hx
    cases hx
    have hha := head_of_move hc.wf hc.valid_fst hs.not_ind_fst hma
    obtain ⟨rfl, hnb⟩ | ⟨y, ys, r', rfl, hnb, hmb, -⟩ :=
      hc.snd.cases hc.wf hc.valid_snd hs.not_ind_snd
    · refine hs.ends misread (fun hg => by simp [hg.some_snd] at hnb) (n := one) (fun k => ?_) ?_
        compare_one
      · rw [strcmpcons, if_pos hna, if_neg (by simp [hnb])]
      · exact iff_of_false one_pos.ne' (List.cons_ne_nil x xs)
    have hhb := head_of_move hc.wf hc.valid_snd hs.not_ind_snd hmb
    by_cases hxy : x = y
    · -- the heads agree, so `strcmp` goes on with the tails
      subst hxy
      have hg : GoesOn c a b s := ⟨hs.fst, hs.snd, hs.slow, hna, hnb, _, hha, hhb⟩
      obtain ⟨c', hturn, hc', hgives⟩ :=
        hc.turn misread hcalm hg hs.not_ind_fst hs.not_ind_snd
      obtain ⟨n, hn, hzero, hright⟩ := ih hc' (hcalm.turn misread hturn)
      refine ⟨n, hgives n hn, ?_, ?_⟩
      · rw [hzero, List.cons.injEq]
        exact (and_iff_right rfl).symm
      · rw [compare_cons_self, hright, signless_turn misread hs.not_fast hturn]
    · exact hs.differ misread hna hnb hha hhb hxy

/-- The sign of the result is the order of the strings, when in no call of the run two arrays are
compared that differ first in a sign. `streq` is right in any case. -/
theorem strcmp_right_iff {c : StrcmpCall} (h : Compares c xs ys) (hcalm : Calm misread c) :
    ∃ N n s', (∀ k ≥ N, strcmp misread k c.a c.b c.store = some (n, s') ∧
        streq misread k c.a c.b c.store = some (decide (xs = ys), s')) ∧
      (compare n 0 = compare xs ys ↔ Signless misread c xs ys) := by
  obtain ⟨n, ⟨N, s', hrun⟩, hzero, hright⟩ := strcmp_run misread h hcalm
  refine ⟨N, n, s', fun k hk => ⟨hrun k hk, ?_⟩, hright⟩
  rw [streq, hrun k hk]
  have heq : (n == 0) = decide (xs = ys) := by
    rw [Bool.beq_eq_decide_eq, decide_eq_decide]
    exact hzero
  exact congrArg (fun e => some (e, s')) heq

end

/-- NIL, and the strings `"ab"`, a CONS cell in front of an array, and `"ac"`, an array. -/
def consAndArray : Store where
  nodes
    | 1 => .cons (.num 0x4058400000000000) (.obj 2 0)
    | 2 => .aref 0 (.obj 0 0)
    | 3 => .aref 1 (.obj 0 0)
    | _ => .nil
  ncells := 4
  arrays a :=
    if a = 0 then ⟨sizereq 1 .byte, 1, false, 0, .bytes [0x62]⟩
    else ⟨sizereq 2 .byte, 2, false, 0, .bytes [0x61, 0x63]⟩
  narrays := 2
  globnilpntr := .obj 0 0

theorem consAndArray_nodes (c : Nat) : consAndArray.nodes c = .nil ∨
    (c = 1 ∧ consAndArray.nodes c = .cons (.num 0x4058400000000000) (.obj 2 0)) ∨
      ∃ a < 2, c = a + 2 ∧ consAndArray.nodes c = .aref a (.obj 0 0) := by
  match c with
  | 0 => exact .inl rfl
  | 1 => exact .inr (.inl ⟨rfl, rfl⟩)
  | 2 => exact .inr (.inr ⟨0, Nat.two_pos, rfl, rfl⟩)
  | 3 => exact .inr (.inr ⟨1, Nat.one_lt_two, rfl, rfl⟩)
  | _ + 4 => exact .inl rfl

theorem consAndArray_aref {c a : Nat} {t : Pntr} (h : consAndArray.nodes c = .aref a t) :
    a < 2 ∧ c = a + 2 ∧ t = .obj 0 0 := by
  obtain hc | ⟨-, hc⟩ | ⟨b, hb, rfl, hc⟩ := consAndArray_nodes c <;> rw [hc] at h <;> cases h
  exact ⟨hb, rfl, rfl⟩

theorem consAndArray_nil : consAndArray.Valid (.obj 0 0) := ⟨Nat.succ_pos 3, rfl⟩

theorem consAndArray_wf : consAndArray.Wf where
  cons c h t _ hn := by
    obtain hc | ⟨-, hc⟩ | ⟨_, -, -, hc⟩ := consAndArray_nodes c <;> rw [hc] at hn <;> cases hn
    exact ⟨trivial, (by decide : 2 < 4), Nat.one_pos⟩
  ind c p _ hn := by
    obtain hc | ⟨-, hc⟩ | ⟨_, -, -, hc⟩ := consAndArray_nodes c <;> rw [hc] at hn <;> cases hn
  aref c a t _ hn := by
    obtain ⟨ha, -, rfl⟩ := consAndArray_aref hn
    refine ⟨ha, consAndArray_nil, ?_⟩
    obtain rfl | rfl : a = 0 ∨ a = 1 := by omega
    · exact ⟨(by decide : 1 ≤ maxArraySize), Nat.one_pos, le_rfl, by rintro _ ⟨⟩, by rintro _ ⟨⟩,
        by rintro _ ⟨⟩⟩
    · exact ⟨(by decide : 2 ≤ maxArraySize), Nat.two_pos, le_rfl, by rintro _ ⟨⟩, by rintro _ ⟨⟩,
        by rintro _ ⟨⟩⟩
  single c c' a t t' _ _ hn hn' _ :=
    (consAndArray_aref hn).2.1.trans (consAndArray_aref hn').2.1.symm
  ends p _ := by
    cases p with
    | num d => exact ⟨_, rfl⟩
    | obj c i =>
      refine ⟨.obj c i, ?_⟩
      rw [Store.resolvePntr, Store.resolveFrom]
      obtain hc | ⟨-, hc⟩ | ⟨_, -, -, hc⟩ := consAndArray_nodes c <;> rw [hc]
  nil := consAndArray_nil

theorem consAndArray_compares :
    Compares ⟨.obj 1 0, .obj 3 0, consAndArray⟩ [0x61, 0x62] [0x61, 0x63] where
  wf := consAndArray_wf
  valid_fst := ⟨(by decide : 1 < 4), rfl⟩
  valid_snd := ⟨(by decide : 3 < 4), Nat.two_pos⟩
  fst := by
    obtain ⟨q, hq, hn, hd⟩ : IsString consAndArray (.obj 2 0) [0x62] :=
      isString_of_aref rfl rfl Nat.one_pos consAndArray_nil rfl
    refine ⟨q, hq, hn, ?_⟩
    have hitem : consAndArray.item (.num 0x4058400000000000) = .char 0x61 := by decide +kernel
    exact (Store.denote_cons (i := 0) rfl).trans (by rw [hitem, hd]; rfl)
  snd := isString_of_aref rfl rfl Nat.two_pos consAndArray_nil rfl

/-- The first call goes on to the tails, and the second compares arrays. -/
theorem consAndArray_turn {misread : Store → Data → Nat → Pntr} {c' : StrcmpCall}
    (h : Turn misread ⟨.obj 1 0, .obj 3 0, consAndArray⟩ c') :
    c' = ⟨.obj 2 0, .obj 3 1, consAndArray⟩ := by
  obtain ⟨fst, snd, store⟩ := c'
  obtain ⟨a, b, s, s₁, k, hg, hb, ha⟩ := h
  cases hg.fst
  cases hg.snd
  cases hg.slow
  cases k with
  | zero => cases hb
  | succ k =>
    cases hb
    cases ha
    rfl

theorem consAndArray_last {a b : Pntr} {s : Store} :
    ¬ GoesOn ⟨.obj 2 0, .obj 3 1, consAndArray⟩ a b s := by
  intro hg
  cases hg.fst
  cases hg.snd
  have hslow : some (some (compareBytes [0x62] [0x63]), consAndArray) = some (none, s) := hg.slow
  cases hslow

theorem consAndArray_calm (misread : Store → Data → Nat → Pntr) :
    Calm misread ⟨.obj 1 0, .obj 3 0, consAndArray⟩ := by
  have hend : ∀ c, c ≠ 0 → Ends consAndArray c .byte (.obj 0 0) := by
    refine fun c hc => ⟨fun i h => hc ?_, fun xs t' h => ?_⟩
    · cases h
      rfl
    · generalize Width.byte = w at h
      cases h with
      | cons hn => cases hn
      | aref hn => cases hn
  intro c' hreach a b s hg
  obtain rfl | ⟨d, hturn, hrest⟩ := Relation.ReflTransGen.cases_head hreach
  · cases hg.fst
    cases hg.snd
    cases hg.slow
    refine ⟨fun _ => .ends (hend 3 (by decide)), fun k b' s₁ hb => ?_⟩
    cases k with
    | zero => cases hb
    | succ k =>
      cases hb
      exact trivial
  · obtain rfl := consAndArray_turn hturn
    obtain rfl | ⟨d, ⟨a', b', s', _, _, hg', -⟩, -⟩ := Relation.ReflTransGen.cases_head hrest
    · exact absurd hg consAndArray_last
    · exact absurd hg' consAndArray_last

/-- `"ab"` comes before `"ac"`. The first characters are compared by `strcmpcons`, and the rest as
arrays. -/
theorem strcmp_right_iff_mixed :
    ∃ N n s', (∀ k ≥ N,
        strcmp (fun _ _ _ => .num 0) k (.obj 1 0) (.obj 3 0) consAndArray = some (n, s') ∧
        streq (fun _ _ _ => .num 0) k (.obj 1 0) (.obj 3 0) consAndArray = some (false, s')) ∧
      compare n 0 = .lt ∧
      ∃ c', Turn (fun _ _ _ => .num 0) ⟨.obj 1 0, .obj 3 0, consAndArray⟩ c' ∧
        Fast c'.store c'.a c'.b := by
  obtain ⟨N, n, s', hrun, hright⟩ := strcmp_right_iff (fun _ _ _ => .num 0) consAndArray_compares
    (consAndArray_calm (fun _ _ _ => .num 0))
  refine ⟨N, n, s', hrun, ?_, ⟨.obj 2 0, .obj 3 1, consAndArray⟩, ?_, [0x62], [0x63], ?_, ?_⟩
  · exact hright.2 (fun _ => (rfl : (0x62 : BitVec 8).msb = (0x63 : BitVec 8).msb))
  · refine ⟨.obj 1 0, .obj 3 0, consAndArray, consAndArray, 1, ⟨rfl, rfl, rfl, rfl, rfl, ?_⟩, rfl, rfl⟩
    exact ⟨0x61 * one, by decide +kernel, by decide +kernel⟩
  · exact ⟨2, 0, 0, .obj 0 0, [0x62], rfl, rfl, rfl, rfl, rfl⟩
  · exact ⟨3, 1, 1, .obj 0 0, [0x61, 0x63], rfl, rfl, rfl, rfl, rfl⟩

/-- NIL, and an array for each of the strings `"\x80"` and `"a"`. -/
def highAndLow : Store where
  nodes
    | 1 => .aref 0 (.obj 0 0)
    | 2 => .aref 1 (.obj 0 0)
    | _ => .nil
  ncells := 3
  arrays a := ⟨sizereq 1 .byte, 1, false, 0, .bytes [if a = 0 then 0x80 else 0x61]⟩
  narrays := 2
  globnilpntr := .obj 0 0

theorem highAndLow_nodes (c : Nat) : highAndLow.nodes c = .nil ∨
    ∃ a < 2, c = a + 1 ∧ highAndLow.nodes c = .aref a (.obj 0 0) := by
  match c with
  | 0 => exact .inl rfl
  | 1 => exact .inr ⟨0, Nat.two_pos, rfl, rfl⟩
  | 2 => exact .inr ⟨1, Nat.one_lt_two, rfl, rfl⟩
  | _ + 3 => exact .inl rfl

theorem highAndLow_aref {c a : Nat} {t : Pntr} (h : highAndLow.nodes c = .aref a t) :
    a < 2 ∧ c = a + 1 ∧ t = .obj 0 0 := by
  obtain hc | ⟨b, hb, rfl, hc⟩ := highAndLow_nodes c
  · rw [hc] at h
    cases h
  · rw [hc] at h
    cases h
    exact ⟨hb, rfl, rfl⟩

theorem highAndLow_nil : highAndLow.Valid (.obj 0 0) := ⟨Nat.succ_pos 2, rfl⟩

theorem highAndLow_wf : highAndLow.Wf where
  cons c h t _ hn := by
    obtain hc | ⟨_, -, -, hc⟩ := highAndLow_nodes c
    all_goals
      rw [hc] at hn
      cases hn
  ind c p _ hn := by
    obtain hc | ⟨_, -, -, hc⟩ := highAndLow_nodes c
    all_goals
      rw [hc] at hn
      cases hn
  aref c a t _ hn := by
    obtain ⟨ha, -, rfl⟩ := highAndLow_aref hn
    exact ⟨ha, highAndLow_nil, (by decide : 1 ≤ maxArraySize), Nat.one_pos, le_rfl,
      by rintro _ ⟨⟩, by rintro _ ⟨⟩, by rintro _ ⟨⟩⟩
  single c c' a t t' _ _ hn hn' _ :=
    (highAndLow_aref hn).2.1.trans (highAndLow_aref hn').2.1.symm
  ends p _ := by
    cases p with
    | num d => exact ⟨_, rfl⟩
    | obj c i =>
      refine ⟨.obj c i, ?_⟩
      rw [Store.resolvePntr, Store.resolveFrom]
      obtain hc | ⟨_, -, -, hc⟩ := highAndLow_nodes c
      all_goals rw [hc]
  nil := highAndLow_nil

theorem highAndLow_compares {i j a b : Nat} (hi : highAndLow.nodes i = .aref a (.obj 0 0))
    (hj : highAndLow.nodes j = .aref b (.obj 0 0)) :
    Compares ⟨.obj i 0, .obj j 0, highAndLow⟩ [if a = 0 then 0x80 else 0x61]
      [if b = 0 then 0x80 else 0x61] := by
  have hstr : ∀ {c a}, highAndLow.nodes c = .aref a (.obj 0 0) → highAndLow.Valid (.obj c 0) ∧
      IsString highAndLow (.obj c 0) [if a = 0 then 0x80 else 0x61] := by
    intro c a hc
    obtain ⟨ha, rfl, -⟩ := highAndLow_aref hc
    refine ⟨⟨(by omega : a + 1 < 3), ?_⟩, isString_of_aref hc rfl Nat.one_pos highAndLow_nil rfl⟩
    simp only [hc]
    exact Nat.one_pos
  exact ⟨highAndLow_wf, (hstr hi).1, (hstr hj).1, (hstr hi).2, (hstr hj).2⟩

/-- The strings `"\x80"` and `"a"`: the arrays are compared as -128 and 97. -/
theorem strcmp_signed :
    Compares ⟨.obj 1 0, .obj 2 0, highAndLow⟩ [0x80] [0x61] ∧
      ∃ n s', strcmp (fun _ _ _ => .num 0) 1 (.obj 1 0) (.obj 2 0) highAndLow = some (n, s') ∧
        compare n 0 = .lt ∧ compare [(0x80 : BitVec 8)] [0x61] = .gt := by
  refine ⟨highAndLow_compares (a := 0) (b := 1) rfl rfl, compareBytes [0x80] [0x61], highAndLow, rfl,
    ?_, rfl⟩
  rw [compareBytes, if_pos (by decide), compare_mul_one]
  rfl

end Lists
end Runtime
end NReduce
