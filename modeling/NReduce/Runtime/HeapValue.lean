import NReduce.Compiler.Program
import NReduce.Runtime.Reduction

/-!
# NReduce.Runtime.HeapValue

The meaning of the graph that `reduction.c` works on. A cell is an equation for its own value, in
the values of the cells it points to, and a heap is the system of these equations: `heapValue` is
its least solution.

`heapValue_eq_of_bounds` is how a change of the graph is shown to keep the value of every cell that
was there before: from above, by a solution of the new equations that extends the old values; from
below, by the new values being a solution of the old equations.
-/

namespace NReduce
namespace Reduction

open Compiler Domain

/-- A value for every cell -/
abbrev Values (K : Type) := Env Nat K

section

variable {K : Type} (I : Interp K) (scs : List Scomb)

def Pntr.value : Pntr → Values K → Dom K
  | .number d, _ => I.number d
  | .cell c, σ => σ c

/-- The value of an array is the list of its elements. -/
def Cell.value : Cell → Values K → Dom K
  | .empty, _ | .hole, _ => ∅
  | .application f a, σ => Dom.app (f.value I σ) (a.value I σ)
  | .builtin b, _ => I.builtin b
  | .scref i, _ => progEnv I scs (.sc i)
  | .cons x t, σ => Dom.cons (x.value I σ) (t.value I σ)
  | .aref x xs t, σ => Dom.cons (x.value I σ) <|
    xs.foldr (fun x v => Dom.cons (x.value I σ) v) (t.value I σ)
  | .string s, _ => I.string s
  | .nil, _ => I.nil
  | .ind p, σ => p.value I σ

theorem Pntr.value_finitary (p : Pntr) : Env.Finitary (p.value I) := by
  cases p with
  | number d => exact Env.Finitary.const _
  | cell c => exact Env.Finitary.var c

theorem elements_finitary (xs : List Pntr) (t : Pntr) :
    Env.Finitary (fun σ => xs.foldr (fun x v => Dom.cons (x.value I σ) v) (t.value I σ)) := by
  induction xs with
  | nil => exact t.value_finitary I
  | cons x xs ih => exact (x.value_finitary I).cons ih

theorem Cell.value_finitary (c : Cell) : Env.Finitary (c.value I scs) := by
  cases c with
  | empty | hole | builtin b | scref i | string s | nil => exact Env.Finitary.const _
  | application f a => exact (f.value_finitary I).app (a.value_finitary I)
  | cons x t => exact (x.value_finitary I).cons (t.value_finitary I)
  | aref x xs t => exact (x.value_finitary I).cons (elements_finitary I xs t)
  | ind p => exact p.value_finitary I

/-- The equations of a heap -/
def heapDefs (h : Heap) : Defs Nat K := fun c => some ((h.cells c).value I scs)

theorem heapDefs_finitary (h : Heap) : (heapDefs I scs h).Finitary := by
  intro c F hF
  cases hF
  exact (h.cells c).value_finitary I scs

/-- The values of the cells of a heap -/
def heapValue (h : Heap) : Values K := fixEnv (heapDefs I scs h) (fun _ => ∅)

theorem heapValue_cell (h : Heap) (c : Nat) :
    heapValue I scs h c = (h.cells c).value I scs (heapValue I scs h) :=
  fixEnv_some (heapDefs_finitary I scs h) _ rfl

theorem heapValue_le {h : Heap} {σ : Values K} (hσ : ∀ c, (h.cells c).value I scs σ ⊆ σ c) :
    heapValue I scs h ≤ σ :=
  fixEnv_le hσ

end

/-! ## Pointers into a heap -/

/-- A pointer to one of the first `n` cells -/
def Pntr.Inside (n : Nat) : Pntr → Prop
  | .number _ => True
  | .cell c => c < n

def Cell.Inside (n : Nat) : Cell → Prop
  | .application p q | .cons p q => p.Inside n ∧ q.Inside n
  | .aref x xs t => x.Inside n ∧ (∀ y ∈ xs, y.Inside n) ∧ t.Inside n
  | .ind p => p.Inside n
  | .string s => s ≠ ""
  | .empty | .builtin _ | .scref _ | .nil | .hole => True

theorem Pntr.Inside.mono {n m : Nat} (hnm : n ≤ m) {p : Pntr} (hp : p.Inside n) : p.Inside m := by
  cases p with
  | number d => trivial
  | cell c => exact Nat.lt_of_lt_of_le hp hnm

theorem Cell.Inside.mono {n m : Nat} (hnm : n ≤ m) {c : Cell} (hc : c.Inside n) : c.Inside m := by
  cases c with
  | application p q | cons p q => exact ⟨hc.1.mono hnm, hc.2.mono hnm⟩
  | aref x xs t => exact ⟨hc.1.mono hnm, fun y hy => (hc.2.1 y hy).mono hnm, hc.2.2.mono hnm⟩
  | ind p => exact Pntr.Inside.mono hnm hc
  | string s => exact hc
  | empty | builtin b | scref i | nil | hole => trivial

/-- The pointers of a heap lead to its cells, no string is empty, the cells to come are, and
`globnilpntr` points to a nil. -/
structure Heap.Wf (h : Heap) : Prop where
  fresh : ∀ c, h.ncells ≤ c → h.cells c = .empty
  inside : ∀ c, (h.cells c).Inside h.ncells
  globnil : h.cells h.globnil = .nil

theorem Heap.Wf.lt {h : Heap} (hw : h.Wf) {c : Nat} (hc : h.cells c ≠ .empty) : c < h.ncells :=
  Nat.lt_of_not_le fun hle => hc (hw.fresh c hle)

theorem Heap.Wf.globnil_lt {h : Heap} (hw : h.Wf) : h.globnil < h.ncells :=
  hw.lt (by simp [hw.globnil])

/-! ## New cells -/

/-- More cells, and the old ones as they were -/
structure Heap.Grows (h h' : Heap) : Prop where
  wf : h'.Wf
  le : h.ncells ≤ h'.ncells
  globnil : h'.globnil = h.globnil
  cells : ∀ c < h.ncells, h'.cells c = h.cells c

namespace Heap

variable {h h' h'' : Heap}

theorem Grows.refl (hw : h.Wf) : h.Grows h := ⟨hw, Nat.le_refl _, rfl, fun _ _ => rfl⟩

theorem Grows.trans (hg : h.Grows h') (hg' : h'.Grows h'') : h.Grows h'' where
  wf := hg'.wf
  le := hg.le.trans hg'.le
  globnil := hg'.globnil.trans hg.globnil
  cells c hc := (hg'.cells c (Nat.lt_of_lt_of_le hc hg.le)).trans (hg.cells c hc)

@[simp] theorem alloc_fst (h : Heap) (c : Cell) : (h.alloc c).1 = h.ncells := rfl

@[simp] theorem alloc_ncells (h : Heap) (c : Cell) : (h.alloc c).2.ncells = h.ncells + 1 := rfl

@[simp] theorem alloc_globnil (h : Heap) (c : Cell) : (h.alloc c).2.globnil = h.globnil := rfl

@[simp] theorem alloc_self (h : Heap) (c : Cell) : (h.alloc c).2.cells h.ncells = c :=
  Function.update_self _ _ _

theorem alloc_of_ne (h : Heap) (c : Cell) {a : Nat} (ha : a ≠ h.ncells) :
    (h.alloc c).2.cells a = h.cells a :=
  Function.update_of_ne ha _ _

@[simp] theorem set_ncells (h : Heap) (a : Nat) (c : Cell) : (h.set a c).ncells = h.ncells := rfl

@[simp] theorem set_globnil (h : Heap) (a : Nat) (c : Cell) : (h.set a c).globnil = h.globnil := rfl

@[simp] theorem set_self (h : Heap) (a : Nat) (c : Cell) : (h.set a c).cells a = c :=
  Function.update_self _ _ _

theorem set_of_ne (h : Heap) {a b : Nat} (c : Cell) (hb : b ≠ a) :
    (h.set a c).cells b = h.cells b :=
  Function.update_of_ne hb _ _

theorem Wf.alloc (hw : h.Wf) {c : Cell} (hc : c.Inside h.ncells) : h.Grows (h.alloc c).2 where
  wf := {
    fresh a ha := by
      simp only [alloc_ncells] at ha
      rw [alloc_of_ne h c (by omega), hw.fresh a (by omega)]
    inside a := by
      by_cases ha : a = h.ncells
      · rw [ha, alloc_self]
        exact hc.mono (Nat.le_succ _)
      · rw [alloc_of_ne h c ha]
        exact (hw.inside a).mono (Nat.le_succ _)
    globnil := by
      rw [alloc_globnil, alloc_of_ne h c (Nat.ne_of_lt hw.globnil_lt), hw.globnil] }
  le := Nat.le_succ _
  globnil := rfl
  cells a ha := alloc_of_ne h c (Nat.ne_of_lt ha)

theorem Wf.set (hw : h.Wf) {a : Nat} {c : Cell} (ha : a < h.ncells) (hnil : a ≠ h.globnil)
    (hc : c.Inside h.ncells) : (h.set a c).Wf where
  fresh b hb := by
    simp only [set_ncells] at hb
    rw [set_of_ne h c (by omega), hw.fresh b hb]
  inside b := by
    by_cases hb : b = a
    · rw [hb, set_self]
      exact hc
    · rw [set_of_ne h c hb]
      exact hw.inside b
  globnil := by rw [set_globnil, set_of_ne h c hnil.symm, hw.globnil]

end Heap

section

variable {K : Type} (I : Interp K) (scs : List Scomb) {n : Nat} {σ τ : Values K}

theorem Pntr.value_congr {p : Pntr} (hp : p.Inside n) (hστ : ∀ c < n, σ c = τ c) :
    p.value I σ = p.value I τ := by
  cases p with
  | number d => rfl
  | cell c => exact hστ c hp

theorem elements_congr {xs : List Pntr} {t : Pntr} (hxs : ∀ x ∈ xs, x.Inside n) (ht : t.Inside n)
    (hστ : ∀ c < n, σ c = τ c) :
    xs.foldr (fun x v => Dom.cons (x.value I σ) v) (t.value I σ) =
      xs.foldr (fun x v => Dom.cons (x.value I τ) v) (t.value I τ) := by
  induction xs with
  | nil => exact Pntr.value_congr I ht hστ
  | cons x xs ih =>
    rw [List.foldr_cons, List.foldr_cons, Pntr.value_congr I (hxs x List.mem_cons_self) hστ,
      ih fun y hy => hxs y (List.mem_cons_of_mem x hy)]

theorem Cell.value_congr {c : Cell} (hc : c.Inside n) (hστ : ∀ c < n, σ c = τ c) :
    c.value I scs σ = c.value I scs τ := by
  cases c with
  | empty | hole | builtin b | scref i | string s | nil => rfl
  | application p q | cons p q =>
    simp only [value, Pntr.value_congr I hc.1 hστ, Pntr.value_congr I hc.2 hστ]
  | aref x xs t =>
    simp only [value, Pntr.value_congr I hc.1 hστ, elements_congr I hc.2.1 hc.2.2 hστ]
  | ind p => exact Pntr.value_congr I hc hστ

/-- Values that solve the equations of the cells of a heap are not below its own. -/
theorem heapValue_le_of_inside {h : Heap} (hw : h.Wf)
    (hσ : ∀ c < h.ncells, (h.cells c).value I scs σ ⊆ σ c) :
    ∀ c < h.ncells, heapValue I scs h c ⊆ σ c := by
  -- the cells to come get the value ∅
  let τ : Values K := fun c => if c < h.ncells then σ c else ∅
  have hτ : ∀ c < h.ncells, τ c = σ c := fun c hc => if_pos hc
  have hle : heapValue I scs h ≤ τ := by
    apply heapValue_le
    intro c
    by_cases hc : c < h.ncells
    · rw [Cell.value_congr I scs (hw.inside c) hτ, hτ c hc]
      exact hσ c hc
    · rw [hw.fresh c (Nat.le_of_not_lt hc)]
      exact Set.empty_subset _
  intro c hc
  rw [← hτ c hc]
  exact hle c

/-- A changed heap in which the old cells have their old values -/
theorem heapValue_eq_of_bounds {h h' : Heap} (hw : h.Wf)
    (upper : ∃ τ : Values K, (∀ c < h.ncells, τ c = heapValue I scs h c) ∧
      ∀ c, (h'.cells c).value I scs τ ⊆ τ c)
    (lower : (∀ c < h.ncells, heapValue I scs h' c ⊆ heapValue I scs h c) →
      ∀ c < h.ncells, (h.cells c).value I scs (heapValue I scs h') ⊆ heapValue I scs h' c) :
    ∀ c < h.ncells, heapValue I scs h' c = heapValue I scs h c := by
  obtain ⟨τ, hτ, hpre⟩ := upper
  have hle : ∀ c < h.ncells, heapValue I scs h' c ⊆ heapValue I scs h c := by
    intro c hc
    rw [← hτ c hc]
    exact heapValue_le I scs hpre c
  intro c hc
  exact Set.Subset.antisymm (hle c hc) (heapValue_le_of_inside I scs hw (lower hle) c hc)

end

/-! ## Indirections -/

namespace Heap

/-- What `resolve_pntr` finds, whatever the bound -/
inductive Resolves (h : Heap) : Pntr → Pntr → Prop
  | number (d : Double) : Resolves h (.number d) (.number d)
  | cell {c : Nat} (hc : ∀ p, h.cells c ≠ .ind p) : Resolves h (.cell c) (.cell c)
  | ind {c : Nat} {p q : Pntr} (hc : h.cells c = .ind p) (hp : Resolves h p q) :
    Resolves h (.cell c) q

variable {h h' : Heap} {p q r : Pntr}

theorem resolves_of_resolve {k : Nat} (hr : h.resolve k p = some q) : h.Resolves p q := by
  induction k generalizing p with
  | zero => cases hr
  | succ k ih =>
    cases p with
    | number d =>
      cases hr
      exact .number d
    | cell c =>
      cases hc : h.cells c with
      | ind p =>
        simp only [resolve, hc] at hr
        exact .ind hc (ih hr)
      | _ =>
        simp only [resolve, hc] at hr
        cases hr
        exact .cell (by simp [hc])

theorem Resolves.unique (hq : h.Resolves p q) (hr : h.Resolves p r) : q = r := by
  induction hq with
  | number d =>
    cases hr
    rfl
  | cell hc =>
    cases hr with
    | cell => rfl
    | ind hi => exact absurd hi (hc _)
  | ind hi _ ih =>
    cases hr with
    | cell hc => exact absurd hi (hc _)
    | ind hi' hr =>
      rw [hi] at hi'
      cases hi'
      exact ih hr

/-- What has been found is found again. -/
theorem Resolves.idem (hq : h.Resolves p q) : h.Resolves q q := by
  induction hq with
  | number d => exact .number d
  | cell hc => exact .cell hc
  | ind _ _ ih => exact ih

theorem Resolves.not_ind {c : Nat} (hq : h.Resolves p (.cell c)) (r : Pntr) :
    h.cells c ≠ .ind r := by
  generalize hd : Pntr.cell c = d at hq
  induction hq with
  | number d => cases hd
  | cell hc =>
    cases hd
    exact hc r
  | ind _ _ ih => exact ih hd

theorem Resolves.inside (hw : h.Wf) (hq : h.Resolves p q) (hp : p.Inside h.ncells) :
    q.Inside h.ncells := by
  induction hq with
  | number d => trivial
  | cell hc => exact hp
  | @ind c _ _ hi _ ih =>
    have hin := hw.inside c
    rw [hi] at hin
    exact ih hin

/-- Indirections stay, so what a pointer leads to is still found while it is no indirection. -/
theorem Resolves.keep (hind : ∀ c p, h.cells c = .ind p → h'.cells c = .ind p)
    (hq : h.Resolves p q) (hq' : h'.Resolves q r) : h'.Resolves p r := by
  induction hq with
  | number d => exact hq'
  | cell hc => exact hq'
  | ind hi _ ih => exact .ind (hind _ _ hi) (ih hq')

section

variable {K : Type} (I : Interp K) (scs : List Scomb)

/-- A pointer means what it leads to. -/
theorem Resolves.value {σ : Values K}
    (hσ : ∀ c p, h.cells c = .ind p → σ c = p.value I σ) (hq : h.Resolves p q) :
    p.value I σ = q.value I σ := by
  induction hq with
  | number d => rfl
  | cell hc => rfl
  | ind hi _ ih => exact (hσ _ _ hi).trans ih

theorem Resolves.value_le {σ : Values K}
    (hσ : ∀ c p, h.cells c = .ind p → p.value I σ ⊆ σ c) (hq : h.Resolves p q) :
    q.value I σ ⊆ p.value I σ := by
  induction hq with
  | number d => exact le_refl _
  | cell hc => exact le_refl _
  | ind hi _ ih => exact Set.Subset.trans ih (hσ _ _ hi)

theorem Resolves.heapValue (hq : h.Resolves p q) :
    p.value I (heapValue I scs h) = q.value I (heapValue I scs h) := by
  apply hq.value
  intro c r hi
  rw [heapValue_cell, hi]
  rfl

end

end Heap

/-! ## Overwriting a redex -/

/-- The cells that `reduce` may overwrite -/
def Cell.isRedex : Cell → Bool
  | .application _ _ | .scref _ => true
  | .empty | .builtin _ | .cons _ _ | .aref _ _ _ | .string _ | .nil | .ind _ | .hole => false

section

variable {K : Type} (I : Interp K) (scs : List Scomb)

/-- `h'` is `h` with new cells, and with other lists in the cells of its lists. `res` means `v`, a
function of the values of the cells. -/
structure Builds (h h' : Heap) (res : Pntr) (v : Values K → Dom K) : Prop where
  wf : h'.Wf
  le : h.ncells ≤ h'.ncells
  inside : res.Inside h'.ncells
  kept : ∀ c < h.ncells, (h.cells c).isData = false → h'.cells c = h.cells c
  upper : ∃ τ : Values K, (∀ c < h.ncells, τ c = heapValue I scs h c) ∧
    (∀ c, (h.cells c).isRedex = false → (h'.cells c).value I scs τ ⊆ τ c) ∧
    res.value I τ ⊆ v (heapValue I scs h)
  lower : ∀ σ : Values K, (∀ c < h.ncells, σ c ⊆ heapValue I scs h c) →
    (∀ c, (h.cells c).isRedex = false → σ c = (h'.cells c).value I scs σ) →
    v σ ⊆ res.value I σ ∧ ∀ c, (h.cells c).isData = true → (h.cells c).value I scs σ ⊆ σ c

namespace Builds

variable {I scs} {h h' : Heap} {res : Pntr} {v : Values K → Dom K} {d : Nat}

theorem kept_of_isRedex (hb : Builds I scs h h' res v) (hw : h.Wf) {c : Nat}
    (hc : (h.cells c).isRedex = true) : h'.cells c = h.cells c := by
  apply hb.kept c
  · apply hw.lt
    intro he
    simp [he, Cell.isRedex] at hc
  · cases hcell : h.cells c <;> simp_all [Cell.isRedex, Cell.isData]

theorem not_isRedex (hb : Builds I scs h h' res v) (hw : h.Wf) {c : Nat} {p : Pntr}
    (hc : h'.cells c = .ind p) : (h.cells c).isRedex = false := by
  cases hr : (h.cells c).isRedex with
  | false => rfl
  | true =>
    rw [← hb.kept_of_isRedex hw hr, hc] at hr
    cases hr

/-- What the result leads to means the same. -/
theorem resolve (hb : Builds I scs h h' res v) (hw : h.Wf) {res' : Pntr}
    (hres : h'.Resolves res res') : Builds I scs h h' res' v where
  wf := hb.wf
  le := hb.le
  inside := hres.inside hb.wf hb.inside
  kept := hb.kept
  upper := by
    obtain ⟨τ, hτ, hpre, hle⟩ := hb.upper
    refine ⟨τ, hτ, hpre, Set.Subset.trans (hres.value_le I fun c p hc => ?_) hle⟩
    have := hpre c (hb.not_isRedex hw hc)
    rwa [hc] at this
  lower σ hle hσ := by
    obtain ⟨hv, hdata⟩ := hb.lower σ hle hσ
    rw [hres.value I fun c p hc => by rw [hσ c (hb.not_isRedex hw hc), hc]; rfl] at hv
    exact ⟨hv, hdata⟩

theorem set_wf (hb : Builds I scs h h' res v) (hw : h.Wf) (hd : (h.cells d).isRedex = true) :
    (h'.set d (.ind res)).Wf := by
  have hcell := hb.kept_of_isRedex hw hd
  apply hb.wf.set
  · apply hb.wf.lt
    intro he
    rw [← hcell, he] at hd
    cases hd
  · rintro rfl
    rw [← hcell, hb.wf.globnil] at hd
    cases hd
  · exact hb.inside

/-- The root of a redex is overwritten by an indirection to what the redex means. -/
theorem heapValue_set (hb : Builds I scs h h' res v) (hw : h.Wf) (hd : (h.cells d).isRedex = true)
    (hup : v (heapValue I scs h) ⊆ heapValue I scs h d)
    (hlow : ∀ σ : Values K, (∀ c, c ≠ d → σ c = (h'.cells c).value I scs σ) →
      (h.cells d).value I scs σ ⊆ v σ) :
    ∀ c < h.ncells, heapValue I scs (h'.set d (.ind res)) c = heapValue I scs h c := by
  have hcell : ∀ c, c ≠ d → (h'.set d (.ind res)).cells c = h'.cells c :=
    fun c hc => Heap.set_of_ne h' _ hc
  have hself := Heap.set_self h' d (.ind res)
  apply heapValue_eq_of_bounds I scs hw
  · obtain ⟨τ, hτ, hpre, hres⟩ := hb.upper
    have hlt : d < h.ncells := hw.lt fun he => by simp [he, Cell.isRedex] at hd
    refine ⟨τ, hτ, fun c => ?_⟩
    by_cases hc : c = d
    · rw [hc, hself, hτ d hlt]
      exact hres.trans hup
    · rw [hcell c hc]
      cases hr : (h.cells c).isRedex with
      | false => exact hpre c hr
      | true =>
        have hcl : c < h.ncells := hw.lt fun he => by simp [he, Cell.isRedex] at hr
        rw [hb.kept_of_isRedex hw hr, Cell.value_congr I scs (hw.inside c) hτ, hτ c hcl,
          ← heapValue_cell]
  · intro hle c hc
    have hσ : ∀ c, c ≠ d → heapValue I scs (h'.set d (.ind res)) c =
        (h'.cells c).value I scs (heapValue I scs (h'.set d (.ind res))) := by
      intro c hc
      rw [heapValue_cell, hcell c hc]
    obtain ⟨hres, hdata⟩ := hb.lower _ hle fun c hc => hσ c (by
      rintro rfl
      rw [hd] at hc
      cases hc)
    by_cases hcd : c = d
    · subst hcd
      rw [heapValue_cell I scs (h'.set c (.ind res)) c, hself]
      exact (hlow _ hσ).trans hres
    · cases hr : (h.cells c).isData with
      | true => exact hdata c hr
      | false => rw [hσ c hcd, hb.kept c hc hr]

end Builds

end

end Reduction
end NReduce
