import NReduce.Runtime.HeapValue

/-!
# NReduce.Runtime.Instantiate

What `instantiate_scomb` builds means what the body of the supercombinator means, in the
environment that the names on the stack give. The bound from below holds in any solution of the
equations of the new cells; for the bound from above, the values of the old cells are extended to
such a solution.
-/

namespace NReduce
namespace Reduction

open Compiler Domain

/-! ## Names -/

/-- The pointer of a name: the stacks are searched from the top. -/
def Names.find (names : Names) (x : String) : Option Pntr :=
  (names.find? (fun b => b.1 = x)).map Prod.snd

theorem Names.find_cons (names : Names) (y : String) (p : Pntr) (x : String) :
    Names.find ((y, p) :: names) x = if y = x then some p else names.find x := by
  by_cases hy : y = x <;> simp [Names.find, hy]

def Names.Inside (n : Nat) (names : Names) : Prop := ∀ b ∈ names, b.2.Inside n

theorem Names.Inside.mono {n m : Nat} (hnm : n ≤ m) {names : Names} (hn : names.Inside n) :
    names.Inside m :=
  fun b hb => (hn b hb).mono hnm

theorem Names.Inside.find {n : Nat} {names : Names} (hn : names.Inside n) {x : String} {p : Pntr}
    (hp : names.find x = some p) : p.Inside n := by
  obtain ⟨b, hb, rfl⟩ := Option.map_eq_some_iff.mp hp
  exact hn b (List.mem_of_find?_eq_some hb)

section

variable {K : Type} (I : Interp K) (scs : List Scomb)

/-- The environment that the names give -/
def namesEnv (names : Names) (σ : Values K) : Env Key K
  | .sc i => progEnv I scs (.sc i)
  | .var x =>
    match names.find x with
    | some p => p.value I σ
    | none => ∅

theorem namesEnv_congr {n : Nat} {names : Names} (hn : names.Inside n) {σ τ : Values K}
    (hστ : ∀ c < n, σ c = τ c) : namesEnv I scs names σ = namesEnv I scs names τ := by
  funext k
  cases k with
  | sc i => rfl
  | var x =>
    simp only [namesEnv]
    cases hp : names.find x with
    | none => rfl
    | some p => exact Pntr.value_congr I (hn.find hp) hστ

end

/-! ## Holes -/

/-- The holes of a letrec are the next cells. -/
structure Holes (h : Heap) (names : Names) (bs : Letrec) (names' : Names) (h' : Heap) : Prop where
  grows : h.Grows h'
  ncells : h'.ncells = h.ncells + bs.names.length
  inside : names'.Inside h'.ncells
  find : bs.names.Nodup → ∀ x, names'.find x =
    if x ∈ bs.names then some (.cell (h.ncells + bs.names.idxOf x)) else names.find x

theorem pushHoles_spec : ∀ (bs : Letrec) {h h' : Heap} {names names' : Names}, h.Wf →
    names.Inside h.ncells → pushHoles h names bs = (names', h') → Holes h names bs names' h'
  | .done, h, h', names, names', hw, hn, hrun => by
    cases hrun
    exact ⟨.refl hw, rfl, hn, fun _ x => by simp [Letrec.names]⟩
  | .bind y v s next, h, h', names, names', hw, hn, hrun => by
    have hg := hw.alloc (c := .hole) trivial
    have hn₁ : Names.Inside (h.ncells + 1) ((y, .cell h.ncells) :: names) := by
      intro b hb
      obtain rfl | hb := List.mem_cons.mp hb
      · exact Nat.lt_succ_self _
      · exact (hn b hb).mono (Nat.le_succ _)
    have hrest := pushHoles_spec next hg.wf hn₁ hrun
    refine ⟨hg.trans hrest.grows, ?_, hrest.inside, ?_⟩
    · rw [hrest.ncells, Heap.alloc_ncells, Letrec.names, List.length_cons]
      omega
    · intro hnd x
      rw [Letrec.names, List.nodup_cons] at hnd
      rw [hrest.find hnd.2, Heap.alloc_ncells, Names.find_cons, Letrec.names]
      by_cases hy : y = x
      · subst hy
        simp [hnd.1]
      · by_cases hx : x ∈ next.names
        · rw [if_pos hx, if_pos (List.mem_cons_of_mem y hx), List.idxOf_cons_ne _ hy]
          congr 2
          omega
        · rw [if_neg hx, if_neg hy, if_neg (by simp [hx, Ne.symm hy])]

/-! ## The body -/

section

variable {K : Type} (I : Interp K) (scs : List Scomb)

/-- The new cells of `h'` and `p` mean `v`, a function of the values of the names. -/
structure Instantiated (h : Heap) (names : Names) (v : Env Key K → Dom K) (p : Pntr) (h' : Heap) :
    Prop where
  grows : h.Grows h'
  inside : p.Inside h'.ncells
  lower : ∀ σ : Values K, I.nil ⊆ σ h.globnil →
    (∀ c, h.ncells ≤ c → (h'.cells c).value I scs σ ⊆ σ c) →
    v (namesEnv I scs names σ) ⊆ p.value I σ
  upper : ∀ σ : Values K, σ h.globnil ⊆ I.nil → ∃ τ : Values K, (∀ c < h.ncells, τ c = σ c) ∧
    (∀ c, h.ncells ≤ c → (h'.cells c).value I scs τ ⊆ τ c) ∧
    p.value I τ ⊆ v (namesEnv I scs names σ)

/-- The same of the bindings of a letrec, the holes included -/
structure BoundHoles (h : Heap) (names : Names) (hole : Nat) (bs : Letrec) (h' : Heap) : Prop where
  wf : h'.Wf
  le : h.ncells ≤ h'.ncells
  globnil : h'.globnil = h.globnil
  cells : ∀ c < h.ncells, c < hole ∨ hole + bs.names.length ≤ c → h'.cells c = h.cells c
  lower : ∀ σ : Values K, I.nil ⊆ σ h.globnil →
    (∀ c, h.ncells ≤ c ∨ hole ≤ c ∧ c < hole + bs.names.length →
      (h'.cells c).value I scs σ ⊆ σ c) →
    ∀ x F, defs I bs (.var x) = some F →
      F (namesEnv I scs names σ) ⊆ σ (hole + bs.names.idxOf x)
  upper : ∀ σ : Values K, σ h.globnil ⊆ I.nil →
    (∀ x F, defs I bs (.var x) = some F →
      F (namesEnv I scs names σ) ⊆ σ (hole + bs.names.idxOf x)) →
    ∃ τ : Values K, (∀ c < h.ncells, τ c = σ c) ∧
      ∀ c, h.ncells ≤ c ∨ hole ≤ c ∧ c < hole + bs.names.length →
        (h'.cells c).value I scs τ ⊆ τ c

variable {I scs} {h h' h₁ h₂ : Heap} {names : Names} {v v₁ v₂ : Env Key K → Dom K} {p p₁ p₂ : Pntr}

/-- A value for the next cell -/
theorem exists_extended (σ : Values K) (n : Nat) (d : Dom K) :
    ∃ τ : Values K, (∀ c < n, τ c = σ c) ∧ τ n = d :=
  ⟨Function.update σ n d, fun _ hc => Function.update_of_ne (Nat.ne_of_lt hc) _ _,
    Function.update_self _ _ _⟩

/-- A single new cell, with its value -/
theorem Instantiated.leaf (hw : h.Wf) (hn : names.Inside h.ncells) {c : Cell}
    (hc : c.Inside h.ncells)
    (hv : ∀ σ : Values K, c.value I scs σ = v (namesEnv I scs names σ)) :
    Instantiated I scs h names v (.cell h.ncells) (h.alloc c).2 := by
  have hcell := Heap.alloc_self h c
  refine ⟨hw.alloc hc, Nat.lt_succ_self _, ?_, ?_⟩
  · intro σ _ hσ
    have hself := hσ h.ncells (Nat.le_refl _)
    rw [hcell, hv] at hself
    exact hself
  · intro σ _
    obtain ⟨τ, hold, hself⟩ := exists_extended σ h.ncells (v (namesEnv I scs names σ))
    refine ⟨τ, hold, ?_, ?_⟩
    · intro a ha
      by_cases hne : a = h.ncells
      · rw [hne, hcell, hv, namesEnv_congr I scs hn hold, hself]
      · rw [(hw.alloc hc).wf.fresh a (by simp only [Heap.alloc_ncells]; omega)]
        exact Set.empty_subset _
    · rw [Pntr.value, hself]

/-- The cell of an application is made before its parts, and filled in after them. -/
theorem Instantiated.application (hw : h.Wf) (hn : names.Inside h.ncells)
    (hl : Instantiated I scs (h.alloc .empty).2 names v₁ p₁ h₁)
    (hr : Instantiated I scs h₁ names v₂ p₂ h₂) :
    Instantiated I scs h names (fun ρ => Dom.app (v₁ ρ) (v₂ ρ)) (.cell h.ncells)
      (h₂.set h.ncells (.application p₁ p₂)) := by
  have halloc := hw.alloc (c := .empty) trivial
  have hg := (halloc.trans hl.grows).trans hr.grows
  have hlt : h.ncells < h₁.ncells := Nat.lt_of_lt_of_le (Nat.lt_succ_self _) hl.grows.le
  have hin₁ := hl.inside.mono hr.grows.le
  have hnil : h.ncells ≠ h₂.globnil := by
    rw [hg.globnil]
    exact Nat.ne_of_gt hw.globnil_lt
  have hcell : ∀ c, c ≠ h.ncells →
      (h₂.set h.ncells (.application p₁ p₂)).cells c = h₂.cells c :=
    fun c hc => Heap.set_of_ne _ _ hc
  refine ⟨⟨hg.wf.set (Nat.lt_of_lt_of_le hlt hr.grows.le) hnil ⟨hin₁, hr.inside⟩, hg.le,
    hg.globnil, fun c hc => (hcell c (Nat.ne_of_lt hc)).trans (hg.cells c hc)⟩,
    Nat.lt_of_lt_of_le hlt hr.grows.le, ?_, ?_⟩
  · intro σ hσnil hσ
    have h₁σ := hl.lower σ hσnil fun c hc => by
      simp only [Heap.alloc_ncells] at hc
      by_cases hc₁ : c < h₁.ncells
      · rw [← hr.grows.cells c hc₁, ← hcell c (by omega)]
        exact hσ c (by omega)
      · rw [hl.grows.wf.fresh c (by omega)]
        exact Set.empty_subset _
    have h₂σ := hr.lower σ (by rw [hl.grows.globnil]; exact hσnil) fun c hc => by
      rw [← hcell c (by omega)]
      exact hσ c (by omega)
    have hself := hσ h.ncells (Nat.le_refl _)
    rw [Heap.set_self] at hself
    exact (Dom.app_mono h₁σ h₂σ).trans hself
  · intro σ hσnil
    -- the value of the application, before those of its parts
    obtain ⟨σ', hold, hself⟩ := exists_extended σ h.ncells
      (Dom.app (v₁ (namesEnv I scs names σ)) (v₂ (namesEnv I scs names σ)))
    obtain ⟨τ₁, hτ₁, hpre₁, hp₁⟩ := hl.upper σ' (by
      rw [Heap.alloc_globnil, hold _ hw.globnil_lt]
      exact hσnil)
    have hτ₁old : ∀ c < h.ncells, τ₁ c = σ c := fun c hc =>
      (hτ₁ c (Nat.lt_succ_of_lt hc)).trans (hold c hc)
    obtain ⟨τ₂, hτ₂, hpre₂, hp₂⟩ := hr.upper τ₁ (by
      rw [hl.grows.globnil, Heap.alloc_globnil, hτ₁old _ hw.globnil_lt]
      exact hσnil)
    rw [namesEnv_congr I scs hn hold] at hp₁
    rw [namesEnv_congr I scs hn hτ₁old] at hp₂
    have hself₂ : τ₂ h.ncells =
        Dom.app (v₁ (namesEnv I scs names σ)) (v₂ (namesEnv I scs names σ)) := by
      rw [hτ₂ _ hlt, hτ₁ _ (Nat.lt_succ_self _), hself]
    refine ⟨τ₂, fun c hc => (hτ₂ c (hc.trans hlt)).trans (hτ₁old c hc), ?_, ?_⟩
    · intro c hc
      by_cases hne : c = h.ncells
      · rw [hne, Heap.set_self, hself₂, Cell.value, Pntr.value_congr I hl.inside hτ₂]
        exact Dom.app_mono hp₁ hp₂
      · rw [hcell c hne]
        by_cases hc₁ : c < h₁.ncells
        · rw [hr.grows.cells c hc₁, Cell.value_congr I scs (hl.grows.wf.inside c) hτ₂, hτ₂ c hc₁]
          exact hpre₁ c (by simp only [Heap.alloc_ncells]; omega)
        · exact hpre₂ c (by omega)
    · rw [Pntr.value, hself₂]

theorem defs_bind_self (x : String) (e : Snode) (s : Bool) (next : Letrec) :
    defs I (.bind x e s next) (.var x) = some (denote I e) := by
  simp [defs]

theorem defs_bind_of_ne {x y : String} (hxy : y ≠ x) (e : Snode) (s : Bool) (next : Letrec) :
    defs I (.bind x e s next) (.var y) = defs I next (.var y) := by
  simp [defs, hxy]

theorem mem_of_defs {bs : Letrec} {x : String} {F : Env Key K → Dom K}
    (hF : defs I bs (.var x) = some F) : x ∈ bs.names := by
  by_contra hx
  rw [(defs_none_iff I bs x).mpr hx] at hF
  cases hF

theorem BoundHoles.done (hw : h.Wf) (hole : Nat) : BoundHoles I scs h names hole .done h := by
  refine ⟨hw, Nat.le_refl _, rfl, fun _ _ _ => rfl, ?_, ?_⟩
  · intro σ _ _ x F hF
    cases hF
  · intro σ _ _
    refine ⟨σ, fun _ _ => rfl, fun c hc => ?_⟩
    rw [hw.fresh c (by simp only [Letrec.names, List.length_nil] at hc; omega)]
    exact Set.empty_subset _

/-- The hole of a binding gets its value, and the other bindings follow. -/
theorem BoundHoles.bind {hole : Nat} {x : String} {e : Snode} {s : Bool} {next : Letrec}
    (hn : names.Inside h.ncells) (hnil : h.globnil < hole)
    (hlt : hole + (Letrec.bind x e s next).names.length ≤ h.ncells)
    (hnd : (Letrec.bind x e s next).names.Nodup)
    (he : Instantiated I scs h names (denote I e) p h₁)
    (hnext : BoundHoles I scs (h₁.set hole (.ind p)) names (hole + 1) next h') :
    BoundHoles I scs h names hole (.bind x e s next) h' := by
  rw [Letrec.names, List.length_cons] at hlt
  rw [Letrec.names, List.nodup_cons] at hnd
  have hle := he.grows.le
  have hcells := hnext.cells
  have hnextle := hnext.le
  simp only [Heap.set_ncells] at hcells hnextle
  have hhole : h'.cells hole = .ind p := by
    rw [hcells hole (by omega) (Or.inl (Nat.lt_succ_self _)), Heap.set_self]
  have hkept : ∀ c < h₁.ncells, c < hole ∨ hole + (next.names.length + 1) ≤ c →
      h'.cells c = h₁.cells c := by
    intro c hc hout
    rw [hcells c hc (by omega), Heap.set_of_ne _ _ (by omega)]
  refine ⟨hnext.wf, hle.trans hnextle, hnext.globnil.trans he.grows.globnil, ?_, ?_, ?_⟩
  · intro c hc hout
    rw [Letrec.names, List.length_cons] at hout
    rw [hkept c (by omega) hout, he.grows.cells c hc]
  · intro σ hσnil hσ y F hF
    rw [Letrec.names, List.length_cons] at hσ
    by_cases hy : y = x
    · subst hy
      rw [defs_bind_self] at hF
      cases hF
      have hv := he.lower σ hσnil fun c hc => by
        by_cases hc₁ : c < h₁.ncells
        · rw [← hkept c hc₁ (by omega)]
          exact hσ c (Or.inl hc)
        · rw [he.grows.wf.fresh c (by omega)]
          exact Set.empty_subset _
      have hself := hσ hole (Or.inr ⟨Nat.le_refl _, by omega⟩)
      rw [hhole] at hself
      rw [Letrec.names, List.idxOf_cons_self, Nat.add_zero]
      exact hv.trans hself
    · rw [defs_bind_of_ne hy] at hF
      have hrest := hnext.lower σ (by rw [Heap.set_globnil, he.grows.globnil]; exact hσnil)
        (fun c hc => hσ c (by simp only [Heap.set_ncells] at hc; omega)) y F hF
      rw [Letrec.names, List.idxOf_cons_ne _ (Ne.symm hy)]
      rw [Nat.add_right_comm] at hrest
      exact hrest
  · intro σ hσnil hF
    obtain ⟨τ₁, hτ₁, hpre₁, hp₁⟩ := he.upper σ hσnil
    have hnil₁ := hτ₁ h.globnil (by omega)
    obtain ⟨τ, hτ, hpre⟩ := hnext.upper τ₁ (by
      rw [Heap.set_globnil, he.grows.globnil, hnil₁]
      exact hσnil) (by
      intro y F hy
      have hmem := mem_of_defs hy
      have hxy : y ≠ x := fun heq => hnd.1 (heq ▸ hmem)
      have hidx := List.idxOf_lt_length_iff.mpr hmem
      have hbound := hF y F (by rw [defs_bind_of_ne hxy, hy])
      rw [Letrec.names, List.idxOf_cons_ne _ (Ne.symm hxy)] at hbound
      rw [namesEnv_congr I scs hn hτ₁, hτ₁ _ (by omega), Nat.add_right_comm]
      exact hbound)
    simp only [Heap.set_ncells] at hτ hpre
    refine ⟨τ, fun c hc => (hτ c (by omega)).trans (hτ₁ c hc), ?_⟩
    intro c hc
    rw [Letrec.names, List.length_cons] at hc
    by_cases hch : c = hole
    · have hself := hF x (denote I e) (defs_bind_self x e s next)
      rw [Letrec.names, List.idxOf_cons_self, Nat.add_zero] at hself
      rw [hch, hhole, hτ _ (by omega), hτ₁ _ (by omega), Cell.value,
        Pntr.value_congr I he.inside hτ]
      exact hp₁.trans hself
    · by_cases hnew : h.ncells ≤ c ∧ c < h₁.ncells
      · rw [hkept c hnew.2 (by omega), Cell.value_congr I scs (he.grows.wf.inside c) hτ,
          hτ c hnew.2]
        exact hpre₁ c hnew.1
      · exact hpre c (by omega)

end

/-- The holes give the letrec its environment. -/
theorem namesEnv_holes_le {K : Type} {I : Interp K} {scs : List Scomb} {h h' : Heap}
    {names names' : Names} {bs : Letrec} (hb : Holes h names bs names' h') (hnd : bs.names.Nodup)
    {σ : Values K} (hσ : ∀ x F, defs I bs (.var x) = some F →
      F (namesEnv I scs names' σ) ⊆ σ (h.ncells + bs.names.idxOf x)) :
    fixEnv (defs I bs) (namesEnv I scs names σ) ≤ namesEnv I scs names' σ := by
  apply fixEnv_le
  intro k
  cases k with
  | sc i =>
    rw [Defs.step_none (defs_sc I bs i)]
    exact le_refl _
  | var x =>
    have hfind := hb.find hnd x
    cases hF : defs I bs (.var x) with
    | none =>
      rw [Defs.step_none hF]
      rw [if_neg ((defs_none_iff I bs x).mp hF)] at hfind
      simp only [namesEnv, hfind]
      exact le_refl _
    | some F =>
      rw [Defs.step_some hF]
      rw [if_pos (mem_of_defs hF)] at hfind
      have hx : namesEnv I scs names' σ (.var x) = σ (h.ncells + bs.names.idxOf x) := by
        simp only [namesEnv, hfind, Pntr.value]
      rw [hx]
      exact hσ x F hF

/-- The values of the holes, for the environment of a letrec -/
theorem exists_holes {K : Type} (I : Interp K) (scs : List Scomb) {h h' : Heap}
    {names names' : Names} {bs : Letrec} (hn : names.Inside h.ncells)
    (hb : Holes h names bs names' h') (hnd : bs.names.Nodup) (σ : Values K) :
    ∃ τ : Values K, (∀ c < h.ncells, τ c = σ c) ∧
      (∀ x ∈ bs.names, τ (h.ncells + bs.names.idxOf x) =
        fixEnv (defs I bs) (namesEnv I scs names σ) (.var x)) ∧
      namesEnv I scs names' τ = fixEnv (defs I bs) (namesEnv I scs names σ) := by
  let τ : Values K := fun c =>
    if c < h.ncells then σ c
    else match bs.names[c - h.ncells]? with
      | some x => fixEnv (defs I bs) (namesEnv I scs names σ) (.var x)
      | none => ∅
  have hold : ∀ c < h.ncells, τ c = σ c := fun c hc => if_pos hc
  have hnew : ∀ x ∈ bs.names, τ (h.ncells + bs.names.idxOf x) =
      fixEnv (defs I bs) (namesEnv I scs names σ) (.var x) := by
    intro x hx
    have hidx : bs.names[bs.names.idxOf x]? = some x := by
      rw [List.getElem?_eq_getElem (List.idxOf_lt_length_iff.mpr hx), List.getElem_idxOf]
    simp only [τ, if_neg (Nat.not_lt.mpr (Nat.le_add_right h.ncells _)), Nat.add_sub_cancel_left,
      hidx]
  refine ⟨τ, hold, hnew, ?_⟩
  funext k
  cases k with
  | sc i =>
    rw [fixEnv_none (defs_finitary I bs) _ (defs_sc I bs i)]
    rfl
  | var x =>
    have hfind := hb.find hnd x
    by_cases hx : x ∈ bs.names
    · rw [if_pos hx] at hfind
      simp only [namesEnv, hfind, Pntr.value]
      exact hnew x hx
    · rw [fixEnv_none (defs_finitary I bs) _ ((defs_none_iff I bs x).mpr hx)]
      rw [if_neg hx] at hfind
      have hcongr := congrFun (namesEnv_congr I scs hn hold) (.var x)
      rw [← hcongr]
      simp only [namesEnv, hfind]

section

variable {K : Type} {I : Interp K} {scs : List Scomb}

theorem Instantiated.letrec {h h₁ h₂ h₃ : Heap} {names names' : Names} {bs : Letrec} {b : Snode}
    {p : Pntr} (hw : h.Wf) (hn : names.Inside h.ncells) (hnd : bs.names.Nodup)
    (hholes : Holes h names bs names' h₁) (hbs : BoundHoles I scs h₁ names' h.ncells bs h₂)
    (hb : Instantiated I scs h₂ names' (denote I b) p h₃) :
    Instantiated I scs h names (denote I (.letrec bs b)) p h₃ := by
  have hg := hholes.grows
  have hn₁ := hholes.ncells
  have hle := hbs.le
  have hle' := hb.grows.le
  have hnil := hbs.globnil.trans hg.globnil
  have hcells : ∀ c < h.ncells, h₃.cells c = h.cells c := by
    intro c hc
    rw [hb.grows.cells c (by omega), hbs.cells c (by omega) (Or.inl hc), hg.cells c hc]
  refine ⟨⟨hb.grows.wf, by omega, hb.grows.globnil.trans hnil, hcells⟩, hb.inside, ?_, ?_⟩
  · intro σ hσnil hσ
    have hσ₂ : ∀ c, h.ncells ≤ c → (h₂.cells c).value I scs σ ⊆ σ c := by
      intro c hc
      by_cases hc₂ : c < h₂.ncells
      · rw [← hb.grows.cells c hc₂]
        exact hσ c hc
      · rw [hbs.wf.fresh c (by omega)]
        exact Set.empty_subset _
    have hfix := namesEnv_holes_le hholes hnd
      (hbs.lower σ (by rw [hg.globnil]; exact hσnil) fun c hc => hσ₂ c (by omega))
    have hbody := hb.lower σ (by rw [hnil]; exact hσnil) fun c hc => hσ c (by omega)
    rw [denote]
    exact ((denote_finitary I b).mono hfix).trans hbody
  · intro σ hσnil
    obtain ⟨τ, hτ, hτholes, henv⟩ := exists_holes I scs hn hholes hnd σ
    obtain ⟨τ₁, hτ₁, hpre₁⟩ := hbs.upper τ (by
      rw [hg.globnil, hτ _ hw.globnil_lt]
      exact hσnil) (by
      intro x F hF
      rw [henv, hτholes x (mem_of_defs hF), fixEnv_some (defs_finitary I bs) _ hF])
    have hτ₁old : ∀ c < h.ncells, τ₁ c = σ c := fun c hc =>
      (hτ₁ c (by omega)).trans (hτ c hc)
    obtain ⟨τ₂, hτ₂, hpre₂, hp₂⟩ := hb.upper τ₁ (by
      rw [hnil, hτ₁old _ hw.globnil_lt]
      exact hσnil)
    refine ⟨τ₂, fun c hc => (hτ₂ c (by omega)).trans (hτ₁old c hc), ?_, ?_⟩
    · intro c hc
      by_cases hc₂ : c < h₂.ncells
      · rw [hb.grows.cells c hc₂, Cell.value_congr I scs (hbs.wf.inside c) hτ₂, hτ₂ c hc₂]
        exact hpre₁ c (by omega)
      · exact hpre₂ c (by omega)
    · rw [namesEnv_congr I scs hholes.inside hτ₁, henv] at hp₂
      rw [denote]
      exact hp₂

/-- A name means the pointer on the stack, by an indirection. -/
theorem Instantiated.symbol {h : Heap} {names : Names} {x : String} {p : Pntr} (hw : h.Wf)
    (hn : names.Inside h.ncells) (hp : names.find x = some p) :
    Instantiated I scs h names (denote I (.symbol x)) (.cell h.ncells) (h.alloc (.ind p)).2 := by
  apply Instantiated.leaf hw hn
  · exact hn.find hp
  · intro σ
    simp only [Cell.value, denote, namesEnv, hp]

/-- A number, or the nil of the task -/
theorem Instantiated.shared {h : Heap} {names : Names} {v : Env Key K → Dom K} {p : Pntr}
    (hw : h.Wf) (hp : p.Inside h.ncells)
    (lower : ∀ σ : Values K, I.nil ⊆ σ h.globnil → v (namesEnv I scs names σ) ⊆ p.value I σ)
    (upper : ∀ σ : Values K, σ h.globnil ⊆ I.nil → p.value I σ ⊆ v (namesEnv I scs names σ)) :
    Instantiated I scs h names v p h := by
  refine ⟨.refl hw, hp, fun σ hσ _ => lower σ hσ, fun σ hσ => ⟨σ, fun _ _ => rfl, ?_, upper σ hσ⟩⟩
  intro c hc
  rw [hw.fresh c hc]
  exact Set.empty_subset _

mutual

theorem instantiateScombR_spec (hempty : I.string "" = I.nil) : ∀ (e : Snode) {h h' : Heap}
    {names : Names} {p : Pntr}, h.Wf → names.Inside h.ncells → (∀ l ∈ e.letrecs, l.1.names.Nodup) →
    instantiateScombR h names e = some (p, h') → Instantiated I scs h names (denote I e) p h'
  | .application l r s, h, h', names, p, hw, hn, hnd, hrun => by
    simp only [Snode.letrecs, List.mem_append] at hnd
    simp only [instantiateScombR, Option.bind_eq_bind, Option.bind_eq_some_iff, Option.pure_def,
      Option.some.injEq, Prod.exists] at hrun
    obtain ⟨p₁, h₁, hl, p₂, h₂, hr, hrun⟩ := hrun
    cases hrun
    have halloc := hw.alloc (c := .empty) trivial
    have hl := instantiateScombR_spec hempty l halloc.wf (hn.mono halloc.le)
      (fun k hk => hnd k (Or.inl hk)) hl
    have hr := instantiateScombR_spec hempty r hl.grows.wf (hn.mono (halloc.le.trans hl.grows.le))
      (fun k hk => hnd k (Or.inr hk)) hr
    have happ := Instantiated.application hw hn hl hr
    simp only [denote]
    exact happ
  | .symbol x, h, h', names, p, hw, hn, hnd, hrun => by
    simp only [instantiateScombR, Option.bind_eq_bind, Option.bind_eq_some_iff, Option.pure_def,
      Option.some.injEq] at hrun
    obtain ⟨q, hq, hrun⟩ := hrun
    cases hrun
    exact Instantiated.symbol hw hn hq
  | .letrec bs b, h, h', names, p, hw, hn, hnd, hrun => by
    simp only [Snode.letrecs, List.mem_cons, List.mem_append] at hnd
    cases hpush : pushHoles h names bs with
    | mk names' h₁ =>
      simp only [instantiateScombR, hpush, Option.bind_eq_bind, Option.bind_eq_some_iff] at hrun
      obtain ⟨h₂, hbs, hb⟩ := hrun
      have hholes := pushHoles_spec bs hw hn hpush
      have hn₁ := hholes.ncells
      have hbs := instantiateBindings_spec hempty bs hholes.grows.wf hholes.inside
        (by rw [hholes.grows.globnil]; exact hw.globnil_lt) (by omega) (hnd _ (Or.inl rfl))
        (fun k hk => hnd k (Or.inr (Or.inl hk))) hbs
      have hb := instantiateScombR_spec hempty b hbs.wf (hholes.inside.mono hbs.le)
        (fun k hk => hnd k (Or.inr (Or.inr hk))) hb
      exact Instantiated.letrec hw hn (hnd _ (Or.inl rfl)) hholes hbs hb
  | .builtin b, h, h', names, p, hw, hn, hnd, hrun => by
    cases hrun
    exact Instantiated.leaf hw hn trivial fun σ => by simp only [Cell.value, denote]
  | .scref i, h, h', names, p, hw, hn, hnd, hrun => by
    cases hrun
    exact Instantiated.leaf hw hn trivial fun σ => by simp only [Cell.value, denote, namesEnv]
  | .nil, h, h', names, p, hw, hn, hnd, hrun => by
    cases hrun
    exact Instantiated.shared hw hw.globnil_lt
      (fun σ hσ => by simpa only [denote, Pntr.value] using hσ)
      (fun σ hσ => by simpa only [denote, Pntr.value] using hσ)
  | .number d, h, h', names, p, hw, hn, hnd, hrun => by
    cases hrun
    exact Instantiated.shared hw trivial (fun σ _ => by simp only [denote, Pntr.value, le_refl])
      (fun σ _ => by simp only [denote, Pntr.value, le_refl])
  | .string s, h, h', names, p, hw, hn, hnd, hrun => by
    simp only [instantiateScombR, Heap.stringToArray, Option.some.injEq] at hrun
    split at hrun
    · next hs =>
      cases hrun
      subst hs
      exact Instantiated.shared hw hw.globnil_lt
        (fun σ hσ => by simpa only [denote, Pntr.value, hempty] using hσ)
        (fun σ hσ => by simpa only [denote, Pntr.value, hempty] using hσ)
    · next hs =>
      cases hrun
      exact Instantiated.leaf hw hn hs fun σ => by simp only [Cell.value, denote]
  | .lambda _ _, h, h', names, p, hw, hn, hnd, hrun => by cases hrun

theorem instantiateBindings_spec (hempty : I.string "" = I.nil) : ∀ (bs : Letrec) {h h' : Heap}
    {names : Names} {hole : Nat}, h.Wf → names.Inside h.ncells → h.globnil < hole →
    hole + bs.names.length ≤ h.ncells →
    bs.names.Nodup → (∀ l ∈ bs.letrecs, l.1.names.Nodup) →
    instantiateBindings h names hole bs = some h' → BoundHoles I scs h names hole bs h'
  | .done, h, h', names, hole, hw, hn, hnil, hlt, hnd, hnds, hrun => by
    cases hrun
    exact BoundHoles.done hw hole
  | .bind x e s next, h, h', names, hole, hw, hn, hnil, hlt, hnd, hnds, hrun => by
    simp only [Letrec.letrecs, List.mem_append] at hnds
    simp only [instantiateBindings, Option.bind_eq_bind, Option.bind_eq_some_iff,
      Prod.exists] at hrun
    obtain ⟨p, h₁, he, hnext⟩ := hrun
    have he := instantiateScombR_spec hempty e hw hn (fun k hk => hnds k (Or.inl hk)) he
    have hle := he.grows.le
    have hlt' := hlt
    have hnd' := hnd
    rw [Letrec.names, List.length_cons] at hlt'
    rw [Letrec.names, List.nodup_cons] at hnd'
    have hset := he.grows.wf.set (c := .ind p) (show hole < h₁.ncells by omega)
      (by rw [he.grows.globnil]; omega) he.inside
    have hnext := instantiateBindings_spec hempty next hset (hn.mono hle)
      (by rw [Heap.set_globnil, he.grows.globnil]; omega)
      (by rw [Heap.set_ncells]; omega) hnd'.2 (fun k hk => hnds k (Or.inr hk)) hnext
    exact BoundHoles.bind hn hnil hlt hnd he hnext

end

/-! ## The arguments -/

theorem namesEnv_cons (names : Names) (x : String) (p : Pntr) (σ : Values K) :
    namesEnv I scs ((x, p) :: names) σ =
      Function.update (namesEnv I scs names σ) (.var x) (p.value I σ) := by
  funext k
  cases k with
  | sc i => simp [namesEnv]
  | var y =>
    by_cases hy : x = y
    · subst hy
      simp [namesEnv, Names.find_cons]
    · rw [Function.update_of_ne (by simp [Ne.symm hy])]
      simp only [namesEnv, Names.find_cons, if_neg hy]

theorem namesEnv_nil (σ : Values K) : namesEnv I scs [] σ = progEnv I scs := by
  funext k
  cases k with
  | sc i => rfl
  | var x =>
    have hvar : progDefs I scs (.var x) = none := rfl
    rw [progEnv, fixEnv_none (progDefs_finitary I scs) _ hvar]
    rfl

/-- The arguments on the stack get the names of the supercombinator, in order. -/
theorem pushArgs_spec (I : Interp K) (scs : List Scomb) {h : Heap} {k : Nat} (hw : h.Wf)
    {argnames : List String} : ∀ {s : List Pntr} {names names' : Names}, names.Inside h.ncells → (∀ p ∈ s, p.Inside h.ncells) →
      pushArgs h k argnames s names = some names' → names'.Inside h.ncells ∧
      ∀ σ : Values K, (∀ c p, h.cells c = .ind p → σ c = p.value I σ) →
        namesEnv I scs names' σ = bindArgs (namesEnv I scs names σ) argnames
          ((s.take argnames.length).map (·.value I σ)) := by
  induction argnames with
  | nil =>
    intro s names names' hn _ hrun
    cases hrun
    exact ⟨hn, fun σ _ => by simp [bindArgs]⟩
  | cons x argnames ih =>
    intro s names names' hn hs hrun
    cases s with
    | nil => cases hrun
    | cons a s =>
      simp only [pushArgs, Option.bind_eq_bind, Option.bind_eq_some_iff] at hrun
      obtain ⟨p, hp, hrun⟩ := hrun
      have hp := Heap.resolves_of_resolve hp
      have hn' : Names.Inside h.ncells ((x, p) :: names) := by
        intro b hb
        obtain rfl | hb := List.mem_cons.mp hb
        · exact hp.inside hw (hs a List.mem_cons_self)
        · exact hn b hb
      obtain ⟨hin, henv⟩ := ih hn' (fun q hq => hs q (List.mem_cons_of_mem a hq)) hrun
      refine ⟨hin, fun σ hσ => ?_⟩
      rw [henv σ hσ, namesEnv_cons, ← hp.value I hσ]
      rfl

/-- What `instantiate_scomb` builds means the supercombinator applied to its arguments. -/
theorem instantiateScomb_builds {h h' : Heap} {k i : Nat} {sc : Scomb} {args s : List Pntr}
    {p : Pntr} (hempty : I.string "" = I.nil) (hw : h.Wf) (hsc : scs[i]? = some sc)
    (hnd : ∀ l ∈ sc.body.letrecs, l.1.names.Nodup) (hlen : args.length = sc.nargs)
    (hs : ∀ p ∈ args ++ s, p.Inside h.ncells)
    (hrun : instantiateScomb h k (args ++ s) sc = some (p, h')) :
    h.Grows h' ∧ Builds I scs h h' p
      (fun σ => appN (progEnv I scs (.sc i)) (args.map (·.value I σ))) := by
  simp only [instantiateScomb, Option.bind_eq_bind, Option.bind_eq_some_iff] at hrun
  obtain ⟨names, hpush, hrun⟩ := hrun
  obtain ⟨hin, henv⟩ := pushArgs_spec I scs hw (fun b hb => absurd hb List.not_mem_nil) hs hpush
  have hbody : Instantiated I scs h names (denote I sc.body) p h' :=
    instantiateScombR_spec hempty sc.body hw hin hnd hrun
  have htake : (args ++ s).take sc.argnames.length = args := List.take_left' hlen
  -- the environment of the body, where the indirections mean what they point to
  have happ : ∀ σ : Values K, (∀ c p, h.cells c = .ind p → σ c = p.value I σ) →
      denote I sc.body (namesEnv I scs names σ) =
        appN (progEnv I scs (.sc i)) (args.map (·.value I σ)) := by
    intro σ hσ
    rw [henv σ hσ, namesEnv_nil, htake, progEnv_sc I hsc,
      appN_lambdas I _ _ _ _ (by rw [List.length_map, hlen]; rfl)]
  have hnew : ∀ c, h.ncells ≤ c → (h.cells c).isRedex = false := by
    intro c hc
    rw [hw.fresh c hc]
    rfl
  refine ⟨hbody.grows, hbody.grows.wf, hbody.grows.le, hbody.inside,
    fun c hc _ => hbody.grows.cells c hc, ?_, ?_⟩
  · have hind : ∀ c p, h.cells c = .ind p →
        heapValue I scs h c = p.value I (heapValue I scs h) := by
      intro c p hc
      rw [heapValue_cell, hc]
      rfl
    obtain ⟨τ, hτ, hpre, hres⟩ := hbody.upper (heapValue I scs h) (by
      rw [heapValue_cell, hw.globnil]
      exact le_refl _)
    refine ⟨τ, hτ, fun c hc => ?_, by rw [← happ _ hind]; exact hres⟩
    by_cases hcl : c < h.ncells
    · rw [hbody.grows.cells c hcl, Cell.value_congr I scs (hw.inside c) hτ, hτ c hcl,
        ← heapValue_cell]
    · exact hpre c (Nat.le_of_not_lt hcl)
  · intro σ _ hσ
    have hold : ∀ c < h.ncells, (h.cells c).isRedex = false →
        σ c = (h.cells c).value I scs σ := by
      intro c hc hr
      rw [hσ c hr, hbody.grows.cells c hc]
    have hind : ∀ c p, h.cells c = .ind p → σ c = p.value I σ := by
      intro c p hc
      rw [hold c (hw.lt (by simp [hc])) (by simp [hc, Cell.isRedex]), hc]
      rfl
    refine ⟨?_, fun c hc => ?_⟩
    · rw [← happ σ hind]
      apply hbody.lower σ
      · rw [hold _ hw.globnil_lt (by simp [hw.globnil, Cell.isRedex]), hw.globnil]
        exact le_refl _
      · intro c hc
        rw [← hσ c (hnew c hc)]
    · cases hcell : h.cells c <;> simp only [hcell, Cell.isData, Bool.false_eq_true] at hc
      all_goals
        rw [hold c (hw.lt (by simp [hcell])) (by simp [hcell, Cell.isRedex]), hcell]

end

end Reduction
end NReduce
