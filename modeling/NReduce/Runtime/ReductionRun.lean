import NReduce.Compiler.InlineCorrect
import NReduce.Runtime.PureBuiltins

/-!
# NReduce.Runtime.ReductionRun

What a run of the engine says about the program.

* `reduce_sound`: `reduce` keeps the value of every cell and leaves weak head normal forms.
* `run_result`: the result of a program is the one that it means.
* `inlining_same_result`: a program and what the inlining pass makes of it come to the same result.
-/

namespace NReduce
namespace Reduction

open Compiler Domain Heap

/-- The names of each letrec of a body are distinct. -/
def DistinctLetrecs (scs : List Scomb) : Prop :=
  ∀ sc ∈ scs, ∀ l ∈ sc.body.letrecs, l.1.names.Nodup

/-- What holds of a task between two calls of `reduce` -/
structure Task.Ok (scs : List Scomb) (t : Task) : Prop where
  wf : t.Wf
  flagged : ∀ c, t.reduced c = true → Whnf scs t.toHeap (.cell c)

theorem Task.Ok.flagged_nil {scs : List Scomb} {t : Task} (ht : t.Ok scs) : Flagged scs t [] :=
  fun c hc => .inl (ht.flagged c hc)

/-- A task with a nil, and the supercombinator `i` in cell 1 -/
def startTask (i : Nat) : Task where
  cells := Function.update (Function.update (fun _ => .empty) 0 .nil) 1 (.scref i)
  ncells := 2
  globnil := 0
  reduced _ := false
  irreducible := false

theorem startTask_cells (i c : Nat) :
    (startTask i).cells c = if c = 1 then .scref i else if c = 0 then .nil else .empty := by
  simp only [startTask, Function.update_apply]

theorem startTask_ok (scs : List Scomb) (i : Nat) : (startTask i).Ok scs where
  wf := {
    fresh c hc := by
      have h2 : 2 ≤ c := hc
      rw [startTask_cells, if_neg (by omega), if_neg (by omega)]
    inside c := by
      rw [startTask_cells]
      split_ifs <;> trivial
    globnil := by
      rw [startTask_cells]
      rfl }
  flagged c hc := by cases hc

theorem heapValue_startTask {K : Type} (I : Interp K) (scs : List Scomb) (i : Nat) :
    heapValue I scs (startTask i).toHeap 1 = progEnv I scs (.sc i) := by
  rw [heapValue_cell, startTask_cells]
  rfl

/-- `first x = (head x)` and `main = (first (cons 3 nil))` -/
def firstOfCons : Source where
  scombs := [
    { name := "first", argnames := ["x"],
      body := .application (.builtin .head) (.symbol "x") false },
    { name := "main", argnames := [],
      body := .application (.scref 0)
        (.application (.application (.builtin .cons) (.number 3) false) .nil false) false }]
  varno := 0

theorem distinctLetrecs_firstOfCons : DistinctLetrecs firstOfCons.scombs := by
  intro sc hsc l hl
  simp only [firstOfCons, List.mem_cons, List.not_mem_nil, or_false] at hsc
  obtain rfl | rfl := hsc <;> cases hl

/-- No arithmetic happens in `firstOfCons`. -/
def noFloats : Floats where
  add _ _ := 0
  subtract _ _ := 0
  multiply _ _ := 0
  divide _ _ := 0
  fmod _ _ := 0
  eq _ _ := false
  lt _ _ := false
  le _ _ := false
  ofChar _ := 0

theorem pureInterp_empty (F : Floats) : (pureInterp F).string "" = (pureInterp F).nil := by
  simp [pureInterp]

theorem startTask_inside (i : Nat) : ∀ a ∈ [Pntr.cell 1], a.Inside (startTask i).ncells := by
  intro a ha
  rw [List.mem_singleton.mp ha]
  exact Nat.lt_succ_self 1

theorem reduce_firstOfCons : ∃ t' s', reduce firstOfCons.scombs (pureBuiltins noFloats) 12
      (startTask 1) [.cell 1] = some (t', s') ∧ t'.irreducible = false := by
  obtain ⟨r, hr, hirr⟩ := Option.map_eq_some_iff.mp (show (reduce firstOfCons.scombs
    (pureBuiltins noFloats) 12 (startTask 1) [.cell 1]).map (fun r => r.1.irreducible) =
      some false by decide)
  exact ⟨r.1, r.2, hr, hirr⟩

/-! ## Soundness -/

/-- A run of `reduce` that reports no irreducible argument leaves the stack as it was, and an
expression in weak head normal form on top of it. Every cell that was there has its old value. -/
theorem reduce_sound {K : Type} (I : Interp K) (hempty : I.string "" = I.nil) {scs : List Scomb}
    (hscs : DistinctLetrecs scs) {builtins : Bif → Heap → List Pntr → Option (Pntr × Heap)}
    (hright : RightBuiltins I scs builtins) {k : Nat} {t t' : Task} {p : Pntr} {s s' : List Pntr}
    (ht : t.Ok scs) (hs : ∀ a ∈ p :: s, a.Inside t.ncells)
    (hrun : reduce scs builtins k t (p :: s) = some (t', s')) (hirr : t'.irreducible = false) :
    s' = p :: s ∧ t'.Ok scs ∧ Whnf scs t'.toHeap p ∧ t.ncells ≤ t'.ncells ∧
      ∀ c < t.ncells, heapValue I scs t'.toHeap c = heapValue I scs t.toHeap c := by
  obtain ⟨hs', hl, hfl, hp⟩ := (sound hempty hright hscs k).atReduce hrun hirr ht.wf hs (.none p)
    ht.flagged_nil
  have hp : Whnf scs t'.toHeap p := hp.resolve_right List.not_mem_nil
  refine ⟨hs', ⟨hl.evolves.wf, fun c hc => ?_⟩, hp, hl.evolves.le, hl.evolves.value⟩
  exact (hfl c hc).resolve_right List.not_mem_nil

theorem reduce_sound_firstOfCons : ∃ t' s',
    reduce firstOfCons.scombs (pureBuiltins noFloats) 12 (startTask 1) [.cell 1] = some (t', s') ∧
      Whnf firstOfCons.scombs t'.toHeap (.cell 1) ∧
      heapValue (pureInterp noFloats) firstOfCons.scombs t'.toHeap 1 =
        progEnv (pureInterp noFloats) firstOfCons.scombs (.sc 1) := by
  obtain ⟨t', s', hrun, hirr⟩ := reduce_firstOfCons
  obtain ⟨-, -, hp, -, hv⟩ := reduce_sound (pureInterp noFloats) (pureInterp_empty noFloats)
    distinctLetrecs_firstOfCons (pureBuiltins_right noFloats _) (startTask_ok _ 1)
    (startTask_inside 1) hrun hirr
  exact ⟨t', s', hrun, hp, (hv 1 (Nat.lt_succ_self 1)).trans (heapValue_startTask _ _ 1)⟩

/-! ## What a program comes to -/

/-- What a run from the start ends with means the supercombinator. -/
theorem run_value (F : Floats) {scs : List Scomb} (hscs : DistinctLetrecs scs) {i k : Nat}
    {t : Task} {s : List Pntr}
    (hrun : reduce scs (pureBuiltins F) k (startTask i) [.cell 1] = some (t, s))
    (hirr : t.irreducible = false) :
    ∃ a, t.Resolves (.cell 1) a ∧ t.Wf ∧ Whnf scs t.toHeap a ∧
      a.value (pureInterp F) (heapValue (pureInterp F) scs t.toHeap) =
        progEnv (pureInterp F) scs (.sc i) := by
  have hstart := startTask_ok scs i
  obtain ⟨-, hl, -, hp⟩ := (sound (pureInterp_empty F) (pureBuiltins_right F scs) hscs k).atReduce
    hrun hirr hstart.wf (startTask_inside i) (.none _) hstart.flagged_nil
  replace hp := hp.resolve_right List.not_mem_nil
  obtain ⟨a, ha⟩ : ∃ a, t.Resolves (.cell 1) a := by
    cases hp with
    | number hp => exact ⟨_, hp⟩
    | data hp _ => exact ⟨_, hp⟩
    | function hp _ _ _ _ => exact ⟨_, hp⟩
  refine ⟨a, ha, hl.evolves.wf, hp.resolves ha, ?_⟩
  rw [← ha.heapValue, Pntr.value_cell, hl.evolves.value 1 (Nat.lt_succ_self 1),
    heapValue_startTask]

/-- The engine comes to a result only for a supercombinator that has a value, and each observation
of that value tells the number, or the type, of the result. -/
theorem run_result (F : Floats) {scs : List Scomb} (hscs : DistinctLetrecs scs) {i k : Nat}
    {t : Task} {s : List Pntr}
    (hrun : reduce scs (pureBuiltins F) k (startTask i) [.cell 1] = some (t, s))
    (hirr : t.irreducible = false) :
    (∃ u, u ∈ progEnv (pureInterp F) scs (.sc i)) ∧ ∃ a, t.Resolves (.cell 1) a ∧
      ∀ u ∈ progEnv (pureInterp F) scs (.sc i),
        isNilTok u = t.isNil a ∧ isListTok u = t.isList a ∧ numberTok u = a.number? := by
  obtain ⟨a, ha, hw, hwhnf, hv⟩ := run_value F hscs hrun hirr
  obtain ⟨hu, hall⟩ := Whnf.observe (F := F) ha.idem hw hwhnf
  rw [hv] at hu hall
  exact ⟨hu, a, ha, hall⟩

theorem run_result_firstOfCons :
    (∃ u, u ∈ progEnv (pureInterp noFloats) firstOfCons.scombs (.sc 1)) ∧
      ∀ u ∈ progEnv (pureInterp noFloats) firstOfCons.scombs (.sc 1), numberTok u = some 3 := by
  obtain ⟨⟨t, s⟩, hrun, hr⟩ := Option.map_eq_some_iff.mp (show (reduce firstOfCons.scombs
    (pureBuiltins noFloats) 12 (startTask 1) [.cell 1]).map
      (fun r => (r.1.irreducible, r.1.resolve 9 (.cell 1))) = some (false, some (.number 3)) by
    decide)
  obtain ⟨hirr, hres⟩ := Prod.mk.inj hr
  obtain ⟨hu, a, ha, hall⟩ := run_result noFloats distinctLetrecs_firstOfCons hrun hirr
  obtain rfl := ha.unique (resolves_of_resolve hres)
  exact ⟨hu, fun u hu => (hall u hu).2.2⟩

/-! ## The inlining pass -/

mutual

theorem names_sublist_binders : ∀ bs : Letrec, bs.names.Sublist bs.binders
  | .done => List.Sublist.refl _
  | .bind x v _ next => by
    rw [Letrec.names, Letrec.binders]
    exact ((names_sublist_binders next).trans (List.sublist_append_right v.binders _)).cons_cons x

theorem nodup_letrecs : ∀ e : Snode, e.binders.Nodup → ∀ l ∈ e.letrecs, l.1.names.Nodup
  | .application l r _, h, k, hk => by
    rw [Snode.binders, List.nodup_append] at h
    rw [Snode.letrecs, List.mem_append] at hk
    exact hk.elim (nodup_letrecs l h.1 k) (nodup_letrecs r h.2.1 k)
  | .lambda _ b, h, k, hk => by
    rw [Snode.binders, List.nodup_cons] at h
    exact nodup_letrecs b h.2 k hk
  | .letrec bs b, h, k, hk => by
    rw [Snode.binders, List.nodup_append] at h
    rw [Snode.letrecs, List.mem_cons, List.mem_append] at hk
    obtain rfl | hk | hk := hk
    · exact h.1.sublist (names_sublist_binders bs)
    · exact Letrec.nodup_letrecs bs h.1 k hk
    · exact nodup_letrecs b h.2.1 k hk
  | .symbol _, _, _, hk | .builtin _, _, _, hk | .scref _, _, _, hk | .nil, _, _, hk
  | .number _, _, _, hk | .string _, _, _, hk => by cases hk

theorem Letrec.nodup_letrecs : ∀ bs : Letrec, bs.binders.Nodup →
    ∀ l ∈ bs.letrecs, l.1.names.Nodup
  | .done, _, _, hk => by cases hk
  | .bind _ v _ next, h, k, hk => by
    rw [Letrec.binders, List.nodup_cons, List.nodup_append] at h
    rw [Letrec.letrecs, List.mem_append] at hk
    exact hk.elim (Reduction.nodup_letrecs v h.2.1 k) (Letrec.nodup_letrecs next h.2.2.1 k)

end

theorem distinctLetrecs_of_wf {src : Source} (hwf : src.WF) : DistinctLetrecs src.scombs :=
  fun sc hsc => nodup_letrecs sc.body (List.nodup_append.mp (hwf sc hsc).nodup).2.1

/-- A run of a program and a run of what the inlining pass makes of it end with the same number, or
both with a nil or both with a list, and with the same value. -/
theorem inlining_same_result (F : Floats) {src src' : Source} (hwf : src.WF) {fuel : Nat}
    (hinl : inlining fuel src = some src') {i k k' : Nat} {t t' : Task} {s s' : List Pntr}
    (hrun : reduce src.scombs (pureBuiltins F) k (startTask i) [.cell 1] = some (t, s))
    (hrun' : reduce src'.scombs (pureBuiltins F) k' (startTask i) [.cell 1] = some (t', s'))
    (hirr : t.irreducible = false) (hirr' : t'.irreducible = false) :
    ∃ a a', t.Resolves (.cell 1) a ∧ t'.Resolves (.cell 1) a' ∧ a.number? = a'.number? ∧
      t.isNil a = t'.isNil a' ∧ t.isList a = t'.isList a' ∧
      a.value (pureInterp F) (heapValue (pureInterp F) src.scombs t.toHeap) =
        a'.value (pureInterp F) (heapValue (pureInterp F) src'.scombs t'.toHeap) := by
  have hinv : InlineInv (pureInterp F) src src' :=
    (InlineInv.mark (pureInterp F) hwf).steps (inlineRounds_steps fuel hinl)
  obtain ⟨a, ha, hw, hwhnf, hv⟩ := run_value F (distinctLetrecs_of_wf hwf) hrun hirr
  obtain ⟨a', ha', hw', hwhnf', hv'⟩ := run_value F (distinctLetrecs_of_wf hinv.wf) hrun' hirr'
  rw [hinv.progEnv, ← hv] at hv'
  obtain ⟨⟨u, hu⟩, hall⟩ := Whnf.observe (F := F) ha.idem hw hwhnf
  obtain ⟨-, hall'⟩ := Whnf.observe (F := F) ha'.idem hw' hwhnf'
  -- one observation of the common value tells the type of both
  obtain ⟨h1, h2, h3⟩ := hall u hu
  obtain ⟨h1', h2', h3'⟩ := hall' u (by rwa [hv'])
  exact ⟨a, a', ha, ha', h3.symm.trans h3', h1.symm.trans h1', h2.symm.trans h2', hv'.symm⟩

theorem firstOfCons_wf : firstOfCons.WF := by
  have hx : Old firstOfCons.varno "x" := by
    intro k _ h
    have := congrArg String.toList h
    simp [nextVar] at this
  intro sc hsc
  simp only [firstOfCons, List.mem_cons, List.not_mem_nil, or_false] at hsc
  obtain rfl | rfl := hsc
  · exact ⟨by simp [Scomb.Closed, Snode.free], by simp [Snode.binders],
      by simpa [Snode.binders] using hx⟩
  · exact ⟨by simp [Scomb.Closed, Snode.free], by simp [Snode.binders], by simp [Snode.binders]⟩

theorem inlining_same_result_firstOfCons : ∃ src' t t' a a', inlining 3 firstOfCons = some src' ∧
    (reduce firstOfCons.scombs (pureBuiltins noFloats) 12 (startTask 1) [.cell 1]).map Prod.fst =
      some t ∧
    (reduce src'.scombs (pureBuiltins noFloats) 12 (startTask 1) [.cell 1]).map Prod.fst =
      some t' ∧ t.Resolves (.cell 1) a ∧ t'.Resolves (.cell 1) a' ∧ a.number? = a'.number? := by
  obtain ⟨src', hinl⟩ : ∃ src', inlining 3 firstOfCons = some src' :=
    Option.isSome_iff_exists.mp (by decide)
  obtain ⟨t, s, hrun, hirr⟩ := reduce_firstOfCons
  have hsrc : inlining 3 firstOfCons = some src' → ((inlining 3 firstOfCons).bind fun src' =>
      (reduce src'.scombs (pureBuiltins noFloats) 12 (startTask 1) [.cell 1]).map
        fun r => r.1.irreducible) = some false := fun _ => by decide
  have hmap := hsrc hinl
  rw [hinl, Option.bind_some, Option.map_eq_some_iff] at hmap
  obtain ⟨⟨t', s'⟩, hrun', hirr'⟩ := hmap
  obtain ⟨a, a', ha, ha', hnum, -⟩ :=
    inlining_same_result noFloats firstOfCons_wf hinl hrun hrun' hirr hirr'
  exact ⟨src', t, t', a, a', hinl, by rw [hrun]; rfl, by rw [hrun']; rfl, ha, ha', hnum⟩

end Reduction
end NReduce
