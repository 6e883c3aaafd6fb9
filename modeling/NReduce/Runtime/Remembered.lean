import NReduce.Runtime.Generations

/-!
# NReduce.Runtime.Remembered

The remembered set covers the pointers from old objects to new ones, in every run that does not take
an indirection out of an old array, or out of the values of an old CAP, where it hides a new object:
there the barrier is on another object, or missing.
-/

namespace NReduce
namespace Runtime
namespace Generations

/-! ## Barriers -/

/-- Two heaps that differ at most in the remembered set, which has grown. -/
structure Grows (h h' : Heap) : Prop where
  objects : h'.objects = h.objects
  count : h'.count = h.count
  nil : h'.nil = h.nil
  remembered : ∀ a ∈ h.remembered, a ∈ h'.remembered

theorem Grows.refl (h : Heap) : Grows h h := ⟨rfl, rfl, rfl, fun _ ha => ha⟩

theorem Grows.isNew {h h' : Heap} (hg : Grows h h') (p : Ptr) : h'.isNew p = h.isNew p := by
  cases p with
  | value => rfl
  | obj a => simp only [Heap.isNew, hg.objects]

theorem Grows.isMature {h h' : Heap} (hg : Grows h h') (a : Nat) : h'.isMature a = h.isMature a := by
  simp only [Heap.isMature, hg.objects]

theorem Grows.body {h h' : Heap} (hg : Grows h h') (a : Nat) : h'.body a = h.body a := by
  simp only [Heap.body, hg.objects]

theorem writeBarrier_grows (c : Nat) (h : Heap) : Grows h (writeBarrier c h) := by
  unfold writeBarrier
  split_ifs
  · exact ⟨rfl, rfl, rfl, fun a ha => List.mem_cons_of_mem _ ha⟩
  · exact Grows.refl h

theorem writeBarrierIfnew_grows (c : Nat) (dest : Ptr) (h : Heap) :
    Grows h (writeBarrierIfnew c dest h) := by
  unfold writeBarrierIfnew
  split_ifs
  · exact writeBarrier_grows c h
  · exact Grows.refl h

theorem mem_writeBarrier {c : Nat} {h : Heap} (hm : h.isMature c) :
    c ∈ (writeBarrier c h).remembered := by
  unfold writeBarrier
  split_ifs with hc
  · exact List.mem_cons_self
  · by_contra hn
    exact hc ⟨hm, hn⟩

theorem mem_writeBarrierIfnew {c : Nat} {dest : Ptr} {h : Heap} (hm : h.isMature c)
    (hd : h.isNew dest) : c ∈ (writeBarrierIfnew c dest h).remembered := by
  unfold writeBarrierIfnew
  rw [if_pos hd]
  exact mem_writeBarrier hm

/-! ## The invariant -/

structure Inv (h : Heap) : Prop where
  covered : h.Covered
  valid : ∀ a o, h.objects a = some o → a < h.count ∧ ∀ p ∈ o.body.refs, h.Valid p
  /-- `globnilpntr` is never freed -/
  nilObject : (h.objects h.nil).isSome
  /-- the first collection makes it an old object -/
  nil : h.isMature h.nil ∨ ∀ a, h.isMature a = false

theorem Inv.nil_lt {h : Heap} (hi : Inv h) : h.nil < h.count := by
  obtain ⟨o, ho⟩ := Option.isSome_iff_exists.mp hi.nilObject
  exact (hi.valid h.nil o ho).1

theorem Grows.valid {h h' : Heap} (hg : Grows h h') {p : Ptr} (hp : h.Valid p) : h'.Valid p := by
  cases p with
  | value => trivial
  | obj a =>
    show a < h'.count
    rw [hg.count]
    exact hp

theorem Inv.grows {h h' : Heap} (hi : Inv h) (hg : Grows h h') : Inv h' := by
  refine ⟨?_, ?_, ?_, ?_⟩
  · rintro a o ho hm ⟨p, hp, hn⟩
    rw [hg.objects] at ho
    rw [hg.isNew] at hn
    exact hg.remembered a (hi.covered a o ho hm ⟨p, hp, hn⟩)
  · intro a o ho
    rw [hg.objects] at ho
    obtain ⟨ha, hp⟩ := hi.valid a o ho
    exact ⟨hg.count ▸ ha, fun p h => hg.valid (hp p h)⟩
  · rw [hg.nil, hg.objects]
    exact hi.nilObject
  · rw [hg.nil, hg.isMature]
    simp only [hg.isMature]
    exact hi.nil

theorem setBody_objects (a : Nat) (b : Body) (h : Heap) (c : Nat) :
    (setBody a b h).objects c =
      if c = a then (h.objects a).map ({ · with body := b }) else h.objects c := by
  unfold setBody
  by_cases hc : c = a
  · subst hc
    simp
  · simp [hc]

theorem setBody_isMature (a : Nat) (b : Body) (h : Heap) (c : Nat) :
    (setBody a b h).isMature c = h.isMature c := by
  unfold Heap.isMature
  rw [setBody_objects]
  split_ifs with hc
  · subst hc
    cases h.objects c <;> rfl
  · rfl

theorem setBody_isNew (a : Nat) (b : Body) (h : Heap) (p : Ptr) :
    (setBody a b h).isNew p = h.isNew p := by
  cases p with
  | value => rfl
  | obj c =>
    simp only [Heap.isNew]
    rw [setBody_objects]
    split_ifs with hc
    · subst hc
      cases h.objects c <;> rfl
    · rfl

/-- A write to an object: if it is old and the pointers are to new objects, it is in the set. -/
theorem Inv.setBody {h : Heap} (hi : Inv h) {a : Nat} {b : Body} (hv : ∀ p ∈ b.refs, h.Valid p)
    (hc : h.isMature a → (∃ p ∈ b.refs, h.isNew p) → a ∈ h.remembered) :
    Inv (setBody a b h) := by
  refine ⟨?_, ?_, ?_, ?_⟩
  · rintro c o ho hm ⟨p, hp, hn⟩
    rw [setBody_isNew] at hn
    rw [setBody_objects] at ho
    split_ifs at ho with hca
    · subst hca
      obtain ⟨o', ho', rfl⟩ := Option.map_eq_some_iff.mp ho
      exact hc (by simpa [Heap.isMature, ho'] using hm) ⟨p, hp, hn⟩
    · exact hi.covered c o ho hm ⟨p, hp, hn⟩
  · intro c o ho
    rw [setBody_objects] at ho
    split_ifs at ho with hca
    · subst hca
      obtain ⟨o', ho', rfl⟩ := Option.map_eq_some_iff.mp ho
      exact ⟨(hi.valid c o' ho').1, hv⟩
    · exact hi.valid c o ho
  · show ((Generations.setBody a b h).objects h.nil).isSome
    rw [setBody_objects]
    split_ifs with hn
    · rw [Option.isSome_map, ← hn]
      exact hi.nilObject
    · exact hi.nilObject
  · have := hi.nil
    simp only [setBody_isMature]
    exact this

theorem setBody_writeBarrierIfnew (a c : Nat) (b : Body) (p : Ptr) (h : Heap) :
    writeBarrierIfnew c p (Generations.setBody a b h) =
      Generations.setBody a b (writeBarrierIfnew c p h) := by
  unfold writeBarrierIfnew writeBarrier
  rw [setBody_isNew, setBody_isMature]
  have hr : (Generations.setBody a b h).remembered = h.remembered := rfl
  rw [hr]
  split_ifs <;> rfl

/-- A write to an object that keeps some of its pointers. -/
theorem Inv.write {h : Heap} (hi : Inv h) {a : Nat} {b b' : Body} (hb : h.body a = some b)
    (hw : ∀ p ∈ b'.refs, p ∈ b.refs ∨
      h.Valid p ∧ (h.isMature a → h.isNew p → a ∈ h.remembered)) :
    Inv (Generations.setBody a b' h) := by
  obtain ⟨o, ho, rfl⟩ := Option.map_eq_some_iff.mp hb
  apply hi.setBody
  · intro p hp
    rcases hw p hp with h1 | ⟨h1, -⟩
    · exact (hi.valid a o ho).2 p h1
    · exact h1
  · rintro hm ⟨p, hp, hn⟩
    rcases hw p hp with h1 | ⟨-, h1⟩
    · exact hi.covered a o ho (by simpa [Heap.isMature, ho] using hm) ⟨p, h1, hn⟩
    · exact h1 hm hn

/-! ## Indirections -/

theorem Inv.refs_valid {h : Heap} (hi : Inv h) {a : Nat} {b : Body} (hb : h.body a = some b)
    {p : Ptr} (hp : p ∈ b.refs) : h.Valid p := by
  obtain ⟨o, ho, rfl⟩ := Option.map_eq_some_iff.mp hb
  exact (hi.valid a o ho).2 p hp

theorem Inv.resolveFrom_valid {h : Heap} (hi : Inv h) {k : Nat} {p q : Ptr} (hp : h.Valid p)
    (hq : h.resolveFrom k p = some q) : h.Valid q := by
  induction k generalizing p with
  | zero => cases hq
  | succ k ih =>
    cases p with
    | value =>
      cases hq
      trivial
    | obj a =>
      simp only [Heap.resolveFrom] at hq
      split at hq
      · next dest hb => exact ih (hi.refs_valid hb List.mem_cons_self) hq
      · cases hq
        exact hp

theorem Inv.resolve_valid {h : Heap} (hi : Inv h) {p q : Ptr} (hp : h.Valid p)
    (hq : h.resolve p = some q) : h.Valid q :=
  hi.resolveFrom_valid hp hq

/-- A pointer that is not to an indirection stands for itself. -/
theorem resolve_of_not_isInd {h : Heap} {p : Ptr} (hp : h.isInd p = false) :
    h.resolve p = some p := by
  cases p with
  | value => rfl
  | obj a =>
    simp only [Heap.resolve, Heap.resolveFrom]
    split
    · next dest hb => simp [Heap.isInd, hb] at hp
    · rfl

/-- What `resolve_copy_pntr` leaves in the field of `c`. -/
theorem resolveCopyPntr_spec {h h' : Heap} {c : Nat} {p q : Ptr}
    (hr : resolveCopyPntr c p h = some (q, h')) :
    Grows h h' ∧ h.resolve p = some q ∧
      (q = p ∨ (h.isMature c → h.isNew q → c ∈ h'.remembered)) := by
  unfold resolveCopyPntr at hr
  cases hq : h.resolve p with
  | none => simp [hq] at hr
  | some q' =>
    simp only [hq, Option.pure_def, Option.bind_eq_bind, Option.bind_some, Option.some.injEq,
      Prod.mk.injEq] at hr
    obtain ⟨rfl, rfl⟩ := hr
    cases hp : h.isInd p with
    | false =>
      rw [resolve_of_not_isInd hp] at hq
      cases hq
      exact ⟨Grows.refl h, rfl, .inl rfl⟩
    | true =>
      refine ⟨writeBarrierIfnew_grows c q' h, rfl, .inr ?_⟩
      exact fun hm hn => mem_writeBarrierIfnew hm hn

/-! ## Steps -/

theorem Inv.alloc {h : Heap} (hi : Inv h) {b : Body} (hb : ∀ p ∈ b.refs, h.Valid p) :
    Inv (alloc b h) := by
  -- nothing is at the place of the new object, and nothing points there
  have hlt : ∀ {a : Nat} {o : Object}, h.objects a = some o → a ≠ h.count := fun ho =>
    Nat.ne_of_lt (hi.valid _ _ ho).1
  have hnone : h.objects h.count = none := by
    cases ho : h.objects h.count with
    | none => rfl
    | some o => exact absurd rfl (hlt ho)
  have hm : ∀ a, (Generations.alloc b h).isMature a = h.isMature a := by
    intro a
    by_cases ha : a = h.count
    · subst ha
      simp [Generations.alloc, Heap.isMature, hnone]
    · simp [Generations.alloc, Heap.isMature, ha]
  have hgrow : ∀ p, h.Valid p → (Generations.alloc b h).Valid p := by
    intro p hp
    cases p with
    | value => trivial
    | obj a => exact Nat.lt_succ_of_lt hp
  refine ⟨?_, ?_, ?_, ?_⟩
  · rintro a o ho hom ⟨p, hp, hn⟩
    by_cases ha : a = h.count
    · subst ha
      simp only [Generations.alloc, Function.update_self, Option.some.injEq] at ho
      subst ho
      cases hom
    · simp only [Generations.alloc, Function.update_of_ne ha] at ho
      refine hi.covered a o ho hom ⟨p, hp, ?_⟩
      have hv := (hi.valid a o ho).2 p hp
      cases p with
      | value => exact hn
      | obj d =>
        have hd : d ≠ h.count := Nat.ne_of_lt hv
        simpa [Generations.alloc, Heap.isNew, hd] using hn
  · intro a o ho
    by_cases ha : a = h.count
    · subst ha
      simp only [Generations.alloc, Function.update_self, Option.some.injEq] at ho
      subst ho
      exact ⟨Nat.lt_succ_self _, fun p hp => hgrow p (hb p hp)⟩
    · simp only [Generations.alloc, Function.update_of_ne ha] at ho
      obtain ⟨h1, h2⟩ := hi.valid a o ho
      exact ⟨Nat.lt_succ_of_lt h1, fun p hp => hgrow p (h2 p hp)⟩
  · show ((Generations.alloc b h).objects h.nil).isSome
    have hn : h.nil ≠ h.count := Nat.ne_of_lt hi.nil_lt
    simpa [Generations.alloc, hn] using hi.nilObject
  · simp only [hm]
    exact hi.nil

/-- A barrier on the object that is written next. -/
theorem Inv.barrier_setBody {h : Heap} (hi : Inv h) {a : Nat} {b : Body}
    (hv : ∀ p ∈ b.refs, h.Valid p) : Inv (Generations.setBody a b (writeBarrier a h)) := by
  have hg := writeBarrier_grows a h
  apply (hi.grows hg).setBody
  · exact fun p hp => hg.valid (hv p hp)
  · intro hm _
    rw [hg.isMature] at hm
    exact mem_writeBarrier hm

/-- A field of an object is given the pointer `p`, with a barrier if this is to a new object. -/
theorem Inv.ifnew_write {h : Heap} (hi : Inv h) {a : Nat} {b b' : Body} {p : Ptr}
    (hb : h.body a = some b) (hp : h.Valid p) (hw : ∀ q ∈ b'.refs, q ∈ b.refs ∨ q = p) :
    Inv (Generations.setBody a b' (writeBarrierIfnew a p h)) := by
  have hg := writeBarrierIfnew_grows a p h
  apply (hi.grows hg).write ((hg.body a).trans hb)
  intro q hq
  rcases hw q hq with h1 | rfl
  · exact .inl h1
  · refine .inr ⟨hg.valid hp, ?_⟩
    rw [hg.isMature, hg.isNew]
    exact fun hm hn => mem_writeBarrierIfnew hm hn

theorem Inv.cellMakeInd {h : Heap} (hi : Inv h) {c : Nat} {dest : Ptr} (hd : h.Valid dest) :
    Inv (cellMakeInd c dest h) := by
  have hg := writeBarrierIfnew_grows c dest h
  apply (hi.grows hg).setBody
  · intro p hp
    rw [List.mem_singleton.mp hp]
    exact hg.valid hd
  · rintro hm ⟨p, hp, hn⟩
    rw [List.mem_singleton.mp hp, hg.isNew] at hn
    rw [hg.isMature] at hm
    exact mem_writeBarrierIfnew hm hn

theorem Inv.arefSetTail {h h' : Heap} (hi : Inv h) {c : Nat} {newtail : Ptr}
    (ht : h.Valid newtail) (hr : arefSetTail c newtail h = some h') : Inv h' := by
  revert hr
  fun_cases Generations.arefSetTail c newtail h with
  | case1 arr tail hb =>
    intro hr
    cases hr
    rw [setBody_writeBarrierIfnew]
    refine hi.ifnew_write hb ht ?_
    simp [Body.refs]
  | case2 => nofun

theorem Inv.arefResolveTail {h h' : Heap} (hi : Inv h) {c : Nat}
    (hr : arefResolveTail c h = some h') : Inv h' := by
  revert hr
  fun_cases Generations.arefResolveTail c h with
  | case1 arr tail hb hind =>
    intro hr
    obtain ⟨q, hq, hr⟩ := Option.bind_eq_some_iff.mp hr
    cases hr
    have hv : h.Valid tail := hi.refs_valid hb (by simp [Body.refs])
    rw [setBody_writeBarrierIfnew]
    refine hi.ifnew_write hb (hi.resolve_valid hv hq) ?_
    simp [Body.refs]
  | case2 arr tail hb hind =>
    intro hr
    cases hr
    exact hi
  | case3 => nofun

theorem Inv.frameLeaves {h : Heap} (hi : Inv h) (c : Nat) : Inv (frameLeaves c h) := by
  apply hi.setBody
  · simp [Body.refs]
  · simp [Body.refs]

/-- `globnilpntr` is not a new object for an old one. -/
theorem Inv.nil_not_new {h : Heap} (hi : Inv h) {a : Nat} (hm : h.isMature a) :
    h.isNew (.obj h.nil) = false := by
  rcases hi.nil with hn | hn
  · cases ho : h.objects h.nil with
    | none => simp [Heap.isNew, ho]
    | some o => simpa [Heap.isNew, Heap.isMature, ho] using hn
  · rw [hn a] at hm
    cases hm

theorem Inv.freeSysobject {h : Heap} (hi : Inv h) (c : Nat) : Inv (freeSysobject c h) := by
  apply hi.setBody
  · intro p hp
    rw [List.mem_singleton.mp hp]
    exact hi.nil_lt
  · rintro hm ⟨p, hp, hn⟩
    rw [List.mem_singleton.mp hp, hi.nil_not_new hm] at hn
    cases hn

theorem Inv.carrayMove {h h' : Heap} (hi : Inv h) {refcell : Nat} {arr : Ptr} (ha : h.Valid arr)
    (hr : carrayMove refcell arr h = some h') : Inv h' := by
  revert hr
  fun_cases Generations.carrayMove refcell arr h with
  | case1 arr' tail hb =>
    intro hr
    cases hr
    apply hi.barrier_setBody
    intro p hp
    rcases List.mem_pair.mp hp with rfl | rfl
    · exact ha
    · exact hi.refs_valid hb (by simp [Body.refs])
  | case2 => nofun

theorem Inv.carrayExtend {h h' : Heap} (hi : Inv h) {arr : Nat} {data : List Ptr}
    (hd : ∀ p ∈ data, h.Valid p) (hr : carrayExtend arr data h = some h') : Inv h' := by
  revert hr
  fun_cases Generations.carrayExtend arr data h with
  | case1 elements hb =>
    intro hr
    cases hr
    apply hi.barrier_setBody
    intro p hp
    rcases List.mem_append.mp hp with hp | hp
    · exact hi.refs_valid hb hp
    · exact hd p hp
  | case2 => nofun

theorem Inv.convertToString {h h' : Heap} (hi : Inv h) {arr : Nat}
    (hr : convertToString arr h = some h') : Inv h' := by
  revert hr
  fun_cases Generations.convertToString arr h with
  | case1 elements hb =>
    intro hr
    cases hr
    apply hi.setBody
    · simp [Body.refs]
    · simp [Body.refs]
  | case2 => nofun

theorem Inv.consToAref {h h' : Heap} (hi : Inv h) {c : Nat} {arr : Ptr} (ha : h.Valid arr)
    (hr : consToAref c arr h = some h') : Inv h' := by
  revert hr
  fun_cases Generations.consToAref c arr h with
  | case1 head tail hb =>
    intro hr
    cases hr
    apply hi.barrier_setBody
    intro p hp
    rcases List.mem_pair.mp hp with rfl | rfl
    · exact ha
    · exact hi.nil_lt
  | case2 => nofun

/-! ### Resolving in place -/

/-- The values of `c` are resolved one after the other, then written. -/
theorem Inv.markField {h h' : Heap} (hi : Inv h) {c : Nat} {p q : Ptr} (hp : h.Valid p)
    (hr : resolveCopyPntr c p h = some (q, h')) :
    Inv h' ∧ Grows h h' ∧
      (q = p ∨ h'.Valid q ∧ (h'.isMature c → h'.isNew q → c ∈ h'.remembered)) := by
  obtain ⟨hg, hq, hw⟩ := resolveCopyPntr_spec hr
  refine ⟨hi.grows hg, hg, ?_⟩
  rcases hw with rfl | hw
  · exact .inl rfl
  · rw [hg.isMature, hg.isNew]
    exact .inr ⟨hg.valid (hi.resolve_valid hp hq), hw⟩

/-- A pointer that may be in a field of `c`, when the remembered set has grown. -/
theorem fieldOk_grows {h h' : Heap} (hg : Grows h h') {c : Nat} {p q : Ptr}
    (hq : q = p ∨ h.Valid q ∧ (h.isMature c → h.isNew q → c ∈ h.remembered)) :
    q = p ∨ h'.Valid q ∧ (h'.isMature c → h'.isNew q → c ∈ h'.remembered) := by
  rcases hq with rfl | ⟨h1, h2⟩
  · exact .inl rfl
  · rw [hg.isMature, hg.isNew]
    exact .inr ⟨hg.valid h1, fun hm hn => hg.remembered c (h2 hm hn)⟩

/-- Both fields of a cell are marked. -/
theorem Inv.markPair {h h1 h2 : Heap} (hi : Inv h) {c : Nat} {b b' : Body} {l r p q : Ptr}
    (hb : h.body c = some b) (hrefs : b.refs = [l, r]) (hrefs' : b'.refs = [p, q])
    (hr1 : resolveCopyPntr c l h = some (p, h1)) (hr2 : resolveCopyPntr c r h1 = some (q, h2)) :
    Inv (Generations.setBody c b' h2) := by
  have hl : h.Valid l := hi.refs_valid hb (by simp [hrefs])
  have hv : h.Valid r := hi.refs_valid hb (by simp [hrefs])
  obtain ⟨hi1, hg1, hp⟩ := hi.markField hl hr1
  obtain ⟨hi2, hg2, hq⟩ := hi1.markField (hg1.valid hv) hr2
  have hb2 : h2.body c = some b := by rw [hg2.body, hg1.body, hb]
  apply hi2.write hb2
  rw [hrefs, hrefs']
  intro x hx
  rcases List.mem_pair.mp hx with rfl | rfl
  · rcases fieldOk_grows hg2 hp with rfl | h3
    · exact .inl (by simp)
    · exact .inr h3
  · rcases hq with rfl | h3
    · exact .inl (by simp)
    · exact .inr h3

theorem Inv.markCell {h h' : Heap} (hi : Inv h) {c : Nat} (hr : markCell c h = some h') :
    Inv h' := by
  revert hr
  fun_cases Generations.markCell c h with
  | case1 head tail hb =>
    intro hr
    obtain ⟨⟨p, h1⟩, hr1, hr⟩ := Option.bind_eq_some_iff.mp hr
    obtain ⟨⟨q, h2⟩, hr2, hr⟩ := Option.bind_eq_some_iff.mp hr
    cases hr
    exact hi.markPair hb rfl rfl hr1 hr2
  | case2 arr tail hb =>
    intro hr
    obtain ⟨⟨p, h1⟩, hr1, hr⟩ := Option.bind_eq_some_iff.mp hr
    obtain ⟨⟨q, h2⟩, hr2, hr⟩ := Option.bind_eq_some_iff.mp hr
    cases hr
    exact hi.markPair hb rfl rfl hr1 hr2
  | case3 left right hb =>
    intro hr
    obtain ⟨⟨p, h1⟩, hr1, hr⟩ := Option.bind_eq_some_iff.mp hr
    obtain ⟨⟨q, h2⟩, hr2, hr⟩ := Option.bind_eq_some_iff.mp hr
    cases hr
    exact hi.markPair hb rfl rfl hr1 hr2
  | case4 cp hb =>
    intro hr
    obtain ⟨⟨p, h1⟩, hr1, hr⟩ := Option.bind_eq_some_iff.mp hr
    cases hr
    obtain ⟨hi1, hg1, hp⟩ := hi.markField (hi.refs_valid hb List.mem_cons_self) hr1
    apply hi1.write ((hg1.body c).trans hb)
    intro x hx
    rw [List.mem_singleton.mp hx]
    rcases hp with rfl | h3
    · exact .inl List.mem_cons_self
    · exact .inr h3
  | case5 => nofun

/-- One of the pointers of an object is replaced by `p`. -/
theorem Inv.writeElement {h : Heap} (hi : Inv h) {a i : Nat} {b b' : Body} {l : List Ptr}
    {e p : Ptr} (hb : h.body a = some b) (he : l[i]? = some e) (hl : ∀ x ∈ l, x ∈ b.refs)
    (hw : ∀ x ∈ b'.refs, x ∈ b.refs ∨ x ∈ l.set i p)
    (hp : p = e ∨ h.Valid p ∧ (h.isMature a → h.isNew p → a ∈ h.remembered)) :
    Inv (Generations.setBody a b' h) := by
  apply hi.write hb
  intro x hx
  rcases hw x hx with h1 | h1
  · exact .inl h1
  · rcases List.mem_or_eq_of_mem_set h1 with h2 | rfl
    · exact .inl (hl x h2)
    · rcases hp with rfl | h3
      · exact .inl (hl x (List.mem_of_getElem? he))
      · exact .inr h3

theorem Inv.markElement {h h' : Heap} (hi : Inv h) {arr i : Nat}
    (hr : markElement arr i h = some h') : Inv h' := by
  revert hr
  fun_cases Generations.markElement arr i h with
  | case1 elements hb =>
    intro hr
    obtain ⟨e, he, hr⟩ := Option.bind_eq_some_iff.mp hr
    obtain ⟨⟨p, h1⟩, hr1, hr⟩ := Option.bind_eq_some_iff.mp hr
    cases hr
    obtain ⟨hi1, hg1, hp⟩ := hi.markField (hi.refs_valid hb (List.mem_of_getElem? he)) hr1
    exact hi1.writeElement ((hg1.body arr).trans hb) he (fun _ hx => hx) (fun _ hx => .inr hx) hp
  | case2 => nofun

/-! ### Writes with no barrier of their own -/

/-- What replaces an element that is an indirection. -/
def Heap.replacement (h : Heap) (e : Ptr) : Option Ptr := if h.isInd e then h.resolve e else none

/-- The object that a step writes to without a barrier on it, and the pointer. -/
def Action.unguarded : Action → Heap → Option (Nat × Ptr)
  | .arefResolveElement refcell pos, h =>
    match h.body refcell with
    | some (.aref (.obj arr) _) =>
      match h.body arr with
      | some (.array elements) => do return (arr, ← h.replacement (← elements[pos]?))
      | _ => none
    | _ => none
  | .flattenElement arr i, h =>
    match h.body arr with
    | some (.array elements) => do return (arr, ← h.replacement (← elements[i]?))
    | _ => none
  | .markValue cp i, h =>
    match h.body cp with
    | some (.cap _ data) => do return (cp, ← h.replacement (← data[i]?))
    | _ => none
  | _, _ => none

/-- If this object is old and the pointer to a new one, then it is in the remembered set already. -/
def Action.Safe (a : Action) (h : Heap) : Prop :=
  match a.unguarded h with
  | some (obj, p) => h.isMature obj → h.isNew p → obj ∈ h.remembered
  | none => True

instance (a : Action) (h : Heap) : Decidable (a.Safe h) :=
  match hu : a.unguarded h with
  | some (obj, p) =>
    decidable_of_iff (h.isMature obj → h.isNew p → obj ∈ h.remembered) (by simp [Action.Safe, hu])
  | none => isTrue (by simp [Action.Safe, hu])

theorem replacement_spec {h : Heap} {e q : Ptr} (hq : h.resolve e = some q) :
    q = e ∨ h.replacement e = some q := by
  unfold Heap.replacement
  split_ifs with hind
  · exact .inr hq
  · rw [resolve_of_not_isInd (by simpa using hind)] at hq
    cases hq
    exact .inl rfl

theorem Inv.arefResolveElement {h h' : Heap} (hi : Inv h) {refcell pos : Nat}
    (hs : (Action.arefResolveElement refcell pos).Safe h)
    (hr : arefResolveElement refcell pos h = some h') : Inv h' := by
  revert hr
  fun_cases Generations.arefResolveElement refcell pos h with
  | case1 arr tail hb elements hb' =>
    intro hr
    obtain ⟨e, he, hr⟩ := Option.bind_eq_some_iff.mp hr
    split_ifs at hr with hind
    · obtain ⟨q, hq, hr⟩ := Option.bind_eq_some_iff.mp hr
      cases hr
      have hv := hi.resolve_valid (hi.refs_valid hb' (List.mem_of_getElem? he)) hq
      -- the cell and its array are different objects: only `Safe` says something of the array
      have hw : h.isMature arr → h.isNew q → arr ∈ h.remembered := by
        simpa [Action.Safe, Action.unguarded, hb, hb', he, Heap.replacement, hind, hq] using hs
      have hi' : Inv (Generations.setBody arr (.array (elements.set pos q)) h) :=
        hi.writeElement hb' he (fun _ hx => hx) (fun _ hx => .inr hx) (.inr ⟨hv, hw⟩)
      exact hi'.grows (writeBarrierIfnew_grows _ _ _)
    · cases hr
      exact hi
  | case2 => nofun
  | case3 => nofun

theorem Inv.flattenElement {h h' : Heap} (hi : Inv h) {arr i : Nat}
    (hs : (Action.flattenElement arr i).Safe h) (hr : flattenElement arr i h = some h') :
    Inv h' := by
  revert hr
  fun_cases Generations.flattenElement arr i h with
  | case1 elements hb =>
    intro hr
    obtain ⟨e, he, hr⟩ := Option.bind_eq_some_iff.mp hr
    obtain ⟨q, hq, hr⟩ := Option.bind_eq_some_iff.mp hr
    cases hr
    have hv := hi.resolve_valid (hi.refs_valid hb (List.mem_of_getElem? he)) hq
    refine hi.writeElement hb he (fun _ hx => hx) (fun _ hx => .inr hx) ?_
    rcases replacement_spec hq with rfl | h1
    · exact .inl rfl
    · refine .inr ⟨hv, ?_⟩
      simpa [Action.Safe, Action.unguarded, hb, he, h1] using hs
  | case2 => nofun

theorem Inv.markValue {h h' : Heap} (hi : Inv h) {cp i : Nat}
    (hs : (Action.markValue cp i).Safe h) (hr : markValue cp i h = some h') : Inv h' := by
  revert hr
  fun_cases Generations.markValue cp i h with
  | case1 c data hb =>
    intro hr
    obtain ⟨v, hv, hr⟩ := Option.bind_eq_some_iff.mp hr
    obtain ⟨⟨q, h1⟩, hr1, hr⟩ := Option.bind_eq_some_iff.mp hr
    cases hr
    have hmem : v ∈ (Body.cap (.obj c) data).refs :=
      List.mem_cons_of_mem _ (List.mem_of_getElem? hv)
    obtain ⟨hg, hq, -⟩ := resolveCopyPntr_spec hr1
    apply (hi.grows hg).writeElement (p := q) ((hg.body cp).trans hb) hv
    · exact fun _ hx => List.mem_cons_of_mem _ hx
    · intro x hx
      rcases List.mem_cons.mp hx with rfl | hx
      · exact .inl List.mem_cons_self
      · exact .inr hx
    · rcases replacement_spec hq with rfl | h2
      · exact .inl rfl
      · have hw : h.isMature cp → h.isNew q → cp ∈ h.remembered := by
          simpa [Action.Safe, Action.unguarded, hb, hv, h2] using hs
        rw [hg.isMature, hg.isNew]
        exact .inr ⟨hg.valid (hi.resolve_valid (hi.refs_valid hb hmem) hq),
          fun hm hn => hg.remembered cp (hw hm hn)⟩
  | case2 => nofun

/-! ### Collections -/

theorem Body.refs_map (f : Ptr → Ptr) (b : Body) : (b.map f).refs = b.refs.map f := by
  cases b <;> rfl

/-- All objects are old afterwards. -/
theorem localCollect_not_new (keep : Nat → Bool) (h : Heap) (p : Ptr) :
    (localCollect keep h).isNew p = false := by
  cases p with
  | value => rfl
  | obj a =>
    simp only [localCollect, Heap.isNew]
    split_ifs
    · cases h.objects a <;> rfl
    · rfl

theorem Inv.localCollect {h : Heap} (hi : Inv h) (keep : Nat → Bool) (hk : keep h.nil) :
    Inv (localCollect keep h) := by
  obtain ⟨onil, hnil⟩ := Option.isSome_iff_exists.mp hi.nilObject
  refine ⟨?_, ?_, ?_, ?_⟩
  · rintro a o ho hm ⟨p, hp, hn⟩
    rw [localCollect_not_new] at hn
    cases hn
  · intro a o ho
    simp only [Generations.localCollect] at ho
    split_ifs at ho
    obtain ⟨o', ho', rfl⟩ := Option.map_eq_some_iff.mp ho
    obtain ⟨ha, hv⟩ := hi.valid a o' ho'
    refine ⟨ha, ?_⟩
    intro p hp
    rw [Body.refs_map] at hp
    obtain ⟨q, hq, rfl⟩ := List.mem_map.mp hp
    have hres : h.Valid ((h.resolve q).getD q) := by
      cases hr : h.resolve q with
      | none => exact hv q hq
      | some x => exact hi.resolve_valid (hv q hq) hr
    revert hres
    cases (h.resolve q).getD q <;> exact id
  · show ((Generations.localCollect keep h).objects h.nil).isSome
    simp [Generations.localCollect, hk, hnil]
  · left
    show (Generations.localCollect keep h).isMature h.nil
    simp [Generations.localCollect, Heap.isMature, hk, hnil]

/-! ## Runs -/

theorem Inv.init : Inv Heap.init := by
  have hone : ∀ {a : Nat} {o : Object}, Heap.init.objects a = some o → a = 0 ∧ o = ⟨false, .plain⟩ := by
    intro a o ho
    by_cases ha : a = 0
    · subst ha
      simp only [Heap.init, Function.update_self, Option.some.injEq] at ho
      exact ⟨rfl, ho.symm⟩
    · simp [Heap.init, ha] at ho
  refine ⟨?_, ?_, rfl, .inr ?_⟩
  · intro a o ho hm _
    rw [(hone ho).2] at hm
    cases hm
  · intro a o ho
    obtain ⟨rfl, rfl⟩ := hone ho
    exact ⟨Nat.zero_lt_one, by simp [Body.refs]⟩
  · intro a
    cases ho : Heap.init.objects a with
    | none => simp [Heap.isMature, ho]
    | some o => simp [Heap.isMature, ho, (hone ho).2]

theorem Inv.step {h h' : Heap} (hi : Inv h) {a : Action} (hstep : Step a h h')
    (hsafe : a.Safe h) : Inv h' := by
  obtain ⟨hv, hr⟩ := hstep
  cases a with
  | alloc b =>
    cases hr
    exact hi.alloc hv
  | cellMakeInd c dest =>
    cases hr
    exact hi.cellMakeInd (hv dest List.mem_cons_self)
  | arefSetTail c newtail => exact hi.arefSetTail (hv newtail List.mem_cons_self) hr
  | arefResolveTail c => exact hi.arefResolveTail hr
  | arefResolveElement refcell pos => exact hi.arefResolveElement hsafe hr
  | flattenElement arr i => exact hi.flattenElement hsafe hr
  | carrayMove refcell arr => exact hi.carrayMove (hv arr List.mem_cons_self) hr
  | carrayExtend arr data => exact hi.carrayExtend hv hr
  | convertToString arr => exact hi.convertToString hr
  | consToAref c arr => exact hi.consToAref (hv arr List.mem_cons_self) hr
  | frameToCap c newcp =>
    cases hr
    exact hi.barrier_setBody hv
  | frameLeaves c =>
    cases hr
    exact hi.frameLeaves c
  | freeSysobject c =>
    cases hr
    exact hi.freeSysobject c
  | markCell c => exact hi.markCell hr
  | markElement arr i => exact hi.markElement hr
  | markValue cp i => exact hi.markValue hsafe hr
  | markSlot c p =>
    obtain ⟨⟨q, h1⟩, hr1, rfl⟩ := Option.map_eq_some_iff.mp hr
    exact hi.grows (resolveCopyPntr_spec hr1).1
  | localCollect keep =>
    simp only [Action.run] at hr
    split_ifs at hr with hk
    cases hr
    exact hi.localCollect keep hk

/-- A step that does not hide a pointer from an old object to a new one. -/
def SafeStep (h h' : Heap) : Prop := ∃ a, Step a h h' ∧ a.Safe h

theorem inv_of_safe {h : Heap} (hrun : Relation.ReflTransGen SafeStep Heap.init h) : Inv h := by
  induction hrun with
  | refl => exact Inv.init
  | tail _ hstep ih =>
    obtain ⟨a, hstep, hsafe⟩ := hstep
    exact ih.step hstep hsafe

/-- In a run of such steps the remembered set covers every pointer from an old object to a new
one. -/
theorem covered_of_safe {h : Heap} (hrun : Relation.ReflTransGen SafeStep Heap.init h) :
    h.Covered :=
  (inv_of_safe hrun).covered

/-- An object is made old, and then an indirection to a new object. -/
def remembersRun : Heap :=
  cellMakeInd 1 (.obj 2) (alloc .plain (localCollect (fun _ => true) (alloc .plain Heap.init)))

theorem covered_of_safe_remembers :
    remembersRun.Covered ∧ remembersRun.remembered = [1] ∧ remembersRun.isMature 1 ∧
      remembersRun.isNew (.obj 2) := by
  refine ⟨covered_of_safe ?_, by decide, by decide, by decide⟩
  exact .head ⟨.alloc .plain, ⟨by decide, rfl⟩, by decide⟩ <|
    .head ⟨.localCollect (fun _ => true), ⟨by decide, rfl⟩, by decide⟩ <|
    .head ⟨.alloc .plain, ⟨by decide, rfl⟩, by decide⟩ <|
    .single ⟨.cellMakeInd 1 (.obj 2), ⟨by decide, rfl⟩, by decide⟩

/-- An array with an element still to be evaluated, which is then evaluated after a collection. -/
def evaluatesElement : Heap :=
  cellMakeInd 1 (.obj 4) (alloc .plain (localCollect (fun _ => true)
    (alloc (.aref (.obj 2) (.obj 0)) (alloc (.array [.obj 1]) (alloc .plain Heap.init)))))

/-- The element is resolved: the array is old and points to a new object, and the remembered set
has the cells, not the array. -/
theorem arefResolveElement_not_covered :
    ∃ h, Relation.ReflTransGen (fun h h' => ∃ a, Step a h h') Heap.init h ∧
      h.remembered = [3, 1] ∧ h.objects 2 = some ⟨true, .array [.obj 4]⟩ ∧
      h.isNew (.obj 4) ∧ ¬ h.Covered := by
  refine ⟨(arefResolveElement 3 0 evaluatesElement).get rfl, ?_, by decide, by decide, by decide, ?_⟩
  · exact .head ⟨.alloc .plain, by decide, rfl⟩ <|
      .head ⟨.alloc (.array [.obj 1]), by decide, rfl⟩ <|
      .head ⟨.alloc (.aref (.obj 2) (.obj 0)), by decide, rfl⟩ <|
      .head ⟨.localCollect (fun _ => true), by decide, rfl⟩ <|
      .head ⟨.alloc .plain, by decide, rfl⟩ <|
      .head ⟨.cellMakeInd 1 (.obj 4), by decide, rfl⟩ <|
      .single ⟨.arefResolveElement 3 0, by decide, rfl⟩
  · intro hc
    have hmem := hc 2 ⟨true, .array [.obj 4]⟩ (by decide) rfl ⟨.obj 4, by decide, by decide⟩
    exact absurd hmem (by decide)

end Generations
end Runtime
end NReduce
