import NReduce.Runtime.Describe

/-!
# NReduce.Runtime.Reading

What `read_pntr` makes of the description of an object: the new cells and addresses in the heap of
the receiver, and the copy with its components.
-/

namespace NReduce
namespace Runtime

open Logic

variable {n : Nat}

/-! ## The receiver's heap -/

/-- The tables have only globals and cells that exist. -/
structure Heap.Allocated (h : Heap n) : Prop where
  globals_lt : ∀ g glo, h.globals g = some glo → g < h.nglobals
  addrhash_lt : ∀ g ∈ h.addrhash, g < h.nglobals
  targethash_lt : ∀ g ∈ h.targethash, g < h.nglobals
  cells_lt : ∀ g glo c i, h.globals g = some glo → glo.p = .cell c i → c < h.ncells

/-- What was there before a message is read is there afterwards. -/
structure Grown (h h' : Heap n) : Prop where
  cells : ∀ c, c < h.ncells → h'.cells c = h.cells c
  ncells : h.ncells ≤ h'.ncells
  frames : ∀ f, f < h.nframes → h'.frames f = h.frames f
  nframes : h.nframes ≤ h'.nframes
  globals : ∀ g glo, h.globals g = some glo → h'.globals g = some glo
  addrhash : ∀ a g, h.addrhashLookup a = some g → h'.addrhashLookup a = some g
  targethash : ∀ p g, h.targethashLookup p = some g → h'.targethashLookup p = some g

theorem Grown.refl (h : Heap n) : Grown h h :=
  ⟨fun _ _ => rfl, Nat.le_refl _, fun _ _ => rfl, Nat.le_refl _, fun _ _ hg => hg,
    fun _ _ hg => hg, fun _ _ hg => hg⟩

theorem Grown.trans {h h' h'' : Heap n} (h1 : Grown h h') (h2 : Grown h' h'') : Grown h h'' where
  cells c hc := (h2.cells c (Nat.lt_of_lt_of_le hc h1.ncells)).trans (h1.cells c hc)
  ncells := Nat.le_trans h1.ncells h2.ncells
  frames f hf := (h2.frames f (Nat.lt_of_lt_of_le hf h1.nframes)).trans (h1.frames f hf)
  nframes := Nat.le_trans h1.nframes h2.nframes
  globals g glo hg := h2.globals g glo (h1.globals g glo hg)
  addrhash a g ha := h2.addrhash a g (h1.addrhash a g ha)
  targethash p g hp := h2.targethash p g (h1.targethash p g hp)

/-! ### New cells -/

def Heap.push (v : Cell n) (h : Heap n) : Heap n :=
  { h with cells := Function.update h.cells h.ncells v, ncells := h.ncells + 1 }

theorem allocCell_push (v : Cell n) (h : Heap n) : allocCell v h = some (h.ncells, h.push v) := rfl

theorem push_self (v : Cell n) (h : Heap n) : (h.push v).cells h.ncells = v := by simp [Heap.push]

theorem push_grown (v : Cell n) (h : Heap n) : Grown h (h.push v) where
  cells c hc := by simp [Heap.push, Nat.ne_of_lt hc]
  ncells := Nat.le_succ _
  frames _ _ := rfl
  nframes := Nat.le_refl _
  globals _ _ hg := hg
  addrhash _ _ ha := ha
  targethash _ _ hp := hp

theorem Heap.Allocated.push {h : Heap n} (ha : h.Allocated) (v : Cell n) : (h.push v).Allocated where
  globals_lt := ha.globals_lt
  addrhash_lt := ha.addrhash_lt
  targethash_lt := ha.targethash_lt
  cells_lt g glo c i hg hp := Nat.lt_succ_of_lt (ha.cells_lt g glo c i hg hp)

/-! ### New addresses -/

/-- `add_target`: an address and the object that the task has for it. -/
def Heap.register (a : Gaddr n) (p : Pntr) (h : Heap n) : Heap n :=
  { h with
    globals := Function.update h.globals h.nglobals (some { addr := a, p := p })
    nglobals := h.nglobals + 1
    addrhash := h.nglobals :: h.addrhash
    targethash := h.nglobals :: h.targethash }

theorem find?_hasAddr_congr {h h' : Heap n} {l : List Nat} (a : Gaddr n)
    (hl : ∀ g ∈ l, (h'.globals g).map (·.addr) = (h.globals g).map (·.addr)) :
    l.find? (h'.hasAddr a) = l.find? (h.hasAddr a) := by
  induction l with
  | nil => rfl
  | cons g l ih =>
    have hg : h'.hasAddr a g = h.hasAddr a g := by
      simp only [Heap.hasAddr, hl g List.mem_cons_self]
    simp only [List.find?_cons, hg]
    rw [ih (fun x hx => hl x (List.mem_cons_of_mem g hx))]

section

variable {h : Heap n} {a : Gaddr n} {p : Pntr}

theorem register_globals_of_lt {g : Nat} (hg : g < h.nglobals) :
    (h.register a p).globals g = h.globals g := by
  simp [Heap.register, Nat.ne_of_lt hg]

theorem register_globals_self :
    (h.register a p).globals h.nglobals = some { addr := a, p := p } := by
  simp [Heap.register]

theorem register_addrhash (ha : h.Allocated) (b : Gaddr n) :
    (h.register a p).addrhashLookup b =
      if b = a then some h.nglobals else h.addrhashLookup b := by
  have hself : (h.register a p).hasAddr b h.nglobals = decide (a = b) := by
    simp [Heap.hasAddr, register_globals_self]
  have hrest : h.addrhash.find? ((h.register a p).hasAddr b) = h.addrhashLookup b :=
    find?_hasAddr_congr b (fun g hg => by rw [register_globals_of_lt (ha.addrhash_lt g hg)])
  have hlook : (h.register a p).addrhashLookup b =
      (h.nglobals :: h.addrhash).find? ((h.register a p).hasAddr b) := rfl
  rw [hlook, List.find?_cons, hself, hrest]
  by_cases hb : b = a
  · simp [hb]
  · simp [hb, Ne.symm hb]

theorem register_targethash (ha : h.Allocated) (q : Pntr) :
    (h.register a p).targethashLookup q =
      if q = p then some h.nglobals else h.targethashLookup q := by
  have hself : (h.register a p).hasP q h.nglobals = decide (p = q) := by
    simp [Heap.hasP, register_globals_self]
  have hrest : h.targethash.find? ((h.register a p).hasP q) = h.targethashLookup q :=
    find?_hasP_congr q (fun g hg => register_globals_of_lt (ha.targethash_lt g hg))
  have hlook : (h.register a p).targethashLookup q =
      (h.nglobals :: h.targethash).find? ((h.register a p).hasP q) := rfl
  rw [hlook, List.find?_cons, hself, hrest]
  by_cases hb : q = p
  · simp [hb]
  · simp [hb, Ne.symm hb]

theorem register_grown (ha : h.Allocated) (hnone : h.addrhashLookup a = none)
    (hp : h.targethashLookup p = none) : Grown h (h.register a p) where
  cells _ _ := rfl
  ncells := Nat.le_refl _
  frames _ _ := rfl
  nframes := Nat.le_refl _
  globals g glo hg := by rw [register_globals_of_lt (ha.globals_lt g glo hg), hg]
  addrhash b g hb := by
    rw [register_addrhash ha, if_neg, hb]
    rintro rfl
    rw [hnone] at hb
    cases hb
  targethash q g hq := by
    rw [register_targethash ha, if_neg, hq]
    rintro rfl
    rw [hp] at hq
    cases hq

theorem Heap.Allocated.register (ha : h.Allocated) (hp : ∀ c i, p = .cell c i → c < h.ncells) :
    (h.register a p).Allocated where
  globals_lt g glo hg := by
    by_cases hlt : g = h.nglobals
    · rw [hlt]
      exact Nat.lt_succ_self _
    · simp only [Heap.register, Function.update_of_ne hlt] at hg
      exact Nat.lt_succ_of_lt (ha.globals_lt g glo hg)
  addrhash_lt g hg := by
    rcases List.mem_cons.mp hg with rfl | hg
    · exact Nat.lt_succ_self _
    · exact Nat.lt_succ_of_lt (ha.addrhash_lt g hg)
  targethash_lt g hg := by
    rcases List.mem_cons.mp hg with rfl | hg
    · exact Nat.lt_succ_self _
    · exact Nat.lt_succ_of_lt (ha.targethash_lt g hg)
  cells_lt g glo c i hg hc := by
    by_cases hlt : g = h.nglobals
    · subst hlt
      rw [register_globals_self] at hg
      cases hg
      exact hp c i hc
    · simp only [Heap.register, Function.update_of_ne hlt] at hg
      exact ha.cells_lt g glo c i hg hc

theorem addTarget_register {tid : Fin n} (ha : h.Allocated) (htid : a.tid ≠ tid)
    (hnone : h.addrhashLookup a = none) (hp : h.targethashLookup p = none) :
    addTarget tid a p h = some (h.nglobals, h.register a p) := by
  have haddr : h.addrhash.find? ((h.register a p).hasAddr a) = none := by
    rw [find?_hasAddr_congr (h := h) a
      (fun g hg => by rw [register_globals_of_lt (ha.addrhash_lt g hg)])]
    exact hnone
  have htarget : h.targethash.find? ((h.register a p).hasP p) = none := by
    rw [find?_hasP_congr p (fun g hg => register_globals_of_lt (ha.targethash_lt g hg))]
    exact hp
  simp only [addTarget, addrhashAdd, targethashAdd, bind_eq_some, check_eq_some, get_eq_some,
    newGlobal_eq_some, getGlobal_eq_some, modify_eq_some, pure_eq_some]
  refine ⟨(), h, ⟨htid, rfl⟩, h, h, ⟨rfl, rfl⟩, (), h, ⟨hnone, rfl⟩, (), h, ⟨hp, rfl⟩, _, _,
    ⟨rfl, rfl⟩, (), _, ⟨_, _, ⟨register_globals_self, rfl⟩, _, _, ⟨rfl, rfl⟩, (), _, ⟨haddr, rfl⟩,
    rfl⟩, (), _, ⟨_, _, ⟨register_globals_self, rfl⟩, _, _, ⟨rfl, rfl⟩, (), _, ⟨htarget, rfl⟩, rfl⟩,
    rfl, rfl⟩

end

/-! ## Reading -/

/-- A reference that was made for an address while a message is read. -/
def FreshRef (h h' : Heap n) (a : Gaddr n) (g : Nat) : Prop :=
  ∃ c, h.ncells ≤ c ∧ h'.globals g = some { addr := a, p := .cell c 0 } ∧
    h'.cells c = .remoteref g ∧ h'.targethashLookup (.cell c 0) = some g

/-- A message is read, from the heap `h` on. -/
structure Reading (h h' : Heap n) : Prop where
  grown : Grown h h'
  allocated : h'.Allocated
  fresh : ∀ a g, h.addrhashLookup a = none → h'.addrhashLookup a = some g → FreshRef h h' a g
  /-- what is new in `targethash` are such references -/
  targets : ∀ p g, h.targethashLookup p = none → h'.targethashLookup p = some g →
    ∃ c, p = .cell c 0 ∧ h'.cells c = .remoteref g

/-- What a reference in a message is for the receiver. -/
def Refers (h : Heap n) : Ref n → Pntr → Prop
  | .number d, p => p = .number d
  | .nil, p => p = nilPntr
  | .remote a, p => ∃ g glo, h.addrhashLookup a = some g ∧ h.globals g = some glo ∧ glo.p = p

theorem Reading.refl {h : Heap n} (ha : h.Allocated) : Reading h h where
  grown := Grown.refl h
  allocated := ha
  fresh a g hn hg := by
    rw [hn] at hg
    cases hg
  targets p g hn hg := by
    rw [hn] at hg
    cases hg

theorem targethashLookup_global {h : Heap n} {p : Pntr} {g : Nat}
    (hg : h.targethashLookup p = some g) : ∃ glo, h.globals g = some glo ∧ glo.p = p := by
  have hp := List.find?_some hg
  simp only [Heap.hasP, decide_eq_true_eq] at hp
  exact Option.map_eq_some_iff.mp hp

theorem FreshRef.grown {h h' h'' : Heap n} {a : Gaddr n} {g : Nat} (hf : FreshRef h h' a g)
    (ha : h'.Allocated) (hg : Grown h' h'') : FreshRef h h'' a g := by
  obtain ⟨c, hc, hglo, hcell, htarget⟩ := hf
  have hlt := ha.cells_lt g _ c 0 hglo rfl
  exact ⟨c, hc, hg.globals g _ hglo, (hg.cells c hlt).trans hcell, hg.targethash _ g htarget⟩

/-- A step that gives no new address. -/
theorem Reading.step {h h' h'' : Heap n} (hr : Reading h h') (hg : Grown h' h'')
    (ha : h''.Allocated) (haddr : ∀ a, h''.addrhashLookup a = h'.addrhashLookup a)
    (htarget : ∀ p, h''.targethashLookup p = h'.targethashLookup p) : Reading h h'' where
  grown := hr.grown.trans hg
  allocated := ha
  fresh a g hn hlook := by
    rw [haddr] at hlook
    exact (hr.fresh a g hn hlook).grown hr.allocated hg
  targets p g hn hlook := by
    rw [htarget] at hlook
    obtain ⟨c, rfl, hc⟩ := hr.targets p g hn hlook
    obtain ⟨glo, hglo, hp⟩ := targethashLookup_global hlook
    exact ⟨c, rfl, (hg.cells c (hr.allocated.cells_lt g glo c 0 hglo hp)).trans hc⟩

theorem Reading.push {h h' : Heap n} (hr : Reading h h') (v : Cell n) : Reading h (h'.push v) :=
  hr.step (push_grown v h') (hr.allocated.push v) (fun _ => rfl) (fun _ => rfl)

theorem Refers.grown {h h' : Heap n} (hg : Grown h h') {r : Ref n} {p : Pntr} (hr : Refers h r p) :
    Refers h' r p := by
  cases r with
  | number d => exact hr
  | nil => exact hr
  | remote a =>
    obtain ⟨g, glo, ha, hglo, hp⟩ := hr
    exact ⟨g, glo, hg.addrhash a g ha, hg.globals g glo hglo, hp⟩

/-- The next cell is in no table. -/
theorem Heap.Allocated.targethash_next {h : Heap n} (ha : h.Allocated) (c i : Nat)
    (hc : h.ncells ≤ c) : h.targethashLookup (.cell c i) = none := by
  unfold Heap.targethashLookup
  apply List.find?_eq_none.mpr
  intro g _ hp
  simp only [Heap.hasP, decide_eq_true_eq] at hp
  obtain ⟨glo, hglo, hcell⟩ := Option.map_eq_some_iff.mp hp
  have := ha.cells_lt g glo c i hglo hcell
  omega

theorem onHeap_apply {α : Type} {m : HeapM n α} {s : Interp n} {a : α} {h : Heap n}
    (hm : m s.heap = some (a, h)) : onHeap m s = some (a, { s with heap := h }) :=
  zoom_eq_some.mpr ⟨h, hm, rfl⟩

/-- The task has no address of its own that it does not know. -/
def Foreign (tid : Fin n) (h : Heap n) (r : Ref n) : Prop :=
  ∀ a, r = .remote a → h.addrhashLookup a = none → a.tid ≠ tid

theorem addrhashLookup_global {h : Heap n} {a : Gaddr n} {g : Nat}
    (hg : h.addrhashLookup a = some g) : ∃ glo, h.globals g = some glo ∧ glo.addr = a := by
  have hp := List.find?_some hg
  simp only [Heap.hasAddr, decide_eq_true_eq] at hp
  exact Option.map_eq_some_iff.mp hp

/-- A remote reference to an address that is new to the task. -/
def Heap.addRef (a : Gaddr n) (h : Heap n) : Heap n :=
  (h.push (.remoteref h.nglobals)).register a (.cell h.ncells 0)

theorem readRef_known (tid : Fin n) {a : Gaddr n} {s : Interp n} {g : Nat} {glo : Global n}
    (ha : s.heap.addrhashLookup a = some g) (hg : s.heap.globals g = some glo) :
    ∃ acct, readRef tid (.remote a) s = some (glo.p, { s with acct := acct }) := by
  refine ⟨{ s.acct with naddrsread := s.acct.naddrsread + 1 }, ?_⟩
  unfold readRef readGaddr
  refine bind_eq_some.mpr ⟨(), _, rfl, ?_⟩
  rw [get_apply]
  simp only [ha]
  exact bind_eq_some.mpr ⟨glo, _, onHeap_apply (getGlobal_eq_some.mpr ⟨hg, rfl⟩), rfl⟩

theorem readRef_new {tid : Fin n} {a : Gaddr n} {s : Interp n} (hall : s.heap.Allocated)
    (ha : s.heap.addrhashLookup a = none) (htid : a.tid ≠ tid) :
    ∃ acct, readRef tid (.remote a) s =
      some (.cell s.heap.ncells 0, ⟨s.heap.addRef a, acct⟩) := by
  refine ⟨{ s.acct with naddrsread := s.acct.naddrsread + 1 }, ?_⟩
  have htarget := hall.targethash_next s.heap.ncells 0 (Nat.le_refl _)
  have hadd : addTarget tid a (.cell s.heap.ncells 0) (s.heap.push .empty) = _ :=
    addTarget_register (hall.push .empty) htid ha htarget
  unfold readRef readGaddr
  refine bind_eq_some.mpr ⟨(), _, rfl, ?_⟩
  rw [get_apply]
  simp only [ha]
  refine bind_eq_some.mpr ⟨(), _, check_eq_some.mpr ⟨htid, rfl⟩, ?_⟩
  refine bind_eq_some.mpr ⟨_, _, onHeap_apply (allocCell_push .empty _), ?_⟩
  refine bind_eq_some.mpr ⟨_, _, onHeap_apply hadd, ?_⟩
  refine bind_eq_some.mpr ⟨(), _, onHeap_apply rfl, ?_⟩
  -- the cell is written twice
  simp only [pure_eq_some, Heap.addRef, Heap.push, Heap.register, Function.update_idem, and_self]

theorem Reading.addRef {h h' : Heap n} (hr : Reading h h') {a : Gaddr n}
    (ha : h'.addrhashLookup a = none) :
    Reading h (h'.addRef a) ∧ Grown h' (h'.addRef a) ∧
      Refers (h'.addRef a) (.remote a) (.cell h'.ncells 0) := by
  have hall := hr.allocated.push (.remoteref h'.nglobals)
  have htarget : (h'.push (.remoteref h'.nglobals)).targethashLookup (.cell h'.ncells 0) = none :=
    hr.allocated.targethash_next h'.ncells 0 (Nat.le_refl _)
  have hgrown : Grown h' (h'.addRef a) :=
    (push_grown _ h').trans (register_grown hall ha htarget)
  have hglob : (h'.addRef a).globals h'.nglobals = some { addr := a, p := .cell h'.ncells 0 } :=
    register_globals_self
  have hlook : ∀ b, (h'.addRef a).addrhashLookup b =
      if b = a then some h'.nglobals else h'.addrhashLookup b := fun b => register_addrhash hall b
  refine ⟨⟨hr.grown.trans hgrown, hall.register ?_, ?_, ?_⟩, hgrown, ?_⟩
  · intro c i hc
    cases hc
    exact Nat.lt_succ_self _
  · intro b g hn hb
    rw [hlook] at hb
    split_ifs at hb with hba
    · subst hba
      cases hb
      refine ⟨h'.ncells, hr.grown.ncells, hglob, push_self _ h', ?_⟩
      exact (register_targethash hall _).trans (if_pos rfl)
    · exact (hr.fresh b g hn hb).grown hr.allocated hgrown
  · intro p g hn hp
    have hlook' : (h'.addRef a).targethashLookup p =
        if p = .cell h'.ncells 0 then some h'.nglobals else h'.targethashLookup p :=
      register_targethash hall p
    rw [hlook'] at hp
    split_ifs at hp with hpc
    · cases hp
      exact ⟨h'.ncells, hpc, push_self _ h'⟩
    · obtain ⟨c, rfl, hc⟩ := hr.targets p g hn hp
      obtain ⟨glo, hglo, hcell⟩ := targethashLookup_global hp
      have hlt := hr.allocated.cells_lt g glo c 0 hglo hcell
      exact ⟨c, rfl, (hgrown.cells c hlt).trans hc⟩
  · exact ⟨h'.nglobals, _, (hlook a).trans (if_pos rfl), hglob, rfl⟩

theorem readRef_reading {tid : Fin n} {h : Heap n} {r : Ref n} {s : Interp n}
    (hr : Reading h s.heap) (hf : Foreign tid h r) :
    ∃ p s', readRef tid r s = some (p, s') ∧ Reading h s'.heap ∧ Grown s.heap s'.heap ∧
      Refers s'.heap r p := by
  cases r with
  | number d => exact ⟨.number d, s, rfl, hr, Grown.refl _, rfl⟩
  | nil => exact ⟨nilPntr, s, rfl, hr, Grown.refl _, rfl⟩
  | remote a =>
    cases ha : s.heap.addrhashLookup a with
    | some g =>
      obtain ⟨glo, hg, -⟩ := addrhashLookup_global ha
      obtain ⟨acct, hread⟩ := readRef_known tid ha hg
      exact ⟨glo.p, _, hread, hr, Grown.refl _, g, glo, ha, hg, rfl⟩
    | none =>
      have hnone : h.addrhashLookup a = none := by
        cases hb : h.addrhashLookup a with
        | none => rfl
        | some g =>
          rw [hr.grown.addrhash a g hb] at ha
          cases ha
      obtain ⟨acct, hread⟩ := readRef_new hr.allocated ha (hf a rfl hnone)
      obtain ⟨h1, h2, h3⟩ := hr.addRef ha
      exact ⟨_, _, hread, h1, h2, h3⟩

theorem readRefs_reading {tid : Fin n} {h : Heap n} {rs : List (Ref n)} {s : Interp n}
    (hr : Reading h s.heap) (hf : ∀ r ∈ rs, Foreign tid h r) :
    ∃ ps s', readRefs tid rs s = some (ps, s') ∧ Reading h s'.heap ∧ Grown s.heap s'.heap ∧
      List.Forall₂ (Refers s'.heap) rs ps := by
  induction rs generalizing s with
  | nil => exact ⟨[], s, rfl, hr, Grown.refl _, .nil⟩
  | cons r rs ih =>
    obtain ⟨p, s1, hread, hr1, hg1, hp⟩ := readRef_reading hr (hf r List.mem_cons_self)
    obtain ⟨ps, s2, hreads, hr2, hg2, hps⟩ := ih hr1 (fun x hx => hf x (List.mem_cons_of_mem r hx))
    refine ⟨p :: ps, s2, ?_, hr2, hg1.trans hg2, .cons (hp.grown hg2) hps⟩
    exact bind_eq_some.mpr ⟨p, s1, hread, bind_eq_some.mpr ⟨ps, s2, hreads, rfl⟩⟩

theorem readGaddrs_apply (as : List (Gaddr n)) (s : Interp n) :
    ∃ a, readGaddrs as s = some ((), { s with acct := a }) := by
  induction as generalizing s with
  | nil => exact ⟨s.acct, rfl⟩
  | cons x as ih =>
    obtain ⟨a, ha⟩ := ih { s with acct := { s.acct with naddrsread := s.acct.naddrsread + 1 } }
    exact ⟨a, ha⟩

/-! ### Bodies -/

/-- The elements of an array, with `R` between each of them and its copy. -/
def ElementsRel (R : Ref n → Pntr → Prop) : Elements (Ref n) → Elements Pntr → Prop
  | .bytes b, .bytes b' => b' = b
  | .pntrs l, .pntrs l' => List.Forall₂ R l l'
  | _, _ => False

/-- `q` is the object that a message describes; `R` relates its components. -/
def Received (R : Ref n → Pntr → Prop) (h : Heap n) : Obj n → Pntr → Prop
  | .ref r, q => R r q
  | .cons _ head tail, q => ∃ c x y, q = .cell c 0 ∧ h.cells c = .cons x y ∧ R head x ∧ R tail y
  | .aref _ index elements tail, q => ∃ c arr els y, q = .cell c index ∧ h.cells c = .aref arr y ∧
      h.cells arr = .array els true ∧ ElementsRel R elements els ∧ R tail y
  | .array _ elements, q => ∃ c els, q = .cell c 0 ∧ h.cells c = .array els true ∧
      ElementsRel R elements els
  | .frame _ address fetchers data _, q => ∃ c f l, q = .cell c 0 ∧ h.cells c = .frame f ∧
      (h.frames f).state = .new ∧ (h.frames f).instr = address ∧
      (h.frames f).wq.fetchers.Perm fetchers ∧ (h.frames f).data = slots l ∧ List.Forall₂ R data l
  | .cap _ arity address fno fileno lineno data, q => ∃ c l, q = .cell c 0 ∧
      h.cells c = .cap arity address fno fileno lineno l ∧ List.Forall₂ R data l
  | .sysobject _ type ownertid sockid, q => ∃ c, q = .cell c 0 ∧
      h.cells c = .sysobject type ownertid sockid

theorem ElementsRel.imp {R R' : Ref n → Pntr → Prop} (hR : ∀ r p, R r p → R' r p)
    {l : Elements (Ref n)} {l' : Elements Pntr} (hl : ElementsRel R l l') : ElementsRel R' l l' := by
  cases l with
  | bytes b =>
    cases l' with
    | bytes b' => exact hl
    | pntrs l' => exact hl
  | pntrs l =>
    cases l' with
    | bytes b' => exact hl
    | pntrs l' => exact List.Forall₂.imp (fun {r p} h => hR r p h) hl

/-- Nothing but references has changed since the object was read. -/
theorem Received.imp {R R' : Ref n → Pntr → Prop} {h h' : Heap n} {o : Obj n} {q : Pntr}
    (hr : Received R h o q) (hR : ∀ r p, R r p → R' r p) (hframes : h'.frames = h.frames)
    (hcells : ∀ c, (∀ g, h.cells c ≠ .remoteref g) → h'.cells c = h.cells c) :
    Received R' h' o q := by
  have hkeep : ∀ {c : Nat} {v : Cell n}, h.cells c = v → (∀ g, v ≠ .remoteref g) →
      h'.cells c = v := by
    intro c v hv hne
    rw [hcells c (by rwa [hv]), hv]
  cases o with
  | ref r => exact hR r q hr
  | cons a head tail =>
    obtain ⟨c, x, y, hq, hc, h1, h2⟩ := hr
    exact ⟨c, x, y, hq, hkeep hc (by simp), hR _ _ h1, hR _ _ h2⟩
  | aref a index elements tail =>
    obtain ⟨c, arr, els, y, hq, hc, harr, h1, h2⟩ := hr
    exact ⟨c, arr, els, y, hq, hkeep hc (by simp), hkeep harr (by simp), h1.imp hR, hR _ _ h2⟩
  | array a elements =>
    obtain ⟨c, els, hq, hc, h1⟩ := hr
    exact ⟨c, els, hq, hkeep hc (by simp), h1.imp hR⟩
  | frame a address fetchers data origin =>
    obtain ⟨c, f, l, hq, hc, hs, hi, hf, hd, hl⟩ := hr
    refine ⟨c, f, l, hq, hkeep hc (by simp), ?_⟩
    rw [hframes]
    exact ⟨hs, hi, hf, hd, List.Forall₂.imp (fun {r p} h => hR r p h) hl⟩
  | cap a arity address fno fileno lineno data =>
    obtain ⟨c, l, hq, hc, hl⟩ := hr
    exact ⟨c, l, hq, hkeep hc (by simp), List.Forall₂.imp (fun {r p} h => hR r p h) hl⟩
  | sysobject a type ownertid sockid =>
    obtain ⟨c, hq, hc⟩ := hr
    exact ⟨c, hq, hkeep hc (by simp)⟩

def Elements.refs : Elements (Ref n) → List (Ref n)
  | .bytes _ => []
  | .pntrs l => l

/-- The components of an object. -/
def Obj.refs : Obj n → List (Ref n)
  | .ref r => [r]
  | .cons _ head tail => [head, tail]
  | .aref _ _ elements tail => elements.refs ++ [tail]
  | .array _ elements => elements.refs
  | .frame _ _ _ data _ => data
  | .cap _ _ _ _ _ _ data => data
  | .sysobject _ _ _ _ => []

/-- What the receiver checks and the sender does not. -/
def Obj.Acceptable : Obj n → Prop
  | .array _ elements => 0 < elements.size
  | .cap _ _ _ _ _ _ data => data.length < maxCapSize
  | .sysobject addr _ ownertid _ => ownertid = addr.tid
  | _ => True

theorem readElements_reading {tid : Fin n} {h : Heap n} {l : Elements (Ref n)} {s : Interp n}
    (hr : Reading h s.heap) (hf : ∀ r ∈ l.refs, Foreign tid h r) :
    ∃ l' s', readElements tid l s = some (l', s') ∧ Reading h s'.heap ∧ Grown s.heap s'.heap ∧
      ElementsRel (Refers s'.heap) l l' := by
  cases l with
  | bytes b => exact ⟨.bytes b, s, rfl, hr, Grown.refl _, rfl⟩
  | pntrs l =>
    obtain ⟨ps, s', hread, hr', hg, hps⟩ := readRefs_reading hr hf
    exact ⟨.pntrs ps, s', bind_eq_some.mpr ⟨ps, s', hread, rfl⟩, hr', hg, hps⟩

/-- A cell that was made while the message was read. -/
def NewCell (h h' : Heap n) (p : Pntr) : Prop :=
  ∃ c i, p = .cell c i ∧ h.ncells ≤ c ∧ c < h'.ncells ∧ ∀ g, h'.cells c ≠ .remoteref g

theorem Reading.newCell {h h' : Heap n} (hr : Reading h h') (v : Cell n) (i : Nat)
    (hv : ∀ g, v ≠ .remoteref g) : NewCell h (h'.push v) (.cell h'.ncells i) := by
  refine ⟨h'.ncells, i, rfl, hr.grown.ncells, Nat.lt_succ_self _, ?_⟩
  rw [push_self]
  exact hv

theorem NewCell.targethash {h h' : Heap n} {p : Pntr} (hp : NewCell h h' p) (ha : h.Allocated)
    (hr : Reading h h') : h'.targethashLookup p = none := by
  obtain ⟨c, i, rfl, hc, -, hne⟩ := hp
  cases ht : h'.targethashLookup (.cell c i) with
  | none => rfl
  | some g =>
    obtain ⟨c', heq, hc'⟩ := hr.targets _ g (ha.targethash_next c i hc) ht
    cases heq
    exact absurd hc' (hne g)

theorem newObject_apply (v : Cell n) (s : Interp n) :
    newObject v s = some (.cell s.heap.ncells 0, { s with heap := s.heap.push v }) := rfl

/-- A frame that was made while the message is read is changed. -/
theorem Reading.setFrames {h h' : Heap n} (hr : Reading h h') {f : Nat} (hf : h.nframes ≤ f)
    (v : Frame n) {m : Nat} (hm : h'.nframes ≤ m) :
    Reading h { h' with frames := Function.update h'.frames f v, nframes := m } where
  grown := {
    cells := hr.grown.cells
    ncells := hr.grown.ncells
    frames := by
      intro f' hlt
      have hne : f' ≠ f := by omega
      simp only [Function.update_of_ne hne]
      exact hr.grown.frames f' hlt
    nframes := Nat.le_trans hr.grown.nframes hm
    globals := hr.grown.globals
    addrhash := hr.grown.addrhash
    targethash := hr.grown.targethash }
  allocated :=
    ⟨hr.allocated.globals_lt, hr.allocated.addrhash_lt, hr.allocated.targethash_lt,
      hr.allocated.cells_lt⟩
  fresh a g hn hlook := hr.fresh a g hn hlook
  targets p g hn hlook := hr.targets p g hn hlook

theorem readFrame_reading {e : Env n} {tid : Fin n} {h : Heap n} {addr : Gaddr n} {address : Nat}
    {fetchers : List (Gaddr n)} {data : List (Ref n)} {origin : Option (Origin n)} {s : Interp n}
    (hr : Reading h s.heap) (hlen : data.length = e.expcount address)
    (hf : ∀ r ∈ data, Foreign tid h r) :
    ∃ p s', readFrame e tid address fetchers data origin s = some (p, s') ∧ Reading h s'.heap ∧
      NewCell h s'.heap p ∧
      Received (Refers s'.heap) s'.heap (.frame addr address fetchers data origin) p := by
  -- the frame and its cell, before the message is read further
  let fr : Frame n := { instr := address, origin := origin, state := .new }
  let h1 : Heap n := { s.heap with
    frames := Function.update s.heap.frames s.heap.nframes fr, nframes := s.heap.nframes + 1 }
  let h2 : Heap n := h1.push (.frame s.heap.nframes)
  have hr1 : Reading h h1 := hr.setFrames hr.grown.nframes fr (Nat.le_succ _)
  have hr2 : Reading h h2 := hr1.push _
  obtain ⟨acct, hgs⟩ := readGaddrs_apply fetchers ⟨h2, s.acct⟩
  obtain ⟨l, s3, hread, hr3, hg3, hl⟩ := readRefs_reading (s := ⟨h2, acct⟩) hr2 hf
  have hfr : s3.heap.frames s.heap.nframes = fr := by
    rw [hg3.frames s.heap.nframes (Nat.lt_succ_self _)]
    exact Function.update_self _ _ _
  have hcell : s3.heap.cells s.heap.ncells = .frame s.heap.nframes := by
    rw [hg3.cells s.heap.ncells (Nat.lt_succ_self _)]
    exact push_self _ h1
  let v : Frame n := { fr with
    c := some s.heap.ncells, wq := { fr.wq with fetchers := fetchers.reverse }, data := slots l }
  have hr4 := hr3.setFrames hr.grown.nframes v (Nat.le_refl _)
  refine ⟨.cell s.heap.ncells 0, ⟨_, s3.acct⟩, ?_, hr4, ?_, ?_⟩
  · unfold readFrame
    refine bind_eq_some.mpr ⟨s.heap.nframes, ⟨h1, s.acct⟩, rfl, ?_⟩
    refine bind_eq_some.mpr ⟨s.heap.ncells, ⟨h2, s.acct⟩, rfl, ?_⟩
    refine bind_eq_some.mpr ⟨(), _, hgs, ?_⟩
    refine bind_eq_some.mpr ⟨(), _, check_eq_some.mpr ⟨hlen, rfl⟩, ?_⟩
    refine bind_eq_some.mpr ⟨l, s3, hread, ?_⟩
    refine bind_eq_some.mpr ⟨fr, s3, onHeap_apply ?_, ?_⟩
    · rw [← hfr]
      rfl
    · exact bind_eq_some.mpr ⟨(), _, onHeap_apply rfl, rfl⟩
  · refine ⟨s.heap.ncells, 0, rfl, hr.grown.ncells, ?_, ?_⟩
    · exact Nat.lt_of_lt_of_le (Nat.lt_succ_self _) hg3.ncells
    · intro g hg
      rw [hcell] at hg
      cases hg
  · refine ⟨s.heap.ncells, s.heap.nframes, l, rfl, hcell, ?_⟩
    simp only [Function.update_self]
    exact ⟨rfl, rfl, List.reverse_perm fetchers, rfl, hl⟩

theorem readBody_reading {e : Env n} {tid : Fin n} {h : Heap n} {o : Obj n} {s : Interp n}
    (hr : Reading h s.heap) (ho : o.address ≠ none) (hcheck : o.Checked e.expcount)
    (hacc : o.Acceptable) (hf : ∀ r ∈ o.refs, Foreign tid h r) :
    ∃ p s', readBody e tid o s = some (p, s') ∧ Reading h s'.heap ∧ NewCell h s'.heap p ∧
      Received (Refers s'.heap) s'.heap o p := by
  cases o with
  | ref r => exact absurd rfl ho
  | cons a head tail =>
    obtain ⟨x, s1, hs1, hr1, -, hx⟩ := readRef_reading hr (hf head (by simp [Obj.refs]))
    obtain ⟨y, s2, hs2, hr2, hg2, hy⟩ := readRef_reading hr1 (hf tail (by simp [Obj.refs]))
    have hg3 := push_grown (.cons x y) s2.heap
    refine ⟨_, ⟨_, s2.acct⟩, ?_, hr2.push (.cons x y), hr2.newCell (.cons x y) 0 nofun, ?_⟩
    · exact bind_eq_some.mpr ⟨x, s1, hs1, bind_eq_some.mpr ⟨y, s2, hs2, newObject_apply _ s2⟩⟩
    · exact ⟨_, x, y, rfl, push_self _ _, (hx.grown hg2).grown hg3, hy.grown hg3⟩
  | aref a index elements tail =>
    obtain ⟨hmax, hindex⟩ := hcheck
    obtain ⟨els, s1, hs1, hr1, -, hels⟩ := readElements_reading hr
      (fun r hm => hf r (List.mem_append_left _ hm))
    obtain ⟨y, s2, hs2, hr2, hg2, hy⟩ := readRef_reading hr1 (hf tail (by simp [Obj.refs]))
    have hg3 := push_grown (.array els true) s2.heap
    have hg4 := push_grown (.aref s2.heap.ncells y) (s2.heap.push (.array els true))
    have hg := hg3.trans hg4
    refine ⟨_, ⟨_, s2.acct⟩, ?_, (hr2.push (.array els true)).push (.aref s2.heap.ncells y),
      (hr2.push (.array els true)).newCell (.aref s2.heap.ncells y) index nofun, ?_⟩
    · unfold readBody
      refine bind_eq_some.mpr ⟨(), s, check_eq_some.mpr ⟨hmax, rfl⟩, ?_⟩
      refine bind_eq_some.mpr ⟨(), s, check_eq_some.mpr ⟨hindex, rfl⟩, ?_⟩
      refine bind_eq_some.mpr ⟨els, s1, hs1, bind_eq_some.mpr ⟨y, s2, hs2, ?_⟩⟩
      rfl
    · refine ⟨_, s2.heap.ncells, els, y, rfl, push_self _ _, ?_, ?_, hy.grown hg⟩
      · exact (hg4.cells s2.heap.ncells (Nat.lt_succ_self _)).trans (push_self _ _)
      · exact hels.imp (fun r p hrp => (hrp.grown hg2).grown hg)
  | array a elements =>
    obtain ⟨els, s1, hs1, hr1, -, hels⟩ := readElements_reading hr hf
    have hg2 := push_grown (.array els true) s1.heap
    refine ⟨_, ⟨_, s1.acct⟩, ?_, hr1.push (.array els true), hr1.newCell (.array els true) 0 nofun, ?_⟩
    · unfold readBody
      refine bind_eq_some.mpr ⟨(), s, check_eq_some.mpr ⟨hcheck, rfl⟩, ?_⟩
      refine bind_eq_some.mpr ⟨(), s, check_eq_some.mpr ⟨hacc, rfl⟩, ?_⟩
      exact bind_eq_some.mpr ⟨els, s1, hs1, newObject_apply _ s1⟩
    · exact ⟨_, els, rfl, push_self _ _, hels.imp (fun r p hrp => hrp.grown hg2)⟩
  | frame a address fetchers data origin => exact readFrame_reading hr hcheck hf
  | cap a arity address fno fileno lineno data =>
    obtain ⟨l, s1, hs1, hr1, -, hl⟩ := readRefs_reading hr hf
    have hg2 := push_grown (.cap arity address fno fileno lineno l) s1.heap
    refine ⟨_, ⟨_, s1.acct⟩, ?_, hr1.push (.cap arity address fno fileno lineno l),
      hr1.newCell (.cap arity address fno fileno lineno l) 0 nofun, ?_⟩
    · unfold readBody
      refine bind_eq_some.mpr ⟨(), s, check_eq_some.mpr ⟨hacc, rfl⟩, ?_⟩
      exact bind_eq_some.mpr ⟨l, s1, hs1, newObject_apply _ s1⟩
    · exact ⟨_, l, rfl, push_self _ _, List.Forall₂.imp (fun {r p} hrp => hrp.grown hg2) hl⟩
  | sysobject a type ownertid sockid =>
    refine ⟨_, ⟨_, s.acct⟩, ?_, hr.push (.sysobject type ownertid sockid),
      hr.newCell (.sysobject type ownertid sockid) 0 nofun, ?_⟩
    · unfold readBody
      exact bind_eq_some.mpr ⟨(), s, check_eq_some.mpr ⟨hacc, rfl⟩, newObject_apply _ s⟩
    · exact ⟨_, rfl, push_self _ _⟩

/-! ### The copy takes its place -/

/-- A component of the copy `q` of the object `addr`: a number, nil, the object that the receiver
has for an address that it knew, and otherwise a remote reference. A component that is the object
itself is an indirection to the copy. -/
def Holds (h h' : Heap n) (addr : Gaddr n) (q : Pntr) : Ref n → Pntr → Prop
  | .number d, p => p = .number d
  | .nil, p => p = nilPntr
  | .remote a, p =>
    match h.addrhashLookup a with
    | some g => (h.globals g).map (·.p) = some p
    | none =>
      if a = addr then h'.at p = some (.ind q)
      else ∃ g, h'.at p = some (.remoteref g) ∧ (h'.globals g).map (·.addr) = some a

/-- An address that the task has an object for. -/
def Heap.Knows (h : Heap n) (a : Gaddr n) (p : Pntr) : Prop :=
  ∃ g glo, h.addrhashLookup a = some g ∧ h.globals g = some glo ∧ glo.p = p

theorem Holds.of_refers {h h1 h2 : Heap n} {addr : Gaddr n} {q : Pntr} (hr : Reading h h1)
    (hself : ∀ g c, h.addrhashLookup addr = none → h1.addrhashLookup addr = some g →
      h1.globals g = some { addr := addr, p := .cell c 0 } → h2.cells c = .ind q)
    (hother : ∀ a g c, a ≠ addr → h1.globals g = some { addr := a, p := .cell c 0 } →
      h1.cells c = .remoteref g → h2.cells c = .remoteref g ∧ h2.globals g = h1.globals g)
    {r : Ref n} {p : Pntr} (hp : Refers h1 r p) : Holds h h2 addr q r p := by
  cases r with
  | number d => exact hp
  | nil => exact hp
  | remote a =>
    obtain ⟨g, glo, hlook, hglo, rfl⟩ := hp
    cases ha : h.addrhashLookup a with
    | some g' =>
      simp only [Holds, ha]
      rw [hr.grown.addrhash a g' ha] at hlook
      cases hlook
      obtain ⟨glo', hglo', -⟩ := addrhashLookup_global ha
      rw [hr.grown.globals g glo' hglo'] at hglo
      cases hglo
      rw [hglo']
      rfl
    | none =>
      simp only [Holds, ha]
      obtain ⟨c, -, hglo', hcell, -⟩ := hr.fresh a g ha hlook
      rw [hglo] at hglo'
      cases hglo'
      split_ifs with haddr
      · subst haddr
        simp only [Heap.at]
        rw [hself g c ha hlook hglo]
      · obtain ⟨h1c, h1g⟩ := hother a g c haddr hglo hcell
        refine ⟨g, ?_, ?_⟩
        · simp only [Heap.at]
          rw [h1c]
        · rw [h1g, hglo]
          rfl

/-- An address that is new to the task. -/
theorem mergeObject_new (e : Env n) {tid : Fin n} {h : Heap n} {addr : Gaddr n} {o : Obj n}
    {q : Pntr} {s : Interp n} (ha : h.Allocated) (hr : Reading h s.heap)
    (hq : NewCell h s.heap q) (htid : addr.tid ≠ tid) (hnone : s.heap.addrhashLookup addr = none)
    (ho : Received (Refers s.heap) s.heap o q) :
    ∃ s', mergeObject e tid addr q s = some (q, s') ∧
      Received (Holds h s'.heap addr q) s'.heap o q ∧ s'.heap.Knows addr q := by
  have htarget := hq.targethash ha hr
  have hadd := addTarget_register hr.allocated htid hnone htarget
  refine ⟨{ s with heap := s.heap.register addr q }, ?_, ?_, ?_⟩
  · unfold mergeObject
    rw [get_apply]
    simp only [hnone]
    refine bind_eq_some.mpr ⟨(), s, check_eq_some.mpr ⟨htid, rfl⟩, ?_⟩
    refine bind_eq_some.mpr ⟨(), s, check_eq_some.mpr ⟨htarget, rfl⟩, ?_⟩
    exact bind_eq_some.mpr ⟨_, _, onHeap_apply hadd, rfl⟩
  · refine ho.imp ?_ rfl (fun _ _ => rfl)
    intro r p hp
    refine Holds.of_refers hr ?_ ?_ hp
    · intro g c _ hg
      rw [hnone] at hg
      cases hg
    · intro a g c _ hglo hcell
      exact ⟨hcell, register_globals_of_lt (hr.allocated.globals_lt g _ hglo)⟩
  · exact ⟨_, _, (register_addrhash hr.allocated addr).trans (if_pos rfl),
      register_globals_self, rfl⟩

/-- The reference `c` is an indirection to the copy afterwards, and its global is that of the
copy. -/
theorem replaceReference_apply (tid : Fin n) (addr : Gaddr n) (c : Nat) (q : Pntr) {g : Nat}
    {h : Heap n} {glo : Global n} (hg : h.globals g = some glo) :
    ∃ t, replaceReference tid addr g c false q h = some ((), { h with
      cells := Function.update h.cells c (.ind q)
      globals := Function.update h.globals g (some { glo with p := q })
      targethash := t }) := by
  let h1 : Heap n := { h with
    cells := Function.update h.cells c (.ind q)
    targethash := h.targethash.erase g
    globals := Function.update h.globals g (some { glo with p := q }) }
  have hglo1 : h1.globals g = some { glo with p := q } := Function.update_self _ _ _
  have hbefore : ∀ t, (when (h1.targethashLookup q = none ∧ addr.tid ≠ tid) (targethashAdd g) >>=
        fun _ => (when (false = true) (physhashAdd g))) h1 = some ((), { h1 with targethash := t }) →
      replaceReference tid addr g c false q h = some ((), { h1 with targethash := t }) := by
    intro t ht
    unfold replaceReference
    refine bind_eq_some.mpr ⟨(), _, rfl, bind_eq_some.mpr ⟨(), _, rfl, ?_⟩⟩
    refine bind_eq_some.mpr ⟨(), _, rfl, ?_⟩
    refine bind_eq_some.mpr ⟨glo, _, getGlobal_eq_some.mpr ⟨hg, rfl⟩, ?_⟩
    exact bind_eq_some.mpr ⟨(), h1, rfl, ht⟩
  by_cases hw : h1.targethashLookup q = none ∧ addr.tid ≠ tid
  · refine ⟨g :: h.targethash.erase g, hbefore _ ?_⟩
    refine bind_eq_some.mpr ⟨(), _, ?_, rfl⟩
    unfold when targethashAdd
    rw [if_pos hw]
    refine bind_eq_some.mpr ⟨_, h1, getGlobal_eq_some.mpr ⟨hglo1, rfl⟩, ?_⟩
    rw [get_apply]
    exact bind_eq_some.mpr ⟨(), h1, check_eq_some.mpr ⟨hw.1, rfl⟩, rfl⟩
  · refine ⟨h.targethash.erase g, hbefore _ ?_⟩
    refine bind_eq_some.mpr ⟨(), h1, ?_, rfl⟩
    unfold when
    rw [if_neg hw]
    rfl

/-- The object refers to itself: there is a reference for its address, which was made while its
components were read. -/
theorem mergeObject_self (e : Env n) (tid : Fin n) {h : Heap n} {addr : Gaddr n} {o : Obj n}
    {q : Pntr} {s : Interp n} {g : Nat} (hr : Reading h s.heap)
    (hnone : h.addrhashLookup addr = none)
    (hg : s.heap.addrhashLookup addr = some g) (ho : Received (Refers s.heap) s.heap o q) :
    ∃ s', mergeObject e tid addr q s = some (q, s') ∧
      Received (Holds h s'.heap addr q) s'.heap o q ∧ s'.heap.Knows addr q := by
  obtain ⟨c, -, hglo, hcell, htarget⟩ := hr.fresh addr g hnone hg
  obtain ⟨t, hreplace⟩ := replaceReference_apply tid addr c q hglo
  refine ⟨{ s with heap := { s.heap with
    cells := Function.update s.heap.cells c (.ind q)
    globals := Function.update s.heap.globals g (some { addr := addr, p := q })
    targethash := t } }, ?_, ?_, ?_⟩
  · unfold mergeObject
    rw [get_apply]
    simp only [hg]
    refine bind_eq_some.mpr ⟨_, s, onHeap_apply (getGlobal_eq_some.mpr ⟨hglo, rfl⟩), ?_⟩
    have hglobal : s.heap.globalOf (.cell c 0) = some g := by simp [Heap.globalOf, Heap.at, hcell]
    simp only [hglobal]
    have href : referenceGlobal tid addr (.cell c 0) s.heap = some ((g, false), s.heap) := by
      unfold referenceGlobal
      rw [get_apply]
      simp only [htarget]
      rfl
    refine bind_eq_some.mpr ⟨_, s, onHeap_apply href, ?_⟩
    refine bind_eq_some.mpr ⟨(), s, check_eq_some.mpr ⟨rfl, rfl⟩, ?_⟩
    refine bind_eq_some.mpr ⟨(), s, rfl, ?_⟩
    exact bind_eq_some.mpr ⟨(), _, onHeap_apply hreplace, rfl⟩
  · refine ho.imp ?_ rfl ?_
    · intro r p hp
      refine Holds.of_refers hr ?_ ?_ hp
      · intro g' c' _ hg' hglo'
        rw [hg] at hg'
        cases hg'
        rw [hglo] at hglo'
        cases hglo'
        exact Function.update_self _ _ _
      · intro a g' c' hne hglo' hcell'
        -- another address has another global, and so another cell
        have hgne : g' ≠ g := by
          rintro rfl
          rw [hglo] at hglo'
          cases hglo'
          exact hne rfl
        have hcne : c' ≠ c := by
          rintro rfl
          rw [hcell] at hcell'
          cases hcell'
          exact hgne rfl
        exact ⟨(Function.update_of_ne hcne _ _).trans hcell', Function.update_of_ne hgne _ _⟩
    · intro c' hne
      have hcne : c' ≠ c := by
        rintro rfl
        exact hne g hcell
      exact Function.update_of_ne hcne _ _
  · refine ⟨g, { addr := addr, p := q }, ?_, Function.update_self _ _ _, rfl⟩
    rw [← hg]
    apply find?_hasAddr_congr
    intro g' _
    by_cases hgg : g' = g
    · subst hgg
      simp [hglo]
    · simp [hgg]

theorem ownSysobject_other {tid : Fin n} {addr : Gaddr n} {p : Pntr} {s : Interp n}
    (hp : ∀ type sockid, s.heap.at p ≠ some (.sysobject type tid sockid)) :
    ownSysobject tid addr p s = some (p, s) := by
  unfold ownSysobject
  rw [get_apply]
  cases ha : s.heap.at p with
  | none => rfl
  | some v =>
    cases v with
    | sysobject type ownertid sockid =>
      have hne : ownertid ≠ tid := by
        rintro rfl
        exact hp type sockid ha
      simp only [if_neg hne]
      rfl
    | _ => rfl

/-- The copy of a system object of another task is not one of this task. -/
theorem Received.not_own {R : Ref n → Pntr → Prop} {h : Heap n} {o : Obj n} {q : Pntr}
    {addr : Gaddr n} {tid : Fin n} (hr : Received R h o q) (haddr : o.address = some addr)
    (hown : ∀ a type ownertid sockid, o = .sysobject a type ownertid sockid → ownertid ≠ tid)
    (type : Nat) (sockid : SocketId) : h.at q ≠ some (.sysobject type tid sockid) := by
  intro hq
  cases o with
  | ref r => cases haddr
  | cons a head tail =>
    obtain ⟨c, x, y, rfl, hc, -⟩ := hr
    simp [Heap.at, hc] at hq
  | aref a index elements tail =>
    obtain ⟨c, arr, els, y, rfl, hc, -⟩ := hr
    simp [Heap.at, hc] at hq
  | array a elements =>
    obtain ⟨c, els, rfl, hc, -⟩ := hr
    simp [Heap.at, hc] at hq
  | frame a address fetchers data origin =>
    obtain ⟨c, f, l, rfl, hc, -⟩ := hr
    simp [Heap.at, hc] at hq
  | cap a arity address fno fileno lineno data =>
    obtain ⟨c, l, rfl, hc, -⟩ := hr
    simp [Heap.at, hc] at hq
  | sysobject a type' ownertid sockid' =>
    obtain ⟨c, rfl, hc⟩ := hr
    simp only [Heap.at, hc, Option.some.injEq, Cell.sysobject.injEq] at hq
    exact hown a type' ownertid sockid' rfl hq.2.1

theorem readPntr_body {e : Env n} {tid : Fin n} {o : Obj n} {addr : Gaddr n} {s s1 s2 s3 : Interp n}
    {p p' q : Pntr} (haddr : o.address = some addr)
    (hbody : readBody e tid o
      { s with acct := { s.acct with naddrsread := s.acct.naddrsread + 1 } } = some (p, s1))
    (hown : ownSysobject tid addr p s1 = some (p', s2))
    (hmerge : mergeObject e tid addr p' s2 = some (q, s3)) :
    readPntr e tid o s = some (q, s3) := by
  cases o with
  | ref r => cases haddr
  | _ =>
    refine bind_eq_some.mpr ⟨(), _, rfl, bind_eq_some.mpr ⟨p, s1, hbody, ?_⟩⟩
    refine bind_eq_some.mpr ⟨addr, s1, need_eq_some.mpr ⟨haddr, rfl⟩, ?_⟩
    exact bind_eq_some.mpr ⟨p', s2, hown, hmerge⟩

/-- The copy of an object that is new to the receiver. -/
theorem readPntr_new {e : Env n} {tid : Fin n} {o : Obj n} {addr : Gaddr n} {s : Interp n}
    (ha : s.heap.Allocated) (haddr : o.address = some addr)
    (hnone : s.heap.addrhashLookup addr = none) (htid : addr.tid ≠ tid)
    (hcheck : o.Checked e.expcount) (hacc : o.Acceptable)
    (hf : ∀ r ∈ o.refs, Foreign tid s.heap r) :
    ∃ q s', readPntr e tid o s = some (q, s') ∧
      Received (Holds s.heap s'.heap addr q) s'.heap o q ∧ s'.heap.Knows addr q := by
  let s0 : Interp n := { s with acct := { s.acct with naddrsread := s.acct.naddrsread + 1 } }
  obtain ⟨p, s1, hbody, hr, hnew, hrecv⟩ := readBody_reading (s := s0) (Reading.refl ha)
    (by rw [haddr]; exact Option.some_ne_none _) hcheck hacc hf
  have hown : ownSysobject tid addr p s1 = some (p, s1) := by
    apply ownSysobject_other
    apply hrecv.not_own haddr
    rintro a type ownertid sockid rfl
    cases haddr
    have howner : ownertid = addr.tid := hacc
    rw [howner]
    exact htid
  cases hlook : s1.heap.addrhashLookup addr with
  | none =>
    obtain ⟨s2, hmerge, hrecv', hknows⟩ := mergeObject_new e ha hr hnew htid hlook hrecv
    exact ⟨p, s2, readPntr_body haddr hbody hown hmerge, hrecv', hknows⟩
  | some g =>
    obtain ⟨s2, hmerge, hrecv', hknows⟩ :=
      mergeObject_self e tid hr hnone hlook hrecv
    exact ⟨p, s2, readPntr_body haddr hbody hown hmerge, hrecv', hknows⟩

theorem mergeObject_known {e : Env n} {tid : Fin n} {addr : Gaddr n} {p : Pntr} {s : Interp n}
    {g : Nat} {glo : Global n} (hg : s.heap.addrhashLookup addr = some g)
    (hglo : s.heap.globals g = some glo) (hobj : s.heap.globalOf glo.p = none) :
    mergeObject e tid addr p s = some (glo.p, s) := by
  unfold mergeObject
  rw [get_apply]
  simp only [hg]
  refine bind_eq_some.mpr ⟨glo, s, onHeap_apply (getGlobal_eq_some.mpr ⟨hglo, rfl⟩), ?_⟩
  cases hp : glo.p with
  | number d => rfl
  | cell c i =>
    rw [hp] at hobj
    simp only [hobj]
    rfl

/-- The receiver has the object: the copy is dropped. -/
theorem readPntr_known {e : Env n} {tid : Fin n} {o : Obj n} {addr : Gaddr n} {s : Interp n}
    {g : Nat} {glo : Global n} (ha : s.heap.Allocated) (haddr : o.address = some addr)
    (hg : s.heap.addrhashLookup addr = some g) (hglo : s.heap.globals g = some glo)
    (hobj : s.heap.globalOf glo.p = none)
    (hsys : ∀ a type sockid, o = .sysobject a type tid sockid →
      ∃ type' owner sockid', s.heap.at glo.p = some (.sysobject type' owner sockid'))
    (hcheck : o.Checked e.expcount) (hacc : o.Acceptable)
    (hf : ∀ r ∈ o.refs, Foreign tid s.heap r) :
    ∃ s', readPntr e tid o s = some (glo.p, s') := by
  let s0 : Interp n := { s with acct := { s.acct with naddrsread := s.acct.naddrsread + 1 } }
  obtain ⟨p, s1, hbody, hr, hnew, hrecv⟩ := readBody_reading (s := s0) (Reading.refl ha)
    (by rw [haddr]; exact Option.some_ne_none _) hcheck hacc hf
  have hg1 := hr.grown.addrhash addr g hg
  have hglo1 := hr.grown.globals g glo hglo
  have hat : s1.heap.at glo.p = s.heap.at glo.p := by
    cases hp : glo.p with
    | number d => rfl
    | cell c i =>
      simp only [Heap.at]
      rw [hr.grown.cells c (ha.cells_lt g glo c i hglo hp)]
  have hobj1 : s1.heap.globalOf glo.p = none := by
    unfold Heap.globalOf at hobj ⊢
    rw [hat]
    exact hobj
  have hmerge : ∀ p', mergeObject e tid addr p' s1 = some (glo.p, s1) := fun _ =>
    mergeObject_known hg1 hglo1 hobj1
  by_cases hown : ∃ type sockid, s1.heap.at p = some (.sysobject type tid sockid)
  · -- a system object of this task comes back to it
    obtain ⟨type, sockid, hp⟩ := hown
    have hself : ∃ a type sockid, o = .sysobject a type tid sockid := by
      by_contra hno
      refine hrecv.not_own haddr ?_ type sockid hp
      rintro a type' ownertid sockid' rfl rfl
      exact hno ⟨a, type', sockid', rfl⟩
    obtain ⟨a, type', sockid', ho⟩ := hself
    obtain ⟨t, owner, sid, hexisting⟩ := hsys a type' sockid' ho
    have hkeep : ownSysobject tid addr p s1 = some (glo.p, s1) := by
      unfold ownSysobject
      rw [get_apply]
      simp only [hp, if_true]
      refine bind_eq_some.mpr ⟨g, s1, need_eq_some.mpr ⟨hg1, rfl⟩, ?_⟩
      refine bind_eq_some.mpr ⟨glo, s1, onHeap_apply (getGlobal_eq_some.mpr ⟨hglo1, rfl⟩), ?_⟩
      rw [hat, hexisting]
      rfl
    exact ⟨s1, readPntr_body haddr hbody hkeep (hmerge _)⟩
  · have hkeep : ownSysobject tid addr p s1 = some (p, s1) :=
      ownSysobject_other (fun type sockid hp => hown ⟨type, sockid, hp⟩)
    exact ⟨s1, readPntr_body haddr hbody hkeep (hmerge _)⟩

end Runtime
end NReduce
