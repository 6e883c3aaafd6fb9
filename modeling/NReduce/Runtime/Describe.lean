import NReduce.Runtime.Bytes

/-!
# NReduce.Runtime.Describe

What an object is to the other tasks: its type and its fields, with the address of each component
in place of the pointer to it. `write_pntr` sends this description of the object.
-/

namespace NReduce
namespace Runtime

open Logic

variable {n : Nat}

/-- Not a reference to an object somewhere else, and not a place for one. -/
def Heap.isObject (h : Heap n) (p : Pntr) : Bool :=
  match h.at p with
  | some (.remoteref _) => false
  | some .hole => false
  | _ => true

/-- The address that a table has for an object. -/
def Heap.addressIn (h : Heap n) (entry : Option Nat) : Option (Gaddr n) :=
  entry.bind (fun g => (h.globals g).map (·.addr))

/-- The address of an object in all tasks: that of the master copy. -/
def Heap.canonical (h : Heap n) (p : Pntr) : Option (Gaddr n) :=
  match h.at p with
  | some (.remoteref g) => h.addressIn (some g)
  | some .hole => h.addressIn (h.physhashLookup p)
  | _ =>
    match h.targethashLookup p with
    | some g => h.addressIn (some g)
    | none => h.addressIn (h.physhashLookup p)

/-- A component of an object. -/
def Heap.component (h : Heap n) (p : Pntr) : Option (Ref n) :=
  match h.resolve p with
  | none => none
  | some (.number d) => some (.number d)
  | some (.cell c i) =>
    match h.cells c with
    | .nil => some .nil
    | _ => (h.canonical (.cell c i)).map .remote

def Heap.components (h : Heap n) : List Pntr → Option (List (Ref n))
  | [] => some []
  | p :: ps => do
    let r ← h.component p
    let rs ← h.components ps
    return r :: rs

def Heap.elements (h : Heap n) : Elements Pntr → Option (Elements (Ref n))
  | .bytes b => some (.bytes b)
  | .pntrs l => (h.components l).map .pntrs

/-- An object; `frames` are the frames of the task before their fetchers are sent. -/
def Heap.describe (e : Env n) (h : Heap n) (frames : Nat → Frame n) (c index : Nat) :
    Option (Obj n) := do
  let addr ← h.canonical (.cell c index)
  match h.cells c with
  | .cons head tail => return .cons addr (← h.component head) (← h.component tail)
  | .aref arr tail =>
    match h.cells arr with
    | .array elements _ => return .aref addr index (← h.elements elements) (← h.component tail)
    | _ => none
  | .array elements _ => return .array addr (← h.elements elements)
  | .frame f =>
    let data := (List.range (e.expcount (frames f).instr)).map (frames f).data
    return .frame addr (frames f).instr (frames f).wq.fetchers (← h.components data)
      (frames f).origin
  | .cap arity address fno fileno lineno data =>
    return .cap addr arity address fno fileno lineno (← h.components data)
  | .sysobject type ownertid sockid => return .sysobject addr type ownertid sockid
  | _ => none

/-- What `p` stands for: a number, nil or an object. -/
def Heap.describePntr (e : Env n) (h : Heap n) (frames : Nat → Frame n) : Pntr → Option (Obj n)
  | .number d => some (.ref (.number d))
  | .cell c index =>
    match h.cells c with
    | .nil => some (.ref .nil)
    | _ => h.describe e frames c index

/-! ## Writing -/

/-- The globals are numbered in the order in which they were made. -/
structure Heap.Numbered (h : Heap n) : Prop where
  globals_lt : ∀ g glo, h.globals g = some glo → g < h.nglobals
  targethash_lt : ∀ g ∈ h.targethash, g < h.nglobals
  physhash_lt : ∀ g ∈ h.physhash, g < h.nglobals

/-- Writing gives addresses to objects and changes no other cell. -/
structure Sent (h h' : Heap n) : Prop where
  cells : h'.cells = h.cells
  ncells : h'.ncells = h.ncells
  frames : h'.frames = h.frames
  globals : ∀ g glo, h.globals g = some glo → h'.globals g = some glo
  targethash : ∀ p, h'.targethashLookup p = h.targethashLookup p
  physhash : ∀ p g, h.physhashLookup p = some g → h'.physhashLookup p = some g

theorem Sent.refl (h : Heap n) : Sent h h :=
  ⟨rfl, rfl, rfl, fun _ _ hg => hg, fun _ => rfl, fun _ _ hg => hg⟩

theorem Sent.trans {h h' h'' : Heap n} (h1 : Sent h h') (h2 : Sent h' h'') : Sent h h'' :=
  ⟨h2.cells.trans h1.cells, h2.ncells.trans h1.ncells, h2.frames.trans h1.frames,
    fun g glo hg => h2.globals g glo (h1.globals g glo hg),
    fun p => (h2.targethash p).trans (h1.targethash p),
    fun p g hg => h2.physhash p g (h1.physhash p g hg)⟩

theorem Sent.at {h h' : Heap n} (hs : Sent h h') (p : Pntr) : h'.at p = h.at p := by
  cases p with
  | number d => rfl
  | cell c i => simp only [Heap.at, hs.cells]

theorem Sent.addressIn {h h' : Heap n} (hs : Sent h h') {g : Nat} {a : Gaddr n}
    (hg : h.addressIn (some g) = some a) : h'.addressIn (some g) = some a := by
  obtain ⟨glo, hglo, rfl⟩ := Option.map_eq_some_iff.mp hg
  simp [Heap.addressIn, hs.globals g glo hglo]

theorem Sent.addressIn_phys {h h' : Heap n} (hs : Sent h h') {p : Pntr} {a : Gaddr n}
    (ha : h.addressIn (h.physhashLookup p) = some a) :
    h'.addressIn (h'.physhashLookup p) = some a := by
  cases hp : h.physhashLookup p with
  | none =>
    rw [hp] at ha
    cases ha
  | some g =>
    rw [hp] at ha
    rw [hs.physhash p g hp]
    exact hs.addressIn ha

theorem Sent.canonical {h h' : Heap n} (hs : Sent h h') {p : Pntr} {a : Gaddr n}
    (ha : h.canonical p = some a) : h'.canonical p = some a := by
  unfold Heap.canonical at ha ⊢
  rw [hs.at, hs.targethash]
  split at ha
  · exact hs.addressIn ha
  · exact hs.addressIn_phys ha
  · split at ha
    · exact hs.addressIn ha
    · exact hs.addressIn_phys ha

theorem Sent.component {h h' : Heap n} (hs : Sent h h') {p : Pntr} {r : Ref n}
    (hr : h.component p = some r) : h'.component p = some r := by
  have hres : h'.resolve p = h.resolve p := by rw [Heap.resolve, Heap.resolve, hs.cells, hs.ncells]
  unfold Heap.component at hr ⊢
  rw [hres, hs.cells]
  cases hp : h.resolve p with
  | none => simp [hp] at hr
  | some q =>
    cases q with
    | number d => simpa [hp] using hr
    | cell c i =>
      simp only [hp] at hr ⊢
      cases hc : h.cells c <;> simp only [hc] at hr ⊢ <;> first | exact hr | skip
      all_goals
        obtain ⟨a, ha, rfl⟩ := Option.map_eq_some_iff.mp hr
        rw [hs.canonical ha]
        rfl

theorem Sent.components {h h' : Heap n} (hs : Sent h h') {ps : List Pntr} {rs : List (Ref n)}
    (hr : h.components ps = some rs) : h'.components ps = some rs := by
  induction ps generalizing rs with
  | nil => exact hr
  | cons p ps ih =>
    simp only [Heap.components] at hr ⊢
    obtain ⟨r, hp, hr⟩ := Option.bind_eq_some_iff.mp hr
    obtain ⟨rs', hps, hr⟩ := Option.bind_eq_some_iff.mp hr
    simp only [hs.component hp, ih hps]
    exact hr

/-- A heap in which something is written, from `h` on. -/
def Writing (h h' : Heap n) : Prop := Sent h h' ∧ h'.Numbered

theorem find?_hasP_congr {h h' : Heap n} {l : List Nat} (p : Pntr)
    (hl : ∀ g ∈ l, h'.globals g = h.globals g) :
    l.find? (h'.hasP p) = l.find? (h.hasP p) := by
  induction l with
  | nil => rfl
  | cons g l ih =>
    have hg : h'.hasP p g = h.hasP p g := by
      simp only [Heap.hasP, hl g List.mem_cons_self]
    simp only [List.find?_cons, hg]
    rw [ih (fun x hx => hl x (List.mem_cons_of_mem g hx))]

/-- An object without an address gets the next one. -/
theorem Heap.Numbered.newAddress {h : Heap n} (hn : h.Numbered) {tid : Fin n} {p : Pntr}
    {h' : Heap n} (hp : h.physhashLookup p = none)
    (hg : h'.globals = Function.update h.globals h.nglobals (some { addr := ⟨tid, h.nextlid⟩, p := p }))
    (hng : h'.nglobals = h.nglobals + 1) (hcells : h'.cells = h.cells)
    (hncells : h'.ncells = h.ncells) (hframes : h'.frames = h.frames)
    (htarget : h'.targethash = h.targethash) (hphys : h'.physhash = h.nglobals :: h.physhash) :
    Writing h h' ∧ h'.physhashLookup p = some h.nglobals := by
  have hold : ∀ g, g < h.nglobals → h'.globals g = h.globals g := by
    intro g hlt
    rw [hg, Function.update_of_ne (Nat.ne_of_lt hlt)]
  have hnew : ∀ q, h'.hasP q h.nglobals = decide (p = q) := by
    intro q
    simp [Heap.hasP, hg]
  refine ⟨⟨⟨hcells, hncells, hframes, ?_, ?_, ?_⟩, ?_, ?_, ?_⟩, ?_⟩
  · intro g glo hglo
    rw [hold g (hn.globals_lt g glo hglo), hglo]
  · intro q
    unfold Heap.targethashLookup
    rw [htarget]
    exact find?_hasP_congr q (fun g hm => hold g (hn.targethash_lt g hm))
  · intro q g hq
    have hne : p ≠ q := by
      rintro rfl
      rw [hp] at hq
      cases hq
    unfold Heap.physhashLookup at hq ⊢
    rw [hphys, List.find?_cons, hnew]
    simp only [hne, decide_false]
    rw [find?_hasP_congr q (fun g hm => hold g (hn.physhash_lt g hm))]
    exact hq
  · intro g glo hglo
    rw [hng]
    by_cases hlt : g = h.nglobals
    · omega
    · rw [hg, Function.update_of_ne hlt] at hglo
      exact Nat.lt_succ_of_lt (hn.globals_lt g glo hglo)
  · intro g hm
    rw [htarget] at hm
    rw [hng]
    exact Nat.lt_succ_of_lt (hn.targethash_lt g hm)
  · intro g hm
    rw [hphys] at hm
    rw [hng]
    rcases List.mem_cons.mp hm with rfl | hm
    · exact Nat.lt_succ_self _
    · exact Nat.lt_succ_of_lt (hn.physhash_lt g hm)
  · unfold Heap.physhashLookup
    rw [hphys, List.find?_cons, hnew]
    simp

theorem getGlobal_eq_some {g : Nat} {glo : Global n} {h h' : Heap n} :
    getGlobal g h = some (glo, h') ↔ h.globals g = some glo ∧ h' = h := by
  unfold getGlobal
  rw [get_apply, need_eq_some]

theorem physhashAdd_some {g : Nat} {h h' : Heap n} {u : Unit}
    (hm : physhashAdd g h = some (u, h')) : h' = { h with physhash := g :: h.physhash } := by
  simp only [physhashAdd, bind_eq_some, getGlobal_eq_some, get_eq_some, check_eq_some,
    modify_eq_some] at hm
  obtain ⟨glo, _, ⟨-, rfl⟩, _, _, ⟨rfl, rfl⟩, _, _, ⟨-, rfl⟩, rfl⟩ := hm
  rfl

theorem addrhashAdd_some {g : Nat} {h h' : Heap n} {u : Unit}
    (hm : addrhashAdd g h = some (u, h')) : h' = { h with addrhash := g :: h.addrhash } := by
  simp only [addrhashAdd, bind_eq_some, getGlobal_eq_some, get_eq_some, check_eq_some,
    modify_eq_some] at hm
  obtain ⟨glo, _, ⟨-, rfl⟩, _, _, ⟨rfl, rfl⟩, _, _, ⟨-, rfl⟩, rfl⟩ := hm
  rfl

theorem newGlobal_eq_some {v : Global n} {g : Nat} {h h' : Heap n} :
    newGlobal v h = some (g, h') ↔ g = h.nglobals ∧
      h' = { h with globals := Function.update h.globals h.nglobals (some v),
                    nglobals := h.nglobals + 1 } := by
  unfold newGlobal
  rw [get_apply, bind_eq_some]
  simp only [modify_eq_some, pure_eq_some]
  constructor
  · rintro ⟨_, _, rfl, rfl, rfl⟩
    exact ⟨rfl, rfl⟩
  · rintro ⟨rfl, rfl⟩
    exact ⟨(), _, rfl, rfl, rfl⟩

theorem getPhysicalAddress_writing {h0 : Heap n} (tid : Fin n) (p : Pntr) :
    Triple (Writing h0) (getPhysicalAddress tid p)
      (fun a h => Writing h0 h ∧ h.addressIn (h.physhashLookup p) = some a) := by
  rintro h ⟨hs, hn⟩ a h' hm
  unfold getPhysicalAddress at hm
  rw [get_apply] at hm
  cases hp : h.physhashLookup p with
  | none =>
    simp only [hp, bind_eq_some, newGlobal_eq_some, modify_eq_some, pure_eq_some] at hm
    obtain ⟨g, h1, ⟨rfl, rfl⟩, _, h2, rfl, _, h3, hphys, _, h4, haddr, rfl, rfl⟩ := hm
    have h3eq := physhashAdd_some hphys
    have h4eq := addrhashAdd_some haddr
    have hnew : Writing h h' ∧ h'.physhashLookup p = some h.nglobals := by
      apply hn.newAddress hp <;> rw [h4eq, h3eq]
    refine ⟨⟨hs.trans hnew.1.1, hnew.1.2⟩, ?_⟩
    rw [hnew.2, h4eq, h3eq]
    simp [Heap.addressIn]
  | some g =>
    simp only [hp, bind_eq_some, getGlobal_eq_some, check_eq_some, pure_eq_some] at hm
    obtain ⟨glo, _, ⟨hg, rfl⟩, _, _, ⟨-, rfl⟩, _, _, ⟨-, rfl⟩, rfl, rfl⟩ := hm
    exact ⟨⟨hs, hn⟩, by simp [Heap.addressIn, hp, hg]⟩

/-! ### References -/

theorem canonical_of_target {h : Heap n} {p : Pntr} {g : Nat} {glo : Global n}
    (hr : h.isObject p = true) (ht : h.targethashLookup p = some g)
    (hg : h.globals g = some glo) : h.canonical p = some glo.addr := by
  unfold Heap.canonical
  unfold Heap.isObject at hr
  split
  · next h1 => simp [h1] at hr
  · next h1 => simp [h1] at hr
  · simp [ht, Heap.addressIn, hg]

theorem canonical_of_phys {h : Heap n} {p : Pntr} {a : Gaddr n} (hr : h.isObject p = true)
    (ht : h.targethashLookup p = none) (hp : h.addressIn (h.physhashLookup p) = some a) :
    h.canonical p = some a := by
  unfold Heap.canonical
  unfold Heap.isObject at hr
  split
  · next h1 => simp [h1] at hr
  · next h1 => simp [h1] at hr
  · rw [ht]
    exact hp

theorem Sent.isObject {h h' : Heap n} (hs : Sent h h') (p : Pntr) :
    h'.isObject p = h.isObject p := by
  unfold Heap.isObject
  rw [hs.at]

theorem writeObjectAddress_writing {h0 : Heap n} (tid : Fin n) {p : Pntr}
    (hp : h0.isObject p = true) :
    Triple (fun s : Interp n => Writing h0 s.heap) (writeObjectAddress tid p)
      (fun a s => Writing h0 s.heap ∧ s.heap.canonical p = some a) := by
  intro s hs a s' hm
  have hr : s.heap.isObject p = true := (hs.1.isObject p).trans hp
  rw [writeObjectAddress, get_apply] at hm
  cases ht : s.heap.targethashLookup p with
  | some g =>
    simp only [ht, bind_eq_some, onHeap, zoom_eq_some, getGlobal_eq_some, check_eq_some,
      writeGaddr, modify_eq_some, pure_eq_some] at hm
    obtain ⟨glo, _, ⟨_, ⟨hg, rfl⟩, rfl⟩, _, _, ⟨-, rfl⟩, _, _, rfl, rfl, rfl⟩ := hm
    exact ⟨hs, canonical_of_target hr ht hg⟩
  | none =>
    simp only [ht, bind_eq_some, onHeap, zoom_eq_some, writeGaddr, modify_eq_some,
      pure_eq_some] at hm
    obtain ⟨_, _, ⟨h', hphys, rfl⟩, _, _, rfl, rfl, rfl⟩ := hm
    obtain ⟨hw, ha⟩ := getPhysicalAddress_writing tid p s.heap hs _ h' hphys
    have ht' : h'.targethashLookup p = none := by
      rw [hw.1.targethash, ← hs.1.targethash, ht]
    exact ⟨hw, canonical_of_phys ((hw.1.isObject p).trans hp) ht' ha⟩

theorem writeObjectRef_writing {h0 : Heap n} (tid : Fin n) {p : Pntr}
    (hp : h0.isObject p = true) :
    Triple (fun s : Interp n => Writing h0 s.heap) (writeObjectRef tid p)
      (fun r s => Writing h0 s.heap ∧ (s.heap.canonical p).map .remote = some r) := by
  intro s hs r s' hm
  have hr : s.heap.isObject p = true := (hs.1.isObject p).trans hp
  rw [writeObjectRef, get_apply] at hm
  cases ht : s.heap.targethashLookup p with
  | some g =>
    simp only [ht, bind_eq_some, onHeap, zoom_eq_some, getGlobal_eq_some, check_eq_some,
      writeGaddr, modify_eq_some, pure_eq_some] at hm
    obtain ⟨glo, _, ⟨_, ⟨hg, rfl⟩, rfl⟩, _, _, ⟨-, rfl⟩, _, _, ⟨-, rfl⟩, _, _, rfl, rfl, rfl⟩ := hm
    refine ⟨hs, ?_⟩
    rw [canonical_of_target hr ht hg]
    rfl
  | none =>
    simp only [ht, bind_eq_some, onHeap, zoom_eq_some, check_eq_some, writeGaddr, modify_eq_some,
      pure_eq_some] at hm
    obtain ⟨_, _, ⟨h', hphys, rfl⟩, _, _, ⟨-, rfl⟩, _, _, rfl, rfl, rfl⟩ := hm
    obtain ⟨hw, ha⟩ := getPhysicalAddress_writing tid p s.heap hs _ h' hphys
    have ht' : h'.targethashLookup p = none := by
      rw [hw.1.targethash, ← hs.1.targethash, ht]
    refine ⟨hw, ?_⟩
    rw [canonical_of_phys ((hw.1.isObject p).trans hp) ht' ha]
    rfl

theorem resolve_not_ind {cells : Nat → Cell n} {k : Nat} {p : Pntr} {c i : Nat}
    (h : resolveFrom cells k p = some (.cell c i)) : ∀ q, cells c ≠ .ind q := by
  induction k generalizing p with
  | zero => cases h
  | succ k ih =>
    cases p with
    | number d => cases h
    | cell c' i' =>
      simp only [resolveFrom] at h
      split at h
      · exact ih h
      · next hne =>
        cases h
        exact hne

/-- What of an object can only be sent as a reference; `none` is an object. -/
theorem writeSimple_writing {h0 : Heap n} (tid : Fin n) {p : Pntr} (hp : h0.resolve p = some p) :
    Triple (fun s : Interp n => Writing h0 s.heap) (writeSimple tid p)
      (fun o s => Writing h0 s.heap ∧
        match o with
        | some r => s.heap.component p = some r
        | none => h0.isObject p = true ∧ ∃ c i, p = .cell c i ∧ h0.cells c ≠ .nil) := by
  intro s hs o s' hm
  rw [writeSimple, get_apply] at hm
  have hres : s.heap.resolve p = some p := by
    rw [Heap.resolve, hs.1.cells, hs.1.ncells]
    exact hp
  cases p with
  | number d =>
    simp only [pure_eq_some] at hm
    obtain ⟨rfl, rfl⟩ := hm
    exact ⟨hs, by simp [Heap.component, hres]⟩
  | cell c i =>
    have hcells : s.heap.cells c = h0.cells c := by rw [hs.1.cells]
    cases hc : h0.cells c with
    | nil =>
      simp only [hcells, hc, pure_eq_some] at hm
      obtain ⟨rfl, rfl⟩ := hm
      exact ⟨hs, by simp [Heap.component, hres, hcells, hc]⟩
    | remoteref g =>
      simp only [hcells, hc, bind_eq_some, onHeap, zoom_eq_some, getGlobal_eq_some, writeGaddr,
        modify_eq_some, pure_eq_some] at hm
      obtain ⟨glo, _, ⟨_, ⟨hg, rfl⟩, rfl⟩, _, _, rfl, rfl, rfl⟩ := hm
      refine ⟨hs, ?_⟩
      simp [Heap.component, hres, hcells, hc, Heap.canonical, Heap.at, Heap.addressIn, hg]
    | hole =>
      simp only [hcells, hc, bind_eq_some, onHeap, zoom_eq_some, writeGaddr, modify_eq_some,
        pure_eq_some] at hm
      obtain ⟨a, _, ⟨h', hphys, rfl⟩, _, _, rfl, rfl, rfl⟩ := hm
      obtain ⟨hw, ha⟩ := getPhysicalAddress_writing tid _ s.heap hs _ h' hphys
      have hc' : h'.cells c = .hole := by rw [hw.1.cells, hc]
      have hres' : h'.resolve (.cell c i) = some (.cell c i) := by
        rw [Heap.resolve, hw.1.cells, hw.1.ncells]
        exact hp
      refine ⟨hw, ?_⟩
      simp [Heap.component, hres', hc', Heap.canonical, Heap.at, ha]
    | empty =>
      simp only [hcells, hc] at hm
      cases hm
    | ind q =>
      simp only [hcells, hc] at hm
      cases hm
    | _ =>
      simp only [hcells, hc, pure_eq_some] at hm
      obtain ⟨rfl, rfl⟩ := hm
      exact ⟨hs, by simp [Heap.isObject, Heap.at, hc], c, i, rfl, by simp [hc]⟩

theorem resolve_resolved {h : Heap n} {p q : Pntr} (hq : h.resolve p = some q) :
    h.resolve q = some q := by
  cases q with
  | number d => rfl
  | cell c i =>
    have hc := resolve_not_ind hq
    unfold Heap.resolve resolveFrom
    split
    · next x hx => exact absurd hx (hc x)
    · rfl

theorem component_resolved {h : Heap n} {p q : Pntr} (hq : h.resolve p = some q) :
    h.component p = h.component q := by
  unfold Heap.component
  rw [hq, resolve_resolved hq]

theorem writeRef_writing {h0 : Heap n} (tid : Fin n) (p : Pntr) :
    Triple (fun s : Interp n => Writing h0 s.heap) (writeRef tid p)
      (fun r s => Writing h0 s.heap ∧ s.heap.component p = some r) := by
  intro s hs r s' hm
  rw [writeRef, bind_eq_some] at hm
  obtain ⟨q, s1, hres, hm⟩ := hm
  simp only [bind_eq_some, onHeap, zoom_eq_some, resolvePntr, get_eq_some, need_eq_some] at hres
  obtain ⟨_, ⟨_, _, ⟨rfl, rfl⟩, hq, rfl⟩, rfl⟩ := hres
  rw [bind_eq_some] at hm
  obtain ⟨o, s2, hsimple, hm⟩ := hm
  have hq0 : h0.resolve p = some q := by
    rw [Heap.resolve, ← hs.1.cells, ← hs.1.ncells]
    exact hq
  have hcomp : ∀ {h : Heap n}, Writing h0 h → h.component p = h.component q := by
    intro h hw
    apply component_resolved
    rw [Heap.resolve, hw.1.cells, hw.1.ncells]
    exact hq0
  obtain ⟨hw2, ho⟩ := writeSimple_writing tid (resolve_resolved hq0) s hs o s2 hsimple
  cases o with
  | some r' =>
    simp only [pure_eq_some] at hm
    obtain ⟨rfl, rfl⟩ := hm
    exact ⟨hw2, (hcomp hw2).trans ho⟩
  | none =>
    obtain ⟨hobj, c, i, rfl, hc⟩ := ho
    obtain ⟨hw3, hr⟩ := writeObjectRef_writing tid hobj s2 hw2 r s' hm
    refine ⟨hw3, (hcomp hw3).trans ?_⟩
    unfold Heap.component
    rw [Heap.resolve, hw3.1.cells, hw3.1.ncells]
    have hq1 : resolveFrom h0.cells (h0.ncells + 1) (.cell c i) = some (.cell c i) :=
      resolve_resolved hq0
    rw [hq1]
    -- not nil, so it is sent by its address
    simp only
    exact hr

theorem writeRefs_writing {h0 : Heap n} (tid : Fin n) (ps : List Pntr) :
    Triple (fun s : Interp n => Writing h0 s.heap) (writeRefs tid ps)
      (fun rs s => Writing h0 s.heap ∧ s.heap.components ps = some rs) := by
  induction ps generalizing h0 with
  | nil => exact Triple.ret _ (fun s hs => ⟨hs, rfl⟩)
  | cons p ps ih =>
    intro s hs rs s' hm
    simp only [writeRefs, bind_eq_some, pure_eq_some] at hm
    obtain ⟨r, s1, hr, rs', _, hrs, rfl, rfl⟩ := hm
    obtain ⟨hw1, hc1⟩ := writeRef_writing tid p s hs r s1 hr
    obtain ⟨hw2, hc2⟩ := ih s1 ⟨Sent.refl s1.heap, hw1.2⟩ rs' s' hrs
    refine ⟨⟨hw1.1.trans hw2.1, hw2.2⟩, ?_⟩
    simp [Heap.components, hw2.1.component hc1, hc2]

theorem writeElements_writing {h0 : Heap n} (tid : Fin n) (l : Elements Pntr) :
    Triple (fun s : Interp n => Writing h0 s.heap) (writeElements tid l)
      (fun l' s => Writing h0 s.heap ∧ s.heap.elements l = some l') := by
  cases l with
  | bytes b => exact Triple.ret _ (fun s hs => ⟨hs, rfl⟩)
  | pntrs l =>
    refine Triple.bind (writeRefs_writing tid l) (fun rs => ?_)
    refine Triple.ret _ (fun s hs => ⟨hs.1, ?_⟩)
    simp [Heap.elements, hs.2]

theorem Sent.elements {h h' : Heap n} (hs : Sent h h') {l : Elements Pntr}
    {l' : Elements (Ref n)} (hl : h.elements l = some l') : h'.elements l = some l' := by
  cases l with
  | bytes b => exact hl
  | pntrs l =>
    obtain ⟨rs, hrs, rfl⟩ := Option.map_eq_some_iff.mp hl
    simp [Heap.elements, hs.components hrs]

/-! ### Objects -/

/-- Sending an array sets its flag `multiref`. -/
def Heap.markArray (arr : Nat) (elements : Elements Pntr) (h : Heap n) : Heap n :=
  { h with cells := Function.update h.cells arr (.array elements true) }

section

variable {h : Heap n} {arr : Nat} {els : Elements Pntr} {m : Bool}

theorem resolveFrom_markArray (ha : h.cells arr = .array els m) (k : Nat) (p : Pntr) :
    resolveFrom (h.markArray arr els).cells k p = resolveFrom h.cells k p := by
  induction k generalizing p with
  | zero => rfl
  | succ k ih =>
    cases p with
    | number d => rfl
    | cell c i =>
      by_cases hc : c = arr
      · subst hc
        simp [resolveFrom, Heap.markArray, ha]
      · have hcell : (h.markArray arr els).cells c = h.cells c := by simp [Heap.markArray, hc]
        simp only [resolveFrom, hcell]
        split
        · exact ih _
        · rfl

theorem canonical_markArray (ha : h.cells arr = .array els m) (p : Pntr) :
    (h.markArray arr els).canonical p = h.canonical p := by
  cases p with
  | number d => rfl
  | cell c i =>
    by_cases hc : c = arr
    · subst hc
      simp only [Heap.canonical, Heap.at, ha]
      simp only [Heap.markArray, Function.update_self]
      rfl
    · have hcell : (h.markArray arr els).cells c = h.cells c := by simp [Heap.markArray, hc]
      simp only [Heap.canonical, Heap.at, hcell]
      rfl

theorem component_markArray (ha : h.cells arr = .array els m) (p : Pntr) :
    (h.markArray arr els).component p = h.component p := by
  have hres : (h.markArray arr els).resolve p = h.resolve p := resolveFrom_markArray ha _ p
  unfold Heap.component
  rw [hres]
  cases h.resolve p with
  | none => rfl
  | some q =>
    cases q with
    | number d => rfl
    | cell c i =>
      simp only [canonical_markArray ha]
      by_cases hc : c = arr
      · subst hc
        simp [Heap.markArray, ha]
      · have hcell : (h.markArray arr els).cells c = h.cells c := by simp [Heap.markArray, hc]
        rw [hcell]

theorem components_markArray (ha : h.cells arr = .array els m) (ps : List Pntr) :
    (h.markArray arr els).components ps = h.components ps := by
  induction ps with
  | nil => rfl
  | cons p ps ih => simp only [Heap.components, component_markArray ha, ih]

theorem elements_markArray (ha : h.cells arr = .array els m) (l : Elements Pntr) :
    (h.markArray arr els).elements l = h.elements l := by
  cases l with
  | bytes b => rfl
  | pntrs l => simp only [Heap.elements, components_markArray ha]

end

/-- `write_aref` sends the elements, not a frame that builds the array. -/
def Heap.Small (e : Env n) (h : Heap n) (c : Nat) : Prop :=
  ∀ arr tail els m, h.cells c = .aref arr tail → h.cells arr = .array els m →
    ¬ (e.optBuildarray = true ∧ buildarrayThreshold ≤ els.size)

/-- A frame that has not been started. -/
def Heap.Unstarted (h : Heap n) (c : Nat) : Prop :=
  ∀ f, h.cells c = .frame f → (h.frames f).state = .new

theorem components_length {h : Heap n} {ps : List Pntr} {rs : List (Ref n)}
    (hr : h.components ps = some rs) : rs.length = ps.length := by
  induction ps generalizing rs with
  | nil =>
    cases hr
    rfl
  | cons p ps ih =>
    simp only [Heap.components] at hr
    obtain ⟨r, -, hr⟩ := Option.bind_eq_some_iff.mp hr
    obtain ⟨rs', hps, hr⟩ := Option.bind_eq_some_iff.mp hr
    cases hr
    simp [ih hps]

theorem elements_size {h : Heap n} {l : Elements Pntr} {l' : Elements (Ref n)}
    (hl : h.elements l = some l') : l'.size = l.size := by
  cases l with
  | bytes b =>
    cases hl
    rfl
  | pntrs l =>
    obtain ⟨rs, hrs, rfl⟩ := Option.map_eq_some_iff.mp hl
    exact components_length hrs

/-- What the sender has checked. -/
def Obj.Checked (expcount : Nat → Nat) : Obj n → Prop
  | .aref _ index elements _ => elements.size ≤ maxArraySize ∧ index < elements.size
  | .array _ elements => elements.size ≤ maxArraySize
  | .frame _ address _ data _ => data.length = expcount address
  | _ => True

theorem writing_refl {h : Heap n} (hn : h.Numbered) : Writing h h := ⟨Sent.refl h, hn⟩

theorem writeGaddrs_apply (as : List (Gaddr n)) (s : Interp n) :
    ∃ a, writeGaddrs as s = some ((), { s with acct := a }) := by
  induction as generalizing s with
  | nil => exact ⟨s.acct, rfl⟩
  | cons x as ih =>
    obtain ⟨a, ha⟩ := ih { s with acct := { s.acct with inflight := x :: s.acct.inflight } }
    exact ⟨a, ha⟩

theorem writeFrame_describes {e : Env n} {tid : Fin n} {c index f : Nat} {s s' : Interp n}
    {o : Obj n} (hn : s.heap.Numbered) (hc : s.heap.cells c = .frame f)
    (hnew : (s.heap.frames f).state = .new) (hm : writeFrame e tid c index f s = some (o, s')) :
    s'.heap.describe e s.heap.frames c index = some o ∧ o.Checked e.expcount := by
  have hobj : s.heap.isObject (.cell c index) = true := by simp [Heap.isObject, Heap.at, hc]
  simp only [writeFrame, bind_eq_some, check_eq_some] at hm
  obtain ⟨a, s1, hs1, fr, s2, hs2, hm⟩ := hm
  obtain ⟨hw1, ha⟩ := writeObjectAddress_writing tid hobj s (writing_refl hn) a s1 hs1
  simp only [onHeap, zoom_eq_some, getFrame, bind_eq_some, get_eq_some, pure_eq_some] at hs2
  obtain ⟨_, ⟨_, _, ⟨rfl, rfl⟩, rfl, rfl⟩, rfl⟩ := hs2
  rw [hw1.1.frames] at hm
  obtain ⟨_, _, ⟨-, rfl⟩, _, _, ⟨-, rfl⟩, _, _, ⟨-, rfl⟩, _, _, ⟨-, rfl⟩, _, _, ⟨-, rfl⟩,
    _, s3, hs3, _, s4, hs4, data, s5, hs5, hm⟩ := hm
  obtain ⟨acct, hgs⟩ := writeGaddrs_apply (s.heap.frames f).wq.fetchers ⟨s1.heap, s1.acct⟩
  rw [hgs] at hs3
  cases hs3
  simp only [onHeap, zoom_eq_some, setFrame, modify_eq_some] at hs4
  obtain ⟨_, rfl, rfl⟩ := hs4
  simp only [pure_eq_some] at hm
  obtain ⟨rfl, rfl⟩ := hm
  -- from here on the heap differs from that of `s1` in the fetchers of the frame
  have hn2 : ∀ frames, ({ s1.heap with frames := frames } : Heap n).Numbered := fun _ =>
    ⟨hw1.2.globals_lt, hw1.2.targethash_lt, hw1.2.physhash_lt⟩
  obtain ⟨hw5, hdata⟩ := writeRefs_writing tid _ ⟨{ s1.heap with frames := _ }, acct⟩
    (writing_refl (hn2 _)) data s' hs5
  have haddr : s'.heap.canonical (.cell c index) = some a := hw5.1.canonical ha
  have hcells : s'.heap.cells = s.heap.cells := hw5.1.cells.trans hw1.1.cells
  have hstart : e.startAddress (s.heap.frames f) = (s.heap.frames f).instr := by
    simp [Env.startAddress, hnew]
  rw [hstart]
  constructor
  · simp [Heap.describe, haddr, hcells, hc, hdata]
  · have hlen := components_length hdata
    rwa [List.length_map, List.length_range] at hlen

theorem writeAref_describes {e : Env n} {tid : Fin n} {c index arr : Nat} {tail : Pntr}
    {s s' : Interp n} {o : Obj n} (hn : s.heap.Numbered) (hc : s.heap.cells c = .aref arr tail)
    (hsmall : s.heap.Small e c) (hm : writeAref e tid c index arr tail s = some (o, s')) :
    s'.heap.describe e s.heap.frames c index = some o ∧ o.Checked e.expcount := by
  have hobj : s.heap.isObject (.cell c index) = true := by simp [Heap.isObject, Heap.at, hc]
  rw [writeAref, bind_eq_some] at hm
  obtain ⟨els, s1, hs1, hm⟩ := hm
  rw [arefArray, get_apply] at hs1
  cases ha : s.heap.cells arr with
  | array els' multiref =>
    simp only [ha, pure_eq_some] at hs1
    obtain ⟨rfl, rfl⟩ := hs1
    rw [if_neg (hsmall arr tail els multiref hc ha)] at hm
    simp only [bind_eq_some, check_eq_some, onHeap, zoom_eq_some, setCell, modify_eq_some,
      pure_eq_some] at hm
    obtain ⟨a, _, hs2, _, _, ⟨hmax, rfl⟩, _, s2, ⟨hindex, rfl⟩, elems, s3, hs3, t, s4, hs4, _, _,
      ⟨_, rfl, rfl⟩, rfl, rfl⟩ := hm
    obtain ⟨hw2, haddr⟩ := writeObjectAddress_writing tid hobj s1 (writing_refl hn) a s2 hs2
    obtain ⟨hw3, hels⟩ := writeElements_writing tid els s2 (writing_refl hw2.2) elems s3 hs3
    obtain ⟨hw4, ht⟩ := writeRef_writing tid tail s3 (writing_refl hw3.2) t s4 hs4
    have ha4 : s4.heap.cells arr = .array els multiref := by
      rw [hw4.1.cells, hw3.1.cells, hw2.1.cells, ha]
    have hc4 : (s4.heap.markArray arr els).cells c = .aref arr tail := by
      have hne : c ≠ arr := by
        rintro rfl
        rw [hc] at ha
        cases ha
      simp [Heap.markArray, hne, hw4.1.cells, hw3.1.cells, hw2.1.cells, hc]
    have hself : (s4.heap.markArray arr els).cells arr = .array els true := by
      simp [Heap.markArray]
    have h1 := canonical_markArray ha4 (.cell c index)
    rw [hw4.1.canonical (hw3.1.canonical haddr)] at h1
    have h2 := elements_markArray ha4 els
    rw [hw4.1.elements hels] at h2
    have h3 := component_markArray ha4 tail
    rw [ht] at h3
    constructor
    · show (s4.heap.markArray arr els).describe e s1.heap.frames c index = _
      simp [Heap.describe, h1, hc4, hself, h2, h3]
    · have hsize := elements_size hels
      rw [← hsize] at hmax hindex
      exact ⟨hmax, hindex⟩
  | _ =>
    simp only [ha] at hs1
    cases hs1

theorem writeArray_describes {e : Env n} {tid : Fin n} {c index : Nat} {els : Elements Pntr}
    {m : Bool} {s s' : Interp n} {o : Obj n} (hn : s.heap.Numbered)
    (hc : s.heap.cells c = .array els m) (hm : writeArray tid c index els s = some (o, s')) :
    s'.heap.describe e s.heap.frames c index = some o ∧ o.Checked e.expcount := by
  have hobj : s.heap.isObject (.cell c index) = true := by simp [Heap.isObject, Heap.at, hc]
  simp only [writeArray, bind_eq_some, check_eq_some, onHeap, zoom_eq_some, setCell,
    modify_eq_some, pure_eq_some] at hm
  obtain ⟨_, s1, ⟨hmax, rfl⟩, a, s2, hs2, elems, s3, hs3, _, _, ⟨_, rfl, rfl⟩, rfl, rfl⟩ := hm
  obtain ⟨hw2, haddr⟩ := writeObjectAddress_writing tid hobj s1 (writing_refl hn) a s2 hs2
  obtain ⟨hw3, hels⟩ := writeElements_writing tid els s2 (writing_refl hw2.2) elems s3 hs3
  have ha3 : s3.heap.cells c = .array els m := by rw [hw3.1.cells, hw2.1.cells, hc]
  have hself : (s3.heap.markArray c els).cells c = .array els true := by simp [Heap.markArray]
  have h1 := canonical_markArray ha3 (.cell c index)
  rw [hw3.1.canonical haddr] at h1
  have h2 := elements_markArray ha3 els
  rw [hels] at h2
  constructor
  · show (s3.heap.markArray c els).describe e s1.heap.frames c index = _
    simp [Heap.describe, h1, hself, h2]
  · rw [← elements_size hels] at hmax
    exact hmax

theorem writeObject_describes {e : Env n} {tid : Fin n} {c index : Nat} {s s' : Interp n}
    {o : Obj n} (hn : s.heap.Numbered) (hsmall : s.heap.Small e c) (hnew : s.heap.Unstarted c)
    (hm : writeObject e tid c index s = some (o, s')) :
    s'.heap.describe e s.heap.frames c index = some o ∧ o.Checked e.expcount := by
  rw [writeObject, get_apply] at hm
  cases hc : s.heap.cells c with
  | aref arr tail =>
    simp only [hc] at hm
    exact writeAref_describes hn hc hsmall hm
  | array els m =>
    simp only [hc] at hm
    exact writeArray_describes hn hc hm
  | frame f =>
    simp only [hc] at hm
    exact writeFrame_describes hn hc (hnew f hc) hm
  | cons head tail =>
    have hobj : s.heap.isObject (.cell c index) = true := by simp [Heap.isObject, Heap.at, hc]
    simp only [hc, bind_eq_some, pure_eq_some] at hm
    obtain ⟨a, s1, hs1, r1, s2, hs2, r2, _, hs3, rfl, rfl⟩ := hm
    obtain ⟨hw1, ha⟩ := writeObjectAddress_writing tid hobj s (writing_refl hn) a s1 hs1
    obtain ⟨hw2, h1⟩ := writeRef_writing tid head s1 (writing_refl hw1.2) r1 s2 hs2
    obtain ⟨hw3, h2⟩ := writeRef_writing tid tail s2 (writing_refl hw2.2) r2 s' hs3
    have hc3 : s'.heap.cells c = .cons head tail := by
      rw [hw3.1.cells, hw2.1.cells, hw1.1.cells, hc]
    simp [Heap.describe, hw3.1.canonical (hw2.1.canonical ha), hc3, hw3.1.component h1, h2,
      Obj.Checked]
  | cap arity address fno fileno lineno data =>
    have hobj : s.heap.isObject (.cell c index) = true := by simp [Heap.isObject, Heap.at, hc]
    simp only [hc, bind_eq_some, pure_eq_some] at hm
    obtain ⟨a, s1, hs1, rs, _, hs2, rfl, rfl⟩ := hm
    obtain ⟨hw1, ha⟩ := writeObjectAddress_writing tid hobj s (writing_refl hn) a s1 hs1
    obtain ⟨hw2, h1⟩ := writeRefs_writing tid data s1 (writing_refl hw1.2) rs s' hs2
    have hc2 : s'.heap.cells c = .cap arity address fno fileno lineno data := by
      rw [hw2.1.cells, hw1.1.cells, hc]
    simp [Heap.describe, hw2.1.canonical ha, hc2, h1, Obj.Checked]
  | sysobject type ownertid sockid =>
    have hobj : s.heap.isObject (.cell c index) = true := by simp [Heap.isObject, Heap.at, hc]
    simp only [hc, bind_eq_some, pure_eq_some] at hm
    obtain ⟨a, _, hs1, rfl, rfl⟩ := hm
    obtain ⟨hw1, ha⟩ := writeObjectAddress_writing tid hobj s (writing_refl hn) a s' hs1
    have hc1 : s'.heap.cells c = .sysobject type ownertid sockid := by rw [hw1.1.cells, hc]
    simp [Heap.describe, ha, hc1, Obj.Checked]
  | _ =>
    simp only [hc] at hm
    cases hm

/-- The heap after `maybe_expand_array`, where `write_pntr` calls it. -/
def Heap.expanded (e : Env n) (h : Heap n) (c : Nat) : Heap n :=
  if h.isList c = true then
    { h with cells := (e.expand h.cells h.ncells c).1, ncells := (e.expand h.cells h.ncells c).2 }
  else h

theorem Heap.expanded_frames (e : Env n) (h : Heap n) (c : Nat) :
    (h.expanded e c).frames = h.frames := by
  unfold Heap.expanded
  split_ifs <;> rfl

theorem Heap.Numbered.expanded {h : Heap n} (hn : h.Numbered) (e : Env n) (c : Nat) :
    (h.expanded e c).Numbered := by
  unfold Heap.expanded
  split_ifs
  · exact ⟨hn.globals_lt, hn.targethash_lt, hn.physhash_lt⟩
  · exact hn

theorem when_maybeExpandArray (e : Env n) (c : Nat) (s : Interp n) :
    when (s.heap.isList c = true) (onHeap (maybeExpandArray e c)) s =
      some ((), { s with heap := s.heap.expanded e c }) := by
  unfold when Heap.expanded
  split_ifs <;> rfl

/-- The objects that are sent by value. -/
structure Heap.Sendable (e : Env n) (h : Heap n) (q : Pntr) : Prop where
  object : h.isObject q = true
  small : ∀ c i, q = .cell c i → (h.expanded e c).Small e c
  unstarted : ∀ c i, q = .cell c i → (h.expanded e c).Unstarted c

theorem describePntr_of_describe {e : Env n} {h : Heap n} {frames : Nat → Frame n} {c index : Nat}
    {o : Obj n} (hd : h.describe e frames c index = some o) :
    h.describePntr e frames (.cell c index) = some o := by
  unfold Heap.describePntr
  cases hc : h.cells c with
  | nil =>
    simp only [Heap.describe, hc] at hd
    cases ha : h.canonical (.cell c index) <;> simp [ha] at hd
  | _ => simpa only [hc] using hd

theorem writePntr_describes {e : Env n} {tid : Fin n} {p q : Pntr} {s s' : Interp n} {o : Obj n}
    (hn : s.heap.Numbered) (hq : s.heap.resolve p = some q) (hs : s.heap.Sendable e q)
    (hm : writePntr e tid p s = some (o, s')) :
    s'.heap.describePntr e s.heap.frames q = some o ∧ o.Checked e.expcount := by
  rw [writePntr, bind_eq_some] at hm
  obtain ⟨q', s1, hres, hm⟩ := hm
  simp only [bind_eq_some, onHeap, zoom_eq_some, resolvePntr, get_eq_some, need_eq_some] at hres
  obtain ⟨_, ⟨_, _, ⟨rfl, rfl⟩, hq', rfl⟩, rfl⟩ := hres
  rw [hq] at hq'
  cases hq'
  rw [bind_eq_some] at hm
  obtain ⟨x, s2, hsimple, hm⟩ := hm
  rw [writeSimple, get_apply] at hsimple
  cases q with
  | number d =>
    simp only [pure_eq_some] at hsimple
    obtain ⟨rfl, rfl⟩ := hsimple
    simp only [pure_eq_some] at hm
    obtain ⟨rfl, rfl⟩ := hm
    exact ⟨rfl, trivial⟩
  | cell c index =>
    have hobj := hs.object
    cases hc : s.heap.cells c with
    | nil =>
      simp only [hc, pure_eq_some] at hsimple
      obtain ⟨rfl, rfl⟩ := hsimple
      simp only [pure_eq_some] at hm
      obtain ⟨rfl, rfl⟩ := hm
      simp [Heap.describePntr, hc, Obj.Checked]
    | remoteref g => simp [Heap.isObject, Heap.at, hc] at hobj
    | hole => simp [Heap.isObject, Heap.at, hc] at hobj
    | empty =>
      simp only [hc] at hsimple
      cases hsimple
    | ind x =>
      simp only [hc] at hsimple
      cases hsimple
    | _ =>
      simp only [hc, pure_eq_some] at hsimple
      obtain ⟨rfl, rfl⟩ := hsimple
      simp only at hm
      rw [get_apply, bind_eq_some] at hm
      obtain ⟨_, s3, hexp, hm⟩ := hm
      rw [when_maybeExpandArray] at hexp
      cases hexp
      rw [← s.heap.expanded_frames e c]
      obtain ⟨hd, hcheck⟩ := writeObject_describes (hn.expanded e c) (hs.small c index rfl)
        (hs.unstarted c index rfl) hm
      exact ⟨describePntr_of_describe hd, hcheck⟩

end Runtime
end NReduce
