import NReduce.Runtime.ListSteps
import Mathlib.Logic.Relation

/-!
# NReduce.Runtime.BuildArray

Sending a list to another task (`data.c`). A list with a large array is not sent itself: the receiver
gets a frame that calls `buildarray` with the array object, an index and a tail, and fetches the array
object when it runs the frame. In between the owner goes on with its evaluation.

* `Net`, `step`: the owner of the lists, the tasks that receive them, and the messages between them.
* `sound_of_careful`: the lists that receivers build are those of the owner, in every run in which the
  owner adds nothing to an array that it has named in a frame and not sent yet.
-/

namespace NReduce
namespace Runtime
namespace Lists

open Store

/-- `BUILDARRAY_THRESHOLD` -/
def buildarrayThreshold : Nat := 1024

/-- The frame of `write_buildarray_frame`. The pointers are those of the owner; to the receiver they
are references. -/
structure Call where
  list : Pntr
  arr : Nat
  index : Nat
  tail : Pntr
  deriving DecidableEq

/-- A list at a receiver: the elements of its array, an index and a tail. -/
structure Copy where
  list : Pntr
  elements : Elements
  index : Nat
  tail : Pntr
  deriving DecidableEq

inductive Message where
  | frame (f : Call)
  | aref (l : Copy)
  | array (a : Nat) (elements : Elements)
  deriving DecidableEq

/-- `write_aref` -/
def writeAref (p : Pntr) (s : Store) : Option (Message × Store) :=
  match p, s.node p with
  | .obj _ index, some (.aref a tail) =>
    if buildarrayThreshold ≤ (s.arrays a).size then some (.frame ⟨p, a, index, tail⟩, s)
    else some (.aref ⟨p, (s.arrays a).elements, index, tail⟩, setMultiref a s)
  | _, _ => none

/-- `write_array` -/
def writeArray (a : Nat) (s : Store) : Message × Store :=
  (.array a (s.arrays a).elements, setMultiref a s)

/-- `b_buildarray`, with the receiver's copy of the array. -/
def bBuildarray (f : Call) (elements : Elements) : Option Copy :=
  if f.index < elements.size then some ⟨f.list, elements, f.index, f.tail⟩ else none

/-- The branch of `b_arrayprefix` that does not copy: a new list with the array of `p` and the tail
`rest`. -/
def shareArray (p rest : Pntr) (s : Store) : Option Store :=
  match p, s.node p with
  | .obj _ index, some (.aref a _) =>
    if buildarrayThreshold ≤ (s.arrays a).size - index then
      some ((setMultiref a s).allocCell (.aref a rest)).2
    else none
  | _, _ => none

/-- The owner and its receivers, by their numbers. -/
structure Net where
  store : Store
  /-- messages on their way to a receiver -/
  channel : Nat → List Message
  /-- the array objects of the FETCH messages on their way from a receiver -/
  fetches : Nat → List Nat
  /-- frames that a receiver has got and not run yet -/
  frames : Nat → List Call
  /-- the copies of array objects that a receiver has -/
  replicas : Nat → Nat → Option Elements
  /-- the lists that a receiver has got -/
  lists : Nat → List Copy

inductive Event where
  /-- `b_tail`, `b_arraysize`, `b_arrayskip` or `b_arrayitem` at the owner -/
  | expand (p : Pntr)
  /-- a frame of the owner returns -/
  | result (c : Nat) (q : Pntr)
  | newCons (head tail : Pntr)
  | newArray (arr : Carray) (tail : Pntr)
  | share (p rest : Pntr)
  /-- `write_pntr` of a list, for the receiver `r` -/
  | send (r : Nat) (p : Pntr)
  | receive (r : Nat)
  /-- the receiver evaluates the array argument of a frame -/
  | fetch (r : Nat) (f : Call)
  /-- the owner answers a FETCH -/
  | serve (r : Nat)
  | build (r : Nat) (f : Call)

/-- What a receiver does with a message. An array object that it has already stays as it is. -/
def receiveMessage (r : Nat) (n : Net) : Message → Net
  | .frame f => { n with frames := Function.update n.frames r (n.frames r ++ [f]) }
  | .aref l => { n with lists := Function.update n.lists r (n.lists r ++ [l]) }
  | .array a elements =>
    if (n.replicas r a).isSome then n
    else { n with
      replicas := Function.update n.replicas r
        (Function.update (n.replicas r) a (some elements)) }

section

variable (misread : Store → Data → Nat → Pntr)

def step (fuel : Nat) (n : Net) : Event → Option Net
  | .expand p => do
    let s ← maybeExpandArray misread fuel p n.store
    return { n with store := s }
  | .result c q =>
    if n.store.nodes c = .frame ∧ n.store.target q ≠ .obj c 0 then
      some { n with store := setResult c q n.store }
    else none
  | .newCons head tail => some { n with store := (n.store.allocCell (.cons head tail)).2 }
  | .newArray arr tail =>
    some { n with store := n.store.put n.store.ncells n.store.narrays arr tail }
  | .share p rest => do
    let s ← shareArray p rest n.store
    return { n with store := s }
  | .send r p => do
    let s ← maybeExpandArray misread fuel p n.store
    let (m, s) ← writeAref p s
    return { n with store := s, channel := Function.update n.channel r (n.channel r ++ [m]) }
  | .receive r =>
    match n.channel r with
    | [] => none
    | m :: rest => some (receiveMessage r { n with channel := Function.update n.channel r rest } m)
  | .fetch r f =>
    if f ∈ n.frames r ∧ n.replicas r f.arr = none then
      some { n with fetches := Function.update n.fetches r (n.fetches r ++ [f.arr]) }
    else none
  | .serve r =>
    match n.fetches r with
    | [] => none
    | a :: rest =>
      let (m, s) := writeArray a n.store
      some { n with
        store := s
        fetches := Function.update n.fetches r rest
        channel := Function.update n.channel r (n.channel r ++ [m]) }
  | .build r f =>
    if f ∈ n.frames r then do
      let elements ← n.replicas r f.arr
      let l ← bBuildarray f elements
      return { n with
        frames := Function.update n.frames r ((n.frames r).erase f)
        lists := Function.update n.lists r (n.lists r ++ [l]) }
    else none

/-- Evaluation has only pointers of the store. -/
def Enabled (s : Store) : Event → Prop
  | .expand p => s.Valid p
  | .result c q => c < s.ncells ∧ s.Valid q
  | .newCons head tail => s.Valid head ∧ s.Valid tail
  | .newArray arr tail => s.ArrayOk arr ∧ arr.multiref = false ∧ s.Valid tail
  | .share p rest => s.Valid p ∧ s.Valid rest
  | .send _ p => s.Valid p
  | _ => True

def Step (n : Net) (e : Event) (n' : Net) : Prop :=
  Enabled n.store e ∧ ∃ fuel, step misread fuel n e = some n'

end

/-- The array has been named in a frame that is not run yet, or asked for. -/
def Net.Announced (n : Net) (a : Nat) : Prop :=
  (∃ r f, (.frame f ∈ n.channel r ∨ f ∈ n.frames r) ∧ f.arr = a) ∨ ∃ r, a ∈ n.fetches r

/-- A call of `maybe_expand_array` that settles, and that adds nothing to an announced array where it
is. -/
def CarefulCall (n : Net) (p : Pntr) : Prop :=
  Settled n.store p ∧
    ∀ c i a t, p = .obj c i → n.store.nodes c = .aref a t →
      (n.store.arrays a).multiref = false → n.Announced a →
      Still n.store c (n.store.arrays a).nbytes (n.store.arrays a).elements.width
        (some (n.store.arrays a).alloc) (n.store.arrays a).size (n.store.target t)

def Careful (n : Net) : Event → Prop
  | .expand p => CarefulCall n p
  | .send _ p => CarefulCall n p
  | _ => True

/-- The start of a run: lists at the owner, nothing sent. -/
structure Start (n : Net) : Prop where
  wf : n.store.Wf
  channel : ∀ r, n.channel r = []
  fetches : ∀ r, n.fetches r = []
  frames : ∀ r, n.frames r = []
  replicas : ∀ r a, n.replicas r a = none
  lists : ∀ r, n.lists r = []

/-- Each list that a receiver has got is the list of the owner. -/
def Sound (n : Net) : Prop :=
  ∀ r, ∀ l ∈ n.lists r, n.store.denote l.list =
    prepend ((n.store.items l.elements).drop l.index) (n.store.denote l.tail)

/-! ## Changes of the owner's store -/

/-- What the receivers need of a change: equations between lists stay, and the arrays in `A` and the
shared ones keep their items. -/
structure Follows (s s' : Store) (A : Nat → Prop) : Prop where
  wf : s'.Wf
  narrays_le : s.narrays ≤ s'.narrays
  valid : ∀ p, s.Valid p → s'.Valid p
  denote : ∀ p els i t, s.Valid p → s.Valid t → s.ElementsOk els →
    s.denote p = prepend ((s.items els).drop i) (s.denote t) →
    s'.denote p = prepend ((s'.items els).drop i) (s'.denote t)
  items : ∀ els els', s.ElementsOk els → s.ElementsOk els' → s.items els = s.items els' →
    s'.items els = s'.items els'
  arrays : ∀ a < s.narrays, (A a ∨ (s.arrays a).multiref = true) →
    s.ElementsOk (s.arrays a).elements →
    s'.ElementsOk (s'.arrays a).elements ∧
      s'.items (s'.arrays a).elements = s'.items (s.arrays a).elements
  multiref : ∀ a < s.narrays, (s.arrays a).multiref = true → (s'.arrays a).multiref = true

variable {s s' : Store} {A : Nat → Prop}

theorem Follows.elementsOk (h : Follows s s' A) {els : Elements} (hok : s.ElementsOk els) :
    s'.ElementsOk els := fun l hl e he => h.valid e (hok l hl e he)

/-- A change that keeps the lists and the elements of all arrays. -/
theorem follows_of_keeps (hk : Keeps s s') (hle : s.narrays ≤ s'.narrays)
    (harr : ∀ a < s.narrays, (A a ∨ (s.arrays a).multiref = true) →
      s.ElementsOk (s.arrays a).elements →
      s'.ElementsOk (s'.arrays a).elements ∧
        s'.items (s'.arrays a).elements = s'.items (s.arrays a).elements)
    (hm : ∀ a < s.narrays, (s.arrays a).multiref = true → (s'.arrays a).multiref = true) :
    Follows s s' A where
  wf := hk.wf
  narrays_le := hle
  valid := hk.valid
  denote p els i t hp ht hok heq := by rw [hk.denote p hp, hk.items hok, hk.denote t ht, heq]
  items els els' hok hok' heq := by rw [hk.items hok, hk.items hok', heq]
  arrays := harr
  multiref := hm

theorem Keeps.follows (hk : Keeps s s') (hle : s.narrays ≤ s'.narrays)
    (harr : ∀ a < s.narrays, (s'.arrays a).elements = (s.arrays a).elements)
    (hm : ∀ a < s.narrays, (s.arrays a).multiref = true → (s'.arrays a).multiref = true) :
    Follows s s' A := by
  apply follows_of_keeps hk hle _ hm
  intro a ha _ hok
  rw [harr a ha]
  exact ⟨hk.elementsOk hok, rfl⟩

theorem Changes.multiref {c b : Nat} (hch : s.Changes s' c b)
    (hb : b < s.narrays → (s.arrays b).multiref = false) (a : Nat) (ha : a < s.narrays)
    (hm : (s.arrays a).multiref = true) : (s'.arrays a).multiref = true := by
  have hne : a ≠ b := by
    rintro rfl
    rw [hb ha] at hm
    cases hm
  rw [hch.arrays a ha hne, hm]

/-- `maybe_expand_array`, when it adds nothing to the arrays in `A`. -/
theorem Effect.follows {p : Pntr} (hk : Keeps s s') (heff : Effect s s' p)
    (hstill : ∀ c i a t, p = .obj c i → s.nodes c = .aref a t → (s.arrays a).multiref = false →
      A a → Still s c (s.arrays a).nbytes (s.arrays a).elements.width (some (s.arrays a).alloc)
        (s.arrays a).size (s.target t)) : Follows s s' A := by
  obtain rfl | ⟨c, i, rfl, ⟨hch, -⟩ | ⟨b, t, hn, hm, hexp⟩⟩ := heff
  · exact Keeps.follows hk le_rfl (fun _ _ => rfl) (fun _ _ h => h)
  · apply Keeps.follows hk hch.narrays_le
    · exact fun a ha => by rw [hch.arrays a ha ha.ne]
    · exact Changes.multiref hch (fun hb => absurd hb (lt_irrefl _))
  · apply follows_of_keeps hk hexp.changes.narrays_le
    · intro a ha hA hok
      by_cases hab : a = b
      · subst hab
        obtain hA | hmul := hA
        · obtain ⟨h1, h2⟩ := hexp.still (hstill c i a t rfl hn hm hA)
          exact ⟨h2, by rw [h1, hk.items hok]⟩
        · rw [hm] at hmul
          cases hmul
      · rw [hexp.changes.arrays a ha hab]
        exact ⟨hk.elementsOk hok, rfl⟩
    · exact Changes.multiref hexp.changes (fun _ => hm)

theorem ResultOk.follows {c : Nat} {q : Pntr} (h : ResultOk s c q) :
    Follows s (setResult c q s) A where
  wf := h.wf_setResult
  narrays_le := le_rfl
  valid p hp := (h.valid_iff p).mpr hp
  denote p els i t hp ht hok heq := by
    rw [h.items hok, ← List.map_drop]
    exact h.denote_prepend ht hp heq
  items els els' hok hok' heq := by rw [h.items hok, h.items hok', heq]
  arrays a _ _ hok := ⟨fun l hl e he => (h.valid_iff e).mpr (hok l hl e he), rfl⟩
  multiref _ _ hm := hm

theorem follows_allocCell (hw : s.Wf) {n : Node} (hn : s.NodeOk n) :
    Follows s (s.allocCell n).2 A :=
  Keeps.follows (keeps_allocCell hw hn) le_rfl (fun _ _ => rfl) (fun _ _ h => h)

theorem follows_setMultiref (hw : s.Wf) (a : Nat) : Follows s (setMultiref a s) A := by
  apply Keeps.follows (keeps_setMultiref hw a) le_rfl (fun b _ => setMultiref_elements a b)
  intro b _ hm
  obtain h | ⟨-, h⟩ := setMultiref_arrays a b (s := s)
  · rw [h, hm]
  · rw [h]

theorem follows_newArray (hw : s.Wf) {arr : Carray} {t : Pntr} (hok : s.ArrayOk arr)
    (ht : s.Valid t) : Follows s (s.put s.ncells s.narrays arr t) A := by
  have hplaced : s.Placed s.ncells s.narrays arr t :=
    ⟨le_rfl, fun _ hlt => absurd hlt (lt_irrefl _), hw.own_new le_rfl,
      fun _ hv => absurd hv.1 (lt_irrefl _), hok, ht⟩
  apply Keeps.follows (keeps_put hw hplaced (fun _ hv => absurd hv.1 (lt_irrefl _)))
    (le_max_left _ _)
  · exact fun a ha => by rw [put_arrays_of_ne ha.ne]
  · exact fun a ha hm => by rw [put_arrays_of_ne ha.ne, hm]

/-! ## The invariant -/

/-- What a frame says is so: the list is the rest of the array and the tail. -/
structure Named (s : Store) (f : Call) : Prop where
  list : s.Valid f.list
  tail : s.Valid f.tail
  lt : f.arr < s.narrays
  ok : s.ElementsOk (s.arrays f.arr).elements
  index : f.index < (s.arrays f.arr).size
  denote : s.denote f.list =
    prepend ((s.items (s.arrays f.arr).elements).drop f.index) (s.denote f.tail)

structure Faithful (s : Store) (l : Copy) : Prop where
  list : s.Valid l.list
  tail : s.Valid l.tail
  ok : s.ElementsOk l.elements
  denote : s.denote l.list = prepend ((s.items l.elements).drop l.index) (s.denote l.tail)

/-- A copy of an array object: the owner does not change it any more. -/
structure Replica (s : Store) (a : Nat) (els : Elements) : Prop where
  lt : a < s.narrays
  multiref : (s.arrays a).multiref = true
  ok : s.ElementsOk els
  array_ok : s.ElementsOk (s.arrays a).elements
  items : s.items els = s.items (s.arrays a).elements

structure Inv (n : Net) : Prop where
  wf : n.store.Wf
  named : ∀ r f, (.frame f ∈ n.channel r ∨ f ∈ n.frames r) → Named n.store f
  fetched : ∀ r, ∀ a ∈ n.fetches r,
    a < n.store.narrays ∧ n.store.ElementsOk (n.store.arrays a).elements
  replica : ∀ r a els, (.array a els ∈ n.channel r ∨ n.replicas r a = some els) →
    Replica n.store a els
  faithful : ∀ r l, (.aref l ∈ n.channel r ∨ l ∈ n.lists r) → Faithful n.store l

theorem Named.follows {f : Call} (h : Named s f) (hf : Follows s s' A) (hA : A f.arr) :
    Named s' f := by
  obtain ⟨hok, hitems⟩ := hf.arrays f.arr h.lt (.inl hA) h.ok
  refine ⟨hf.valid _ h.list, hf.valid _ h.tail, h.lt.trans_le hf.narrays_le, hok, ?_, ?_⟩
  · have hlen := congrArg List.length hitems
    simp only [length_items] at hlen
    rw [Carray.size, hlen]
    exact h.index
  · rw [hitems]
    exact hf.denote _ _ _ _ h.list h.tail h.ok h.denote

theorem Faithful.follows {l : Copy} (h : Faithful s l) (hf : Follows s s' A) : Faithful s' l :=
  ⟨hf.valid _ h.list, hf.valid _ h.tail, hf.elementsOk h.ok,
    hf.denote _ _ _ _ h.list h.tail h.ok h.denote⟩

theorem Replica.follows {a : Nat} {els : Elements} (h : Replica s a els) (hf : Follows s s' A) :
    Replica s' a els := by
  obtain ⟨hok, hitems⟩ := hf.arrays a h.lt (.inr h.multiref) h.array_ok
  refine ⟨h.lt.trans_le hf.narrays_le, hf.multiref a h.lt h.multiref, hf.elementsOk h.ok, hok, ?_⟩
  rw [hitems]
  exact hf.items _ _ h.ok h.array_ok h.items

/-- The messages stay true when the store changes. -/
theorem Inv.follows {n : Net} (h : Inv n) (hf : Follows n.store s' n.Announced) :
    Inv { n with store := s' } where
  wf := hf.wf
  named r f hmem := (h.named r f hmem).follows hf (.inl ⟨r, f, hmem, rfl⟩)
  fetched r a ha := by
    obtain ⟨hlt, hok⟩ := h.fetched r a ha
    exact ⟨hlt.trans_le hf.narrays_le, (hf.arrays a hlt (.inl (.inr ⟨r, ha⟩)) hok).1⟩
  replica r a els hmem := (h.replica r a els hmem).follows hf
  faithful r l hmem := (h.faithful r l hmem).follows hf

/-- What is written about a list is so when it is written. -/
theorem named_of_aref (hw : s.Wf) {c i a : Nat} {t : Pntr} (hp : s.Valid (.obj c i))
    (hn : s.nodes c = .aref a t) : Named s ⟨.obj c i, a, i, t⟩ := by
  obtain ⟨hlt, ht, hok⟩ := hw.aref c a t hp.1 hn
  have hi : i < (s.arrays a).size := by
    have h2 := hp.2
    simpa only [hn] using h2
  exact ⟨hp, ht, hlt, hok.elements, hi, denote_aref hn hi⟩

theorem Named.faithful {f : Call} (h : Named s f) {els : Elements} (hok : s.ElementsOk els)
    (hitems : s.items els = s.items (s.arrays f.arr).elements) :
    Faithful s ⟨f.list, els, f.index, f.tail⟩ :=
  ⟨h.list, h.tail, hok, by rw [h.denote, ← hitems]⟩

/-- A new message at the end of a channel. -/
theorem mem_update_append {α : Type} {g : Nat → List α} {r r' : Nat} {m x : α}
    (h : x ∈ Function.update g r (g r ++ [m]) r') : x ∈ g r' ∨ x = m := by
  by_cases hr : r' = r
  · subst hr
    rw [Function.update_self, List.mem_append, List.mem_singleton] at h
    exact h
  · rw [Function.update_of_ne hr] at h
    exact .inl h

theorem mem_of_mem_update {α : Type} {g : Nat → List α} {r r' : Nat} {l : List α} {x : α}
    (hl : ∀ y ∈ l, y ∈ g r) (h : x ∈ Function.update g r l r') : x ∈ g r' := by
  by_cases hr : r' = r
  · subst hr
    rw [Function.update_self] at h
    exact hl x h
  · rwa [Function.update_of_ne hr] at h

/-- A message that is true may be sent. -/
theorem Inv.sends {n : Net} (h : Inv n) (r : Nat) {m : Message}
    (hm : match m with
      | .frame f => Named n.store f
      | .aref l => Faithful n.store l
      | .array a els => Replica n.store a els) :
    Inv { n with channel := Function.update n.channel r (n.channel r ++ [m]) } where
  wf := h.wf
  named r' f hmem := by
    obtain hmem | hmem := hmem
    · obtain hmem | rfl := mem_update_append hmem
      · exact h.named r' f (.inl hmem)
      · exact hm
    · exact h.named r' f (.inr hmem)
  fetched := h.fetched
  replica r' a els hmem := by
    obtain hmem | hmem := hmem
    · obtain hmem | rfl := mem_update_append hmem
      · exact h.replica r' a els (.inl hmem)
      · exact hm
    · exact h.replica r' a els (.inr hmem)
  faithful r' l hmem := by
    obtain hmem | hmem := hmem
    · obtain hmem | rfl := mem_update_append hmem
      · exact h.faithful r' l (.inl hmem)
      · exact hm
    · exact h.faithful r' l (.inr hmem)

/-! ## Steps -/

variable {n n' : Net}

theorem setMultiref_self (a : Nat) : ((setMultiref a s).arrays a).multiref = true := by
  simp only [setMultiref, Store.setArray, Function.update_self]

section

variable (misread : Store → Data → Nat → Pntr)

/-- `maybe_expand_array` in a run. -/
theorem Inv.expand {fuel : Nat} {p : Pntr} (h : Inv n) (hp : n.store.Valid p)
    (hcare : CarefulCall n p) (hrun : maybeExpandArray misread fuel p n.store = some s') :
    Inv { n with store := s' } ∧ s'.Valid p := by
  obtain ⟨hk, heff⟩ := maybeExpandArray_of_eq misread h.wf hp hcare.1 hrun
  exact ⟨h.follows (heff.follows hk hcare.2), hk.valid p hp⟩

end

theorem Inv.result {c : Nat} {q : Pntr} (h : Inv n) (hc : c < n.store.ncells)
    (hq : n.store.Valid q) (hn : n.store.nodes c = .frame) (ht : n.store.target q ≠ .obj c 0) :
    Inv { n with store := setResult c q n.store } :=
  h.follows (ResultOk.follows ⟨h.wf, hc, hn, hq, ht⟩)

/-- A second list with the same array. -/
theorem Inv.share {p rest : Pntr} (h : Inv n) (hp : n.store.Valid p) (hrest : n.store.Valid rest)
    (hrun : shareArray p rest n.store = some s') : Inv { n with store := s' } := by
  unfold shareArray at hrun
  split at hrun
  · next c i a t hn =>
    have hc : n.store.nodes c = .aref a t := Option.some.inj hn
    split at hrun
    · cases hrun
      have hk := keeps_setMultiref h.wf a
      obtain ⟨hlt, -, hok⟩ := hk.wf.aref c a t hp.1 hc
      have hnode : (setMultiref a n.store).NodeOk (.aref a rest) :=
        ⟨hlt, hk.valid rest hrest, hok, setMultiref_self a⟩
      have h₁ : Inv { n with store := setMultiref a n.store } :=
        h.follows (follows_setMultiref h.wf a)
      exact h₁.follows (follows_allocCell hk.wf hnode)
    · cases hrun
  · cases hrun

/-- `write_aref` of a list of the store. -/
theorem Inv.writeAref {p : Pntr} {m : Message} (h : Inv n) (hp : n.store.Valid p) (r : Nat)
    (hrun : writeAref p n.store = some (m, s')) :
    Inv { n with store := s', channel := Function.update n.channel r (n.channel r ++ [m]) } := by
  unfold Lists.writeAref at hrun
  split at hrun
  · next c i a t hn =>
    have hc : n.store.nodes c = .aref a t := Option.some.inj hn
    have hnamed := named_of_aref h.wf hp hc
    split at hrun
    · cases hrun
      exact h.sends r hnamed
    · cases hrun
      have hf : Follows n.store (setMultiref a n.store) n.Announced := follows_setMultiref h.wf a
      exact (h.follows hf).sends r ((hnamed.faithful hnamed.ok rfl).follows hf)
  · cases hrun

theorem Inv.receive {r : Nat} {m : Message} {rest : List Message} (h : Inv n)
    (hch : n.channel r = m :: rest) :
    Inv (receiveMessage r { n with channel := Function.update n.channel r rest } m) := by
  have hrest : ∀ {r' : Nat} {x : Message}, x ∈ Function.update n.channel r rest r' →
      x ∈ n.channel r' := by
    intro r' x hx
    refine mem_of_mem_update (fun y hy => ?_) hx
    rw [hch]
    exact List.mem_cons_of_mem m hy
  have hm : m ∈ n.channel r := by
    rw [hch]
    exact List.mem_cons_self
  have h₁ : Inv { n with channel := Function.update n.channel r rest } :=
    ⟨h.wf, fun r' f hf => h.named r' f (hf.imp_left hrest), h.fetched,
      fun r' a els ha => h.replica r' a els (ha.imp_left hrest),
      fun r' l hl => h.faithful r' l (hl.imp_left hrest)⟩
  cases m with
  | frame f =>
    refine ⟨h₁.wf, fun r' f' hf => ?_, h₁.fetched, h₁.replica, h₁.faithful⟩
    obtain hf | hf := hf
    · exact h₁.named r' f' (.inl hf)
    · obtain hf | rfl := mem_update_append hf
      · exact h₁.named r' f' (.inr hf)
      · exact h.named r f' (.inl hm)
  | aref l =>
    refine ⟨h₁.wf, h₁.named, h₁.fetched, h₁.replica, fun r' l' hl => ?_⟩
    obtain hl | hl := hl
    · exact h₁.faithful r' l' (.inl hl)
    · obtain hl | rfl := mem_update_append hl
      · exact h₁.faithful r' l' (.inr hl)
      · exact h.faithful r l' (.inl hm)
  | array a els =>
    unfold receiveMessage
    dsimp only
    split
    · exact h₁
    · refine ⟨h₁.wf, h₁.named, h₁.fetched, fun r' b els' hb => ?_, h₁.faithful⟩
      obtain hb | hb := hb
      · exact h₁.replica r' b els' (.inl hb)
      · dsimp only at hb
        by_cases hr : r' = r
        · subst hr
          rw [Function.update_self] at hb
          by_cases hba : b = a
          · subst hba
            rw [Function.update_self] at hb
            cases hb
            exact h.replica r' b els (.inl hm)
          · rw [Function.update_of_ne hba] at hb
            exact h₁.replica r' b els' (.inr hb)
        · rw [Function.update_of_ne hr] at hb
          exact h₁.replica r' b els' (.inr hb)

theorem Inv.fetch {r : Nat} {f : Call} (h : Inv n) (hf : f ∈ n.frames r) :
    Inv { n with fetches := Function.update n.fetches r (n.fetches r ++ [f.arr]) } := by
  have hnamed := h.named r f (.inr hf)
  refine ⟨h.wf, h.named, fun r' a ha => ?_, h.replica, h.faithful⟩
  obtain ha | rfl := mem_update_append ha
  · exact h.fetched r' a ha
  · exact ⟨hnamed.lt, hnamed.ok⟩

/-- `write_array` for a FETCH: the array is shared from now on. -/
theorem Inv.serve {r a : Nat} {rest : List Nat} (h : Inv n) (hfe : n.fetches r = a :: rest) :
    Inv { n with
      store := setMultiref a n.store
      fetches := Function.update n.fetches r rest
      channel := Function.update n.channel r
        (n.channel r ++ [.array a (n.store.arrays a).elements]) } := by
  have hmem : a ∈ n.fetches r := by
    rw [hfe]
    exact List.mem_cons_self
  obtain ⟨hlt, hok⟩ := h.fetched r a hmem
  have hk := keeps_setMultiref h.wf a
  have h₁ : Inv { n with store := setMultiref a n.store } :=
    h.follows (follows_setMultiref h.wf a)
  have hrep : Replica (setMultiref a n.store) a (n.store.arrays a).elements := by
    refine ⟨hlt, setMultiref_self a, hk.elementsOk hok, ?_, ?_⟩
    · rw [setMultiref_elements]
      exact hk.elementsOk hok
    · rw [setMultiref_elements]
  have h₂ := h₁.sends r (m := .array a (n.store.arrays a).elements) hrep
  refine ⟨h₂.wf, h₂.named, fun r' b hb => ?_, h₂.replica, h₂.faithful⟩
  refine h₂.fetched r' b (mem_of_mem_update (fun y hy => ?_) hb)
  change y ∈ n.fetches r
  rw [hfe]
  exact List.mem_cons_of_mem a hy

theorem Inv.build {r : Nat} {f : Call} {els : Elements} {l : Copy} (h : Inv n)
    (hf : f ∈ n.frames r) (hels : n.replicas r f.arr = some els)
    (hrun : bBuildarray f els = some l) :
    Inv { n with
      frames := Function.update n.frames r ((n.frames r).erase f)
      lists := Function.update n.lists r (n.lists r ++ [l]) } := by
  have hrep := h.replica r f.arr els (.inr hels)
  refine ⟨h.wf, fun r' f' hf' => ?_, h.fetched, h.replica, fun r' l' hl => ?_⟩
  · exact h.named r' f' (hf'.imp_right (mem_of_mem_update fun y hy => List.mem_of_mem_erase hy))
  · obtain hl | hl := hl
    · exact h.faithful r' l' (.inl hl)
    · obtain hl | rfl := mem_update_append hl
      · exact h.faithful r' l' (.inr hl)
      · unfold bBuildarray at hrun
        split at hrun
        · cases hrun
          exact (h.named r f (.inr hf)).faithful hrep.ok hrep.items
        · cases hrun

/-- One step keeps the invariant. -/
theorem Inv.step {misread : Store → Data → Nat → Pntr} {e : Event} (h : Inv n) (hc : Careful n e)
    (hs : Step misread n e n') : Inv n' := by
  obtain ⟨hen, fuel, hrun⟩ := hs
  cases e with
  | expand p =>
    obtain ⟨s₁, h₁, h₂⟩ := Option.bind_eq_some_iff.mp hrun
    cases h₂
    exact (h.expand misread hen hc h₁).1
  | result c q =>
    rw [Lists.step] at hrun
    split at hrun
    · next hcond =>
      cases hrun
      exact h.result hen.1 hen.2 hcond.1 hcond.2
    · cases hrun
  | newCons x t =>
    cases hrun
    exact h.follows (follows_allocCell h.wf hen)
  | newArray arr t =>
    cases hrun
    exact h.follows (follows_newArray h.wf hen.1 hen.2.2)
  | share p rest =>
    obtain ⟨s₁, h₁, h₂⟩ := Option.bind_eq_some_iff.mp hrun
    cases h₂
    exact h.share hen.1 hen.2 h₁
  | send r p =>
    obtain ⟨s₁, h₁, h₂⟩ := Option.bind_eq_some_iff.mp hrun
    obtain ⟨⟨m, s₂⟩, h₃, h₄⟩ := Option.bind_eq_some_iff.mp h₂
    cases h₄
    obtain ⟨hinv, hp⟩ := h.expand misread hen hc h₁
    exact hinv.writeAref hp r h₃
  | receive r =>
    rw [Lists.step] at hrun
    split at hrun
    · cases hrun
    · next m rest hch =>
      cases hrun
      exact h.receive hch
  | fetch r f =>
    rw [Lists.step] at hrun
    split at hrun
    · next hcond =>
      cases hrun
      exact h.fetch hcond.1
    · cases hrun
  | serve r =>
    rw [Lists.step] at hrun
    split at hrun
    · cases hrun
    · next a rest hfe =>
      cases hrun
      exact h.serve hfe
  | build r f =>
    rw [Lists.step] at hrun
    split at hrun
    · next hf =>
      obtain ⟨els, h₁, h₂⟩ := Option.bind_eq_some_iff.mp hrun
      obtain ⟨l, h₃, h₄⟩ := Option.bind_eq_some_iff.mp h₂
      cases h₄
      exact h.build hf h₁ h₃
    · cases hrun

theorem Start.inv (h : Start n) : Inv n where
  wf := h.wf
  named r f hf := by simp [h.channel r, h.frames r] at hf
  fetched r a ha := by simp [h.fetches r] at ha
  replica r a els ha := by simp [h.channel r, h.replicas r a] at ha
  faithful r l hl := by simp [h.channel r, h.lists r] at hl

/-- In every run whose calls of `maybe_expand_array` are careful, the lists that the receivers have are
those of the owner. -/
theorem sound_of_careful {misread : Store → Data → Nat → Pntr} (hstart : Start n)
    (hrun : Relation.ReflTransGen (fun m m' => ∃ e, Careful m e ∧ Step misread m e m') n n') :
    Sound n' := by
  have hinv : Inv n' := by
    induction hrun with
    | refl => exact hstart.inv
    | tail _ hs ih =>
      obtain ⟨e, hc, hs⟩ := hs
      exact ih.step hc hs
  exact fun r l hl => (hinv.faithful r l (.inr hl)).denote

/-! ## A list whose tail is known late -/

/-- An array with the elements `l` and room for more, and as the tail a frame that runs. -/
def lateTail (l : List Pntr) : Store where
  nodes
    | 1 => .aref 0 (.obj 2 0)
    | 2 => .frame
    | _ => .nil
  ncells := 3
  arrays _ := ⟨sizereq 2048 .pntr, 2048, false, 0, .pntrs l⟩
  narrays := 1
  globnilpntr := .obj 0 0

section

variable (misread : Store → Data → Nat → Pntr) (l : List Pntr)

/-- The frame has returned a CONS cell. -/
def knownTail (l : List Pntr) : Store :=
  setResult 2 (.obj 3 0) ((lateTail l).allocCell (.cons (.obj 0 0) (.obj 0 0))).2

theorem maybeExpandArray_lateTail (hl : l.length < maxArraySize) :
    maybeExpandArray misread 1 (.obj 1 0) (lateTail l) = some (lateTail l) := by
  have hm : l.length ≠ maxArraySize := hl.ne
  simp [maybeExpandArray, consToArray, lateTail, node, aref, arefResolveTail, isInd, expandTail, expandPntrs,
    checkArrayConvert, isFrame, Elements.width, Carray.size, Elements.size, hl, hm]


/-- The list after the call: the element of the CONS cell is in the array, where the array was. -/
def absorbed (l : List Pntr) : Store :=
  (((knownTail l).setNode 1 (.aref 0 (.obj 3 0))).setArray 0
    ⟨sizereq 2048 .pntr, 2048, false, 0, .pntrs (l ++ [.obj 0 0])⟩).setNode 1 (.aref 0 (.obj 0 0))

theorem carrayAppend_knownTail (hl : l.length + 1 ≤ 2048) :
    carrayAppend misread 1 ⟨.value (.obj 0 0), 0⟩ 1 .pntr ((knownTail l).setNode 1 (.aref 0 (.obj 3 0))) = some (1,
      ((knownTail l).setNode 1 (.aref 0 (.obj 3 0))).setArray 0
    ⟨sizereq 2048 .pntr, 2048, false, 0, .pntrs (l ++ [.obj 0 0])⟩) := by
  let s := (knownTail l).setNode 1 (.aref 0 (.obj 3 0))
  change carrayAppend misread 1 _ 1 .pntr s = _
  have h1 : s.aref 1 = some (0, .obj 3 0) := rfl
  have harr : s.arrays 0 = ⟨sizereq 2048 .pntr, 2048, false, 0, .pntrs l⟩ := rfl
  have hcount : appendCount (s.arrays 0).size 1 = 1 := by
    rw [appendCount, if_neg]
    rw [harr, Carray.size, Elements.size]
    unfold maxArraySize
    omega
  have hroom : makeRoom 1 ((s.arrays 0).size + 1) s = some s := by
    have hlt : ¬ (s.arrays 0).alloc < (s.arrays 0).size + 1 := by
      rw [harr, Carray.size, Elements.size]
      exact Nat.not_lt.mpr hl
    rw [makeRoom, h1, Option.bind_eq_bind, Option.bind_some]
    dsimp only
    rw [if_neg hlt]
    rfl
  have hread : readData misread s ⟨.value (.obj 0 0), 0⟩ .pntr 1 = some (.pntrs [.obj 0 0]) := rfl
  have happ : (s.arrays 0).elements.append (.pntrs [.obj 0 0]) = some (.pntrs (l ++ [.obj 0 0])) := rfl
  have hok : (s.arrays 0).elements.width = .pntr ∧ (s.arrays 0).multiref = false := ⟨rfl, rfl⟩
  rw [carrayAppend, h1, Option.bind_eq_bind, Option.bind_some]
  dsimp only
  rw [if_pos hok, appendFrom, h1, Option.bind_eq_bind, Option.bind_some]
  dsimp only
  rw [hcount, hroom, Option.bind_eq_bind, Option.bind_some, h1, Option.bind_some]
  dsimp only
  rw [hread]
  rfl

theorem expandPntrs_knownTail (hl : l.length + 1 ≤ 2048) :
   expandPntrs misread 0 2 1 ((knownTail l).setNode 1 (.aref 0 (.obj 3 0))) = some (1, absorbed l) := by
  have hm : l.length < maxArraySize := by unfold maxArraySize; omega
  have hm' : l.length + 1 < maxArraySize := by unfold maxArraySize; omega
  have h3 : ((knownTail l).setNode 1 (.aref 0 (.obj 3 0))).node (.obj 3 0) = some (.cons (.obj 0 0) (.obj 0 0)) := rfl
  have h1 : ((knownTail l).setNode 1 (.aref 0 (.obj 3 0))).aref 1 = some (0, .obj 3 0) := rfl
  have h0 : ((knownTail l).setNode 1 (.aref 0 (.obj 3 0))).resolvePntr (.obj 0 0) = some (.obj 0 0) := rfl
  have h1' : (absorbed l).aref 1 = some (0, .obj 0 0) := rfl
  have h0' : (absorbed l).node (.obj 0 0) = some .nil := rfl
  have hs : (((knownTail l).setNode 1 (.aref 0 (.obj 3 0))).arrays 0).size = l.length := rfl
  have hs' : ((absorbed l).arrays 0).size = (l ++ [Pntr.obj 0 0]).length := rfl
  rw [expandPntrs, hs, if_pos hm, h1, Option.bind_eq_bind, Option.bind_some]
  dsimp only
  rw [h3]
  dsimp only
  rw [h0, Option.bind_eq_bind, Option.bind_some, carrayAppend_knownTail misread l hl,
    Option.bind_eq_bind, Option.bind_some]
  change expandPntrs misread 0 1 1 (absorbed l) = _
  rw [expandPntrs, hs', List.length_append, List.length_singleton, if_pos hm', h1', Option.bind_eq_bind, Option.bind_some]
  dsimp only
  rw [h0']
  rfl

theorem checkArrayConvert_absorbed (hl : l.length + 1 ≤ 2048) (h0 : l.head? = some (.obj 0 0)) :
    checkArrayConvert 1 (absorbed l) = some (absorbed l) := by
  have h1 : (absorbed l).aref 1 = some (0, .obj 0 0) := rfl
  have hm : ((absorbed l).arrays 0).multiref = false := rfl
  have ht : arefResolveTail 1 (absorbed l) = some (absorbed l) := rfl
  have hw : ((absorbed l).arrays 0).elements = .pntrs (l ++ [.obj 0 0]) := rfl
  have hs : ((absorbed l).arrays 0).size = l.length + 1 := by rw [Carray.size, hw]; simp [Elements.size]
  have hn : ((absorbed l).arrays 0).nchars = 0 := rfl
  have hf : (absorbed l).isFrame (.obj 0 0) = false := rfl
  have he : (l ++ [Pntr.obj 0 0])[0]? = some (.obj 0 0) := by
    cases l with
    | nil => rfl
    | cons x l => exact h0
  have hi : (absorbed l).isInd (.obj 0 0) = false := rfl
  have hres : arefResolveElement 1 0 (absorbed l) = some (absorbed l) := by
    simp only [arefResolveElement, h1, hw, he, hi, Option.bind_eq_bind, Option.bind_some]
    rfl
  have hcount : countChars 1 0 (l.length + 1) (absorbed l) = some (absorbed l) := by
    simp only [countChars, hn, hs, Nat.succ_pos, if_true, hres, hw, he, Option.bind_eq_bind, Option.bind_some]
    rfl
  simp only [checkArrayConvert, h1, hm, ht, hf, hs, hcount, hn, Option.bind_eq_bind, Option.bind_some]
  simp [hw, Elements.width]

theorem maybeExpandArray_knownTail (hl : l.length + 1 ≤ 2048) (h0 : l.head? = some (.obj 0 0)) :
    maybeExpandArray misread 2 (.obj 1 0) (knownTail l) = some (absorbed l) := by
  have h1 : consToArray (.obj 1 0) (knownTail l) = some (knownTail l) := rfl
  have h2 : (knownTail l).node (.obj 1 0) = some (.aref 0 (.obj 2 0)) := rfl
  have h3 : arefResolveTail 1 (knownTail l) = some ((knownTail l).setNode 1 (.aref 0 (.obj 3 0))) := rfl
  have h4 : expandTail misread 0 2 1 ((knownTail l).setNode 1 (.aref 0 (.obj 3 0))) = some (1, absorbed l) :=
    expandPntrs_knownTail misread l hl
  have h5 : ((knownTail l).arrays 0).multiref = false := rfl
  rw [maybeExpandArray, h1, Option.bind_eq_bind, Option.bind_some, h2]
  dsimp only
  rw [h5, h3]
  simp only [Option.bind_eq_bind, Option.bind_some, h4, checkArrayConvert_absorbed l hl h0]
  rfl

/-- The receiver of a frame asks for the array, gets it and runs the frame. -/
theorem exists_collect {n : Net} {r : Nat} {f : Call} (hch : n.channel r = [.frame f])
    (hfe : n.fetches r = []) (hfr : n.frames r = []) (hrep : n.replicas r f.arr = none)
    (hli : n.lists r = []) (hi : f.index < (n.store.arrays f.arr).size) :
    ∃ n', Relation.ReflTransGen (fun m m' => ∃ e, Careful m e ∧ Step misread m e m') n n' ∧
      n'.store = setMultiref f.arr n.store ∧
      n'.lists r = [⟨f.list, (n.store.arrays f.arr).elements, f.index, f.tail⟩] := by
  let els := (n.store.arrays f.arr).elements
  let n₁ := { n with
    channel := Function.update n.channel r []
    frames := Function.update n.frames r [f] }
  let n₂ := { n₁ with fetches := Function.update n.fetches r [f.arr] }
  let n₃ := { n₁ with
    store := setMultiref f.arr n.store
    fetches := Function.update n₂.fetches r []
    channel := Function.update n₁.channel r [.array f.arr els] }
  let n₄ := { n₃ with
    channel := Function.update n₃.channel r []
    replicas := Function.update n.replicas r (Function.update (n.replicas r) f.arr (some els)) }
  let n₅ := { n₄ with
    frames := Function.update n₁.frames r []
    lists := Function.update n.lists r [⟨f.list, els, f.index, f.tail⟩] }
  have h₁ : step misread 0 n (.receive r) = some n₁ := by
    simp [step, hch, receiveMessage, hfr, n₁]
  have h₂ : step misread 0 n₁ (.fetch r f) = some n₂ := by
    simp [step, n₁, n₂, hrep, hfe]
  have h₃ : step misread 0 n₂ (.serve r) = some n₃ := by
    simp [step, n₁, n₂, n₃, writeArray, els]
  have h₄ : step misread 0 n₃ (.receive r) = some n₄ := by
    simp [step, n₁, n₃, n₄, receiveMessage, hrep]
  have h₅ : step misread 0 n₄ (.build r f) = some n₅ := by
    have hb : bBuildarray f els = some ⟨f.list, els, f.index, f.tail⟩ := if_pos hi
    simp [step, n₁, n₃, n₄, n₅, hb, hli]
  refine ⟨n₅, ?_, rfl, Function.update_self ..⟩
  have hrun := Relation.ReflTransGen.single (r := fun m m' => ∃ e, Careful m e ∧ Step misread m e m')
    ⟨.receive r, trivial, trivial, 0, h₁⟩
  have hrun := hrun.tail ⟨.fetch r f, trivial, trivial, 0, h₂⟩
  have hrun := hrun.tail ⟨.serve r, trivial, trivial, 0, h₃⟩
  have hrun := hrun.tail ⟨.receive r, trivial, trivial, 0, h₄⟩
  exact hrun.tail ⟨.build r f, trivial, trivial, 0, h₅⟩

/-- An owner with the store `s`, before anything has been sent. -/
def Net.initial (s : Store) : Net where
  store := s
  channel _ := []
  fetches _ := []
  frames _ := []
  replicas _ _ := none
  lists _ := []

theorem start_initial {s : Store} (hw : s.Wf) : Start (.initial s) :=
  ⟨hw, fun _ => rfl, fun _ => rfl, fun _ => rfl, fun _ _ => rfl, fun _ => rfl⟩

theorem lateTail_wf {l : List Pntr} (hl : l.length ≤ 2048)
    (hnil : ∀ e ∈ l, e = .obj 0 0) : (lateTail l).Wf := by
  have hv : (lateTail l).Valid (.obj 0 0) := ⟨Nat.succ_pos 2, rfl⟩
  have hcases : ∀ c, (lateTail l).nodes c = .nil ∨ (lateTail l).nodes c = .frame ∨
      (c = 1 ∧ (lateTail l).nodes c = .aref 0 (.obj 2 0)) := by
    intro c
    match c with
    | 0 => exact .inl rfl
    | 1 => exact .inr (.inr ⟨rfl, rfl⟩)
    | 2 => exact .inr (.inl rfl)
    | _ + 3 => exact .inl rfl
  refine ⟨?_, ?_, ?_, ?_, ?_, hv⟩
  · intro c h t _ hn
    obtain hc | hc | ⟨-, hc⟩ := hcases c
    all_goals
      rw [hc] at hn
      cases hn
  · intro c p _ hn
    obtain hc | hc | ⟨-, hc⟩ := hcases c
    all_goals
      rw [hc] at hn
      cases hn
  · intro c a t _ hn
    obtain hc | hc | ⟨-, hc⟩ := hcases c
    · rw [hc] at hn
      cases hn
    · rw [hc] at hn
      cases hn
    · rw [hc] at hn
      cases hn
      refine ⟨Nat.one_pos, ⟨Nat.lt_succ_self 2, rfl⟩, ?_, (by decide : 0 < 2048), hl, ?_, ?_, ?_⟩
      · exact hl.trans (by decide)
      · rintro _ ⟨⟩ e he
        rw [hnil e he]
        exact hv
      · exact fun _ _ => Nat.zero_le _
      · intro l' _ e he
        simp [lateTail] at he
  · intro c c' a t t' _ _ hn hn' _
    obtain hc | hc | ⟨rfl, hc⟩ := hcases c
    · rw [hc] at hn
      cases hn
    · rw [hc] at hn
      cases hn
    · obtain hc' | hc' | ⟨rfl, -⟩ := hcases c'
      · rw [hc'] at hn'
        cases hn'
      · rw [hc'] at hn'
        cases hn'
      · rfl
  · intro p _
    cases p with
    | num d => exact ⟨_, rfl⟩
    | obj c i =>
      refine ⟨.obj c i, ?_⟩
      rw [Store.resolvePntr, Store.resolveFrom]
      obtain hc | hc | ⟨-, hc⟩ := hcases c
      all_goals rw [hc]

theorem send_lateTail (hl : buildarrayThreshold ≤ l.length) (hlt : l.length < maxArraySize) :
    step misread 1 (.initial (lateTail l)) (.send 0 (.obj 1 0)) =
      some { Net.initial (lateTail l) with
        channel := Function.update (fun _ => []) 0 [.frame ⟨.obj 1 0, 0, 0, .obj 2 0⟩] } := by
  have hrun := maybeExpandArray_lateTail misread l hlt
  have hwrite : writeAref (.obj 1 0) (lateTail l) =
      some (.frame ⟨.obj 1 0, 0, 0, .obj 2 0⟩, lateTail l) := if_pos hl
  simp only [step, Net.initial, hrun, hwrite, Option.bind_eq_bind, Option.bind_some]
  rfl

theorem carefulCall_lateTail (l : List Pntr) : CarefulCall (.initial (lateTail l)) (.obj 1 0) := by
  refine ⟨fun _ => ?_, ?_⟩
  · apply Settles.ends
    have htail : (lateTail l).target (.obj 2 0) = .obj 2 0 := rfl
    refine ⟨fun i hi => ?_, fun xs t' htake => ?_⟩
    · have hi : Pntr.obj 2 0 = .obj 1 i := hi
      cases hi
    · generalize hw : Width.pntr = w at htake
      change Takes _ w (.obj 2 0) xs t' at htake
      cases htake with
      | cons hn => cases hn
      | aref hn => cases hn
  · rintro c i a t - - - (⟨r, f, hf | hf, -⟩ | ⟨r, hr⟩)
    · cases hf
    · cases hf
    · cases hr

/-- A list of 1024 elements, sent while its tail is computed. The receiver gets it as it is. -/
theorem sound_of_careful_late :
    ∃ n', Relation.ReflTransGen
        (fun m m' => ∃ e, Careful m e ∧ Step (fun _ _ _ => .num 0) m e m')
        (.initial (lateTail (List.replicate 1024 (.obj 0 0)))) n' ∧
      n'.lists 0 ≠ [] ∧ Sound n' := by
  let l : List Pntr := List.replicate 1024 (.obj 0 0)
  have hlen : l.length = 1024 := List.length_replicate
  have hpos : 0 < l.length := by omega
  have hw : (lateTail l).Wf := lateTail_wf (by omega) (fun e he => List.eq_of_mem_replicate he)
  let f : Call := ⟨.obj 1 0, 0, 0, .obj 2 0⟩
  let n₀ := { Net.initial (lateTail l) with channel := Function.update (fun _ => []) 0 [.frame f] }
  have hsend : step (fun _ _ _ => .num 0) 1 (.initial (lateTail l)) (.send 0 (.obj 1 0)) = some n₀ :=
    send_lateTail _ l (le_of_eq hlen.symm) (by rw [hlen]; decide)
  have hch : n₀.channel 0 = [.frame f] := rfl
  obtain ⟨n', hrun, -, hlists⟩ := exists_collect (fun _ _ _ => .num 0) hch rfl rfl rfl rfl hpos
  have hp : (lateTail l).Valid (.obj 1 0) := ⟨Nat.succ_lt_succ (Nat.succ_pos 1), hpos⟩
  have hfirst : ∃ e, Careful (.initial (lateTail l)) e ∧
      Step (fun _ _ _ => .num 0) (.initial (lateTail l)) e n₀ :=
    ⟨.send 0 (.obj 1 0), carefulCall_lateTail l, hp, 1, hsend⟩
  have hrun' := hrun.head hfirst
  refine ⟨n', hrun', ?_, sound_of_careful (start_initial hw) hrun'⟩
  rw [hlists]
  exact List.cons_ne_nil _ _

/-- The element of the CONS cell is in the array, and again behind it. -/
theorem denote_absorbed_ne (l : List Pntr) :
    (setMultiref 0 (absorbed l)).denote (.obj 1 0) ≠
      prepend (((setMultiref 0 (absorbed l)).items ((absorbed l).arrays 0).elements).drop 0)
        ((setMultiref 0 (absorbed l)).denote (.obj 2 0)) := by
  intro h
  let s := setMultiref 0 (absorbed l)
  have hn : s.nodes 1 = .aref 0 (.obj 0 0) := rfl
  have hels : (s.arrays 0).elements = ((absorbed l).arrays 0).elements := setMultiref_elements 0 0
  have hsize : 0 < (s.arrays 0).size := by
    rw [Carray.size, hels]
    change 0 < (l ++ [Pntr.obj 0 0]).length
    rw [List.length_append]
    exact Nat.succ_pos _
  have h3 : s.nodes 3 = .cons (.obj 0 0) (.obj 0 0) := rfl
  have h23 : s.denote (.obj 2 0) = s.denote (.obj 3 0) := denote_congr rfl
  have h0 : s.move (.obj 0 0) = .done (.obj 0 0) := rfl
  rw [denote_aref hn hsize, hels] at h
  have hend : s.denote (.obj 0 0) = s.denote (.obj 2 0) := prepend_injective _ h
  rw [h23, denote_cons h3, denote, Logic.unfold_done h0] at hend
  cases (Stream'.Seq.cons_injective2 hend).1

/-- The owner takes the CONS cell into the array after it has sent the frame. -/
theorem buildarray_absorbed :
    ∃ n n', Start n ∧
      Relation.ReflTransGen (fun m m' => ∃ e, Step (fun _ _ _ => .num 0) m e m') n n' ∧
      ¬ Sound n' := by
  let misread : Store → Data → Nat → Pntr := fun _ _ _ => .num 0
  let l : List Pntr := List.replicate 1024 (.obj 0 0)
  have hlen : l.length = 1024 := List.length_replicate
  have hpos : 0 < l.length := by omega
  have hw : (lateTail l).Wf := lateTail_wf (by omega) (fun e he => List.eq_of_mem_replicate he)
  let f : Call := ⟨.obj 1 0, 0, 0, .obj 2 0⟩
  let n₀ := { Net.initial (lateTail l) with channel := Function.update (fun _ => []) 0 [.frame f] }
  have hsend : step misread 1 (.initial (lateTail l)) (.send 0 (.obj 1 0)) = some n₀ :=
    send_lateTail misread l (le_of_eq hlen.symm) (by rw [hlen]; decide)
  let n₁ := { n₀ with store := ((lateTail l).allocCell (.cons (.obj 0 0) (.obj 0 0))).2 }
  have hcons : step misread 0 n₀ (.newCons (.obj 0 0) (.obj 0 0)) = some n₁ := rfl
  let n₂ := { n₀ with store := knownTail l }
  have hresult : step misread 0 n₁ (.result 2 (.obj 3 0)) = some n₂ := by
    have ht : n₁.store.target (.obj 3 0) = .obj 3 0 := rfl
    rw [step, if_pos]
    · rfl
    · refine ⟨rfl, ?_⟩
      rw [ht]
      rintro ⟨⟩
  let n₃ := { n₀ with store := absorbed l }
  have hexp : step misread 2 n₂ (.expand (.obj 1 0)) = some n₃ := by
    have h := maybeExpandArray_knownTail misread l (by omega) rfl
    simp only [step, n₂, h, Option.bind_eq_bind, Option.bind_some]
    rfl
  have hsize : ((absorbed l).arrays 0).size = 1025 := by
    change (l ++ [Pntr.obj 0 0]).length = 1025
    rw [List.length_append, hlen, List.length_singleton]
  have hch : n₃.channel 0 = [.frame f] := rfl
  have hi : f.index < (n₃.store.arrays f.arr).size := by
    change 0 < ((absorbed l).arrays 0).size
    omega
  obtain ⟨n', hrun, hstore, hlists⟩ := exists_collect misread hch rfl rfl rfl rfl hi
  refine ⟨.initial (lateTail l), n', start_initial hw, ?_, fun hsound => ?_⟩
  · have hp : (lateTail l).Valid (.obj 1 0) := ⟨Nat.succ_lt_succ (Nat.succ_pos 1), hpos⟩
    have hnil : (lateTail l).Valid (.obj 0 0) := ⟨Nat.succ_pos 2, rfl⟩
    have hp₂ : (knownTail l).Valid (.obj 1 0) := ⟨Nat.succ_lt_succ (Nat.succ_pos 2), hpos⟩
    have hc₁ : 2 < n₁.store.ncells := Nat.lt_succ_of_lt (Nat.lt_succ_self 2)
    have hq₁ : n₁.store.Valid (.obj 3 0) := ⟨Nat.lt_succ_self 3, rfl⟩
    have hrun' : Relation.ReflTransGen (fun m m' => ∃ e, Step misread m e m') n₃ n' :=
      Relation.ReflTransGen.mono (fun m m' ⟨e, h⟩ => ⟨e, h.2⟩) n₃ n' hrun
    have h₃ : ∃ e, Step misread n₂ e n₃ := ⟨.expand (.obj 1 0), hp₂, 2, hexp⟩
    have h₂ : ∃ e, Step misread n₁ e n₂ := ⟨.result 2 (.obj 3 0), ⟨hc₁, hq₁⟩, 0, hresult⟩
    have h₁ : ∃ e, Step misread n₀ e n₁ := ⟨.newCons _ _, ⟨hnil, hnil⟩, 0, hcons⟩
    have h₀ : ∃ e, Step misread (.initial (lateTail l)) e n₀ := ⟨.send 0 (.obj 1 0), hp, 1, hsend⟩
    exact (((hrun'.head h₃).head h₂).head h₁).head h₀
  · have hlist := hsound 0 _ (hlists ▸ List.mem_singleton_self _)
    rw [hstore] at hlist
    exact denote_absorbed_ne l hlist
end

end Lists
end Runtime
end NReduce
