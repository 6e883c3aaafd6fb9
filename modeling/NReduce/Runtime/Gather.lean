import NReduce.Runtime.Append

/-!
# NReduce.Runtime.Gather

The chain of tails that `maybe_expand_array` follows, and its loop for arrays of pointers.

* `Settles`, `SettlesBytes`: the chain, followed in the store before the call.
* `Gathered`: the state of the loops.
* `expandPntrs_of_settles`: the loop ends and leaves the lists as they are, by induction on the chain.
-/

namespace NReduce
namespace Runtime
namespace Lists

open Store

def Elements.drop (i : Nat) : Elements → Elements
  | .bytes l => .bytes (l.drop i)
  | .pntrs l => .pntrs (l.drop i)

/-- What a list with elements of width `w` can take over from its tail `t`, and what is behind
that. -/
inductive Takes (s : Store) : Width → Pntr → Elements → Pntr → Prop
  | cons {d i : Nat} {h t : Pntr} : s.nodes d = .cons h t →
    Takes s .pntr (.obj d i) (.pntrs [s.target h]) (s.target t)
  | aref {d i a : Nat} {t : Pntr} : s.nodes d = .aref a t →
    Takes s (s.arrays a).elements.width (.obj d i) ((s.arrays a).elements.drop i) t

/-- A tail outside the cell `c` that the loop does not take over. -/
def Ends (s : Store) (c : Nat) (w : Width) (t : Pntr) : Prop :=
  (∀ i, t ≠ .obj c i) ∧ ∀ xs t', ¬ Takes s w t xs t'

/-- The way of the loop behind the full array of `c`. `conv` says that this array has been converted
to a string, `n` is the size of the last array. A part of the tail goes to the last array as a whole,
or to a new one when the last is full. -/
inductive Trails (s : Store) (c : Nat) (conv : Bool) : Nat → Pntr → Prop
  | ends {n : Nat} {t : Pntr} : Ends s c .pntr t → Trails s c conv n t
  | string {n i : Nat} : conv = true → Trails s c conv n (.obj c i)
  | take {n d i : Nat} {xs : Elements} {t' : Pntr} : d ≠ c → Takes s .pntr (.obj d i) xs t' →
    n + xs.size ≤ maxArraySize → Trails s c conv (n + xs.size) t' → Trails s c conv n (.obj d i)
  | chain {d i : Nat} {xs : Elements} {t' : Pntr} : d ≠ c → Takes s .pntr (.obj d i) xs t' →
    Trails s c conv xs.size t' → Trails s c conv maxArraySize (.obj d i)

/-- The way of the loop in the array of `c`: `es` is what has been gathered, `t` the tail. `room` is
the `alloc` of the array while it is still in its first object, of `nbytes` bytes; when it has moved,
the loop goes on also behind a full array. -/
inductive Settles (s : Store) (c nbytes : Nat) : Option Nat → List Pntr → Pntr → Prop
  | full {alloc : Nat} {es : List Pntr} {t : Pntr} : maxArraySize ≤ es.length →
    Settles s c nbytes (some alloc) es t
  | ends {room : Option Nat} {es : List Pntr} {t : Pntr} : Ends s c .pntr t →
    Settles s c nbytes room es t
  | take {room : Option Nat} {es xs : List Pntr} {d i : Nat} {t' : Pntr} : d ≠ c →
    Takes s .pntr (.obj d i) (.pntrs xs) t' → es.length + xs.length ≤ maxArraySize →
    Settles s c nbytes (room.bind (reserve nbytes .pntr · (es.length + xs.length))) (es ++ xs) t' →
    Settles s c nbytes room es (.obj d i)
  | own {room : Option Nat} {es : List Pntr} {i : Nat} :
    es.length + (es.length - i) ≤ maxArraySize →
    Settles s c nbytes (room.bind (reserve nbytes .pntr · (es.length + (es.length - i))))
      (es ++ es.drop i) (.obj c i) →
    Settles s c nbytes room es (.obj c i)
  | chain {es : List Pntr} {d i : Nat} {xs : Elements} {t' : Pntr} : d ≠ c →
    Takes s .pntr (.obj d i) xs t' → es.length = maxArraySize →
    Trails s c (es.all (fun e => pntrIsChar (s.target e))) xs.size t' →
    Settles s c nbytes none es (.obj d i)

/-- The way of the loop for a string. `seen` is the size that the loop compares with, `n` the size
of the array of `c`; they differ when the array has moved. -/
inductive SettlesBytes (s : Store) (c nbytes : Nat) : Option Nat → Nat → Nat → Pntr → Prop
  | ends {room : Option Nat} {seen n : Nat} {t : Pntr} : Ends s c .byte t →
    SettlesBytes s c nbytes room seen n t
  | large {room : Option Nat} {seen n d i : Nat} {xs : Elements} {t' : Pntr} : d ≠ c →
    Takes s .byte (.obj d i) xs t' → maxArraySize < seen + xs.size →
    SettlesBytes s c nbytes room seen n (.obj d i)
  | ownLarge {room : Option Nat} {seen n i : Nat} : maxArraySize < seen + (n - i) →
    SettlesBytes s c nbytes room seen n (.obj c i)
  | take {room room' : Option Nat} {seen n d i : Nat} {xs : Elements} {t' : Pntr} : d ≠ c →
    Takes s .byte (.obj d i) xs t' → seen + xs.size ≤ maxArraySize →
    room' = room.bind (reserve nbytes .byte · (min maxArraySize (n + xs.size))) →
    SettlesBytes s c nbytes room' (if room'.isSome then n + xs.size else seen)
      (min maxArraySize (n + xs.size)) t' →
    SettlesBytes s c nbytes room seen n (.obj d i)
  | own {room room' : Option Nat} {seen n i : Nat} : seen + (n - i) ≤ maxArraySize →
    room' = room.bind (reserve nbytes .byte · (min maxArraySize (n + (n - i)))) →
    SettlesBytes s c nbytes room' (if room'.isSome then n + (n - i) else seen)
      (min maxArraySize (n + (n - i))) (.obj c i) →
    SettlesBytes s c nbytes room seen n (.obj c i)

/-- The chain of tails behind the array `arr` of the cell `c` settles. -/
def SettledArray (s : Store) (c : Nat) (arr : Carray) (t : Pntr) : Prop :=
  match arr.elements with
  | .pntrs es => Settles s c arr.nbytes (some arr.alloc) es t
  | .bytes l => SettlesBytes s c arr.nbytes (some arr.alloc) l.length l.length t

/-- The array of case 1. -/
def pair (x y : Pntr) : Carray := ⟨sizereq 8 .pntr, 8, false, 0, .pntrs [x, y]⟩

/-- When a call with `p` settles. The second CONS cell of case 1 may be the first one again. -/
def Settled (s : Store) : Pntr → Prop
  | .num _ => True
  | .obj c _ =>
    match s.nodes c with
    | .cons h t =>
      match s.node (s.target t) with
      | some (.cons h' t') =>
        SettledArray s c (pair (s.target h) (s.target h')) (s.target t')
      | _ => True
    | .aref a t =>
      (s.arrays a).multiref = false → SettledArray s c (s.arrays a) (s.target t)
    | _ => True

/-! ## What the tail starts with -/

variable {s : Store} {c : Nat}

@[simp] theorem Elements.width_drop (i : Nat) (els : Elements) :
    (els.drop i).width = els.width := by
  cases els <;> rfl

@[simp] theorem Elements.size_drop (i : Nat) (els : Elements) :
    (els.drop i).size = els.size - i := by
  cases els <;> simp [Elements.drop, Elements.size]

theorem Store.items_drop (s : Store) (i : Nat) (els : Elements) :
    s.items (els.drop i) = (s.items els).drop i := by
  cases els <;> simp [Elements.drop, items]

theorem Store.ElementsOk.drop {els : Elements} (h : s.ElementsOk els) (i : Nat) :
    s.ElementsOk (els.drop i) := by
  intro l hl e he
  cases els with
  | bytes m => cases hl
  | pntrs m =>
    cases hl
    exact h m rfl e (List.mem_of_mem_drop he)

theorem Takes.width {w : Width} {t t' : Pntr} {xs : Elements} (h : Takes s w t xs t') :
    xs.width = w := by
  cases h with
  | cons hn => rfl
  | aref hn => exact Elements.width_drop _ _

/-- What is taken over, and what is behind it, are the list. -/
structure Taken (s : Store) (t : Pntr) (xs : Elements) (t' : Pntr) : Prop where
  pos : 0 < xs.size
  size_le : xs.size ≤ maxArraySize
  ok : s.ElementsOk xs
  tail : s.Valid t'
  denote : s.denote t = prepend (s.items xs) (s.denote t')

theorem Takes.taken (hw : s.Wf) {w : Width} {t t' : Pntr} {xs : Elements} (hv : s.Valid t)
    (h : Takes s w t xs t') : Taken s t xs t' := by
  cases h with
  | @cons d i hd tl hn =>
    obtain ⟨hvh, hvt⟩ := hw.cons d hd tl hv.1 hn
    refine ⟨Nat.one_pos, (by decide : 1 ≤ maxArraySize), ?_, hw.valid_target hvt, ?_⟩
    · rintro _ ⟨⟩ e he
      obtain rfl := List.mem_singleton.mp he
      exact hw.valid_target hvh
    · rw [denote_cons hn, hw.denote_target hvt]
      simp only [items, List.map_cons, List.map_nil, item_target hw hvh, prepend_cons, prepend_nil]
  | @aref d i a tl hn =>
    have hi : i < (s.arrays a).size := by
      have h2 := hv.2
      simpa only [hn] using h2
    obtain ⟨ha, hvt, hok⟩ := hw.aref d a t' hv.1 hn
    have hle := hok.size_le
    have hsz : ((s.arrays a).elements.drop i).size = (s.arrays a).size - i :=
      Elements.size_drop _ _
    refine ⟨by omega, by omega, ?_, hvt, ?_⟩
    · exact Store.ElementsOk.drop hok.elements i
    · rw [denote_aref hn hi, items_drop]

theorem Taken.keeps {σ : Store} {t t' : Pntr} {xs : Elements} (h : Taken s t xs t')
    (hk : Keeps s σ) (hv : s.Valid t) : Taken σ t xs t' where
  pos := h.pos
  size_le := h.size_le
  ok := hk.elementsOk h.ok
  tail := hk.valid t' h.tail
  denote := by rw [hk.denote t hv, h.denote, hk.items h.ok, hk.denote t' h.tail]

/-! ## The loops -/

/-- A state of the loops: `σ` comes from the store `s` of the call, the list has been gathered up to
the cell `r`, and its tail is a pointer of `s`. The array that the list started with is `a₀`. -/
structure Gathered (s : Store) (c a₀ : Nat) (σ : Store) (r a : Nat) (arr : Carray) (t : Pntr) :
    Prop where
  refers : σ.Refers r a arr t
  keeps : Keeps s σ
  changes : s.Changes σ c a₀
  cell : r = c ∨ s.ncells ≤ r
  array : a = a₀ ∨ s.narrays ≤ a
  tail : s.Valid t
  first : a₀ < σ.narrays

section

variable {a₀ r a : Nat} {σ σ' : Store} {arr : Carray} {t t' : Pntr}

theorem Gathered.absorb (h : Gathered s c a₀ σ r a arr t) {a' : Nat} {arr' : Carray}
    {els : Elements} (ht : s.Valid t') (hab : Absorbed σ σ' r a a' arr arr' t' els) :
    Gathered s c a₀ σ' r a' arr' t' where
  refers := hab.refers
  keeps := h.keeps.trans hab.keeps
  changes := h.changes.trans hab.changes h.cell h.array
  cell := h.cell
  array := by
    have h1 := h.changes.narrays_le
    have h2 := h.array
    have h3 := hab.moved.place
    omega
  tail := ht
  first := h.first.trans_le hab.changes.narrays_le

theorem Gathered.chain (h : Gathered s c a₀ σ r a arr t) {r' b : Nat} {arr₁ arr₂ : Carray}
    {new : Elements} (ht : s.Valid t') (hch : Chained σ σ' r a r' b arr arr₁ arr₂ t' new) :
    Gathered s c a₀ σ' r' b arr₂ t' where
  refers := hch.refers
  keeps := h.keeps.trans hch.keeps
  changes := h.changes.trans hch.changes h.cell h.array
  cell := .inr (h.changes.ncells_le.trans hch.new_cell)
  array := .inr (h.changes.narrays_le.trans hch.new_array)
  tail := ht
  first := h.first.trans_le hch.changes.narrays_le

/-- Cells of `s` other than `c` are not the one that gathers the list. -/
theorem Gathered.ne (h : Gathered s c a₀ σ r a arr t) {d : Nat} (hd : d < s.ncells) (hne : d ≠ c) :
    d ≠ r := by
  have hcell := h.cell
  omega

/-- Other cells of `s` and their arrays are as they were. -/
theorem Gathered.aref (h : Gathered s c a₀ σ r a arr t) (hw : s.Wf) (hown : s.Own c a₀) {d b : Nat}
    {tl : Pntr} (hd : d < s.ncells) (hne : d ≠ c) (hn : s.nodes d = .aref b tl) :
    σ.nodes d = .aref b tl ∧ σ.arrays b = s.arrays b ∧ b < σ.narrays ∧ b ≠ a := by
  have hb := (hw.aref d b tl hd hn).1
  have hb₀ : b ≠ a₀ := fun heq => hne (hown d tl hd (heq ▸ hn))
  have hnode : σ.nodes d = .aref b tl := (h.changes.nodes d hd hne).trans hn
  refine ⟨hnode, h.changes.arrays b hb hb₀, hb.trans_le h.changes.narrays_le, ?_⟩
  rintro rfl
  exact h.ne hd hne (h.refers.own d tl (hd.trans_le h.changes.ncells_le) hnode)

variable (misread : Store → Data → Nat → Pntr)

/-- Where `data` points when `xs` is appended. -/
structure Copies (σ : Store) (a : Nat) (data : Data) (w : Width) (xs : Elements) : Prop where
  reads : Reads misread σ data w xs
  /-- none of it is read in the first turn, when the array of the list is full -/
  none : Reads misread σ data w (.empty w)
  rest : ∀ els, ReadsRest misread σ a els data w xs

theorem copies_value (σ : Store) (a : Nat) (p : Pntr) :
    Copies misread σ a ⟨.value p, 0⟩ .pntr (.pntrs [p]) := by
  refine ⟨reads_value misread σ p, fun _ _ => ?_, fun _ _ _ _ => ?_⟩
  · simp [readData, Elements.size, Elements.empty]
  · simp [readData, Elements.size]

theorem copies_pntrs {b i : Nat} (hb : b < σ.narrays) (hba : b ≠ a) {l : List Pntr}
    (hl : (σ.arrays b).elements = .pntrs l) (hi : i ≤ l.length) :
    Copies misread σ a ⟨.array b, 8 * i⟩ .pntr (.pntrs (l.drop i)) := by
  have hoff : 8 * i / 8 = i := by omega
  have hle : i + (l.length - i) ≤ l.length := by omega
  have htake : (l.drop i).take (l.length - i) = l.drop i :=
    List.take_of_length_le (by rw [List.length_drop])
  refine ⟨reads_pntrs misread hb hl hi, fun s' hs' => ?_, fun _ s' hs' _ => ?_⟩
  · simp [readData, Elements.size, Elements.empty, hs' b hb, hl]
  · simp [readData, Elements.size, hs' b hb hba, hl, hoff, hle, htake]

theorem expandPntrs_cons {d i k : Nat} {h tl : Pntr} {r' : Nat} {σ₁ σ₂ : Store}
    (hsize : (σ.arrays a₀).size < maxArraySize) (ha : σ.aref r = some (a, .obj d i))
    (hn : σ.nodes d = .cons h tl) (hh : σ.resolvePntr h = some (s.target h))
    (happ : carrayAppend misread r ⟨.value (s.target h), 0⟩ 1 .pntr σ = some (r', σ₁))
    (ht : σ₁.resolvePntr tl = some t') (hset : arefSetTail r' t' σ₁ = some σ₂) :
    expandPntrs misread a₀ (k + 1) r σ = expandPntrs misread a₀ k r' σ₂ := by
  rw [expandPntrs]
  simp only [if_pos hsize, ha, Option.bind_eq_bind, Option.bind_some, node, hn, hh, happ, ht, hset]

theorem expandPntrs_aref {d i b k : Nat} {r' : Nat} {σ₁ σ₂ : Store}
    (hsize : (σ.arrays a₀).size < maxArraySize) (ha : σ.aref r = some (a, .obj d i))
    (hn : σ.nodes d = .aref b t') (hw : (σ.arrays b).elements.width = .pntr)
    (happ : carrayAppend misread r ⟨.array b, 8 * i⟩ ((σ.arrays b).size - i) .pntr σ =
      some (r', σ₁))
    (hset : arefSetTail r' t' σ₁ = some σ₂) :
    expandPntrs misread a₀ (k + 1) r σ = expandPntrs misread a₀ k r' σ₂ := by
  rw [expandPntrs]
  simp only [if_pos hsize, ha, Option.bind_eq_bind, Option.bind_some, node, hn, hw, if_true, happ,
    hset]

/-- A turn of the loop that takes over `xs`, however `carray_append` places it. -/
theorem Gathered.turn (h : Gathered s c a₀ σ r a arr t) (hw : s.Wf) (hown : s.Own c a₀)
    (hsize : (σ.arrays a₀).size < maxArraySize) {d i : Nat} (ht : t = .obj d i) (hne : d ≠ c)
    {xs : Elements} (htake : Takes s .pntr t xs t') :
    ∃ data, Copies misread σ a data .pntr xs ∧ ∀ k r' σ₁ σ₂,
      carrayAppend misread r data xs.size .pntr σ = some (r', σ₁) →
      (∀ p, σ.Valid p → σ₁.resolvePntr p = some (σ.target p)) →
      arefSetTail r' t' σ₁ = some σ₂ →
      expandPntrs misread a₀ (k + 1) r σ = expandPntrs misread a₀ k r' σ₂ := by
  subst ht
  have hv := h.tail
  have haref := h.refers.aref
  generalize hwid : Width.pntr = w at htake
  generalize hp : Pntr.obj d i = p at htake
  cases htake with
  | @cons d' i' hd tl hn =>
    cases hp
    obtain ⟨hvh, hvt⟩ := hw.cons d hd tl hv.1 hn
    have hn' := (h.changes.nodes d hv.1 hne).trans hn
    have hh : σ.resolvePntr hd = some (s.target hd) := by
      rw [h.keeps.wf.resolve (h.keeps.valid hd hvh), h.keeps.target hd hvh]
    refine ⟨⟨.value (s.target hd), 0⟩, copies_value misread σ a (s.target hd), ?_⟩
    intro k r' σ₁ σ₂ happ hres hset
    have htl : σ₁.resolvePntr tl = some (s.target tl) := by
      rw [hres tl (h.keeps.valid tl hvt), h.keeps.target tl hvt]
    exact expandPntrs_cons misread hsize haref hn' hh happ htl hset
  | @aref d' i' b tl hn =>
    cases hp
    obtain ⟨hn', harr, hb, hba⟩ := h.aref hw hown hv.1 hne hn
    have hi : i < (s.arrays b).size := by
      have h2 := hv.2
      simpa only [hn] using h2
    cases hl : (s.arrays b).elements with
    | bytes l =>
      rw [hl] at hwid
      cases hwid
    | pntrs l =>
      have hl' : (σ.arrays b).elements = .pntrs l := by rw [harr, hl]
      have hi' : i ≤ l.length := by
        rw [Carray.size, hl] at hi
        exact hi.le
      refine ⟨⟨.array b, 8 * i⟩, copies_pntrs misread hb hba hl' hi', ?_⟩
      intro k r' σ₁ σ₂ happ _ hset
      have hsz : (Elements.drop i (.pntrs l)).size = (σ.arrays b).size - i := by
        rw [Elements.size_drop, Carray.size, hl']
      rw [hsz] at happ
      exact expandPntrs_aref misread hsize haref hn' (by rw [hl']; rfl) happ hset

/-- The tail is not taken over. -/
theorem Gathered.expandPntrs_ends (h : Gathered s c a₀ σ r a arr t) (hw : s.Wf)
    (hown : s.Own c a₀) (hends : Ends s c .pntr t) (k : Nat) :
    expandPntrs misread a₀ (k + 1) r σ = some (r, σ) := by
  rw [expandPntrs]
  split
  · simp only [h.refers.aref, Option.bind_eq_bind, Option.bind_some]
    cases t with
    | num d => rfl
    | obj d i =>
      have hne : d ≠ c := fun heq => hends.1 i (heq ▸ rfl)
      have hd := h.tail.1
      have hnode := h.changes.nodes d hd hne
      simp only [node]
      cases hn : s.nodes d with
      | cons hh tl => exact absurd (Takes.cons hn) (hends.2 _ _)
      | aref b tl =>
        obtain ⟨-, harr, -, -⟩ := h.aref hw hown hd hne hn
        have hwid : (s.arrays b).elements.width ≠ .pntr := by
          intro hwid
          have htake := Takes.aref (i := i) hn
          rw [hwid] at htake
          exact hends.2 _ _ htake
        simp only [hnode, hn, harr, if_neg hwid]
        rfl
      | _ =>
        rw [hnode, hn]
        rfl
  · rfl

/-- Where the array is, as `Settles` follows it. -/
def RoomAt (room : Option Nat) (nbytes a₀ a : Nat) (arr : Carray) : Prop :=
  match room with
  | some m => a = a₀ ∧ arr.alloc = m ∧ arr.nbytes = nbytes
  | none => a ≠ a₀

theorem RoomAt.absorb {room : Option Nat} {nbytes a' : Nat} {arr' : Carray} {els : Elements}
    (h : RoomAt room nbytes a₀ a arr) (hfirst : a₀ < σ.narrays)
    (hab : Absorbed σ σ' r a a' arr arr' t' els) :
    RoomAt (room.bind (reserve nbytes arr.elements.width · els.size)) nbytes a₀ a' arr' := by
  cases room with
  | none =>
    have hplace := hab.moved.place
    have hne : a ≠ a₀ := h
    simp only [Option.bind_none, RoomAt]
    omega
  | some m =>
    obtain ⟨rfl, rfl, rfl⟩ := h
    simp only [Option.bind_some]
    cases hr : reserve arr.nbytes arr.elements.width arr.alloc els.size with
    | some m' => exact hab.moved.in_place m' hr
    | none =>
      have hplace := (hab.moved.away hr).1
      simp only [RoomAt]
      omega

/-- The array that the list started with: it grows until the list moves away. -/
theorem RoomAt.first_absorb {room : Option Nat} {nbytes a' : Nat} {arr' : Carray} {els : Elements}
    (h : RoomAt room nbytes a₀ a arr) (hfirst : a₀ < σ.narrays) (harr : σ.arrays a = arr)
    (hab : Absorbed σ σ' r a a' arr arr' t' els) :
    (σ'.arrays a₀).elements =
      if (room.bind (reserve nbytes arr.elements.width · els.size)).isSome then els
      else (σ.arrays a₀).elements := by
  cases room with
  | none =>
    have hne : a₀ ≠ a := Ne.symm h
    simp [hab.changes.arrays a₀ hfirst hne]
  | some m =>
    obtain ⟨rfl, rfl, rfl⟩ := h
    obtain hr | ⟨m', hr⟩ :=
      Option.eq_none_or_eq_some (reserve arr.nbytes arr.elements.width arr.alloc els.size)
    · simp [hr, (hab.moved.away hr).2, harr]
    · obtain ⟨rfl, -, -⟩ := hab.moved.in_place m' hr
      simp [hr, hab.refers.array, hab.elements]

/-- The loop ends with enough turns, and the lists are as they were. If `still`, then the array that
the list started with has the elements `els`. -/
def Finishes (s : Store) (c a₀ : Nat) (still : Prop) (els : Elements)
    (run : Nat → Option (Nat × Store)) : Prop :=
  ∃ N r σ' a arr t, (∀ k ≥ N, run k = some (r, σ')) ∧ Gathered s c a₀ σ' r a arr t ∧
    (still → (σ'.arrays a₀).elements = els)

/-- The array that the list started with gets nothing in the next turn: there is nothing to take
over, or too much, or the array moves first. -/
def Still (s : Store) (c nbytes : Nat) (w : Width) (room : Option Nat) (n : Nat) (t : Pntr) : Prop :=
  (∀ xs t', Takes s w t xs t' → maxArraySize < n + xs.size ∨
    room.bind (reserve nbytes w · (n + xs.size)) = none) ∧
  ∀ i, t = .obj c i → maxArraySize < n + (n - i) ∨
    room.bind (reserve nbytes w · (n + (n - i))) = none

theorem still_none {nbytes n : Nat} {w : Width} : Still s c nbytes w none n t :=
  ⟨fun _ _ _ => .inr rfl, fun _ _ => .inr rfl⟩

theorem Gathered.finishes (h : Gathered s c a₀ σ r a arr t) {run : Nat → Option (Nat × Store)}
    (hrun : ∀ k, run (k + 1) = some (r, σ)) (still : Prop) :
    Finishes s c a₀ still (σ.arrays a₀).elements run := by
  refine ⟨1, r, σ, a, arr, t, fun k hk => ?_, h, fun _ => rfl⟩
  obtain ⟨j, rfl⟩ : ∃ j, k = j + 1 := ⟨k - 1, by omega⟩
  exact hrun j

theorem Finishes.turn {still still' : Prop} {els els' : Elements}
    {run run' : Nat → Option (Nat × Store)} (h : Finishes s c a₀ still' els' run')
    (hrun : ∀ k, run (k + 1) = run' k) (hstill : still → still' ∧ els' = els) :
    Finishes s c a₀ still els run := by
  obtain ⟨N, r, σ', a, arr, t, hN, hg, hels⟩ := h
  refine ⟨N + 1, r, σ', a, arr, t, fun k hk => ?_, hg, fun hs => ?_⟩
  · obtain ⟨j, rfl⟩ : ∃ j, k = j + 1 := ⟨k - 1, by omega⟩
    rw [hrun, hN j (by omega)]
  · obtain ⟨hs', rfl⟩ := hstill hs
    exact hels hs'

/-- One turn: the array of the list has got `xs`. -/
structure Turned (s : Store) (c a₀ nbytes : Nat) (σ σ₂ : Store) (r a a' : Nat) (arr arr' : Carray)
    (t' : Pntr) (room : Option Nat) (xs : Elements) : Prop where
  gathered : Gathered s c a₀ σ₂ r a' arr' t'
  changes : σ.Changes σ₂ r a
  elements : arr.elements.append xs = some arr'.elements
  width : arr'.elements.width = arr.elements.width
  size : arr'.size = arr.size + xs.size
  place : RoomAt (room.bind (reserve nbytes arr.elements.width · (arr.size + xs.size))) nbytes a₀ a'
    arr'
  first : (σ₂.arrays a₀).elements =
    if (room.bind (reserve nbytes arr.elements.width · (arr.size + xs.size))).isSome then
      arr'.elements
    else (σ.arrays a₀).elements

theorem Gathered.turned {nbytes a' : Nat} {room : Option Nat} {arr' : Carray} {xs els : Elements}
    (h : Gathered s c a₀ σ r a arr t) (hroom : RoomAt room nbytes a₀ a arr) (ht : s.Valid t')
    (hw : arr.elements.width = xs.width) (happ : arr.elements.append xs = some els)
    (hab : Absorbed σ σ' r a a' arr arr' t' els) :
    Turned s c a₀ nbytes σ σ' r a a' arr arr' t' room xs := by
  obtain ⟨els', happ', hwels, hsize, -⟩ := Elements.append_of_width xs hw
  obtain rfl : els' = els := by simpa [happ] using happ'.symm
  have hrm := hroom.absorb h.first hab
  have hfirst := hroom.first_absorb h.first h.refers.array hab
  rw [hsize] at hrm hfirst
  refine ⟨h.absorb ht hab, hab.changes, by rw [hab.elements, happ], by rw [hab.elements, hwels], ?_,
    hrm, ?_⟩
  · rw [Carray.size, hab.elements, hsize]
    rfl
  · rw [hab.elements]
    exact hfirst

/-- The list takes over what another cell of `s` starts with, and it fits. -/
theorem Gathered.take (h : Gathered s c a₀ σ r a arr t) (hw : s.Wf) (hown : s.Own c a₀)
    {nbytes : Nat} {room : Option Nat} (hroom : RoomAt room nbytes a₀ a arr)
    (hwid : arr.elements.width = .pntr) (hsize : (σ.arrays a₀).size < maxArraySize) {d i : Nat}
    (ht : t = .obj d i) (hne : d ≠ c) {xs : Elements} (htake : Takes s .pntr t xs t')
    (hfits : arr.size + xs.size ≤ maxArraySize) :
    ∃ σ₂ a' arr', (∀ k, expandPntrs misread a₀ (k + 1) r σ = expandPntrs misread a₀ k r σ₂) ∧
      Turned s c a₀ nbytes σ σ₂ r a a' arr arr' t' room xs := by
  obtain ⟨data, hcopies, hturn⟩ := h.turn misread hw hown hsize ht hne htake
  have htaken₀ := htake.taken hw h.tail
  have htaken := htaken₀.keeps h.keeps h.tail
  obtain ⟨σ₁, σ₂, a', arr', els, hrun, hset, hres, happ, hab⟩ := carrayAppend_fits misread h.refers
    xs hwid htake.width htaken.pos hfits hcopies.reads htaken.ok htaken.tail htaken.denote
  exact ⟨σ₂, a', arr', fun k => hturn k r σ₁ σ₂ hrun hres hset,
    h.turned hroom htaken₀.tail (hwid.trans htake.width.symm) happ hab⟩

/-- The array is full, so what the list takes over goes to a new cell. -/
theorem Gathered.takeChain (h : Gathered s c a₀ σ r a arr t) (hw : s.Wf) (hown : s.Own c a₀)
    (hwid : arr.elements.width = .pntr) (hsize : (σ.arrays a₀).size < maxArraySize) {d i : Nat}
    (ht : t = .obj d i) (hne : d ≠ c) {xs : Elements} (htake : Takes s .pntr t xs t')
    (hfull : arr.size = maxArraySize) :
    ∃ σ₂ r' b arr₁ arr₂,
      (∀ k, expandPntrs misread a₀ (k + 1) r σ = expandPntrs misread a₀ k r' σ₂) ∧
      Gathered s c a₀ σ₂ r' b arr₂ t' ∧ Chained σ σ₂ r a r' b arr arr₁ arr₂ t' xs := by
  obtain ⟨data, hcopies, hturn⟩ := h.turn misread hw hown hsize ht hne htake
  have htaken₀ := htake.taken hw h.tail
  have htaken := htaken₀.keeps h.keeps h.tail
  obtain ⟨σ₁, σ₂, r', b, arr₁, arr₂, hrun, hset, hres, hch⟩ := carrayAppend_splits misread
    h.refers data (.pntrs []) xs hwid rfl htake.width (by simpa [Elements.size] using hfull)
    htaken.pos htaken.size_le (.inl rfl) hcopies.none (fun els _ => hcopies.rest els) htaken.ok
    htaken.tail htaken.denote
  have hz : (Elements.pntrs []).size + xs.size = xs.size := Nat.zero_add _
  rw [hz] at hrun
  exact ⟨σ₂, r', b, arr₁, arr₂, fun k => hturn k r' σ₁ σ₂ hrun hres hset,
    h.chain htaken₀.tail hch, hch⟩

/-- The list takes over its own array again, as it is its own tail. -/
theorem Gathered.takeOwn {i : Nat} (h : Gathered s c a₀ σ c a arr (.obj c i)) {nbytes : Nat}
    {room : Option Nat} (hroom : RoomAt room nbytes a₀ a arr) {es : List Pntr}
    (hl : arr.elements = .pntrs es) (hsize : (σ.arrays a₀).size < maxArraySize)
    (hfits : es.length + (es.length - i) ≤ maxArraySize) :
    ∃ σ₂ a' arr', (∀ k, expandPntrs misread a₀ (k + 1) c σ = expandPntrs misread a₀ k c σ₂) ∧
      Turned s c a₀ nbytes σ σ₂ c a a' arr arr' (.obj c i) room (.pntrs (es.drop i)) := by
  have hi : i < es.length := by
    have h2 := (h.keeps.valid _ h.tail).2
    simp only [h.refers.node, h.refers.array, Carray.size, hl] at h2
    exact h2
  have hwid : arr.elements.width = .pntr := by
    rw [hl]
    rfl
  have hl' : (σ.arrays a).elements = .pntrs es := by rw [h.refers.array, hl]
  have htake := Takes.aref (i := i) h.refers.node
  rw [hl'] at htake
  have htaken := htake.taken h.keeps.wf h.refers.valid_tail
  have hdrop : (Elements.pntrs (es.drop i)).size = es.length - i := List.length_drop
  obtain ⟨σ₁, σ₂, a', arr', els, hrun, hset, -, happ, hab⟩ := carrayAppend_fits misread h.refers
    (.pntrs (es.drop i)) hwid rfl htaken.pos
    (by simpa [Carray.size, hl, Elements.size] using hfits)
    (reads_pntrs misread h.refers.lt_narrays hl' hi.le) htaken.ok htaken.tail htaken.denote
  refine ⟨σ₂, a', arr', fun k => ?_, h.turned hroom h.tail hwid happ hab⟩
  apply expandPntrs_aref misread hsize h.refers.aref h.refers.node (by rw [hl']; rfl) _ hset
  rw [← hrun, hdrop, Carray.size, hl']
  rfl

/-- The array of `c` stays as it is while the list is gathered behind it. -/
theorem Gathered.keeps_head (h : Gathered s c a₀ σ r a arr t) (hc : c < s.ncells)
    (hr : s.ncells ≤ r) (hch : σ.Changes σ' r a) {P : Carray → Prop}
    (hs : ∃ b tl, σ.nodes c = .aref b tl ∧ P (σ.arrays b)) :
    ∃ b tl, σ'.nodes c = .aref b tl ∧ P (σ'.arrays b) := by
  obtain ⟨b, tl, hn, hb⟩ := hs
  have hc' : c < σ.ncells := hc.trans_le h.changes.ncells_le
  have hne : b ≠ a := by
    rintro rfl
    have heq := h.refers.own c tl hc' hn
    omega
  refine ⟨b, tl, ?_, ?_⟩
  · rw [hch.nodes c hc' (by omega), hn]
  · rwa [hch.arrays b (h.refers.wf.aref c b tl hc' hn).1 hne]

theorem expandPntrs_of_trails (hw : s.Wf) (hown : s.Own c a₀) (hc : c < s.ncells) {conv : Bool}
    {n : Nat} (htr : Trails s c conv n t) :
    ∀ {σ : Store} {r a : Nat} {arr : Carray}, Gathered s c a₀ σ r a arr t → s.ncells ≤ r →
      a ≠ a₀ → (σ.arrays a₀).size < maxArraySize → arr.elements.width = .pntr → arr.size = n →
      (conv = true →
        ∃ b tl, σ.nodes c = .aref b tl ∧ (σ.arrays b).elements.width = .byte) →
      Finishes s c a₀ True (σ.arrays a₀).elements (fun k => expandPntrs misread a₀ k r σ) := by
  induction htr with
  | ends hends =>
    intro σ r a arr h _ _ _ _ _ _
    exact h.finishes (h.expandPntrs_ends misread hw hown hends) _
  | @string n i hconv =>
    intro σ r a arr h _ _ hsize _ _ hs
    obtain ⟨b, tl, hn, hb⟩ := hs hconv
    refine h.finishes (fun k => ?_) _
    rw [expandPntrs]
    simp only [if_pos hsize, h.refers.aref, Option.bind_eq_bind, Option.bind_some, node, hn, hb]
    rfl
  | @take n d i xs t' hne htake hle _ ih =>
    intro σ r a arr h hr ha₀ hsize hwid hn hs
    have hroom : RoomAt none 0 a₀ a arr := ha₀
    obtain ⟨σ₂, a', arr', hturn, ht⟩ := h.take misread hw hown hroom hwid hsize rfl hne htake
      (by omega)
    have hfirst : (σ₂.arrays a₀).elements = (σ.arrays a₀).elements := ht.first
    have hfin := ih ht.gathered hr ht.place (by rwa [Carray.size, hfirst]) (ht.width.trans hwid)
      (ht.size.trans (by rw [hn])) (fun hconv => h.keeps_head hc hr ht.changes
        (P := (·.elements.width = .byte)) (hs hconv))
    exact hfin.turn hturn (fun _ => ⟨trivial, hfirst⟩)
  | @chain d i xs t' hne htake _ ih =>
    intro σ r a arr h hr ha₀ hsize hwid hn hs
    obtain ⟨σ₂, r', b, arr₁, arr₂, hturn, hg, hch⟩ := h.takeChain misread hw hown hwid hsize rfl hne
      htake hn
    have hfirst := hch.changes.arrays a₀ h.first ha₀.symm
    have hnew := h.first.trans_le hch.new_array
    have hfin := ih hg (h.changes.ncells_le.trans hch.new_cell) hnew.ne' (by rwa [hfirst])
      (by rw [hch.elements, htake.width]) (by rw [Carray.size, hch.elements])
      (fun hconv => h.keeps_head hc hr hch.changes (P := (·.elements.width = .byte)) (hs hconv))
    exact hfin.turn hturn (fun _ => ⟨trivial, by rw [hfirst]⟩)

/-- Characters of `s` are characters later on. -/
theorem Gathered.items_chars (h : Gathered s c a₀ σ r a arr t) {es : List Pntr}
    (hok : s.ElementsOk (.pntrs es)) (hl : arr.elements = .pntrs es)
    (hall : es.all (fun e => pntrIsChar (s.target e)) = true) :
    ∀ x ∈ σ.items arr.elements, ∃ b, x = .char b := by
  intro x hx
  rw [hl, h.keeps.items hok] at hx
  obtain ⟨e, he, rfl⟩ := List.mem_map.mp hx
  have hchar := List.all_eq_true.mp hall e he
  exact ⟨toChar (s.target e), by rw [item, Item.of, if_pos hchar]⟩

/-- The array that the loop looks at is the array of the list, or an old one that was not full. -/
theorem Gathered.first_lt (h : Gathered s c a₀ σ c a arr t) {nbytes : Nat} {room : Option Nat}
    {es : List Pntr} (hl : arr.elements = .pntrs es) (hroom : RoomAt room nbytes a₀ a arr)
    (hnone : room = none → (σ.arrays a₀).size < maxArraySize) (hlt : es.length < maxArraySize) :
    (σ.arrays a₀).size < maxArraySize := by
  cases room with
  | none => exact hnone rfl
  | some m =>
    obtain ⟨rfl, -, -⟩ := hroom
    rw [h.refers.array, Carray.size, hl]
    exact hlt

/-- After a turn in which the first array gets nothing, the list has moved away. -/
theorem Turned.still {nbytes a' : Nat} {room : Option Nat} {arr' : Carray} {xs : Elements}
    (h : Turned s c a₀ nbytes σ σ' r a a' arr arr' t' room xs)
    (hnone : room.bind (reserve nbytes arr.elements.width · (arr.size + xs.size)) = none) :
    (σ'.arrays a₀).elements = (σ.arrays a₀).elements := by
  have hfirst := h.first
  rw [hnone] at hfirst
  exact hfirst

theorem expandPntrs_of_settles (hw : s.Wf) (hown : s.Own c a₀) (hc : c < s.ncells) {nbytes : Nat}
    {room : Option Nat} {es : List Pntr} (hst : Settles s c nbytes room es t) :
    ∀ {σ : Store} {a : Nat} {arr : Carray}, Gathered s c a₀ σ c a arr t →
      arr.elements = .pntrs es → s.ElementsOk (.pntrs es) → RoomAt room nbytes a₀ a arr →
      (room = none → (σ.arrays a₀).size < maxArraySize) →
      Finishes s c a₀ (Still s c nbytes .pntr room es.length t) (σ.arrays a₀).elements
        (fun k => expandPntrs misread a₀ k c σ) := by
  induction hst with
  | @full alloc es t hfull =>
    intro σ a arr h hl _ hroom _
    refine h.finishes (fun k => ?_) _
    obtain ⟨rfl, -, -⟩ := hroom
    have hsz : (σ.arrays a).size = es.length := by
      rw [h.refers.array, Carray.size, hl]
      rfl
    rw [expandPntrs, if_neg (by omega)]
  | ends hends =>
    intro σ a arr h _ _ _ _
    exact h.finishes (h.expandPntrs_ends misread hw hown hends) _
  | @take room es xs d i t' hne htake hle _ ih =>
    intro σ a arr h hl hok hroom hnone
    have htaken := htake.taken hw h.tail
    have hpos : 0 < xs.length := htaken.pos
    have hsize := h.first_lt hl hroom hnone (by omega)
    have hsz : arr.size = es.length := by
      rw [Carray.size, hl]
      rfl
    have hwid : arr.elements.width = .pntr := by
      rw [hl]
      rfl
    obtain ⟨σ₂, a', arr', hturn, ht⟩ := h.take misread hw hown hroom hwid hsize rfl hne htake
      (by rwa [hsz])
    have hl' : arr'.elements = .pntrs (es ++ xs) := by
      simpa [hl, Elements.append] using ht.elements.symm
    have hroom' := ht.place
    have hstill := ht.still
    rw [hwid, hsz] at hroom' hstill
    refine (ih ht.gathered hl' ?_ hroom' ?_).turn hturn ?_
    · rintro _ ⟨⟩ e he
      obtain he | he := List.mem_append.mp he
      · exact hok es rfl e he
      · exact htaken.ok xs rfl e he
    · intro hr
      rw [Carray.size, hstill hr]
      exact hsize
    · intro hs
      have hr : room.bind (reserve nbytes .pntr · (es.length + xs.length)) = none :=
        (hs.1 _ _ htake).resolve_left (Nat.not_lt.mpr hle)
      rw [hr]
      exact ⟨still_none, hstill hr⟩
  | @own room es i hle _ ih =>
    intro σ a arr h hl hok hroom hnone
    have hi : i < es.length := by
      have h2 := (h.keeps.valid _ h.tail).2
      simp only [h.refers.node, h.refers.array, Carray.size, hl] at h2
      exact h2
    have hsize := h.first_lt hl hroom hnone (by omega)
    have hsz : arr.size = es.length := by
      rw [Carray.size, hl]
      rfl
    have hwid : arr.elements.width = .pntr := by
      rw [hl]
      rfl
    have hdrop : (Elements.pntrs (es.drop i)).size = es.length - i := List.length_drop
    obtain ⟨σ₂, a', arr', hturn, ht⟩ := h.takeOwn misread hroom hl hsize hle
    have hl' : arr'.elements = .pntrs (es ++ es.drop i) := by
      simpa [hl, Elements.append] using ht.elements.symm
    have hroom' := ht.place
    have hstill := ht.still
    rw [hwid, hsz, hdrop] at hroom' hstill
    refine (ih ht.gathered hl' ?_ hroom' ?_).turn hturn ?_
    · rintro _ ⟨⟩ e he
      obtain he | he := List.mem_append.mp he
      · exact hok es rfl e he
      · exact hok es rfl e (List.mem_of_mem_drop he)
    · intro hr
      rw [Carray.size, hstill hr]
      exact hsize
    · intro hs
      have hr : room.bind (reserve nbytes .pntr · (es.length + (es.length - i))) = none :=
        (hs.2 i rfl).resolve_left (Nat.not_lt.mpr hle)
      rw [hr]
      exact ⟨still_none, hstill hr⟩
  | @chain es d i xs t' hne htake hfull htr =>
    intro σ a arr h hl hok hroom hnone
    have hsize := hnone rfl
    have ha₀ : a ≠ a₀ := hroom
    have hwid : arr.elements.width = .pntr := by
      rw [hl]
      rfl
    obtain ⟨σ₂, r', b, arr₁, arr₂, hturn, hg, hch⟩ := h.takeChain misread hw hown hwid hsize rfl hne
      htake (by rw [Carray.size, hl]; exact hfull)
    have hfirst := hch.changes.arrays a₀ h.first ha₀.symm
    have hnew := h.first.trans_le hch.new_array
    have hfin := expandPntrs_of_trails misread hw hown hc htr hg
      (h.changes.ncells_le.trans hch.new_cell) hnew.ne' (by rwa [hfirst])
      (by rw [hch.elements, htake.width]) (by rw [Carray.size, hch.elements])
      (fun hconv => by
        obtain ⟨a₁, t₁, href, -⟩ := hch.head
        refine ⟨a₁, t₁, href.node, ?_⟩
        rw [href.array]
        exact hch.width_head (.inr (h.items_chars hok hl hconv)))
    exact hfin.turn hturn (fun _ => ⟨trivial, by rw [hfirst]⟩)

end

end Lists
end Runtime
end NReduce
