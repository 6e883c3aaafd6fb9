import NReduce.Runtime.Blocks
import Mathlib.Data.Option.Basic

/-!
# NReduce.Runtime.BlockWalk

Which walks over the blocks of a heap visit the objects placed there, and nothing else. A new block
is started as soon as an object does not leave at least one byte, so every block has an unused tail,
except for one that a single object fills. A walk that stops at the end of the block goes into this
tail; one that stops at the offset of the next object does not.
-/

namespace NReduce
namespace Runtime
namespace Blocks

/-! ## Objects that follow each other -/

/-- Objects that lie one after another from `off` to `stop`. -/
def Chain : Nat → List (Nat × Nat) → Nat → Prop
  | off, [], stop => off = stop
  | off, (o, n) :: l, stop => o = off ∧ 0 < n ∧ Chain (off + n) l stop

theorem Chain.append {off mid stop : Nat} {l l' : List (Nat × Nat)} (h : Chain off l mid)
    (h' : Chain mid l' stop) : Chain off (l ++ l') stop := by
  induction l generalizing off with
  | nil =>
    cases h
    exact h'
  | cons o l ih => exact ⟨h.1, h.2.1, ih h.2.2⟩

theorem Chain.split {off mid stop : Nat} {l l' : List (Nat × Nat)} (h : Chain off l mid)
    (h' : Chain off (l ++ l') stop) : Chain mid l' stop := by
  induction l generalizing off with
  | nil =>
    cases h
    exact h'
  | cons o l ih => exact ih h.2.2 h'.2.2

theorem Chain.snoc {off stop n : Nat} {l : List (Nat × Nat)} (h : Chain off l stop) (hn : 0 < n) :
    Chain off (l ++ [(stop, n)]) (stop + n) :=
  h.append ⟨rfl, hn, rfl⟩

theorem Chain.le {off stop : Nat} {l : List (Nat × Nat)} (h : Chain off l stop) : off ≤ stop := by
  induction l generalizing off with
  | nil =>
    cases h
    exact Nat.le_refl _
  | cons o l ih =>
    have := ih h.2.2
    omega

theorem Chain.unique {off stop stop' : Nat} {l : List (Nat × Nat)} (h : Chain off l stop)
    (h' : Chain off l stop') : stop = stop' := by
  induction l generalizing off with
  | nil =>
    cases h
    exact h'
  | cons o l ih => exact ih h.2.2 h'.2.2

theorem Chain.mem {off stop : Nat} {l : List (Nat × Nat)} (h : Chain off l stop) {o : Nat × Nat}
    (ho : o ∈ l) : off ≤ o.1 ∧ o.1 < stop := by
  induction l generalizing off with
  | nil => cases ho
  | cons p l ih =>
    have hle := h.2.2.le
    rcases List.mem_cons.mp ho with rfl | ho
    · have := h.1
      have := h.2.1
      omega
    · have := ih h.2.2 ho
      omega

theorem Chain.size_le {off stop : Nat} {l : List (Nat × Nat)} (h : Chain off l stop)
    {o : Nat × Nat} (ho : o ∈ l) : 0 < o.2 ∧ off + o.2 ≤ stop := by
  induction l generalizing off with
  | nil => cases ho
  | cons p l ih =>
    have hle := h.2.2.le
    rcases List.mem_cons.mp ho with rfl | ho
    · exact ⟨h.2.1, hle⟩
    · have := ih h.2.2 ho
      omega

/-- The objects from a boundary on are those whose offsets are not below it. -/
theorem Chain.filter {off mid stop : Nat} {l l' : List (Nat × Nat)} (h : Chain off l mid)
    (h' : Chain mid l' stop) : (l ++ l').filter (fun o => mid ≤ o.1) = l' := by
  have hl : l.filter (fun o => mid ≤ o.1) = [] := by
    rw [List.filter_eq_nil_iff]
    intro o ho
    have := (h.mem ho).2
    simpa using this
  have hl' : l'.filter (fun o => mid ≤ o.1) = l' := by
    rw [List.filter_eq_self]
    intro o ho
    simpa using (h'.mem ho).1
  rw [List.filter_append, hl, hl', List.nil_append]

section Visits

variable {size : Nat → Nat → Option Nat} {stop : Nat}

/-- A walk over objects that fill the part up to `stop`. -/
theorem visits_chain {l : List (Nat × Nat)} (hstop : stop < 2 ^ 32) :
    ∀ {k off : Nat}, Chain off l stop → (∀ k, ∀ o ∈ l, size k o.1 = some o.2) →
      visits size stop (l.length + 1) k off = some (l.map Prod.fst) := by
  induction l with
  | nil =>
    intro k off h _
    cases h
    simp [visits]
  | cons o l ih =>
    intro k off h hs
    obtain ⟨rfl, hn, hl⟩ := h
    have hle := hl.le
    have hmod : (o.1 + o.2) % 2 ^ 32 = o.1 + o.2 := Nat.mod_eq_of_lt (by omega)
    have hrest := ih (k := k + 1) hl (fun k p hp => hs k p (by simp [hp]))
    rw [List.length_cons, visits, if_pos (by omega), hs k o (by simp)]
    simp only [Option.bind_eq_bind, Option.bind_some, hmod, hrest]
    rfl

/-- A walk that goes on after the objects visits what follows them. -/
theorem visits_past {l : List (Nat × Nat)} {last : Nat} (hlast : last < stop)
    (hstop : stop < 2 ^ 32) :
    ∀ {fuel k off : Nat} {xs : List Nat}, Chain off l last →
      (∀ k, ∀ o ∈ l, size k o.1 = some o.2) → visits size stop fuel k off = some xs →
      l.length < xs.length := by
  induction l with
  | nil =>
    intro fuel k off xs h _ hv
    cases h
    cases fuel with
    | zero => cases hv
    | succ fuel =>
      rw [visits, if_pos hlast] at hv
      simp only [Option.bind_eq_bind, Option.bind_eq_some_iff] at hv
      obtain ⟨n, -, rest, -, hv⟩ := hv
      cases hv
      simp
  | cons o l ih =>
    intro fuel k off xs h hs hv
    obtain ⟨rfl, hn, hl⟩ := h
    have hle := hl.le
    have hmod : (o.1 + o.2) % 2 ^ 32 = o.1 + o.2 := Nat.mod_eq_of_lt (by omega)
    cases fuel with
    | zero => cases hv
    | succ fuel =>
      rw [visits, if_pos (by omega), hs k o (by simp)] at hv
      simp only [Option.bind_eq_bind, Option.bind_some, hmod, Option.bind_eq_some_iff] at hv
      obtain ⟨rest, hrest, hv⟩ := hv
      cases hv
      have := ih hl (fun k p hp => hs k p (by simp [hp])) hrest
      simpa using this

end Visits

/-! ## The blocks of a heap -/

theorem write_mem (s : State) (b off : Nat) (h : Header) (b' off' : Nat) :
    (s.write b off h).mem b' off' = if b' = b ∧ off' = off then h else s.mem b' off' := by
  unfold State.write
  by_cases hb : b' = b
  · subst hb
    by_cases ho : off' = off
    · subst ho
      simp
    · simp [ho]
  · simp [hb]

theorem write_mem_of_ne {s : State} {b off : Nat} {h : Header} {b' off' : Nat}
    (hne : b' ≠ b ∨ off' ≠ off) : (s.write b off h).mem b' off' = s.mem b' off' := by
  rw [write_mem, if_neg]
  tauto

def State.blocks (s : State) : List Nat := s.newgen.blocks ++ s.oldgen.blocks ++ s.prevgen

/-- The offset of a generation is where the objects of its first block end. -/
def Gen.InUse (g : Gen) (placed : Nat → List (Nat × Nat)) : Prop :=
  ∀ b, g.blocks.head? = some b → Chain BLOCK_START (placed b) g.offset

/-- An object has its header, or a pointer to a copy of its size in the old generation. -/
def State.HasObject (s : State) (b : Nat) (o : Nat × Nat) : Prop :=
  (s.mem b o.1).objectSize = some o.2 ∨
    ∃ b' off', s.mem b o.1 = .forwarded b' off' ∧ b' ∈ s.oldgen.blocks ∧
      (off', o.2) ∈ s.placed b'

structure Inv (s : State) : Prop where
  nodup : s.blocks.Nodup
  lt : ∀ b ∈ s.blocks, b < s.nblocks
  fresh : ∀ b, s.nblocks ≤ b → s.placed b = []
  filled : ∀ b, ∃ stop, Chain BLOCK_START (s.placed b) stop ∧ (stop < BLOCK_END ∨ s.Single b)
  newgen : s.newgen.InUse s.placed
  oldgen : s.oldgen.InUse s.placed
  old : ∀ b ∈ s.oldgen.blocks, ∀ o ∈ s.placed b, (s.mem b o.1).objectSize = some o.2
  copied : ∀ b ∈ s.newgen.blocks ++ s.prevgen, ∀ o ∈ s.placed b, s.HasObject b o
  promotion : ∀ p q, s.promotion = some (p, q) →
    p ∈ s.oldgen.blocks ∧ ∃ l l', s.placed p = l ++ l' ∧ Chain BLOCK_START l q

theorem inv_init (mem : Nat → Nat → Header) : Inv (State.init mem) where
  nodup := by simp [State.blocks, State.init]
  lt := by simp [State.blocks, State.init]
  fresh := fun _ _ => rfl
  filled := fun _ => ⟨BLOCK_START, rfl, .inl (by decide)⟩
  newgen := by simp [Gen.InUse, State.init]
  oldgen := by simp [Gen.InUse, State.init]
  old := by simp [State.init]
  copied := by simp [State.init]
  promotion := by simp [State.init]

theorem Touch.frame {s s' : State} (h : Touch s s') :
    s'.newgen = s.newgen ∧ s'.oldgen = s.oldgen ∧ s'.prevgen = s.prevgen ∧
      s'.placed = s.placed ∧ s'.promotion = s.promotion ∧ s'.nblocks = s.nblocks := by
  cases h <;> exact ⟨rfl, rfl, rfl, rfl, rfl, rfl⟩

theorem Touch.size {s s' : State} (h : Touch s s') {b : Nat} {o : Nat × Nat} (ho : o ∈ s.placed b) :
    (s'.mem b o.1).objectSize = (s.mem b o.1).objectSize ∧
      ∀ b' off', s.mem b o.1 = .forwarded b' off' → s'.mem b o.1 = .forwarded b' off' := by
  cases h with
  | @object c off n type flags nbytes type' flags' nbytes' hp hm hsize =>
    by_cases hc : b = c ∧ o.1 = off
    · obtain ⟨rfl, rfl⟩ := hc
      rw [write_mem, if_pos ⟨rfl, rfl⟩, hm]
      exact ⟨hsize, fun _ _ hf => nomatch hf⟩
    · rw [write_mem, if_neg hc]
      exact ⟨rfl, fun _ _ hf => hf⟩
  | @rest c off h hp =>
    have hc : ¬ (b = c ∧ o.1 = off) := by
      rintro ⟨rfl, rfl⟩
      exact hp o.2 ho
    rw [write_mem, if_neg hc]
    exact ⟨rfl, fun _ _ hf => hf⟩

theorem Inv.touch {s s' : State} (hi : Inv s) (h : Touch s s') : Inv s' := by
  obtain ⟨hnew, hold, hprev, hplaced, hprom, hn⟩ := h.frame
  have hblocks : s'.blocks = s.blocks := by rw [State.blocks, hnew, hold, hprev, State.blocks]
  constructor
  · rw [hblocks]
    exact hi.nodup
  · rw [hblocks, hn]
    exact hi.lt
  · rw [hplaced, hn]
    exact hi.fresh
  · unfold State.Single
    rw [hplaced]
    exact hi.filled
  · rw [hnew, hplaced]
    exact hi.newgen
  · rw [hold, hplaced]
    exact hi.oldgen
  · rw [hold, hplaced]
    intro b hb o ho
    rw [(h.size ho).1]
    exact hi.old b hb o ho
  · rw [hnew, hprev, hplaced]
    intro b hb o ho
    unfold State.HasObject
    rw [hold, hplaced, (h.size ho).1]
    rcases hi.copied b hb o ho with hs | ⟨b', off', hf, hb', ho'⟩
    · exact .inl hs
    · exact .inr ⟨b', off', (h.size ho).2 b' off' hf, hb', ho'⟩
  · rw [hold, hplaced, hprom]
    exact hi.promotion

/-- The room for an object: its block is the one in use or a new one, it goes after the objects
there, and it leaves a part of the block free or fills it alone. -/
theorem Gen.room_spec {s : State} (hi : Inv s) {g : Gen} (hg : g.InUse s.placed) {nbytes b : Nat}
    (hle : nbytes ≤ BLOCK_BYTES) (hb : (g.room s.nblocks nbytes).blocks.head? = some b) :
    Chain BLOCK_START (s.placed b) (g.room s.nblocks nbytes).offset ∧
      ((g.room s.nblocks nbytes).offset + nbytes < BLOCK_END ∨
        s.placed b = [] ∧ (g.room s.nblocks nbytes).offset = BLOCK_START ∧ nbytes = BLOCK_BYTES) ∧
      ((g.room s.nblocks nbytes).blocks = g.blocks ∨
        b = s.nblocks ∧ (g.room s.nblocks nbytes).blocks = b :: g.blocks) := by
  unfold Gen.room at hb ⊢
  split_ifs at hb ⊢ with h
  · cases hb
    have hp := hi.fresh s.nblocks (Nat.le_refl _)
    refine ⟨by rw [hp]; rfl, ?_, .inr ⟨rfl, rfl⟩⟩
    simp only [hp, true_and, BLOCK_END]
    omega
  · exact ⟨hg b hb, .inl (by omega), .inl rfl⟩

theorem Inv.size_le {s : State} (hi : Inv s) {b : Nat} {o : Nat × Nat} (ho : o ∈ s.placed b) :
    0 < o.2 ∧ o.2 ≤ BLOCK_BYTES := by
  obtain ⟨stop, hc, hstop⟩ := hi.filled b
  have hle : stop ≤ BLOCK_END := by
    rcases hstop with h | h
    · omega
    · rw [State.Single] at h
      rw [h] at hc
      exact Nat.le_of_eq hc.2.2.symm
  have hsize := hc.size_le ho
  unfold BLOCK_END at hle
  omega

/-- The objects of each block after one more, of `n` bytes, has been placed in the block `b`. -/
def State.placedAfter (s : State) (b off n : Nat) : Nat → List (Nat × Nat) :=
  Function.update s.placed b (s.placed b ++ [(off, n)])

theorem placedAfter_of_ne {s : State} {b off n b' : Nat} (h : b' ≠ b) :
    s.placedAfter b off n b' = s.placed b' := by
  simp [State.placedAfter, h]

theorem placedAfter_same (s : State) (b off n : Nat) :
    s.placedAfter b off n b = s.placed b ++ [(off, n)] := by
  simp [State.placedAfter]

theorem mem_placedAfter {s : State} {b off n b' : Nat} {o : Nat × Nat} (ho : o ∈ s.placed b') :
    o ∈ s.placedAfter b off n b' := by
  by_cases h : b' = b
  · subst h
    rw [placedAfter_same]
    simp [ho]
  · rwa [placedAfter_of_ne h]

theorem mem_placedAfter_iff {s : State} {b off n b' : Nat} {o : Nat × Nat} :
    o ∈ s.placedAfter b off n b' ↔ o ∈ s.placed b' ∨ b' = b ∧ o = (off, n) := by
  by_cases h : b' = b
  · subst h
    rw [placedAfter_same]
    simp
  · rw [placedAfter_of_ne h]
    simp [h]

/-- An object is not where the next one goes. -/
theorem Chain.ne_of_mem {s : State} {start b off b' : Nat} {o : Nat × Nat}
    (h : Chain start (s.placed b) off) (ho : o ∈ s.placed b') : b' ≠ b ∨ o.1 ≠ off := by
  by_cases hb : b' = b
  · subst hb
    exact .inr (Nat.ne_of_lt (h.mem ho).2)
  · exact .inl hb

theorem State.HasObject.mono {s s' : State} {b : Nat} {o : Nat × Nat} (h : s.HasObject b o)
    (hm : s'.mem b o.1 = s.mem b o.1) (hold : ∀ x ∈ s.oldgen.blocks, x ∈ s'.oldgen.blocks)
    (hp : ∀ x, ∀ o ∈ s.placed x, o ∈ s'.placed x) : s'.HasObject b o := by
  unfold State.HasObject
  rw [hm]
  rcases h with h | ⟨b', off', hf, hb', ho'⟩
  · exact .inl h
  · exact .inr ⟨b', off', hf, hold b' hb', hp b' _ ho'⟩

theorem Inv.filled_placedAfter {s : State} (hi : Inv s) {b off n : Nat} (hn : 0 < n)
    (hc : Chain BLOCK_START (s.placed b) off)
    (hroom : off + n < BLOCK_END ∨ s.placed b = [] ∧ off = BLOCK_START ∧ n = BLOCK_BYTES)
    (b' : Nat) :
    ∃ stop, Chain BLOCK_START (s.placedAfter b off n b') stop ∧
      (stop < BLOCK_END ∨ s.placedAfter b off n b' = [(BLOCK_START, BLOCK_BYTES)]) := by
  by_cases h : b' = b
  · subst h
    rw [placedAfter_same]
    refine ⟨off + n, hc.snoc hn, ?_⟩
    rcases hroom with h | ⟨hp, rfl, rfl⟩
    · exact .inl h
    · rw [hp]
      exact .inr rfl
  · rw [placedAfter_of_ne h]
    exact hi.filled b'

theorem Inv.promotion_placedAfter {s : State} (hi : Inv s) {b off n p q : Nat}
    (hp : s.promotion = some (p, q)) :
    ∃ l l', s.placedAfter b off n p = l ++ l' ∧ Chain BLOCK_START l q := by
  obtain ⟨-, l, l', hl, hc⟩ := hi.promotion p q hp
  by_cases h : p = b
  · subst h
    exact ⟨l, l' ++ [(off, n)], by rw [placedAfter_same, hl, List.append_assoc], hc⟩
  · exact ⟨l, l', by rw [placedAfter_of_ne h, hl], hc⟩

/-- The generation that an object has been placed in. -/
theorem Gen.inUse_advance {s : State} {g : Gen} {b n : Nat}
    (hb : g.blocks.head? = some b) (hn : 0 < n) (hc : Chain BLOCK_START (s.placed b) g.offset) :
    (g.advance n).InUse (s.placedAfter b g.offset n) := by
  intro b' hb'
  have hbb : b' = b := Option.some.inj (hb'.symm.trans hb)
  subst hbb
  rw [placedAfter_same]
  exact hc.snoc hn

/-- A generation that no object has been placed in. -/
theorem Gen.InUse.placedAfter {s : State} {g : Gen} {b off n : Nat} (hg : g.InUse s.placed)
    (hb : b ∉ g.blocks) : g.InUse (s.placedAfter b off n) := by
  intro b' hb'
  have hne : b' ≠ b := by
    rintro rfl
    exact hb (List.mem_of_mem_head? hb')
  rw [placedAfter_of_ne hne]
  exact hg b' hb'

/-- What `alloc_mem` does. -/
theorem allocMem_eq_some {s s' : State} {h : Header} (ha : s.allocMem h = some s') :
    ∃ n b, h.objectSize = some n ∧ n ≤ BLOCK_BYTES ∧
      (s.newgen.room s.nblocks n).blocks.head? = some b ∧
      s' = { s with newgen := (s.newgen.room s.nblocks n).advance n, nblocks := s.nblocks + 1
             }.place b (s.newgen.room s.nblocks n).offset n h := by
  simp only [State.allocMem, Option.bind_eq_bind, Option.bind_eq_some_iff] at ha
  obtain ⟨n, hn, u, hg, b, hb, ha⟩ := ha
  refine ⟨n, b, hn, ?_, hb, (Option.some.inj ha).symm⟩
  by_cases hc : n % 8 = 0 ∧ n ≤ BLOCK_END - BLOCK_START
  · exact hc.2
  · simp [guard, hc] at hg

theorem Inv.alloc {s s' : State} (hi : Inv s) {h : Header} (hne : h.objectSize ≠ some 0)
    (ha : s.allocMem h = some s') : Inv s' := by
  obtain ⟨n, b, hn, hle, hb, rfl⟩ := allocMem_eq_some ha
  have hpos : 0 < n := Nat.pos_of_ne_zero (fun h0 => hne (h0 ▸ hn))
  obtain ⟨hc, hroom, hblocks⟩ := Gen.room_spec hi hi.newgen hle hb
  generalize s.newgen.room s.nblocks n = g at *
  have hnd := hi.nodup
  have hlt := hi.lt
  simp only [State.blocks, List.mem_append] at hlt
  simp only [State.blocks, List.nodup_append, List.mem_append] at hnd
  have hbg : b ∈ g.blocks := List.mem_of_mem_head? hb
  -- the block is one of the new generation, or a new one
  have hbcases : b ∈ s.newgen.blocks ∨ b = s.nblocks := by
    rcases hblocks with h | ⟨h, -⟩
    · exact .inl (h ▸ hbg)
    · exact .inr h
  have hbold : b ∉ s.oldgen.blocks := by
    grind
  have hbprev : b ∉ s.prevgen := by
    grind
  constructor
  · simp only [State.blocks, State.place, State.write, Gen.advance, List.nodup_append,
      List.mem_append]
    grind
  · simp only [State.blocks, State.place, State.write, Gen.advance, List.mem_append]
    grind
  · intro b' hb'
    have hb1 : s.nblocks + 1 ≤ b' := hb'
    have hne : b' ≠ b := by grind
    exact (placedAfter_of_ne hne).trans (hi.fresh b' (by omega))
  · exact hi.filled_placedAfter hpos hc hroom
  · exact Gen.inUse_advance hb hpos hc
  · exact hi.oldgen.placedAfter hbold
  · intro b' hb' o ho
    have hne : b' ≠ b := fun h => hbold (h ▸ hb')
    have ho' : o ∈ s.placed b' := by
      rw [← placedAfter_of_ne hne]
      exact ho
    exact (congrArg Header.objectSize (write_mem_of_ne (.inl hne))).trans (hi.old b' hb' o ho')
  · intro b' hb' o ho
    rcases mem_placedAfter_iff.mp ho with ho' | ⟨rfl, rfl⟩
    · -- an object that was there
      have hlive : b' ∈ s.newgen.blocks ++ s.prevgen := by
        have hne : b' ≠ s.nblocks := by
          rintro rfl
          rw [hi.fresh _ (Nat.le_refl _)] at ho'
          cases ho'
        simp only [State.place, State.write, Gen.advance, List.mem_append] at hb' ⊢
        grind
      apply (hi.copied b' hlive o ho').mono
      · exact write_mem_of_ne (hc.ne_of_mem ho')
      · exact fun _ h => h
      · exact fun _ _ h => mem_placedAfter h
    · refine .inl ((congrArg Header.objectSize ?_).trans hn)
      rw [State.place]
      exact (write_mem _ _ _ _ _ _).trans (if_pos ⟨rfl, rfl⟩)
  · intro p q hp
    exact ⟨(hi.promotion p q hp).1, hi.promotion_placedAfter hp⟩

/-- What `add_to_oldgen` does. -/
theorem addToOldgen_eq_some {s s' : State} {src : Nat × Nat} {flags : Nat}
    (ha : s.addToOldgen src flags = some s') :
    ∃ n b copy, (s.mem src.1 src.2).objectSize = some n ∧ copy.objectSize = some n ∧
      (s.oldgen.room s.nblocks n).blocks.head? = some b ∧
      s' = ({ s with oldgen := (s.oldgen.room s.nblocks n).advance n, nblocks := s.nblocks + 1
              }.place b (s.oldgen.room s.nblocks n).offset n copy).write src.1 src.2
            (.forwarded b (s.oldgen.room s.nblocks n).offset) := by
  simp only [State.addToOldgen, Option.bind_eq_bind, Option.bind_eq_some_iff] at ha
  obtain ⟨n, hn, u, hg, b, hb, ha⟩ := ha
  refine ⟨n, b, _, hn, ?_, hb, (Option.some.inj ha).symm⟩
  cases hm : s.mem src.1 src.2 with
  | object type flags' nbytes =>
    rw [hm] at hn
    exact hn
  | forwarded b' off' =>
    rw [hm] at hn
    cases hn

theorem State.HasObject.size_eq {s : State} {b n : Nat} {o : Nat × Nat} (h : s.HasObject b o)
    (hn : (s.mem b o.1).objectSize = some n) : o.2 = n := by
  rcases h with h | ⟨b', off', hf, -⟩
  · exact Option.some.inj (h.symm.trans hn)
  · rw [hf] at hn
    cases hn

theorem Inv.promote {s s' : State} (hi : Inv s) {b₀ off₀ n₀ flags : Nat}
    (hb₀ : b₀ ∈ s.newgen.blocks ++ s.prevgen) (ho₀ : (off₀, n₀) ∈ s.placed b₀)
    (ha : s.addToOldgen (b₀, off₀) flags = some s') : Inv s' := by
  obtain ⟨n, b, copy, hn, hcopy, hb, rfl⟩ := addToOldgen_eq_some ha
  have hn₀ : n₀ = n := (hi.copied b₀ hb₀ _ ho₀).size_eq hn
  subst hn₀
  obtain ⟨hpos, hle⟩ := hi.size_le ho₀
  obtain ⟨hc, hroom, hblocks⟩ := Gen.room_spec hi hi.oldgen hle hb
  generalize s.oldgen.room s.nblocks n₀ = g at *
  have hnd := hi.nodup
  have hlt := hi.lt
  simp only [State.blocks, List.mem_append] at hlt
  simp only [State.blocks, List.nodup_append, List.mem_append] at hnd
  have hbg : b ∈ g.blocks := List.mem_of_mem_head? hb
  rw [List.mem_append] at hb₀
  -- the block is one of the old generation, or a new one
  have hbcases : b ∈ s.oldgen.blocks ∨ b = s.nblocks := by
    rcases hblocks with h | ⟨h, -⟩
    · exact .inl (h ▸ hbg)
    · exact .inr h
  have hbnew : b ∉ s.newgen.blocks := by
    grind
  have hbprev : b ∉ s.prevgen := by
    grind
  have hsub : ∀ x ∈ s.oldgen.blocks, x ∈ g.blocks := by
    grind
  have hsrc : b₀ ∉ g.blocks := by
    grind
  constructor
  · simp only [State.blocks, State.place, State.write, Gen.advance, List.nodup_append,
      List.mem_append]
    grind
  · simp only [State.blocks, State.place, State.write, Gen.advance, List.mem_append]
    grind
  · intro b' hb'
    have hb1 : s.nblocks + 1 ≤ b' := hb'
    have hne : b' ≠ b := by grind
    exact (placedAfter_of_ne hne).trans (hi.fresh b' (by omega))
  · exact hi.filled_placedAfter hpos hc hroom
  · exact hi.newgen.placedAfter hbnew
  · exact Gen.inUse_advance hb hpos hc
  · intro b' hb' o ho
    have hne : b' ≠ b₀ := fun h => hsrc (h ▸ hb')
    refine (congrArg Header.objectSize (write_mem_of_ne (.inl hne))).trans ?_
    rcases mem_placedAfter_iff.mp ho with ho' | ⟨rfl, rfl⟩
    · have hold : b' ∈ s.oldgen.blocks := by
        have hne : b' ≠ s.nblocks := by
          rintro rfl
          rw [hi.fresh _ (Nat.le_refl _)] at ho'
          cases ho'
        simp only [State.place, State.write, Gen.advance] at hb'
        grind
      refine (congrArg Header.objectSize ?_).trans (hi.old b' hold o ho')
      exact write_mem_of_ne (hc.ne_of_mem ho')
    · refine (congrArg Header.objectSize ?_).trans hcopy
      exact (write_mem _ _ _ _ _ _).trans (if_pos ⟨rfl, rfl⟩)
  · intro b' hb' o ho
    have hne : b' ≠ b := by
      rintro rfl
      exact (List.mem_append.mp hb').elim hbnew hbprev
    have ho' : o ∈ s.placed b' := by
      rw [← placedAfter_of_ne hne]
      exact ho
    by_cases hs : b' = b₀ ∧ o.1 = off₀
    · -- the object that has been copied
      obtain ⟨rfl, rfl⟩ := hs
      have hsize : o.2 = n₀ := (hi.copied b' hb' o ho').size_eq hn
      refine .inr ⟨b, g.offset, (write_mem _ _ _ _ _ _).trans (if_pos ⟨rfl, rfl⟩), hbg, ?_⟩
      rw [hsize]
      exact mem_placedAfter_iff.mpr (.inr ⟨rfl, rfl⟩)
    · apply (hi.copied b' hb' o ho').mono
      · rw [write_mem, if_neg hs]
        exact write_mem_of_ne (.inl hne)
      · exact hsub
      · exact fun _ _ h => mem_placedAfter h
  · intro p q hp
    exact ⟨hsub p (hi.promotion p q hp).1, hi.promotion_placedAfter hp⟩

theorem Inv.mark {s s' : State} (hi : Inv s) (h : Mark s s') : Inv s' := by
  cases h with
  | touch h => exact hi.touch h
  | promote hb ho ha => exact hi.promote hb ho ha

theorem Inv.initOldgen {s : State} (hi : Inv s) : Inv s.initOldgen := by
  unfold State.initOldgen
  split_ifs with h
  · have hnd := hi.nodup
    have hlt := hi.lt
    simp only [State.blocks, h, List.append_nil] at hnd hlt
    have hfresh := hi.fresh s.nblocks (Nat.le_refl _)
    constructor
    · simp only [State.blocks, List.append_assoc, List.singleton_append]
      rw [List.perm_middle.nodup_iff, List.nodup_cons]
      exact ⟨fun hm => Nat.lt_irrefl _ (hlt _ hm), hnd⟩
    · simp only [State.blocks, List.mem_append, List.mem_singleton]
      simp only [List.mem_append] at hlt
      grind
    · exact fun b hb => hi.fresh b (Nat.le_of_succ_le hb)
    · exact hi.filled
    · exact hi.newgen
    · intro b hb
      cases hb
      rw [hfresh]
      rfl
    · intro b hb o ho
      rw [List.mem_singleton.mp hb, hfresh] at ho
      cases ho
    · intro b hb o ho
      have hsub : ∀ x ∈ s.oldgen.blocks, x ∈ [s.nblocks] := by
        rw [h]
        exact fun x hx => absurd hx List.not_mem_nil
      exact State.HasObject.mono (hi.copied b hb o ho) rfl hsub (fun _ _ h => h)
    · intro p q hp
      have hm := (hi.promotion p q hp).1
      rw [h] at hm
      cases hm
  · exact hi

theorem Inv.beginPromotion {s : State} (hi : Inv s) : Inv s.beginPromotion := by
  have hi' := hi.initOldgen
  refine ⟨hi'.nodup, hi'.lt, hi'.fresh, hi'.filled, hi'.newgen, hi'.oldgen, hi'.old, hi'.copied, ?_⟩
  intro p q hp
  obtain ⟨b, hb, hbq⟩ := Option.map_eq_some_iff.mp hp
  cases hbq
  exact ⟨List.mem_of_mem_head? hb, _, [], (List.append_nil _).symm, hi'.oldgen p hb⟩

theorem Inv.resetNewgen {s : State} (hi : Inv s) : Inv s.resetNewgen := by
  have hsub : s.resetNewgen.blocks.Sublist s.blocks := by
    simp only [State.blocks, State.resetNewgen, List.nil_append, List.append_assoc]
    exact List.sublist_append_right _ _
  refine ⟨hi.nodup.sublist hsub, fun b hb => hi.lt b (hsub.mem hb), hi.fresh, hi.filled, ?_,
    hi.oldgen, hi.old, ?_, ?_⟩
  · intro b hb
    cases hb
  · intro b hb o ho
    exact (hi.copied b (List.mem_append_right _ hb) o ho).mono rfl (fun _ h => h) (fun _ _ h => h)
  · intro p q hp
    cases hp

theorem Inv.copyHeapFinish {s : State} (hi : Inv s) : Inv s.copyHeapFinish := by
  have hsub : s.copyHeapFinish.blocks.Sublist s.blocks := by
    simp only [State.blocks, State.copyHeapFinish, List.append_nil]
    exact List.sublist_append_left _ _
  refine ⟨hi.nodup.sublist hsub, fun b hb => hi.lt b (hsub.mem hb), hi.fresh, hi.filled,
    hi.newgen, hi.oldgen, hi.old, ?_, hi.promotion⟩
  intro b hb o ho
  have hb' : b ∈ s.newgen.blocks ++ s.prevgen := by
    simp only [State.copyHeapFinish, List.append_nil] at hb
    exact List.mem_append_left _ hb
  exact (hi.copied b hb' o ho).mono rfl (fun _ h => h) (fun _ _ h => h)

theorem Inv.copyHeapStart {s : State} (hi : Inv s) (hnew : s.newgen.blocks = [])
    (hprev : s.prevgen = []) : Inv s.copyHeapStart := by
  apply Inv.initOldgen
  have hblocks : s.blocks = s.oldgen.blocks := by
    simp [State.blocks, hnew, hprev]
  have hnd := hi.nodup
  have hlt := hi.lt
  rw [hblocks] at hnd hlt
  refine ⟨?_, ?_, hi.fresh, hi.filled, hi.newgen, ?_, ?_, ?_, ?_⟩
  · simpa [State.blocks, hnew] using hnd
  · simpa [State.blocks, hnew] using hlt
  · intro b hb
    cases hb
  · intro b hb
    cases hb
  · intro b hb o ho
    simp only [hnew, List.nil_append] at hb
    exact .inl (hi.old b hb o ho)
  · intro p q hp
    cases hp

theorem Inv.step {s s' : State} (hi : Inv s) (h : Step s s') : Inv s' := by
  cases h with
  | mark h => exact hi.mark h
  | alloc hne ha => exact hi.alloc hne ha
  | beginPromotion => exact hi.beginPromotion
  | resetNewgen => exact hi.resetNewgen
  | copyHeapStart hnew hprev => exact hi.copyHeapStart hnew hprev
  | copyHeapFinish => exact hi.copyHeapFinish

theorem Inv.of_reachable {s : State} (h : Reachable s) : Inv s := by
  obtain ⟨mem, h⟩ := h
  induction h with
  | refl => exact inv_init mem
  | tail _ hstep ih => exact ih.step hstep

/-! ## Walks -/

/-- The blocks that a walk goes through. -/
def Walk.blocks (s : State) : Walk → List Nat
  | .clearMarks | .replaceRefs | .resetDmb | .replaceRefsForNewgen => s.oldgen.blocks
  | .markNewObjects => s.newgen.blocks
  | .markNewObjectsMajor => s.prevgen

theorem Inv.touches {s s' : State} (hi : Inv s) (h : Relation.ReflTransGen Touch s s') :
    Inv s' ∧ s'.oldgen = s.oldgen ∧ s'.placed = s.placed := by
  induction h with
  | refl => exact ⟨hi, rfl, rfl⟩
  | tail _ ht ih =>
    obtain ⟨hi', hold, hplaced⟩ := ih
    obtain ⟨-, hold', -, hplaced', -⟩ := ht.frame
    exact ⟨hi'.touch ht, hold'.trans hold, hplaced'.trans hplaced⟩

theorem Mark.frame {s s' : State} (hi : Inv s) (h : Mark s s') :
    s'.newgen = s.newgen ∧ s'.prevgen = s.prevgen ∧
      ∀ b ∈ s.newgen.blocks ++ s.prevgen, s'.placed b = s.placed b := by
  cases h with
  | touch h =>
    obtain ⟨hnew, -, hprev, hplaced, -⟩ := h.frame
    exact ⟨hnew, hprev, fun b _ => congrFun hplaced b⟩
  | promote hb ho ha =>
    obtain ⟨n, b, copy, hn, hcopy, hb', rfl⟩ := addToOldgen_eq_some ha
    refine ⟨rfl, rfl, fun c hc => placedAfter_of_ne ?_⟩
    rintro rfl
    obtain ⟨hpos, hle⟩ := hi.size_le ho
    have hsize := (hi.copied _ hb _ ho).size_eq hn
    obtain ⟨-, -, hblocks⟩ :=
      Gen.room_spec hi hi.oldgen (hsize ▸ hle) hb'
    have hnd := hi.nodup
    have hlt := hi.lt
    have hcg := List.mem_of_mem_head? hb'
    simp only [State.blocks, List.mem_append] at hlt
    simp only [State.blocks, List.nodup_append, List.mem_append] at hnd
    rw [List.mem_append] at hc
    grind

theorem Inv.marks {s s' : State} (hi : Inv s) (h : Relation.ReflTransGen Mark s s') :
    Inv s' ∧ s'.newgen = s.newgen ∧ s'.prevgen = s.prevgen ∧
      ∀ b ∈ s.newgen.blocks ++ s.prevgen, s'.placed b = s.placed b := by
  induction h with
  | refl => exact ⟨hi, rfl, rfl, fun _ _ => rfl⟩
  | tail _ ht ih =>
    obtain ⟨hi', hnew, hprev, hplaced⟩ := ih
    obtain ⟨hnew', hprev', hplaced'⟩ := ht.frame hi'
    rw [hnew, hprev] at hplaced'
    exact ⟨hi'.mark ht, hnew'.trans hnew, hprev'.trans hprev,
      fun b hb => (hplaced' b hb).trans (hplaced b hb)⟩

/-- The objects of the blocks of a walk stay where they are while it goes on. -/
theorem Walk.during_keeps {w : Walk} {s s' : State} (hi : Inv s) (h : w.During s s') :
    Inv s' ∧ w.blocks s' = w.blocks s ∧ ∀ b ∈ w.blocks s, s'.placed b = s.placed b := by
  have htouch (h : Relation.ReflTransGen Touch s s') :
      Inv s' ∧ s'.oldgen.blocks = s.oldgen.blocks ∧
        ∀ b ∈ s.oldgen.blocks, s'.placed b = s.placed b := by
    obtain ⟨hi', hold, hplaced⟩ := hi.touches h
    exact ⟨hi', congrArg Gen.blocks hold, fun b _ => congrFun hplaced b⟩
  cases w with
  | clearMarks => exact htouch h
  | replaceRefs => exact htouch h
  | resetDmb => exact htouch h
  | replaceRefsForNewgen => exact htouch h
  | markNewObjects =>
    obtain ⟨hi', hnew, -, hplaced⟩ := hi.marks h
    exact ⟨hi', congrArg Gen.blocks hnew, fun b hb => hplaced b (List.mem_append_left _ hb)⟩
  | markNewObjectsMajor =>
    obtain ⟨hi', -, hprev, hplaced⟩ := hi.marks h
    exact ⟨hi', hprev, fun b hb => hplaced b (List.mem_append_right _ hb)⟩

theorem Walk.size_eq {w : Walk} {s : State} (hi : Inv s) {b : Nat} (hb : b ∈ w.blocks s)
    {o : Nat × Nat} (ho : o ∈ s.placed b) : w.size s b o.1 = some o.2 := by
  -- the object itself, or its copy
  have hobject (hb : b ∈ s.newgen.blocks ++ s.prevgen) :
      Walk.markNewObjects.size s b o.1 = some o.2 := by
    unfold Walk.size
    rcases hi.copied b hb o ho with h | ⟨b', off', hf, hb', ho'⟩
    · cases hm : s.mem b o.1 with
      | object type flags nbytes =>
        rw [hm] at h
        exact h
      | forwarded b' off' =>
        rw [hm] at h
        cases h
    · rw [hf]
      exact hi.old b' hb' _ ho'
  cases w with
  | clearMarks => exact hi.old b hb o ho
  | replaceRefs => exact hi.old b hb o ho
  | resetDmb => exact hi.old b hb o ho
  | replaceRefsForNewgen => exact hi.old b hb o ho
  | markNewObjects => exact hobject (List.mem_append_left _ hb)
  | markNewObjectsMajor =>
    have hsize := hobject (List.mem_append_right _ hb)
    unfold Walk.size at hsize ⊢
    cases hm : s.mem b o.1 <;> rw [hm] at hsize <;> exact hsize

theorem mem_promoted {p q : Nat} {r : Region} {bs : List Nat} :
    ∀ {stop : Nat}, r ∈ promoted p q bs stop →
      r.block ∈ bs ∧ (r.start = BLOCK_START ∨ r.block = p ∧ r.start = q) ∧
        (r.stop = BLOCK_END ∨ r.stop = stop ∧ bs.head? = some r.block) := by
  induction bs with
  | nil =>
    intro stop h
    cases h
  | cons b bs ih =>
    intro stop h
    unfold promoted at h
    split_ifs at h with hb
    · rw [List.mem_singleton] at h
      subst h
      exact ⟨by simp, .inr ⟨hb, rfl⟩, .inr ⟨rfl, rfl⟩⟩
    · rcases List.mem_cons.mp h with rfl | h
      · exact ⟨by simp, .inl rfl, .inr ⟨rfl, rfl⟩⟩
      · obtain ⟨hm, hstart, hstop⟩ := ih h
        refine ⟨List.mem_cons_of_mem _ hm, hstart, ?_⟩
        rcases hstop with h | ⟨h, -⟩ <;> exact .inl h

/-- A walk starts at an object or at the end of the objects of its block, and it stops there or at
the end of the block. -/
theorem Walk.region_spec {w : Walk} {s : State} (hi : Inv s) {r : Region} (hr : r ∈ w.regions s) :
    r.block ∈ w.blocks s ∧ ∃ l l' last, s.placed r.block = l ++ l' ∧ Chain BLOCK_START l r.start ∧
      Chain r.start l' last ∧ (last < BLOCK_END ∨ s.Single r.block ∧ last = BLOCK_END) ∧
      (r.stop = last ∨ r.stop = BLOCK_END) := by
  obtain ⟨last, hc, hlast⟩ := hi.filled r.block
  have hlast' : last < BLOCK_END ∨ s.Single r.block ∧ last = BLOCK_END := by
    rcases hlast with h | h
    · exact .inl h
    · rw [State.Single] at h
      rw [h] at hc
      exact .inr ⟨h, hc.2.2.symm⟩
  have hwhole {bs : List Nat} (hr : r ∈ wholeBlocks bs) :
      r.block ∈ bs ∧ ∃ l l' last, s.placed r.block = l ++ l' ∧ Chain BLOCK_START l r.start ∧
        Chain r.start l' last ∧ (last < BLOCK_END ∨ s.Single r.block ∧ last = BLOCK_END) ∧
        (r.stop = last ∨ r.stop = BLOCK_END) := by
    obtain ⟨b, hb, rfl⟩ := List.mem_map.mp hr
    exact ⟨hb, [], _, last, rfl, rfl, hc, hlast', .inr rfl⟩
  cases w with
  | clearMarks => exact hwhole hr
  | replaceRefs => exact hwhole hr
  | resetDmb => exact hwhole hr
  | markNewObjects => exact hwhole hr
  | markNewObjectsMajor => exact hwhole hr
  | replaceRefsForNewgen =>
    unfold Walk.regions at hr
    cases hp : s.promotion with
    | none =>
      rw [hp] at hr
      cases hr
    | some pq =>
      obtain ⟨p, q⟩ := pq
      rw [hp] at hr
      obtain ⟨hb, hstart, hstop⟩ := mem_promoted hr
      have hstop' : r.stop = last ∨ r.stop = BLOCK_END := by
        rcases hstop with h | ⟨h, hhead⟩
        · exact .inr h
        · exact .inl (h.trans ((hi.oldgen _ hhead).unique hc))
      refine ⟨hb, ?_⟩
      rcases hstart with h | ⟨h, hq⟩
      · exact ⟨[], _, last, rfl, h.symm, h ▸ hc, hlast', hstop'⟩
      · obtain ⟨-, l, l', hl, hcl⟩ := hi.promotion p q hp
        rw [h] at hc ⊢
        rw [hl] at hc
        rw [hq]
        refine ⟨l, l', last, hl, hcl, hcl.split hc, h ▸ hlast', hstop'⟩

/-- The blocks of a walk and their objects, at each of its visits. -/
theorem Walk.keeps {w : Walk} {hs : Nat → State} (hi : Inv (hs 0))
    (hd : ∀ k, w.During (hs k) (hs (k + 1))) (k : Nat) :
    Inv (hs k) ∧ w.blocks (hs k) = w.blocks (hs 0) ∧
      ∀ b ∈ w.blocks (hs 0), (hs k).placed b = (hs 0).placed b := by
  induction k with
  | zero => exact ⟨hi, rfl, fun _ _ => rfl⟩
  | succ k ih =>
    obtain ⟨hi', hb, hp⟩ := ih
    obtain ⟨hi'', hb', hp'⟩ := during_keeps hi' (hd k)
    rw [hb] at hb' hp'
    exact ⟨hi'', hb', fun b h => (hp' b h).trans (hp b h)⟩

theorem Walk.exact_iff {w : Walk} {hs : Nat → State} (hi : Inv (hs 0))
    (hd : ∀ k, w.During (hs k) (hs (k + 1))) {r : Region} (hr : r ∈ w.regions (hs 0)) :
    w.Exact hs r ↔ (r.stop = BLOCK_END → (hs 0).Single r.block) := by
  obtain ⟨hb, l, l', last, hl, hcl, hcl', hlast, hstop⟩ := region_spec hi hr
  have hsize : ∀ k, ∀ o ∈ l', w.size (hs k) r.block o.1 = some o.2 := by
    intro k o ho
    obtain ⟨hik, hbk, hpk⟩ := keeps hi hd k
    apply size_eq hik (hbk ▸ hb)
    rw [hpk r.block hb, hl]
    exact List.mem_append_right _ ho
  have hend : BLOCK_END < 2 ^ 32 := by decide
  unfold Walk.Exact
  rw [hl, hcl.filter hcl']
  constructor
  · rintro ⟨fuel, hv⟩ hse
    rcases hlast with hlast | ⟨hsingle, -⟩
    · -- the walk goes past the last object
      have := visits_past (hse ▸ hlast) (hse ▸ hend) hcl' hsize hv
      simp at this
    · exact hsingle
  · intro hsingle
    have hlast' : r.stop = last := by
      rcases hstop with h | h
      · exact h
      · have hone := hsingle h
        rw [State.Single] at hone
        have hc := hcl.append hcl'
        rw [← hl, hone] at hc
        exact h.trans hc.2.2
    subst hlast'
    have hlt : r.stop < 2 ^ 32 := by
      rcases hlast with h | ⟨-, h⟩ <;> omega
    exact ⟨_, visits_chain hlt hcl' hsize⟩

/-- In every run, a walk visits the objects of the blocks that it goes through and nothing else if
and only if one object fills each block that it goes through to the end. -/
theorem walk_exact_iff {s : State} (h : Reachable s) (w : Walk) {hs : Nat → State} (h0 : hs 0 = s)
    (hd : ∀ k, w.During (hs k) (hs (k + 1))) :
    (∀ r ∈ w.regions s, w.Exact hs r) ↔
      ∀ r ∈ w.regions s, r.stop = BLOCK_END → s.Single r.block := by
  subst h0
  have hi := Inv.of_reachable h
  exact forall₂_congr (fun r hr => Walk.exact_iff hi hd hr)

theorem Walk.During.refl (w : Walk) (s : State) : w.During s s := by
  cases w <;> exact Relation.ReflTransGen.refl

/-- The steps of the runs below -/
inductive Act where
  | alloc (h : Header)
  | beginPromotion
  | promote (b off n : Nat)
  | resetNewgen

def State.act (s : State) : Act → Option State
  | .alloc h => if h.objectSize = some 0 then none else s.allocMem h
  | .beginPromotion => some s.beginPromotion
  | .promote b off n =>
    if b ∈ s.newgen.blocks ++ s.prevgen ∧ (off, n) ∈ s.placed b then s.addToOldgen (b, off) 0
    else none
  | .resetNewgen => some s.resetNewgen

theorem step_of_act {s s' : State} {a : Act} (h : s.act a = some s') : Step s s' := by
  cases a with
  | alloc hd =>
    rw [State.act, Option.ite_none_left_eq_some] at h
    exact .alloc h.1 h.2
  | beginPromotion =>
    cases h
    exact .beginPromotion
  | promote b off n =>
    rw [State.act, Option.ite_none_right_eq_some] at h
    exact .mark (.promote h.1.1 h.1.2 h.2)
  | resetNewgen =>
    cases h
    exact .resetNewgen

theorem steps_of_acts {s s' : State} {as : List Act} (h : as.foldlM State.act s = some s') :
    Relation.ReflTransGen Step s s' := by
  induction as generalizing s with
  | nil =>
    cases h
    exact .refl
  | cons a as ih =>
    rw [List.foldlM_cons] at h
    obtain ⟨s₁, ha, has⟩ := Option.bind_eq_some_iff.mp h
    exact .head (step_of_act ha) (ih has)

/-- A new task. Everything in memory looks like an array of no bytes. -/
def fresh : State := State.init (fun _ _ => .object 0x10 0 0)

/-- A minor collection: a cell has been allocated and copied to the old generation. -/
theorem promoted_cell :
    ∃ s, Reachable s ∧ s.oldgen.blocks = [1] ∧ s.oldgen.offset = BLOCK_START + sizeofCell ∧
      s.promotion = some (1, BLOCK_START) ∧ s.placed 1 = [(BLOCK_START, sizeofCell)] := by
  have hacts : ([.alloc (.object 3 0 0), .beginPromotion, .promote 0 BLOCK_START sizeofCell].foldlM
      State.act fresh).map (fun s =>
        (s.oldgen.blocks, s.oldgen.offset, s.promotion, s.placed 1)) =
      some ([1], BLOCK_START + sizeofCell, some (1, BLOCK_START), [(BLOCK_START, sizeofCell)]) := by
    decide +kernel
  obtain ⟨s, hs, heq⟩ := Option.map_eq_some_iff.mp hacts
  simp only [Prod.mk.injEq] at heq
  exact ⟨s, ⟨_, steps_of_acts hs⟩, heq⟩

/-- Two minor collections. The first copies an array that fills a block to the old generation, the
second another one and, behind it, two cells. -/
def twoCollections : List Act :=
  [.alloc (.object 0x10 0 BLOCK_BYTES), .beginPromotion, .promote 0 BLOCK_START BLOCK_BYTES,
    .resetNewgen,
    .alloc (.object 0x10 0 BLOCK_BYTES), .alloc (.object 3 0 0), .alloc (.object 3 0 0),
    .beginPromotion, .promote 3 BLOCK_START BLOCK_BYTES, .promote 4 BLOCK_START sizeofCell,
    .promote 4 (BLOCK_START + sizeofCell) sizeofCell]

/-- `replace_refs_for_newgen` goes through the two cells up to the next object, through the block that
the second array fills, and through what was left of the block before. -/
theorem walk_exact_twoCollections :
    ∃ s, twoCollections.foldlM State.act fresh = some s ∧ Reachable s ∧
      Walk.regions s .replaceRefsForNewgen = [⟨7, BLOCK_START, BLOCK_START + 2 * sizeofCell⟩,
        ⟨6, BLOCK_START, BLOCK_END⟩, ⟨2, BLOCK_END, BLOCK_END⟩] ∧
      ∀ r ∈ Walk.regions s .replaceRefsForNewgen,
        Walk.Exact .replaceRefsForNewgen (fun _ => s) r := by
  have hacts : (twoCollections.foldlM State.act fresh).map (fun s =>
      (s.oldgen.blocks, s.oldgen.offset, s.promotion)) =
      some ([7, 6, 2, 1], BLOCK_START + 2 * sizeofCell, some (2, BLOCK_END)) := by
    decide +kernel
  have hplaced : (twoCollections.foldlM State.act fresh).map (fun s => (s.placed 2, s.placed 6)) =
      some ([(BLOCK_START, BLOCK_BYTES)], [(BLOCK_START, BLOCK_BYTES)]) := by
    decide +kernel
  obtain ⟨s, hs, heq⟩ := Option.map_eq_some_iff.mp hacts
  rw [hs, Option.map_some, Option.some_inj, Prod.mk.injEq] at hplaced
  obtain ⟨hsecond, hsixth⟩ := hplaced
  simp only [Prod.mk.injEq] at heq
  obtain ⟨hblocks, hoff, hprom⟩ := heq
  have hreach : Reachable s := ⟨_, steps_of_acts hs⟩
  have hr : Walk.regions s .replaceRefsForNewgen =
      [⟨7, BLOCK_START, BLOCK_START + 2 * sizeofCell⟩, ⟨6, BLOCK_START, BLOCK_END⟩,
        ⟨2, BLOCK_END, BLOCK_END⟩] := by
    simp [Walk.regions, hprom, hblocks, hoff, promoted]
  refine ⟨s, hs, hreach, hr, (walk_exact_iff hreach _ rfl (fun _ => .refl _ s)).mpr ?_⟩
  rw [hr]
  intro r hr' hstop
  simp only [List.mem_cons, List.not_mem_nil, or_false] at hr'
  obtain rfl | rfl | rfl := hr'
  · cases hstop
  · exact hsixth
  · exact hsecond

/-- `clear_marks` goes on into the part of the block that has not been used. -/
theorem clearMarks_not_exact :
    ∃ s, Reachable s ∧ s.newgen.blocks = [] ∧ ∃ r ∈ Walk.regions s .clearMarks,
      ¬ Walk.Exact .clearMarks (fun _ => s) r := by
  obtain ⟨s, ⟨mem, hs⟩, hblocks, -, -, hplaced⟩ := promoted_cell
  have hs' : Reachable s.resetNewgen := ⟨mem, hs.tail .resetNewgen⟩
  have hr : (⟨1, BLOCK_START, BLOCK_END⟩ : Region) ∈ Walk.regions s.resetNewgen .clearMarks := by
    simp [Walk.regions, wholeBlocks, State.resetNewgen, hblocks]
  refine ⟨s.resetNewgen, hs', rfl, _, hr, fun he => ?_⟩
  have hiff := Walk.exact_iff (Inv.of_reachable hs') (fun _ => Walk.During.refl _ s.resetNewgen) hr
  have hsingle : s.placed 1 = [(BLOCK_START, BLOCK_BYTES)] := hiff.mp he rfl
  rw [hplaced] at hsingle
  cases hsingle

end Blocks
end Runtime
end NReduce
