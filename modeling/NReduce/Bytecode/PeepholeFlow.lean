import NReduce.Bytecode.EmitFlow
import NReduce.Bytecode.Peephole

/-!
# NReduce.Bytecode.PeepholeFlow

A round of the peephole pass as a relation, `Scanned`, and the properties of code with absolute
addresses that a round needs and keeps (`Compiled`). The code that scheme `R` emits has more of
them (`Fresh`); a round spends them, because it deletes every `POP`.
-/

namespace NReduce
namespace Bytecode

open Compiler

/-! ## The rules -/

/-- The rule used at the head of `l`, with what it found there. -/
inductive Rule (chain : Option (Nat × Bool)) : List Instr → Window → Prop where
  | chainPlain (a : Nat) (i1 i2 i3 : Instr) (rest : List Instr) (n d : Nat) (v : Int)
      (hchain : chain = some (a, false)) (h1 : i1.op = .pop n) (h2 : i2.op = .push a)
      (h3 : i3.op = .jeq d v) :
      Rule chain (i1 :: i2 :: i3 :: rest) ⟨3, [i3], [0, 0, 0], false, chain⟩
  | chainEval (a : Nat) (i1 i2 i3 i4 : Instr) (rest : List Instr) (n d : Nat) (v : Int)
      (hchain : chain = some (a, true)) (h1 : i1.op = .pop n) (h2 : i2.op = .push a)
      (h3 : i3.op = .eval i2.expcount) (h4 : i4.op = .jeq d v) :
      Rule chain (i1 :: i2 :: i3 :: i4 :: rest) ⟨4, [i4], [0, 0, 0, 0], false, chain⟩
  | sparkEval (a : Nat) (i1 i2 : Instr) (rest : List Instr) (h1 : i1.op = .spark a)
      (h2 : i2.op = .eval a) : Rule chain (i1 :: i2 :: rest) ⟨2, [i2], [0, 0], true, none⟩
  | mkframeEval (fno : Fn) (n pos : Nat) (i1 i2 : Instr) (rest : List Instr)
      (h1 : i1.op = .mkframe fno n) (h2 : i2.op = .eval pos) (hpos : i2.expcount = pos + 1) :
      Rule chain (i1 :: i2 :: rest) ⟨1, [{ i1 with op := .call fno n }], [0], false, none⟩
  | squeezeReturn (count remove : Nat) (i1 i2 : Instr) (rest : List Instr)
      (h1 : i1.op = .squeeze count remove) (h2 : i2.op = .ret) :
      Rule chain (i1 :: i2 :: rest) ⟨2, [{ i1 with op := .ret }], [0, 0], true, none⟩
  | bifJfalse (b : Bif) (addr : Nat) (i1 i2 : Instr) (rest : List Instr) (h1 : i1.op = .bif b)
      (h2 : i2.op = .jfalse addr) (hb : isComparison b = true) :
      Rule chain (i1 :: i2 :: rest) ⟨2, [{ i1 with op := .jcmp addr b }], [0, 0], true, none⟩
  | jeqChain (a d n : Nat) (v : Int) (i1 i2 i3 i4 : Instr) (rest : List Instr)
      (h1 : i1.op = .push a) (h2 : i2.op = .jeq d v) (h3 : i3.op = .pop n)
      (h4 : i4.op = .push a) :
      Rule chain (i1 :: i2 :: i3 :: i4 :: rest) ⟨2, [i1, i2], [0, 1], false, some (a, false)⟩
  | evalJeqChain (a d n : Nat) (v : Int) (i1 i2 i3 i4 i5 : Instr) (rest : List Instr)
      (h1 : i1.op = .push a) (h2 : i2.op = .eval i1.expcount) (h3 : i3.op = .jeq d v)
      (h4 : i4.op = .pop n) (h5 : i5.op = .push a) :
      Rule chain (i1 :: i2 :: i3 :: i4 :: i5 :: rest)
        ⟨3, [i1, i2, i3], [0, 1, 2], false, some (a, true)⟩
  | pop (n : Nat) (i : Instr) (rest : List Instr) (h : i.op = .pop n) :
      Rule chain (i :: rest) ⟨1, [], [0], false, none⟩
  | keep (i : Instr) (rest : List Instr) (h : ∀ n, i.op ≠ .pop n) :
      Rule chain (i :: rest) ⟨1, [i], [0], false, none⟩

theorem chainNext_rule {chain : Option (Nat × Bool)} {l : List Instr} {w : Window}
    (h : chainNext chain l = some w) : Rule chain l w := by
  unfold chainNext at h
  split at h
  · rename_i a i1 i2 i3 rest
    split at h
    · rename_i n a' d v h1 h2 h3
      split at h
      · cases h
        subst ‹a = a'›
        exact Rule.chainPlain a i1 i2 i3 rest n d v rfl h1 h2 h3
      · cases h
    · cases h
  · rename_i a i1 i2 i3 i4 rest
    split at h
    · rename_i n a' pos d v h1 h2 h3 h4
      split at h
      · rename_i hc
        cases h
        obtain ⟨rfl, rfl⟩ := hc
        exact Rule.chainEval a i1 i2 i3 i4 rest n d v rfl h1 h2 h3 h4
      · cases h
    · cases h
  · cases h

theorem sparkEval_rule {chain : Option (Nat × Bool)} {l : List Instr} {w : Window}
    (h : sparkEval l = some w) : Rule chain l w := by
  unfold sparkEval at h
  split at h
  · split at h
    · rename_i a b h1 h2
      split at h
      · cases h
        subst ‹a = b›
        exact Rule.sparkEval a _ _ _ h1 h2
      · cases h
    · cases h
  · cases h

theorem mkframeEval_rule {chain : Option (Nat × Bool)} {l : List Instr} {w : Window}
    (h : mkframeEval l = some w) : Rule chain l w := by
  unfold mkframeEval at h
  split at h
  · split at h
    · rename_i fno n pos h1 h2
      split at h
      · rename_i hpos
        cases h
        exact Rule.mkframeEval fno n pos _ _ _ h1 h2 hpos
      · cases h
    · cases h
  · cases h

theorem squeezeReturn_rule {chain : Option (Nat × Bool)} {l : List Instr} {w : Window}
    (h : squeezeReturn l = some w) : Rule chain l w := by
  unfold squeezeReturn at h
  split at h
  · split at h
    · rename_i count remove h1 h2
      cases h
      exact Rule.squeezeReturn count remove _ _ _ h1 h2
    · cases h
  · cases h

theorem bifJfalse_rule {chain : Option (Nat × Bool)} {l : List Instr} {w : Window}
    (h : bifJfalse l = some w) : Rule chain l w := by
  unfold bifJfalse at h
  split at h
  · split at h
    · rename_i b addr h1 h2
      split at h
      · rename_i hb
        cases h
        exact Rule.bifJfalse b addr _ _ _ h1 h2 hb
      · cases h
    · cases h
  · cases h

theorem jeqChain_rule {chain : Option (Nat × Bool)} {l : List Instr} {w : Window}
    (h : jeqChain l = some w) : Rule chain l w := by
  unfold jeqChain at h
  split at h
  · split at h
    · rename_i a d v n a' h1 h2 h3 h4
      split at h
      · cases h
        subst ‹a = a'›
        exact Rule.jeqChain a d n v _ _ _ _ _ h1 h2 h3 h4
      · cases h
    · cases h
  · cases h

theorem evalJeqChain_rule {chain : Option (Nat × Bool)} {l : List Instr} {w : Window}
    (h : evalJeqChain l = some w) : Rule chain l w := by
  unfold evalJeqChain at h
  split at h
  · split at h
    · rename_i a pos d v n a' h1 h2 h3 h4 h5
      split at h
      · rename_i hc
        cases h
        obtain ⟨rfl, rfl⟩ := hc
        exact Rule.evalJeqChain a d n v _ _ _ _ _ _ h1 h2 h3 h4 h5
      · cases h
    · cases h
  · cases h

theorem window_rule (chain : Option (Nat × Bool)) {l : List Instr} (hl : l ≠ []) :
    Rule chain l (window chain l) := by
  unfold window
  rcases h1 : chainNext chain l with _ | w
  · rcases h2 : sparkEval l with _ | w
    · rcases h3 : mkframeEval l with _ | w
      · rcases h4 : squeezeReturn l with _ | w
        · rcases h5 : bifJfalse l with _ | w
          · rcases h6 : jeqChain l with _ | w
            · rcases h7 : evalJeqChain l with _ | w
              · cases l with
                | nil => exact absurd rfl hl
                | cons i rest =>
                  simp only [Option.none_or, dropPop, keepOne]
                  split
                  · exact Rule.pop _ i rest ‹_›
                  · exact Rule.keep i rest ‹_›
              · exact evalJeqChain_rule h7
            · exact jeqChain_rule h6
          · exact bifJfalse_rule h5
        · exact squeezeReturn_rule h4
      · exact mkframeEval_rule h3
    · exact sparkEval_rule h2
  · exact chainNext_rule h1

/-- The main loop from the address `dest` on: the new code and the map. -/
inductive Scanned : Nat → Option (Nat × Bool) → List Instr → List Instr → List Nat → Prop where
  | nil (dest : Nat) (chain : Option (Nat × Bool)) : Scanned dest chain [] [] []
  | step {dest : Nat} {chain : Option (Nat × Bool)} {l code : List Instr} {map : List Nat}
      {w : Window} (hr : Rule chain l w)
      (hs : Scanned (dest + w.out.length) w.chain (l.drop w.taken) code map) :
      Scanned dest chain l (w.out ++ code) (w.map.map (dest + ·) ++ map)

theorem Rule.taken_pos {chain : Option (Nat × Bool)} {l : List Instr} {w : Window}
    (h : Rule chain l w) : 0 < w.taken := by
  cases h <;> exact Nat.succ_pos _

theorem scan_scanned : ∀ (fuel dest : Nat) (chain : Option (Nat × Bool)) (l : List Instr),
    l.length ≤ fuel → Scanned dest chain l (scan fuel dest chain l).code (scan fuel dest chain l).map
  | 0, dest, chain, l, h => by
    obtain rfl : l = [] := List.length_eq_zero_iff.mp (by omega)
    exact Scanned.nil dest chain
  | fuel + 1, dest, chain, l, h => by
    cases l with
    | nil => exact Scanned.nil dest chain
    | cons i rest =>
      have hr := window_rule chain (List.cons_ne_nil i rest)
      refine Scanned.step hr (scan_scanned fuel _ _ _ ?_)
      have := hr.taken_pos
      simp only [List.length_drop, List.length_cons] at h ⊢
      omega

/-! ## Redirected jumps -/

section MapTarget

variable (f : Nat → Nat) (i : Instr)

@[simp] theorem Instr.mapTarget_si : (i.mapTarget f).si = i.si := by
  unfold Instr.mapTarget
  split <;> rfl

@[simp] theorem Instr.mapTarget_expcount : (i.mapTarget f).expcount = i.expcount := by
  unfold Instr.mapTarget
  split <;> rfl

theorem Instr.mapTarget_of_none {i : Instr} (h : i.op.target = none) : i.mapTarget f = i := by
  unfold Instr.mapTarget
  rw [h]

@[simp] theorem Instr.mapTarget_target : (i.mapTarget f).op.target = i.op.target.map f := by
  obtain ⟨op, n, si⟩ := i
  cases op <;> rfl

@[simp] theorem Instr.mapTarget_falls : (i.mapTarget f).op.falls = i.op.falls := by
  obtain ⟨op, n, si⟩ := i
  cases op <;> rfl

@[simp] theorem Instr.mapTarget_post (si : List Status) :
    (i.mapTarget f).op.post si = i.op.post si := by
  obtain ⟨op, n, si'⟩ := i
  cases op <;> rfl

@[simp] theorem Instr.mapTarget_ready (si : List Status) :
    (i.mapTarget f).op.ready si ↔ i.op.ready si := by
  obtain ⟨op, n, si'⟩ := i
  cases op <;> exact Iff.rfl

/-- An instruction without the target of its jump. -/
def Instr.shape (i : Instr) : Op := i.op.setTarget 0

@[simp] theorem Instr.mapTarget_shape : (i.mapTarget f).shape = i.shape := by
  obtain ⟨op, n, si⟩ := i
  cases op <;> rfl

end MapTarget

/-- What a place to jump to looks like does not depend on the targets of its jumps. -/
theorem landing_congr {ok : Prop} : ∀ {l l' : List Instr},
    l.map Instr.shape = l'.map Instr.shape → (Landing ok l ↔ Landing ok l')
  | [], [], _ => Iff.rfl
  | [], _ :: _, h => by simp at h
  | _ :: _, [], h => by simp at h
  | i :: l, j :: l', h => by
    simp only [List.map_cons, List.cons.injEq] at h
    have ih : Landing ok l ↔ Landing ok l' := landing_congr h.2
    obtain ⟨op, n, si⟩ := i
    obtain ⟨op', n', si'⟩ := j
    have hs : op.setTarget 0 = op'.setTarget 0 := h.1
    cases op <;> cases op' <;> simp only [Op.setTarget, reduceCtorEq] at hs <;>
      first
        | exact ih
        | exact Iff.rfl

theorem falls_shape {i j : Instr} (h : i.shape = j.shape) : i.op.falls = j.op.falls := by
  obtain ⟨op, n, si⟩ := i
  obtain ⟨op', n', si'⟩ := j
  have hs : op.setTarget 0 = op'.setTarget 0 := h
  cases op <;> cases op' <;> simp only [Op.setTarget, reduceCtorEq] at hs <;> rfl

theorem jeq_shape {i j : Instr} (h : i.shape = j.shape) (hi : ∀ d v, i.op ≠ .jeq d v) :
    ∀ d v, j.op ≠ .jeq d v := by
  intro d v hj
  obtain ⟨op, n, si⟩ := i
  obtain ⟨op', n', si'⟩ := j
  have hs : op.setTarget 0 = op'.setTarget 0 := h
  simp only at hj hi
  subst hj
  cases op <;> simp only [Op.setTarget, reduceCtorEq] at hs
  exact hi _ _ rfl

theorem noJeqTail_congr {c c' : List Instr} (h : c.map Instr.shape = c'.map Instr.shape)
    (hc : NoJeqTail c) : NoJeqTail c' := by
  have key : ∀ {a b : List Instr}, a.map Instr.shape = b.map Instr.shape →
      (a.takeWhile (fun i => i.op.falls)).map Instr.shape =
        (b.takeWhile (fun i => i.op.falls)).map Instr.shape := by
    intro a
    induction a with
    | nil =>
      intro b hb
      cases b with
      | nil => rfl
      | cons j b => simp at hb
    | cons i a ih =>
      intro b hb
      cases b with
      | nil => simp at hb
      | cons j b =>
        simp only [List.map_cons, List.cons.injEq] at hb
        simp only [List.takeWhile_cons, falls_shape hb.1]
        split
        · simp only [List.map_cons, hb.1, ih hb.2]
        · rfl
  have htail : ((fallTail c).take 3).map Instr.shape = ((fallTail c').take 3).map Instr.shape := by
    rw [List.map_take, List.map_take]
    unfold fallTail
    rw [key (a := c.reverse) (b := c'.reverse) (by rw [List.map_reverse, h, ← List.map_reverse])]
  intro j hj
  obtain ⟨k, hk⟩ := List.mem_iff_getElem?.mp hj
  have : (((fallTail c).take 3).map Instr.shape)[k]? = some j.shape := by
    rw [htail, List.getElem?_map, hk, Option.map_some]
  rw [List.getElem?_map, Option.map_eq_some_iff] at this
  obtain ⟨i, hi, his⟩ := this
  exact jeq_shape his (hc i (List.mem_iff_getElem?.mpr ⟨k, hi⟩))

/-! ## Code with absolute addresses -/

/-- `a` claims of no slot that it is evaluated where `b` does not, and knows no more slots. -/
def Below (a b : List Status) : Prop :=
  a.length ≤ b.length ∧
    ∀ k : Nat, a[k]? = some Status.evaluated → b[k]? = some Status.evaluated

theorem Below.refl (a : List Status) : Below a a := ⟨Nat.le_refl _, fun _ h => h⟩

theorem Below.trans {a b c : List Status} (h1 : Below a b) (h2 : Below b c) : Below a c :=
  ⟨Nat.le_trans h1.1 h2.1, fun k hk => h2.2 k (h1.2 k hk)⟩

theorem Weaker.below {a b : List Status} (h : Weaker a b) : Below a b := by
  refine ⟨Nat.le_of_eq h.1, fun k hk => ?_⟩
  have hlt : k < b.length := h.1 ▸ (List.getElem?_eq_some_iff.mp hk).1
  have hb := List.getElem?_eq_getElem hlt
  have := h.2 k _ _ hk hb
  rw [hb]
  cases hst : b[k] <;> rw [hst] at this <;> simp [Status.toNat] at this ⊢

/-- The properties of code that a round keeps. Along an edge no status `evaluated` appears from
nowhere. The depths agree unless a value has been dropped on the way. -/
structure Compiled (A : List Instr) : Prop where
  depth : ∀ {p : Nat} {i : Instr}, A[p]? = some i → i.expcount = i.si.length
  ready : ∀ {p : Nat} {i : Instr}, A[p]? = some i → i.op.ready i.si
  post : ∀ {p : Nat} {i : Instr}, A[p]? = some i → ∃ post, i.op.post i.si = some post
  fall : ∀ {p : Nat} {i : Instr} {post : List Status}, A[p]? = some i → i.op.falls = true →
    i.op.post i.si = some post → ∃ j, A[p + 1]? = some j ∧ Below j.si post ∧
      (j.si.length = post.length ∨
        (post.getLast? = some .evaluated ∧ Landing False (A.drop (p + 1))))
  jump : ∀ {p t : Nat} {i : Instr} {post : List Status}, A[p]? = some i →
    i.op.target = some t → i.op.post i.si = some post →
    p < t ∧ ∃ j, A[t]? = some j ∧ Below j.si post
  land : ∀ {p t : Nat} {i : Instr}, A[p]? = some i → i.op.target = some t →
    Landing False (A.drop t)
  keepNothing : ∀ {p n : Nat} {i : Instr}, A[p]? = some i → i.op = .squeeze 0 n →
    Landing False (A.drop (p + 1))

/-- The properties of code before the first round. -/
structure Fresh (A : List Instr) : Prop where
  exact : ∀ {p : Nat} {i j : Instr} {post : List Status}, A[p]? = some i →
    i.op.falls = true → A[p + 1]? = some j → i.op.post i.si = some post →
    j.si.length = post.length
  pop : ∀ {p n : Nat} {i : Instr}, A[p]? = some i → i.op = .pop n →
    n = 1 ∧ i.si.getLast? = some .evaluated ∧ Landing False (A.drop (p + 1))
  tail : ∀ {p t : Nat} {i : Instr}, A[p]? = some i → i.op.target = some t →
    NoJeqTail ((A.drop p).take (t - p))

/-! ### The code of a body -/

theorem Flow.drop {exit : List Status} {c : List Instr} (h : Flow exit c) (p : Nat) :
    Flow exit (c.drop p) := by
  induction p generalizing c with
  | zero => exact h
  | succ p ih =>
    cases c with
    | nil => exact h
    | cons i rest => exact ih h.2.2

theorem Jumps.drop {ok : Prop} {c : List Instr} (h : Jumps ok c) (p : Nat) :
    Jumps ok (c.drop p) := by
  induction p generalizing c with
  | zero => exact h
  | succ p ih =>
    cases c with
    | nil => exact h
    | cons i rest => exact ih h.2.2.2

theorem drop_of_getElem? {code : List Instr} {p : Nat} {i : Instr} (h : code[p]? = some i) :
    code.drop p = i :: code.drop (p + 1) := by
  obtain ⟨hlt, rfl⟩ := List.getElem?_eq_some_iff.mp h
  exact List.drop_eq_getElem_cons hlt

theorem getElem?_absolute (code : List Instr) (p : Nat) :
    (absolute code)[p]? = (code[p]?).map (Instr.mapTarget (· + p)) := by
  unfold absolute
  rw [List.getElem?_mapIdx]

theorem absolute_shape (c : List Instr) :
    (absolute c).map Instr.shape = c.map Instr.shape := by
  apply List.ext_getElem?
  intro p
  rw [List.getElem?_map, List.getElem?_map, getElem?_absolute, Option.map_map]
  congr 1
  funext i
  simp

/-- Where code never ends, an edge leads to an instruction. -/
theorem Fits.exists_of_all {l : List Instr} {post : List Status}
    (h : ∀ exit, Fits exit l post) : ∃ j, l[0]? = some j ∧ Weaker j.si post := by
  cases l with
  | nil =>
    have := (h (post ++ [.unknown])).1
    simp at this
  | cons j l => exact ⟨j, rfl, h []⟩

/-- The body of a function as the peephole pass finds it. -/
theorem BodySpec.absolute {s : CompState} {code : List Instr} (h : BodySpec s code) :
    Compiled (absolute code) ∧ Fresh (absolute code) := by
  have hland : ∀ {t : Nat}, Landing False (code.drop t) → Landing False ((Bytecode.absolute code).drop t) := by
    intro t ht
    refine (landing_congr ?_).mp ht
    rw [List.map_drop, List.map_drop, absolute_shape]
  -- the facts about one instruction, in terms of the code before the change of addresses
  have hat : ∀ {p : Nat} {i : Instr}, (Bytecode.absolute code)[p]? = some i →
      ∃ i', code[p]? = some i' ∧ i = i'.mapTarget (· + p) := by
    intro p i hi
    rw [getElem?_absolute, Option.map_eq_some_iff] at hi
    obtain ⟨i', hi', rfl⟩ := hi
    exact ⟨i', hi', rfl⟩
  have hflow : ∀ {p : Nat} {i : Instr}, code[p]? = some i → ∀ exit, Flow exit (i :: code.drop (p + 1)) := by
    intro p i hi exit
    rw [← drop_of_getElem? hi]
    exact (h.flow exit).drop p
  have hjumps : ∀ {p : Nat} {i : Instr}, code[p]? = some i → Jumps False (i :: code.drop (p + 1)) := by
    intro p i hi
    rw [← drop_of_getElem? hi]
    exact h.jumps.drop p
  have hnext : ∀ {p : Nat} {i : Instr} {post : List Status}, code[p]? = some i →
      i.op.falls = true → i.op.post i.si = some post →
      ∃ j, code[p + 1]? = some j ∧ Weaker j.si post := by
    intro p i post hi hf hp
    obtain ⟨j, hj, hw⟩ := Fits.exists_of_all (l := code.drop (p + 1)) (fun exit => by
      obtain ⟨-, ⟨post', hp', hfall, -⟩, -⟩ := hflow hi exit
      rw [hp] at hp'
      cases hp'
      exact hfall hf)
    rw [List.getElem?_drop] at hj
    exact ⟨j, hj, hw⟩
  have htarget : ∀ {p d : Nat} {i : Instr} {post : List Status}, code[p]? = some i →
      i.op.target = some d → i.op.post i.si = some post →
      0 < d ∧ ∃ j, code[p + d]? = some j ∧ Weaker j.si post := by
    intro p d i post hi hd hp
    have hpos : 0 < d := by
      obtain ⟨-, ⟨_, -, -, ht⟩, -⟩ := hflow hi []
      exact (ht d hd).1
    obtain ⟨j, hj, hw⟩ := Fits.exists_of_all (l := (code.drop p).drop d) (fun exit => by
      obtain ⟨-, ⟨post', hp', -, ht⟩, -⟩ := hflow hi exit
      rw [hp] at hp'
      cases hp'
      have := (ht d hd).2.2
      rwa [← drop_of_getElem? hi] at this)
    rw [List.drop_drop, List.getElem?_drop] at hj
    exact ⟨hpos, j, by simpa using hj, hw⟩
  refine ⟨⟨?_, ?_, ?_, ?_, ?_, ?_, ?_⟩, ⟨?_, ?_, ?_⟩⟩
  · intro p i hi
    obtain ⟨i', hi', rfl⟩ := hat hi
    simpa using (hflow hi' []).1.1
  · intro p i hi
    obtain ⟨i', hi', rfl⟩ := hat hi
    simpa using (hflow hi' []).1.2
  · intro p i hi
    obtain ⟨i', hi', rfl⟩ := hat hi
    obtain ⟨-, ⟨post, hp, -, -⟩, -⟩ := hflow hi' []
    exact ⟨post, by simpa using hp⟩
  · intro p i post hi hf hp
    obtain ⟨i', hi', rfl⟩ := hat hi
    simp only [Instr.mapTarget_falls, Instr.mapTarget_post, Instr.mapTarget_si] at hf hp
    obtain ⟨j, hj, hw⟩ := hnext hi' hf hp
    refine ⟨j.mapTarget (· + (p + 1)), by rw [getElem?_absolute, hj, Option.map_some], ?_, ?_⟩
    · rw [Instr.mapTarget_si]
      exact hw.below
    · rw [Instr.mapTarget_si]
      exact Or.inl hw.1
  · intro p t i post hi ht hp
    obtain ⟨i', hi', rfl⟩ := hat hi
    simp only [Instr.mapTarget_target, Option.map_eq_some_iff] at ht
    obtain ⟨d, hd, rfl⟩ := ht
    simp only [Instr.mapTarget_post, Instr.mapTarget_si] at hp
    obtain ⟨hpos, j, hj, hw⟩ := htarget hi' hd hp
    refine ⟨by omega, j.mapTarget (· + (d + p)), ?_, ?_⟩
    · rw [getElem?_absolute, Nat.add_comm d p, hj, Option.map_some]
    · rw [Instr.mapTarget_si]
      exact hw.below
  · intro p t i hi ht
    obtain ⟨i', hi', rfl⟩ := hat hi
    simp only [Instr.mapTarget_target, Option.map_eq_some_iff] at ht
    obtain ⟨d, hd, rfl⟩ := ht
    have := (hjumps hi').1 d hd
    rw [← drop_of_getElem? hi', List.drop_drop] at this
    rw [Nat.add_comm d p]
    exact hland this.2.2.1
  · intro p n i hi hn
    obtain ⟨i', hi', rfl⟩ := hat hi
    obtain ⟨op, e, si⟩ := i'
    cases op <;> simp only [Instr.mapTarget, Op.target, Op.setTarget, reduceCtorEq] at hn
    cases hn
    exact hland ((hjumps hi').2.2.1 n rfl)
  · intro p i j post hi hf hj hp
    obtain ⟨i', hi', rfl⟩ := hat hi
    obtain ⟨j', hj', rfl⟩ := hat hj
    simp only [Instr.mapTarget_falls, Instr.mapTarget_post, Instr.mapTarget_si] at hf hp ⊢
    obtain ⟨j'', hj'', hw⟩ := hnext hi' hf hp
    rw [hj'] at hj''
    cases hj''
    exact hw.1
  · intro p n i hi hn
    obtain ⟨i', hi', rfl⟩ := hat hi
    obtain ⟨op, e, si⟩ := i'
    cases op <;> simp only [Instr.mapTarget, Op.target, Op.setTarget, reduceCtorEq] at hn
    cases hn
    obtain ⟨h1, htop, hl⟩ := (hjumps hi').2.1 n rfl
    exact ⟨h1, htop, hland hl⟩
  · intro p t i hi ht
    obtain ⟨i', hi', rfl⟩ := hat hi
    simp only [Instr.mapTarget_target, Option.map_eq_some_iff] at ht
    obtain ⟨d, hd, rfl⟩ := ht
    have := (hjumps hi').1 d hd
    rw [← drop_of_getElem? hi'] at this
    refine noJeqTail_congr ?_ this.2.2.2
    rw [List.map_take, List.map_take, List.map_drop, List.map_drop, absolute_shape]
    congr 1
    omega

/-! ## Where the main loop is -/

/-- Some jump of the code goes to `t`. -/
def IsTarget (A : List Instr) (t : Nat) : Prop :=
  ∃ (p : Nat) (i : Instr), A[p]? = some i ∧ i.op.target = some t

/-- The code `A'` is made from `A` by a round with the map `M`. -/
structure Round (A A' : List Instr) (M : Nat → Nat) : Prop where
  scanned : ∃ code map, Scanned 0 none A code map ∧ A' = code.map (Instr.mapTarget M) ∧
    M = fun addr => map.getD addr 0

/-- The map of a round. -/
def roundMap (A : List Instr) (addr : Nat) : Nat := (scan A.length 0 none A).map.getD addr 0

theorem peepholeRound_round (A : List Instr) : Round A (peepholeRound A).1 (roundMap A) :=
  ⟨_, _, scan_scanned A.length 0 none A (Nat.le_refl _), rfl, rfl⟩

/-- The main loop has come to the address `p` of the old code and `dest` of the new. -/
structure Here (A A' : List Instr) (M : Nat → Nat) (p dest : Nat) (chain : Option (Nat × Bool)) :
    Prop where
  scanned : ∃ code map, Scanned dest chain (A.drop p) code map ∧
    A'.drop dest = code.map (Instr.mapTarget M) ∧ ∀ k, p + k < A.length → M (p + k) = map.getD k 0
  prev : chain ≠ none →
    (0 < p ∧ ∃ (i : Instr) (d : Nat) (v : Int), A[p - 1]? = some i ∧ i.op = .jeq d v) ∧
      ∃ (q : Nat) (i : Instr) (n : Nat), A[q]? = some i ∧ i.op = .pop n

theorem Round.here {A A' : List Instr} {M : Nat → Nat} (h : Round A A' M) :
    Here A A' M 0 0 none := by
  obtain ⟨code, map, hs, rfl, rfl⟩ := h.scanned
  exact ⟨⟨code, map, hs, rfl, fun k _ => by rw [Nat.zero_add]⟩, fun h => absurd rfl h⟩

/-- The window that the loop looks at. -/
structure At (A A' : List Instr) (M : Nat → Nat) (p dest : Nat) (chain : Option (Nat × Bool))
    (w : Window) : Prop where
  rule : Rule chain (A.drop p) w
  out : ∀ (k : Nat) (i : Instr), w.out[k]? = some i → A'[dest + k]? = some (i.mapTarget M)
  map : ∀ k d : Nat, w.map[k]? = some d → M (p + k) = dest + d
  next : Here A A' M (p + w.taken) (dest + w.out.length) w.chain

theorem Rule.map_length {chain : Option (Nat × Bool)} {l : List Instr} {w : Window}
    (h : Rule chain l w) : w.map.length = w.taken := by
  cases h <;> rfl

theorem Rule.map_zero {chain : Option (Nat × Bool)} {l : List Instr} {w : Window}
    (h : Rule chain l w) : w.map[0]? = some 0 := by
  cases h <;> rfl

theorem Rule.taken_le {chain : Option (Nat × Bool)} {l : List Instr} {w : Window}
    (h : Rule chain l w) : w.taken ≤ l.length := by
  cases h <;> simp

/-- A chain goes on after a `JEQ`, and there is a `POP` in it. -/
theorem Rule.chain_prev {chain : Option (Nat × Bool)} {l : List Instr} {w : Window}
    (h : Rule chain l w) (hc : w.chain ≠ none) :
    (∃ (i : Instr) (d : Nat) (v : Int), l[w.taken - 1]? = some i ∧ i.op = .jeq d v) ∧
      ∃ (k : Nat) (i : Instr) (n : Nat), l[k]? = some i ∧ i.op = .pop n := by
  cases h with
  | chainPlain a i1 i2 i3 rest n d v _ h1 _ h3 => exact ⟨⟨i3, d, v, rfl, h3⟩, 0, i1, n, rfl, h1⟩
  | chainEval a i1 i2 i3 i4 rest n d v _ h1 _ _ h4 => exact ⟨⟨i4, d, v, rfl, h4⟩, 0, i1, n, rfl, h1⟩
  | jeqChain a d n v i1 i2 i3 i4 rest _ h2 h3 _ => exact ⟨⟨i2, d, v, rfl, h2⟩, 2, i3, n, rfl, h3⟩
  | evalJeqChain a d n v i1 i2 i3 i4 i5 rest _ _ h3 h4 _ =>
    exact ⟨⟨i3, d, v, rfl, h3⟩, 3, i4, n, rfl, h4⟩
  | _ => exact absurd rfl hc

theorem Here.cases {A A' : List Instr} {M : Nat → Nat} {p dest : Nat}
    {chain : Option (Nat × Bool)} (h : Here A A' M p dest chain) :
    (A.drop p = [] ∧ A'.drop dest = []) ∨ ∃ w, At A A' M p dest chain w := by
  obtain ⟨code, map, hs, hA', hM⟩ := h.scanned
  generalize hl : A.drop p = l at hs
  cases hs with
  | nil => exact Or.inl ⟨rfl, by simpa using hA'⟩
  | @step _ _ _ code' map' w hr hs' =>
    right
    have hle := hr.taken_le
    have hml := hr.map_length
    have hlen : p + w.taken ≤ A.length := by
      rw [← hl, List.length_drop] at hle
      have := hr.taken_pos
      omega
    refine ⟨w, hl ▸ hr, ?_, ?_, ⟨⟨code', map', ?_, ?_, ?_⟩, ?_⟩⟩
    · intro k i hk
      have : (A'.drop dest)[k]? = some (i.mapTarget M) := by
        rw [hA', List.map_append, List.getElem?_append_left (by
          rw [List.length_map]; exact (List.getElem?_eq_some_iff.mp hk).1), List.getElem?_map, hk,
          Option.map_some]
      rwa [List.getElem?_drop] at this
    · intro k d hk
      have hlt := (List.getElem?_eq_some_iff.mp hk).1
      rw [hM k (by omega), List.getD_eq_getElem?_getD, List.getElem?_append_left (by simpa using hlt),
        List.getElem?_map, hk]
      rfl
    · rw [← List.drop_drop, hl]
      exact hs'
    · rw [← List.drop_drop, hA', List.map_append, List.drop_left' (by simp)]
    · intro k hk
      rw [Nat.add_assoc, hM (w.taken + k) (by omega), List.getD_eq_getElem?_getD,
        List.getElem?_append_right (by simp; omega), List.getD_eq_getElem?_getD]
      congr 2
      simp
      omega
    · intro hc
      obtain ⟨⟨i, d, v, hi, hop⟩, k, i', n, hi', hop'⟩ := hr.chain_prev hc
      have := hr.taken_pos
      rw [← hl, List.getElem?_drop] at hi hi'
      refine ⟨⟨by omega, i, d, v, ?_, hop⟩, p + k, i', n, hi', hop'⟩
      rw [show p + w.taken - 1 = p + (w.taken - 1) by omega]
      exact hi

theorem At.getElem? {A A' : List Instr} {M : Nat → Nat} {p dest : Nat}
    {chain : Option (Nat × Bool)} {w : Window} (_h : At A A' M p dest chain w) {k : Nat}
    {i : Instr} (hk : (A.drop p)[k]? = some i) : A[p + k]? = some i := by
  rwa [List.getElem?_drop] at hk

/-- The map never goes back. -/
theorem Here.le_map {A A' : List Instr} {M : Nat → Nat} {p dest : Nat}
    {chain : Option (Nat × Bool)} (h : Here A A' M p dest chain) {t : Nat} (hp : p ≤ t)
    (ht : t < A.length) : dest ≤ M t := by
  induction hk : A.length - p using Nat.strongRecOn generalizing p dest chain with
  | _ k ih =>
  rcases h.cases with ⟨hl, -⟩ | ⟨w, hw⟩
  · rw [List.drop_eq_nil_iff] at hl
    omega
  · have htp := hw.rule.taken_pos
    by_cases hlt : t < p + w.taken
    · have hml := hw.rule.map_length
      have hi : t - p < w.map.length := by omega
      have := hw.map (t - p) _ (List.getElem?_eq_getElem hi)
      rw [show p + (t - p) = t by omega] at this
      omega
    · have := ih (A.length - (p + w.taken)) (by omega) hw.next (by omega) rfl
      omega

/-! ## A round keeps `Compiled` -/

def NoPop (A : List Instr) : Prop := ∀ {p n : Nat} {i : Instr}, A[p]? = some i → i.op ≠ .pop n

/-- What a round expects of its code. -/
structure Ready (A : List Instr) : Prop where
  compiled : Compiled A
  fresh : Fresh A ∨ NoPop A

theorem Ready.fresh_of_pop {A : List Instr} (h : Ready A) {p n : Nat} {i : Instr}
    (hi : A[p]? = some i) (hn : i.op = .pop n) : Fresh A :=
  h.fresh.resolve_right (fun hno => hno hi hn)

theorem getElem?_takeWhile {α : Type} {P : α → Bool} : ∀ {l : List α} {k : Nat},
    (∀ m ≤ k, ∃ x, l[m]? = some x ∧ P x = true) → (l.takeWhile P)[k]? = l[k]?
  | [], _, h => by
    obtain ⟨x, hx, -⟩ := h 0 (Nat.zero_le _)
    simp at hx
  | y :: l, k, h => by
    obtain ⟨x, hx, hP⟩ := h 0 (Nat.zero_le _)
    rw [List.getElem?_cons_zero, Option.some.injEq] at hx
    subst hx
    rw [List.takeWhile_cons, if_pos hP]
    cases k with
    | zero => rfl
    | succ k =>
      rw [List.getElem?_cons_succ, List.getElem?_cons_succ]
      refine getElem?_takeWhile (fun m hm => ?_)
      obtain ⟨x, hx, hP⟩ := h (m + 1) (by omega)
      exact ⟨x, by rwa [List.getElem?_cons_succ] at hx, hP⟩

/-- No `JEQ` stands before a target, with at most two plain instructions in between. -/
theorem Fresh.no_jeq {A : List Instr} (hf : Fresh A) (hc : Compiled A) {t k d : Nat} {v : Int}
    {j : Instr} (ht : IsTarget A t) (hk : 0 < k) (hk3 : k ≤ 3) (hkt : k ≤ t)
    (hj : A[t - k]? = some j) (hop : j.op = .jeq d v)
    (hbetween : ∀ m, 0 < m → m < k →
      ∃ i : Instr, A[t - m]? = some i ∧ i.op.falls = true ∧ i.op.target = none) : False := by
  obtain ⟨p, i, hi, hti⟩ := ht
  obtain ⟨post, hpost⟩ := hc.post hi
  obtain ⟨hpt, -⟩ := hc.jump hi hti hpost
  -- the jump does not stand between the JEQ and its target
  have hpk : p ≤ t - k := by
    by_contra hlt
    obtain ⟨i', hi', -, hn⟩ := hbetween (t - p) (by omega) (by omega)
    rw [show t - (t - p) = p by omega, hi] at hi'
    cases hi'
    rw [hti] at hn
    cases hn
  have htail := hf.tail hi hti
  have hlen : t - p ≤ (A.drop p).length := by
    rw [List.length_drop]
    have := (hc.jump hi hti hpost).2
    obtain ⟨j', hj', -⟩ := this
    have := (List.getElem?_eq_some_iff.mp hj').1
    omega
  refine htail j ?_ d v hop
  have hget : ∀ m, 0 < m → m ≤ k →
      ((A.drop p).take (t - p)).reverse[m - 1]? = A[t - m]? := by
    intro m hm hmk
    rw [List.getElem?_reverse (by rw [List.length_take]; omega), List.length_take,
      Nat.min_eq_left hlen, List.getElem?_take, if_pos (by omega), List.getElem?_drop]
    congr 1
    omega
  unfold fallTail
  generalize ((A.drop p).take (t - p)).reverse = r at hget
  rw [List.mem_iff_getElem?]
  refine ⟨k - 1, ?_⟩
  rw [List.getElem?_take, if_pos (by omega), getElem?_takeWhile, hget k hk (Nat.le_refl _), hj]
  intro m hm
  by_cases hmk : m = k - 1
  · exact ⟨j, by rw [hmk, hget k hk (Nat.le_refl _), hj], by rw [hop]; rfl⟩
  · obtain ⟨i', hi', hfall, -⟩ := hbetween (m + 1) (by omega) (by omega)
    exact ⟨i', by rw [← hi', ← hget (m + 1) (by omega) (by omega)]; rfl, hfall⟩

theorem post_pop {si post : List Status} (h : (Op.pop 1).post si = some post) :
    post = si.take (si.length - 1) := by
  simp only [Op.post, Op.effect, Option.map_map] at h
  cases hp : popStatus 1 si with
  | none => simp [hp] at h
  | some si' =>
    rw [hp] at h
    simp only [Option.map_some, Function.comp, Option.some.injEq] at h
    rw [← h]
    exact (popStatus_some hp).2

theorem post_push {a : Nat} {si post : List Status} (h : (Op.push a).post si = some post) :
    ∃ st, si[a]? = some st ∧ post = si ++ [st] := by
  simp only [Op.post, Op.effect, Option.map_map] at h
  cases hs : si[a]? with
  | none => simp [hs] at h
  | some st =>
    rw [hs] at h
    simp only [Option.map_some, Function.comp, Option.some.injEq] at h
    exact ⟨st, rfl, h.symm⟩

theorem post_eval {pos : Nat} {si post : List Status} (h : (Op.eval pos).post si = some post) :
    pos < si.length ∧ post = si.set pos .evaluated := by
  simp only [Op.post, Op.effect] at h
  split at h
  · simp only [Option.map_some, Option.some.injEq] at h
    exact ⟨‹_›, h.symm⟩
  · cases h

theorem post_jeq {d : Nat} {v : Int} {si post : List Status}
    (h : (Op.jeq d v).post si = some post) : post = si := by
  simp only [Op.post, Op.effect, Option.map_some, Option.some.injEq] at h
  exact h.symm

/-- An edge of the code before the first round. -/
theorem Ready.edge {A : List Instr} (h : Ready A) (hf : Fresh A) {p : Nat} {i j : Instr}
    (hi : A[p]? = some i) (hj : A[p + 1]? = some j) (hfall : i.op.falls = true) :
    ∃ post, i.op.post i.si = some post ∧ Below j.si post ∧ j.si.length = post.length := by
  obtain ⟨post, hpost⟩ := h.compiled.post hi
  obtain ⟨j', hj', hb, -⟩ := h.compiled.fall hi hfall hpost
  rw [hj] at hj'
  cases hj'
  exact ⟨post, hpost, hb, hf.exact hi hfall hj hpost⟩

theorem getLast?_evaluated_iff {si : List Status} :
    si.getLast? = some .evaluated ↔ si[si.length - 1]? = some .evaluated := by
  rw [List.getLast?_eq_getElem?]

/-- The tests of a chain look at the stack as it was before the `POP`. -/
theorem Ready.chain_below {A : List Instr} (h : Ready A) {p n : Nat} {i1 i2 j : Instr}
    (h1 : A[p]? = some i1) (h2 : A[p + 1]? = some i2) (hop1 : i1.op = .pop n)
    (hlen : j.si.length = i2.si.length + 1)
    (hbelow : ∀ k < i2.si.length, j.si[k]? = some .evaluated → i2.si[k]? = some .evaluated) :
    Below j.si i1.si ∧ j.si.length = i1.si.length ∧ i1.si.length = i2.si.length + 1 := by
  have hf := h.fresh_of_pop h1 hop1
  obtain ⟨rfl, htop, -⟩ := hf.pop h1 hop1
  obtain ⟨post, hpost, hb, hl⟩ := h.edge hf h1 h2 (by rw [hop1]; rfl)
  rw [hop1] at hpost
  have hpost' := post_pop hpost
  have hne : 0 < i1.si.length := by
    cases hsi : i1.si with
    | nil => rw [hsi] at htop; simp at htop
    | cons x l => simp
  have hl1 : i1.si.length = i2.si.length + 1 := by
    rw [hpost', List.length_take] at hl
    omega
  refine ⟨⟨by omega, ?_⟩, by omega, hl1⟩
  intro k hk
  by_cases hk2 : k < i2.si.length
  · have := hb.2 k (hbelow k hk2 hk)
    rw [hpost', List.getElem?_take, if_pos (by omega)] at this
    exact this
  · have hkl := (List.getElem?_eq_some_iff.mp hk).1
    rw [getLast?_evaluated_iff] at htop
    rw [show k = i1.si.length - 1 by omega]
    exact htop

/-- Only `POP` and `SQUEEZE` are looked through. -/
theorem landing_head {ok ok' : Prop} {i j : Instr} {l l' : List Instr}
    (h : Landing ok (i :: l)) (hpop : ∀ n, i.op ≠ .pop n) (hsq : ∀ n m, i.op ≠ .squeeze n m)
    (hs : i.shape = j.shape) : Landing ok' (j :: l') := by
  obtain ⟨op, n, si⟩ := i
  obtain ⟨op', n', si'⟩ := j
  have hs' : op.setTarget 0 = op'.setTarget 0 := hs
  cases op <;> first
    | exact absurd rfl (hpop _)
    | exact absurd rfl (hsq _ _)
    | exact h.elim
    | (cases op' <;> simp only [Op.setTarget, reduceCtorEq] at hs'; trivial)

theorem getElem?_of_drop {A : List Instr} {p k : Nat} {l : List Instr} {i : Instr}
    (hl : A.drop p = l) (hk : l[k]? = some i) : A[p + k]? = some i := by
  rw [← hl, List.getElem?_drop] at hk
  exact hk

/-- The instruction that the new code has for the one at `p`. -/
theorem Ready.first_out {A A' : List Instr} {M : Nat → Nat} (h : Ready A) {p dest : Nat}
    {chain : Option (Nat × Bool)} (hh : Here A A' M p dest chain) {i : Instr}
    (hi : A[p]? = some i) :
    ∃ j, A'[dest]? = some j ∧ Below j.si i.si ∧
      (j.si.length = i.si.length ∨
        (i.si.getLast? = some .evaluated ∧ Landing False (A'.drop dest))) ∧
      (chain = none → Landing False (A.drop p) → Landing False (A'.drop dest)) := by
  induction hk : A.length - p using Nat.strongRecOn generalizing p dest chain i with
  | _ k ih =>
  have hplt := (List.getElem?_eq_some_iff.mp hi).1
  rcases hh.cases with ⟨hl, -⟩ | ⟨w, hw⟩
  · rw [List.drop_eq_nil_iff] at hl
    omega
  obtain ⟨hr, hout, -, hnext⟩ := hw
  have hdrop : A.drop p = i :: A.drop (p + 1) := drop_of_getElem? hi
  generalize hl : A.drop p = l at hr hdrop
  -- a new instruction with the stack picture of the old one
  have hsame : ∀ {j : Instr}, A'[dest]? = some j → j.si = i.si →
      (Landing False (i :: A.drop (p + 1)) → ∀ l', Landing False (j :: l')) →
      ∃ j, A'[dest]? = some j ∧ Below j.si i.si ∧
        (j.si.length = i.si.length ∨
          (i.si.getLast? = some .evaluated ∧ Landing False (A'.drop dest))) ∧
        (chain = none → Landing False l → Landing False (A'.drop dest)) := by
    intro j hj hsi hland
    refine ⟨j, hj, hsi ▸ Below.refl _, Or.inl (by rw [hsi]), fun _ hla => ?_⟩
    rw [drop_of_getElem? hj]
    rw [hdrop] at hla
    exact hland hla _
  cases hr with
  | chainPlain a i1 i2 i3 rest n d v hchain h1 h2 h3 =>
    obtain ⟨rfl, -⟩ := List.cons.inj hdrop
    have hi2 := getElem?_of_drop (k := 1) hl rfl
    have hi3 := getElem?_of_drop (k := 2) hl rfl
    have hf := h.fresh_of_pop hi h1
    obtain ⟨post, hpost, hb, hlen⟩ := h.edge hf hi2 hi3 (by rw [h2]; rfl)
    rw [h2] at hpost
    obtain ⟨st, -, rfl⟩ := post_push hpost
    obtain ⟨hbelow, hlen', -⟩ := h.chain_below (j := i3) hi hi2 h1 (by simpa using hlen)
      (fun k hk hev => by
        have := hb.2 k hev
        rwa [List.getElem?_append_left hk] at this)
    refine ⟨i3.mapTarget M, hout 0 i3 rfl, by simpa using hbelow, Or.inl (by simpa using hlen'), ?_⟩
    intro hc
    rw [hchain] at hc
    cases hc
  | chainEval a i1 i2 i3 i4 rest n d v hchain h1 h2 h3 h4 =>
    obtain ⟨rfl, -⟩ := List.cons.inj hdrop
    have hi2 := getElem?_of_drop (k := 1) hl rfl
    have hi3 := getElem?_of_drop (k := 2) hl rfl
    have hi4 := getElem?_of_drop (k := 3) hl rfl
    have hf := h.fresh_of_pop hi h1
    obtain ⟨post, hpost, hb, hlen⟩ := h.edge hf hi2 hi3 (by rw [h2]; rfl)
    obtain ⟨post', hpost', hb', hlen'⟩ := h.edge hf hi3 hi4 (by rw [h3]; rfl)
    rw [h2] at hpost
    rw [h3] at hpost'
    obtain ⟨st, -, rfl⟩ := post_push hpost
    obtain ⟨-, rfl⟩ := post_eval hpost'
    rw [h.compiled.depth hi2] at hb'
    simp only [List.length_append, List.length_set, List.length_cons, List.length_nil] at hlen hlen'
    obtain ⟨hbelow, hlen4, -⟩ := h.chain_below (j := i4) hi hi2 h1 (by omega)
      (fun k hk hev => by
        have := hb'.2 k hev
        rw [List.getElem?_set_ne (by omega)] at this
        have := hb.2 k this
        rwa [List.getElem?_append_left hk] at this)
    refine ⟨i4.mapTarget M, hout 0 i4 rfl, by simpa using hbelow, Or.inl (by simpa using hlen4), ?_⟩
    intro hc
    rw [hchain] at hc
    cases hc
  | sparkEval a i1 i2 rest h1 h2 =>
    obtain ⟨rfl, -⟩ := List.cons.inj hdrop
    have hi2 := getElem?_of_drop (k := 1) hl rfl
    have hj := hout 0 i2 rfl
    rw [Instr.mapTarget_of_none M (by rw [h2]; rfl)] at hj
    obtain ⟨post, hpost⟩ := h.compiled.post hi
    obtain ⟨j', hj', hb, hexact⟩ := h.compiled.fall hi (by rw [h1]; rfl) hpost
    rw [hi2] at hj'
    cases hj'
    have hland : Landing False (A'.drop dest) := by
      rw [show dest = dest + 0 from rfl, drop_of_getElem? hj]
      exact landing_plain _ (by rw [h2]; rfl)
    -- a spark changes no status to or from `evaluated`
    have hpost' : post.length = i1.si.length ∧
        ∀ k : Nat, post[k]? = some .evaluated → i1.si[k]? = some .evaluated := by
      rw [h1] at hpost
      simp only [Op.post, Op.effect, Option.map_map, Option.map_eq_some_iff, Function.comp] at hpost
      obtain ⟨st, -, rfl⟩ := hpost
      split
      · refine ⟨by simp, fun k hk => ?_⟩
        simp only [List.getElem?_set] at hk
        split at hk
        · split at hk <;> simp at hk
        · exact hk
      · exact ⟨rfl, fun _ hk => hk⟩
    refine ⟨i2, hj, ⟨by have := hb.1; omega, fun k hk => hpost'.2 k (hb.2 k hk)⟩, ?_, fun _ _ => hland⟩
    rcases hexact with hlen | ⟨hlast, -⟩
    · exact Or.inl (by omega)
    · rw [getLast?_evaluated_iff, hpost'.1] at hlast
      exact Or.inr ⟨getLast?_evaluated_iff.mpr (hpost'.2 _ hlast), hland⟩
  | mkframeEval fno n pos i1 i2 rest h1 h2 hpos =>
    obtain ⟨rfl, -⟩ := List.cons.inj hdrop
    exact hsame (hout 0 _ rfl) (by simp) (fun _ l' => landing_plain l' rfl)
  | squeezeReturn count remove i1 i2 rest h1 h2 =>
    obtain ⟨rfl, hrest⟩ := List.cons.inj hdrop
    refine hsame (hout 0 _ rfl) (by simp) (fun hla => ?_)
    rw [← hrest] at hla
    simp [Landing, h1, h2] at hla
  | bifJfalse b addr i1 i2 rest h1 h2 hb =>
    obtain ⟨rfl, -⟩ := List.cons.inj hdrop
    exact hsame (hout 0 _ rfl) (by simp) (fun _ l' => by simp [Landing, Instr.mapTarget, Op.target, Op.setTarget])
  | jeqChain a d n v i1 i2 i3 i4 rest h1 h2 h3 h4 =>
    obtain ⟨rfl, -⟩ := List.cons.inj hdrop
    refine hsame (hout 0 _ rfl) (by simp) (fun _ l' => ?_)
    rw [Instr.mapTarget_of_none M (by rw [h1]; rfl)]
    exact landing_plain l' (by rw [h1]; rfl)
  | evalJeqChain a d n v i1 i2 i3 i4 i5 rest h1 h2 h3 h4 h5 =>
    obtain ⟨rfl, -⟩ := List.cons.inj hdrop
    refine hsame (hout 0 _ rfl) (by simp) (fun _ l' => ?_)
    rw [Instr.mapTarget_of_none M (by rw [h1]; rfl)]
    exact landing_plain l' (by rw [h1]; rfl)
  | pop n i1 rest h1 =>
    obtain ⟨rfl, hrest⟩ := List.cons.inj hdrop
    obtain ⟨rfl, htop, hafter⟩ := (h.fresh_of_pop hi h1).pop hi h1
    obtain ⟨post, hpost⟩ := h.compiled.post hi
    obtain ⟨j0, hj0, hb, -⟩ := h.compiled.fall hi (by rw [h1]; rfl) hpost
    rw [h1] at hpost
    obtain rfl := post_pop hpost
    obtain ⟨j, hj, hbj, -, hland⟩ := ih (A.length - (p + 1)) (by omega) hnext hj0 rfl
    refine ⟨j, hj, ?_, Or.inr ⟨htop, hland rfl hafter⟩, fun _ _ => hland rfl hafter⟩
    · refine hbj.trans (hb.trans ⟨by rw [List.length_take]; omega, fun k hk => ?_⟩)
      rw [List.getElem?_take] at hk
      split at hk
      · exact hk
      · cases hk
  | keep i1 rest h1 =>
    obtain ⟨rfl, hrest⟩ := List.cons.inj hdrop
    have hj := hout 0 _ rfl
    by_cases hsq : ∃ c r, i1.op = .squeeze c r
    · obtain ⟨c, r, hop⟩ := hsq
      rw [Instr.mapTarget_of_none M (by rw [hop]; rfl)] at hj
      refine ⟨i1, hj, Below.refl _, Or.inl rfl, fun _ hla => ?_⟩
      obtain ⟨post, hpost⟩ := h.compiled.post hi
      obtain ⟨j0, hj0, -, -⟩ := h.compiled.fall hi (by rw [hop]; rfl) hpost
      obtain ⟨j, hj', -, -, hland⟩ := ih (A.length - (p + 1)) (by omega) hnext hj0 rfl
      rw [show dest = dest + 0 from rfl, drop_of_getElem? hj]
      have : Landing False (A.drop (p + 1)) := by
        rw [← hrest]
        simpa [Landing, hop] using hla
      simpa [Landing, hop] using hland rfl this
    · refine hsame hj (by simp) (fun hla l' => ?_)
      exact landing_head hla h1 (fun c r hop => hsq ⟨c, r, hop⟩) (by simp)

/-- No jump goes into a chain. -/
theorem Ready.not_in_chain {A A' : List Instr} {M : Nat → Nat} (h : Ready A) {p dest : Nat}
    {chain : Option (Nat × Bool)} (hh : Here A A' M p dest chain) (hc : chain ≠ none) {k : Nat}
    (hk : k < 3) (ht : IsTarget A (p + k))
    (hplain : ∀ m < k, ∃ i : Instr, A[p + m]? = some i ∧ i.op.falls = true ∧
      i.op.target = none) : False := by
  obtain ⟨⟨hp, j, d, v, hj, hop⟩, q, i, n, hi, hpop⟩ := hh.prev hc
  refine (h.fresh_of_pop hi hpop).no_jeq h.compiled (k := k + 1) (j := j) ht (by omega) (by omega)
    (by omega) (by rw [show p + k - (k + 1) = p - 1 by omega]; exact hj) hop ?_
  intro m hm hmk
  obtain ⟨i', hi', hf, hn⟩ := hplain (k - m) (by omega)
  exact ⟨i', by rw [show p + k - m = p + (k - m) by omega]; exact hi', hf, hn⟩

/-- Where a jump may enter a window: at its start, or at an `EVAL` after a `SPARK` or after the
first `PUSH` of a chain. -/
inductive Enters (A : List Instr) (p : Nat) (chain : Option (Nat × Bool)) (w : Window) :
    Nat → Prop where
  | start (hc : chain = none) : Enters A p chain w p
  | afterSpark (a : Nat) (i1 i2 : Instr) (rest : List Instr) (hl : A.drop p = i1 :: i2 :: rest)
      (h1 : i1.op = .spark a) (h2 : i2.op = .eval a) (hw : w = ⟨2, [i2], [0, 0], true, none⟩) :
      Enters A p chain w (p + 1)
  | afterPush (a d n : Nat) (v : Int) (i1 i2 i3 i4 i5 : Instr) (rest : List Instr)
      (hl : A.drop p = i1 :: i2 :: i3 :: i4 :: i5 :: rest) (h1 : i1.op = .push a)
      (h2 : i2.op = .eval i1.expcount) (h3 : i3.op = .jeq d v) (h4 : i4.op = .pop n)
      (h5 : i5.op = .push a) (hw : w = ⟨3, [i1, i2, i3], [0, 1, 2], false, some (a, true)⟩) :
      Enters A p chain w (p + 1)

theorem IsTarget.landing {A : List Instr} (h : Compiled A) {t : Nat} (ht : IsTarget A t) :
    Landing False (A.drop t) := by
  obtain ⟨p, i, hi, hti⟩ := ht
  exact h.land hi hti

theorem IsTarget.lt_length {A : List Instr} (h : Compiled A) {t : Nat} (ht : IsTarget A t) :
    t < A.length := by
  by_contra hn
  have := ht.landing h
  rw [List.drop_eq_nil_iff.mpr (by omega)] at this
  exact this

theorem Ready.enters {A A' : List Instr} {M : Nat → Nat} (h : Ready A) {p dest t : Nat}
    {chain : Option (Nat × Bool)} {w : Window} (hh : Here A A' M p dest chain)
    (hw : At A A' M p dest chain w) (ht : IsTarget A t) (hp : p ≤ t) (hin : t < p + w.taken) :
    Enters A p chain w t := by
  obtain ⟨k, rfl⟩ : ∃ k, t = p + k := ⟨t - p, by omega⟩
  by_cases hk0 : k = 0
  · subst hk0
    refine .start ?_
    by_contra hc
    exact h.not_in_chain hh hc (k := 0) (by omega) ht (by omega)
  have hr := hw.rule
  generalize hl : A.drop p = l at hr
  have hget : ∀ {k : Nat} {i : Instr}, l[k]? = some i → A[p + k]? = some i :=
    fun hk => getElem?_of_drop hl hk
  have hno : ∀ {i : Instr}, l[k]? = some i → (∀ rest, ¬Landing False (i :: rest)) → False := by
    intro i hi hn
    have := ht.landing h.compiled
    rw [drop_of_getElem? (hget hi)] at this
    exact hn _ this
  have hplain : ∀ {m : Nat} {i : Instr} {o : Op}, l[m]? = some i → i.op = o → o.falls = true →
      o.target = none →
      ∃ i : Instr, A[p + m]? = some i ∧ i.op.falls = true ∧ i.op.target = none := by
    intro m i o hi ho hf hn
    exact ⟨i, hget hi, by rw [ho]; exact hf, by rw [ho]; exact hn⟩
  cases hr with
  | chainPlain a i1 i2 i3 rest n d v hchain h1 h2 h3 =>
    exfalso
    have hc : chain ≠ none := by rw [hchain]; simp
    obtain rfl | rfl : k = 1 ∨ k = 2 := by simp at hin; omega
    · refine h.not_in_chain hh hc (by omega) ht (fun m hm => ?_)
      obtain rfl : m = 0 := by omega
      exact hplain (m := 0) rfl h1 rfl rfl
    · exact hno rfl (fun rest hla => by simp [Landing, h3] at hla)
  | chainEval a i1 i2 i3 i4 rest n d v hchain h1 h2 h3 h4 =>
    exfalso
    have hc : chain ≠ none := by rw [hchain]; simp
    obtain rfl | rfl | rfl : k = 1 ∨ k = 2 ∨ k = 3 := by simp at hin; omega
    · refine h.not_in_chain hh hc (by omega) ht (fun m hm => ?_)
      obtain rfl : m = 0 := by omega
      exact hplain (m := 0) rfl h1 rfl rfl
    · refine h.not_in_chain hh hc (by omega) ht (fun m hm => ?_)
      obtain rfl | rfl : m = 0 ∨ m = 1 := by omega
      · exact hplain (m := 0) rfl h1 rfl rfl
      · exact hplain (m := 1) rfl h2 rfl rfl
    · exact hno rfl (fun rest hla => by simp [Landing, h4] at hla)
  | sparkEval a i1 i2 rest h1 h2 =>
    obtain rfl : k = 1 := by simp at hin; omega
    exact .afterSpark a i1 i2 rest hl h1 h2 rfl
  | squeezeReturn count remove i1 i2 rest h1 h2 =>
    obtain rfl : k = 1 := by simp at hin; omega
    exact (hno rfl (fun rest hla => by simp [Landing, h2] at hla)).elim
  | bifJfalse b addr i1 i2 rest h1 h2 hb =>
    obtain rfl : k = 1 := by simp at hin; omega
    exact (hno rfl (fun rest hla => by simp [Landing, h2] at hla)).elim
  | jeqChain a d n v i1 i2 i3 i4 rest h1 h2 h3 h4 =>
    obtain rfl : k = 1 := by simp at hin; omega
    exact (hno rfl (fun rest hla => by simp [Landing, h2] at hla)).elim
  | evalJeqChain a d n v i1 i2 i3 i4 i5 rest h1 h2 h3 h4 h5 =>
    obtain rfl | rfl : k = 1 ∨ k = 2 := by simp at hin; omega
    · exact .afterPush a d n v i1 i2 i3 i4 i5 rest hl h1 h2 h3 h4 h5 rfl
    · exact (hno rfl (fun rest hla => by simp [Landing, h3] at hla)).elim
  | mkframeEval => simp at hin; omega
  | pop => simp at hin; omega
  | keep => simp at hin; omega

/-- A jump goes to the place made from its old target. -/
theorem Ready.target_out {A A' : List Instr} {M : Nat → Nat} (h : Ready A) {p dest t : Nat}
    {chain : Option (Nat × Bool)} (hh : Here A A' M p dest chain) (ht : IsTarget A t)
    (hp : p ≤ t) :
    ∃ i j, A[t]? = some i ∧ A'[M t]? = some j ∧ Below j.si i.si ∧
      Landing False (A'.drop (M t)) := by
  have hlt := ht.lt_length h.compiled
  induction hk : A.length - p using Nat.strongRecOn generalizing p dest chain with
  | _ k ih =>
  rcases hh.cases with ⟨hl, -⟩ | ⟨w, hw⟩
  · rw [List.drop_eq_nil_iff] at hl
    omega
  have htp := hw.rule.taken_pos
  by_cases hin : t < p + w.taken
  case neg => exact ih _ (by omega) hw.next (by omega) rfl
  cases h.enters hh hw ht hp hin with
  | start hc =>
    have hM : M t = dest := hw.map 0 0 hw.rule.map_zero
    have hi : A[t]? = some A[t] := List.getElem?_eq_getElem hlt
    obtain ⟨j, hj, hb, -, hla⟩ := h.first_out hh hi
    exact ⟨_, j, hi, by rw [hM, hj], hb, by rw [hM]; exact hla hc (ht.landing h.compiled)⟩
  | afterSpark a i1 i2 rest hl h1 h2 hw' =>
    subst hw'
    have hi2 := getElem?_of_drop (k := 1) hl rfl
    have hM : M (p + 1) = dest := hw.map 1 0 rfl
    have hj := hw.out 0 i2 rfl
    rw [Instr.mapTarget_of_none M (by rw [h2]; rfl)] at hj
    refine ⟨i2, i2, hi2, by rw [hM]; exact hj, Below.refl _, ?_⟩
    rw [hM, show dest = dest + 0 from rfl, drop_of_getElem? hj]
    exact landing_plain _ (by rw [h2]; rfl)
  | afterPush a d n v i1 i2 i3 i4 i5 rest hl h1 h2 h3 h4 h5 hw' =>
    subst hw'
    have hi2 := getElem?_of_drop (k := 1) hl rfl
    have hM : M (p + 1) = dest + 1 := hw.map 1 1 rfl
    have hj := hw.out 1 i2 rfl
    rw [Instr.mapTarget_of_none M (by rw [h2]; rfl)] at hj
    refine ⟨i2, i2, hi2, by rw [hM]; exact hj, Below.refl _, ?_⟩
    rw [hM, drop_of_getElem? hj]
    exact landing_plain _ (by rw [h2]; rfl)

end Bytecode
end NReduce
