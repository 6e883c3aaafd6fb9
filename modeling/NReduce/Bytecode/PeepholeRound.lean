import NReduce.Bytecode.PeepholeFlow

/-!
# NReduce.Bytecode.PeepholeRound

A round of the peephole pass keeps `Compiled` and leaves no `POP`. The new edges are the old ones
seen through the map: where control falls out of a window it goes on with what was made of the
next instruction, and jumps go to what was made of their targets.
-/

namespace NReduce
namespace Bytecode

open Compiler

/-- What `Compiled` and `NoPop` say about one place. -/
structure Edges (A : List Instr) (p : Nat) (i : Instr) : Prop where
  depth : i.expcount = i.si.length
  ready : i.op.ready i.si
  post : ∃ post, i.op.post i.si = some post ∧
    (i.op.falls = true → ∃ j, A[p + 1]? = some j ∧ Below j.si post ∧
      (j.si.length = post.length ∨
        (post.getLast? = some .evaluated ∧ Landing False (A.drop (p + 1))))) ∧
    ∀ t, i.op.target = some t →
      p < t ∧ (∃ j, A[t]? = some j ∧ Below j.si post) ∧ Landing False (A.drop t)
  keepNothing : ∀ n, i.op = .squeeze 0 n → Landing False (A.drop (p + 1))
  noPop : ∀ n, i.op ≠ .pop n

theorem ready_of_edges {A : List Instr}
    (h : ∀ {p : Nat} {i : Instr}, A[p]? = some i → Edges A p i) : Ready A := by
  refine ⟨⟨fun hi => (h hi).depth, fun hi => (h hi).ready, ?_, ?_, ?_, ?_, fun hi hn => (h hi).keepNothing _ hn⟩,
    Or.inr (fun hi => (h hi).noPop _)⟩
  · intro p i hi
    obtain ⟨post, hp, -⟩ := (h hi).post
    exact ⟨post, hp⟩
  · intro p i post hi hf hp
    obtain ⟨post', hp', hfall, -⟩ := (h hi).post
    rw [hp] at hp'
    cases hp'
    exact hfall hf
  · intro p t i post hi ht hp
    obtain ⟨post', hp', -, hjump⟩ := (h hi).post
    rw [hp] at hp'
    cases hp'
    exact ⟨(hjump t ht).1, (hjump t ht).2.1⟩
  · intro p t i hi ht
    obtain ⟨post', -, -, hjump⟩ := (h hi).post
    exact (hjump t ht).2.2

section Window

variable {A A' : List Instr} {M : Nat → Nat} {p dest : Nat} {chain : Option (Nat × Bool)}
  {w : Window}

/-- Every new instruction comes out of a window. -/
theorem Here.origin (hh : Here A A' M p dest chain) {q : Nat} {j : Instr} (hq : dest ≤ q)
    (hj : A'[q]? = some j) :
    ∃ p dest chain w k i, Here A A' M p dest chain ∧ At A A' M p dest chain w ∧ q = dest + k ∧
      w.out[k]? = some i ∧ j = i.mapTarget M := by
  induction hk : A.length - p using Nat.strongRecOn generalizing p dest chain with
  | _ n ih =>
  rcases hh.cases with ⟨-, hnil⟩ | ⟨w, hw⟩
  · rw [List.drop_eq_nil_iff] at hnil
    have := (List.getElem?_eq_some_iff.mp hj).1
    omega
  by_cases hin : q < dest + w.out.length
  · have hlt : q - dest < w.out.length := by omega
    have hi := List.getElem?_eq_getElem hlt
    have hout := hw.out _ _ hi
    rw [show dest + (q - dest) = q by omega, hj] at hout
    cases hout
    exact ⟨p, dest, chain, w, q - dest, _, hh, hw, by omega, hi, rfl⟩
  · have htp := hw.rule.taken_pos
    have hle := hw.rule.taken_le
    rw [List.length_drop] at hle
    exact ih _ (by omega) hw.next (by omega) rfl

theorem Here.chain_fresh (hh : Here A A' M p dest chain) (h : Ready A) (hc : chain ≠ none) :
    Fresh A := by
  obtain ⟨-, q, i, n, hi, hn⟩ := hh.prev hc
  exact h.fresh_of_pop hi hn

/-- Control that falls out of the last instruction of a window. -/
theorem Ready.fall_out (h : Ready A) (hn : Here A A' M (p + 1) dest chain) {i : Instr}
    {post : List Status} (hi : A[p]? = some i) (hf : i.op.falls = true)
    (hp : i.op.post i.si = some post) :
    ∃ j, A'[dest]? = some j ∧ Below j.si post ∧
      (j.si.length = post.length ∨
        (post.getLast? = some .evaluated ∧ Landing False (A'.drop dest))) := by
  obtain ⟨j0, hj0, hb0, hlen0⟩ := h.compiled.fall hi hf hp
  obtain ⟨j, hj, hb, hlen, hland⟩ := h.first_out hn hj0
  refine ⟨j, hj, hb.trans hb0, ?_⟩
  rcases hlen0 with hlen0 | ⟨hlast, hla⟩
  · rcases hlen with hlen | ⟨hlast, hla⟩
    · exact Or.inl (hlen.trans hlen0)
    · rw [getLast?_evaluated_iff] at hlast
      have := hb0.2 _ hlast
      rw [hlen0] at this
      exact Or.inr ⟨getLast?_evaluated_iff.mpr this, hla⟩
  · by_cases hc : chain = none
    · exact Or.inr ⟨hlast, hland hc hla⟩
    · -- inside a chain the depths agree
      have hex := (hn.chain_fresh h hc).exact hi hf hj0 hp
      rcases hlen with hlen | ⟨hl, hla'⟩
      · exact Or.inl (hlen.trans hex)
      · exact Or.inr ⟨hlast, hla'⟩

/-- A jump out of the last instruction of a window. -/
theorem Ready.jump_out (h : Ready A) (hn : Here A A' M (p + 1) dest chain) {i : Instr} {t : Nat}
    {post : List Status} (hi : A[p]? = some i) (ht : i.op.target = some t)
    (hp : i.op.post i.si = some post) :
    dest ≤ M t ∧ (∃ j, A'[M t]? = some j ∧ Below j.si post) ∧ Landing False (A'.drop (M t)) := by
  obtain ⟨hpt, j0, hj0, hb0⟩ := h.compiled.jump hi ht hp
  have htarget : IsTarget A t := ⟨p, i, hi, ht⟩
  obtain ⟨i', j, hi', hj, hb, hla⟩ := h.target_out hn htarget (by omega)
  rw [hj0] at hi'
  cases hi'
  exact ⟨hn.le_map (by omega) (htarget.lt_length h.compiled), ⟨j, hj, hb.trans hb0⟩, hla⟩

/-- The last instruction of a window, where it is kept. -/
theorem Ready.last_edges (h : Ready A) {q : Nat} (hn : Here A A' M (p + 1) (q + 1) chain)
    {i : Instr} (hi : A[p]? = some i) (hpop : ∀ n, i.op ≠ .pop n)
    (hkeep : ∀ n, i.op = .squeeze 0 n → chain = none) : Edges A' q (i.mapTarget M) := by
  obtain ⟨post, hp⟩ := h.compiled.post hi
  refine ⟨by simpa using h.compiled.depth hi, by simpa using h.compiled.ready hi, ⟨post, by simpa using hp, ?_, ?_⟩, ?_, ?_⟩
  · intro hf
    rw [Instr.mapTarget_falls] at hf
    exact h.fall_out hn hi hf hp
  · intro t ht
    rw [Instr.mapTarget_target, Option.map_eq_some_iff] at ht
    obtain ⟨t', ht', rfl⟩ := ht
    have := h.jump_out hn hi ht' hp
    exact ⟨by omega, this.2⟩
  · intro n hop
    have hop' : i.op = .squeeze 0 n := by
      obtain ⟨op, e, si⟩ := i
      cases op <;> simp only [Instr.mapTarget, Op.target, Op.setTarget, reduceCtorEq] at hop
      exact hop
    obtain ⟨j0, hj0, -⟩ := h.compiled.fall hi (by rw [hop']; rfl) hp
    obtain ⟨j, -, -, -, hland⟩ := h.first_out hn hj0
    exact hland (hkeep n hop') (h.compiled.keepNothing hi hop')
  · intro n hop
    refine hpop n ?_
    obtain ⟨op, e, si⟩ := i
    cases op <;> simp only [Instr.mapTarget, Op.target, Op.setTarget, reduceCtorEq] at hop
    exact hop

/-- An instruction that is kept together with the one after it. -/
theorem Ready.inner_edges (h : Ready A) {q : Nat} {i j : Instr} (hi : A[p]? = some i)
    (hj : A[p + 1]? = some j) (hj' : A'[q + 1]? = some (j.mapTarget M)) (ht : i.op.target = none)
    (hno : ¬Landing False (A.drop (p + 1)) ∨ Fresh A) (hpop : ∀ n, i.op ≠ .pop n)
    (hkeep : ∀ n, i.op ≠ .squeeze 0 n) : Edges A' q i := by
  obtain ⟨post, hp⟩ := h.compiled.post hi
  refine ⟨h.compiled.depth hi, h.compiled.ready hi, ⟨post, hp, ?_, ?_⟩, fun n hop => absurd hop (hkeep n), hpop⟩
  · intro hf
    obtain ⟨j0, hj0, hb, hlen⟩ := h.compiled.fall hi hf hp
    rw [hj] at hj0
    cases hj0
    refine ⟨_, hj', by simpa using hb, Or.inl ?_⟩
    rw [Instr.mapTarget_si]
    rcases hno with hno | hfresh
    · exact hlen.resolve_right (fun hr => hno hr.2)
    · exact hfresh.exact hi hf hj hp
  · intro t ht'
    rw [ht] at ht'
    cases ht'

/-- Before a `JFALSE` the depths agree. -/
theorem Ready.exact_of_no_landing (h : Ready A) {i j : Instr} {post : List Status}
    (hi : A[p]? = some i) (hj : A[p + 1]? = some j) (hf : i.op.falls = true)
    (hp : i.op.post i.si = some post) (hno : ∀ l, ¬Landing False (j :: l)) :
    Below j.si post ∧ j.si.length = post.length := by
  obtain ⟨j0, hj0, hb, hlen⟩ := h.compiled.fall hi hf hp
  rw [hj] at hj0
  cases hj0
  refine ⟨hb, hlen.resolve_right (fun hr => ?_)⟩
  have := hr.2
  rw [drop_of_getElem? hj] at this
  exact hno _ this

/-- A `SQUEEZE` before a `RETURN` keeps something. -/
theorem Ready.squeeze_keeps (h : Ready A) {count remove : Nat} {i1 i2 : Instr}
    (hi1 : A[p]? = some i1) (hi2 : A[p + 1]? = some i2) (h1 : i1.op = .squeeze count remove)
    (h2 : i2.op = .ret) : 0 < count := by
  rcases Nat.eq_zero_or_pos count with rfl | hpos
  · have := h.compiled.keepNothing hi1 h1
    rw [drop_of_getElem? hi2] at this
    simp [Landing, h2] at this
  · exact hpos

/-- A value that is returned after a `SQUEEZE` is on top before it. -/
theorem Ready.squeeze_top (h : Ready A) {count remove : Nat} {i1 i2 : Instr}
    (hi1 : A[p]? = some i1) (hi2 : A[p + 1]? = some i2) (h1 : i1.op = .squeeze count remove)
    (h2 : i2.op = .ret) : i1.si.getLast? = some .evaluated := by
  obtain ⟨post, hp⟩ := h.compiled.post hi1
  obtain ⟨hbelow, hlen⟩ := h.exact_of_no_landing hi1 hi2 (by rw [h1]; rfl) hp
    (fun l hla => by simp [Landing, h2] at hla)
  have htop := h.compiled.ready hi2
  rw [h2] at htop
  replace htop : i2.si.getLast? = some .evaluated := htop
  have hpos := h.squeeze_keeps hi1 hi2 h1 h2
  rw [h1] at hp
  simp only [Op.post, Op.effect] at hp
  split at hp
  case isFalse => cases hp
  rename_i hle
  cases hp
  rw [getLast?_evaluated_iff, hlen] at htop
  have := getLast?_evaluated_iff.mpr (hbelow.2 _ htop)
  rw [List.getLast?_append_of_ne_nil, List.getLast?_drop, if_neg] at this
  · exact this
  · omega
  · intro hn
    have := congrArg List.length hn
    simp at this
    omega

/-- A comparison joined with its `JFALSE`. -/
theorem Ready.jcmp_edges (h : Ready A) {q addr : Nat} {b : Bif}
    (hn : Here A A' M (p + 1 + 1) (q + 1) chain) {i1 i2 : Instr} (hi1 : A[p]? = some i1)
    (hi2 : A[p + 1]? = some i2) (h1 : i1.op = .bif b) (h2 : i2.op = .jfalse addr)
    (hb : isComparison b = true) :
    Edges A' q (({ i1 with op := .jcmp addr b } : Instr).mapTarget M) := by
  have hnargs : (builtinInfo b).nargs = 2 := by
    cases b <;> first | rfl | simp [isComparison] at hb
  obtain ⟨post1, hp1⟩ := h.compiled.post hi1
  obtain ⟨post2, hp2⟩ := h.compiled.post hi2
  obtain ⟨hbelow, hlen⟩ := h.exact_of_no_landing hi1 hi2 (by rw [h1]; rfl) hp1
    (fun l hla => by simp [Landing, h2] at hla)
  -- what is below the two arguments of the comparison
  obtain ⟨base, hbase, rfl⟩ : ∃ base, popStatus 2 i1.si = some base ∧
      post1 = base ++ [if (builtinInfo b).reswhnf then Status.evaluated else .unknown] := by
    rw [h1] at hp1
    simp only [Op.post, Op.effect, hnargs, Option.map_map, Option.map_eq_some_iff,
      Function.comp] at hp1
    obtain ⟨base, hbase, rfl⟩ := hp1
    exact ⟨base, hbase, rfl⟩
  obtain rfl : post2 = i2.si.take (i2.si.length - 1) := by
    rw [h2] at hp2
    simp only [Op.post, Op.effect, Option.map_map, Option.map_eq_some_iff, Function.comp] at hp2
    obtain ⟨base', hbase', rfl⟩ := hp2
    exact (popStatus_some hbase').2
  have hsub : Below (i2.si.take (i2.si.length - 1)) base := by
    rw [List.length_append, List.length_singleton] at hlen
    refine ⟨by rw [List.length_take]; omega, fun k hk => ?_⟩
    rw [List.getElem?_take] at hk
    split at hk
    · have := hbelow.2 k hk
      rwa [List.getElem?_append_left (by omega)] at this
    · cases hk
  have hpost : (({ i1 with op := .jcmp addr b } : Instr).mapTarget M).op.post
      (({ i1 with op := .jcmp addr b } : Instr).mapTarget M).si = some base := by
    rw [Instr.mapTarget_post, Instr.mapTarget_si]
    exact hbase
  have hlen' : (i2.si.take (i2.si.length - 1)).length = base.length := by
    rw [List.length_append, List.length_singleton] at hlen
    rw [List.length_take]
    omega
  have hready : (Op.jcmp addr b).ready i1.si := by
    have := h.compiled.ready hi1
    rwa [h1] at this
  refine ⟨by simpa using h.compiled.depth hi1, by simpa using hready,
    ⟨base, hpost, fun _ => ?_, ?_⟩, ?_, ?_⟩
  · obtain ⟨j, hj, hbj, hex⟩ := h.fall_out hn hi2 (by rw [h2]; rfl) hp2
    refine ⟨j, hj, hbj.trans hsub, ?_⟩
    rcases hex with hex | ⟨hlast, hla⟩
    · exact Or.inl (hex.trans hlen')
    · rw [getLast?_evaluated_iff] at hlast
      have := hsub.2 _ hlast
      rw [hlen'] at this
      exact Or.inr ⟨getLast?_evaluated_iff.mpr this, hla⟩
  · intro t ht
    rw [Instr.mapTarget_target] at ht
    cases ht
    obtain ⟨hle, ⟨j, hj, hbj⟩, hla⟩ := h.jump_out hn hi2 (by rw [h2]; rfl) hp2
    exact ⟨by omega, ⟨j, hj, hbj.trans hsub⟩, hla⟩
  · intro n hop
    cases hop
  · intro n hop
    cases hop

/-- `MKFRAME` before the `EVAL` of the new frame. -/
theorem Ready.call_edges (h : Ready A) {q n : Nat} {fno : Fn}
    (hn : Here A A' M (p + 1) (q + 1) chain) {i1 : Instr} (hi1 : A[p]? = some i1)
    (h1 : i1.op = .mkframe fno n) : Edges A' q { i1 with op := .call fno n } := by
  obtain ⟨post, hp⟩ := h.compiled.post hi1
  obtain ⟨j, hj, hbj, hex⟩ := h.fall_out hn hi1 (by rw [h1]; rfl) hp
  rw [h1] at hp
  simp only [Op.post, Op.effect, Option.map_map, Option.map_eq_some_iff, Function.comp] at hp
  obtain ⟨base, hbase, rfl⟩ := hp
  have hpost : (Op.call fno n).post i1.si = some (base ++ [.evaluated]) := by
    simp [Op.post, hbase]
  have hdepth := h.compiled.depth hi1
  refine ⟨hdepth, trivial, ⟨_, hpost, fun _ => ⟨j, hj, ?_, Or.inl ?_⟩, ?_⟩, ?_, ?_⟩
  · refine hbj.trans ⟨by simp, fun k hk => ?_⟩
    rw [List.getElem?_append] at hk ⊢
    split at hk
    · rw [if_pos ‹_›]
      exact hk
    · rw [if_neg ‹_›]
      cases hk' : k - base.length with
      | zero => rfl
      | succ m => rw [hk'] at hk; simp at hk
  · rcases hex with hex | ⟨hlast, -⟩
    · simpa using hex
    · simp at hlast
  · intro t ht
    cases ht
  · intro m hop
    cases hop
  · intro m hop
    cases hop

theorem At.out_edges (hw : At A A' M p dest chain w) (h : Ready A) {k : Nat} {i : Instr} (hk : w.out[k]? = some i) :
    Edges A' (dest + k) (i.mapTarget M) := by
  obtain ⟨hr, hout, -, hn⟩ := hw
  generalize hl : A.drop p = l at hr
  have hget : ∀ {k : Nat} {i : Instr}, l[k]? = some i → A[p + k]? = some i :=
    fun hk => getElem?_of_drop hl hk
  have hone : ∀ {i j : Instr}, [j][k]? = some i → k = 0 ∧ i = j := by
    intro i j hk
    cases k with
    | zero => exact ⟨rfl, by simpa using hk.symm⟩
    | succ k => simp at hk
  cases hr with
  | chainPlain a i1 i2 i3 rest n d v hchain h1 h2 h3 =>
    obtain ⟨rfl, rfl⟩ := hone hk
    exact h.last_edges (p := p + 2) hn (hget rfl) (by simp [h3]) (by simp [h3])
  | chainEval a i1 i2 i3 i4 rest n d v hchain h1 h2 h3 h4 =>
    obtain ⟨rfl, rfl⟩ := hone hk
    exact h.last_edges (p := p + 3) hn (hget rfl) (by simp [h4]) (by simp [h4])
  | sparkEval a i1 i2 rest h1 h2 =>
    obtain ⟨rfl, rfl⟩ := hone hk
    exact h.last_edges (p := p + 1) hn (hget rfl) (by simp [h2]) (by simp [h2])
  | mkframeEval fno n pos i1 i2 rest h1 h2 hpos =>
    obtain ⟨rfl, rfl⟩ := hone hk
    exact h.call_edges hn (hget (k := 0) rfl) h1
  | squeezeReturn count remove i1 i2 rest h1 h2 =>
    obtain ⟨rfl, rfl⟩ := hone hk
    have hi1 := hget (k := 0) (i := i1) rfl
    have hdepth := h.compiled.depth hi1
    have htop := h.squeeze_top hi1 (hget (k := 1) rfl) h1 h2
    refine ⟨hdepth, htop, ⟨i1.si, rfl, ?_, ?_⟩, ?_, ?_⟩
    · intro hf
      cases hf
    · intro t ht
      cases ht
    · intro n hop
      cases hop
    · intro n hop
      cases hop
  | bifJfalse b addr i1 i2 rest h1 h2 hb =>
    obtain ⟨rfl, rfl⟩ := hone hk
    exact h.jcmp_edges (p := p) hn (hget (k := 0) rfl) (hget (k := 1) rfl) h1 h2 hb
  | jeqChain a d n v i1 i2 i3 i4 rest h1 h2 h3 h4 =>
    obtain hk | hk : k = 0 ∧ i = i1 ∨ k = 1 ∧ i = i2 := by
      match k, hk with
      | 0, hk => exact Or.inl ⟨rfl, by simpa using hk.symm⟩
      | 1, hk => exact Or.inr ⟨rfl, by simpa using hk.symm⟩
    · obtain ⟨rfl, rfl⟩ := hk
      rw [Instr.mapTarget_of_none M (by rw [h1]; rfl)]
      have hf := h.fresh_of_pop (hget (k := 2) rfl) h3
      exact h.inner_edges (hget (k := 0) rfl) (hget (k := 1) rfl) (hout 1 _ rfl) (by rw [h1]; rfl)
        (Or.inr hf) (by simp [h1]) (by simp [h1])
    · obtain ⟨rfl, rfl⟩ := hk
      exact h.last_edges (p := p + 1) hn (hget rfl) (by simp [h2]) (by simp [h2])
  | evalJeqChain a d n v i1 i2 i3 i4 i5 rest h1 h2 h3 h4 h5 =>
    have hf := h.fresh_of_pop (hget (k := 3) rfl) h4
    obtain hk | hk | hk : k = 0 ∧ i = i1 ∨ k = 1 ∧ i = i2 ∨ k = 2 ∧ i = i3 := by
      match k, hk with
      | 0, hk => exact Or.inl ⟨rfl, by simpa using hk.symm⟩
      | 1, hk => exact Or.inr (Or.inl ⟨rfl, by simpa using hk.symm⟩)
      | 2, hk => exact Or.inr (Or.inr ⟨rfl, by simpa using hk.symm⟩)
    · obtain ⟨rfl, rfl⟩ := hk
      rw [Instr.mapTarget_of_none M (by rw [h1]; rfl)]
      exact h.inner_edges (hget (k := 0) rfl) (hget (k := 1) rfl) (hout 1 _ rfl) (by rw [h1]; rfl)
        (Or.inr hf) (by simp [h1]) (by simp [h1])
    · obtain ⟨rfl, rfl⟩ := hk
      rw [Instr.mapTarget_of_none M (by rw [h2]; rfl)]
      exact h.inner_edges (hget (k := 1) rfl) (hget (k := 2) rfl) (hout 2 _ rfl) (by rw [h2]; rfl)
        (Or.inr hf) (by simp [h2]) (by simp [h2])
    · obtain ⟨rfl, rfl⟩ := hk
      exact h.last_edges (p := p + 2) hn (hget rfl) (by simp [h3]) (by simp [h3])
  | pop n i1 rest h1 => simp at hk
  | keep i1 rest h1 =>
    obtain ⟨rfl, rfl⟩ := hone hk
    exact h.last_edges hn (hget (k := 0) rfl) h1 (fun _ _ => rfl)

/-- A round keeps what the next one needs. -/
theorem Round.ready (hr : Round A A' M) (h : Ready A) : Ready A' := by
  refine ready_of_edges (fun {q j} hj => ?_)
  obtain ⟨p, dest, chain, w, k, i, hh, hw, rfl, hk, rfl⟩ := hr.here.origin (Nat.zero_le _) hj
  exact hw.out_edges h hk

theorem Round.noPop (hr : Round A A' M) (h : Ready A) : NoPop A' := by
  intro q n j hj
  obtain ⟨p, dest, chain, w, k, i, hh, hw, rfl, hk, rfl⟩ := hr.here.origin (Nat.zero_le _) hj
  exact (hw.out_edges h hk).noPop n

end Window

end Bytecode
end NReduce
