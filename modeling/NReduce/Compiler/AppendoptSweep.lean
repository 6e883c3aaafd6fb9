import NReduce.Compiler.Appendopt
import Mathlib.Data.List.Perm.Subperm

/-!
# NReduce.Compiler.AppendoptSweep

The table that `appendopt` leaves.

* `Laid`: what the rewriting loop needs and keeps (`rewriteLoop_laid`).
* `Swept`: the invariant of the sweep, in terms of the table before it.
* `appendopt_consistent`: the table after the sweep.
-/

namespace NReduce
namespace Compiler
namespace Appendopt

/-! ## The table before the sweep -/

def Table.ver (t : Table) (p : Nat) : Option Nat := t.cells[p]? >>= Scomb.appendver

/-- All `SCREF`s of a tree are addresses of the first `n` supercombinators. -/
def Below (n : Nat) (e : Snode) : Prop := ∀ q ∈ e.screfs, q < n

/-- Each supercombinator is in the array at its index, and in the hash table under its name, which
no other one has. An append version is younger than the one supercombinator it belongs to. -/
structure Laid (t : Table) : Prop where
  scombs : t.scombs = (List.range t.cells.length).map some
  index : ∀ p < t.cells.length, t.index p = p
  names : (t.cells.map Scomb.name).Nodup
  chained : ∀ p < t.cells.length, p ∈ t.schash (hash (t.nameOf p))
  chains : ∀ k, ∀ p ∈ t.schash k, p < t.cells.length
  screfs : ∀ sc ∈ t.cells, Below t.cells.length sc.body
  ver : ∀ {p v}, t.ver p = some v → p < v ∧ v < t.cells.length
  owner : ∀ {p p' v}, t.ver p = some v → t.ver p' = some v → p = p'

/-- Supercombinators are only added, and keep their names. A new append version is a new one. -/
structure Extends (t t' : Table) : Prop where
  length_le : t.cells.length ≤ t'.cells.length
  nameOf : ∀ p < t.cells.length, t'.nameOf p = t.nameOf p
  ver : ∀ {p v}, t'.ver p = some v → t.ver p = some v ∨ t.cells.length ≤ v

variable {t t' : Table} {n m p : Nat} {e : Snode}

theorem Extends.refl (t : Table) : Extends t t := ⟨Nat.le_refl _, fun _ _ => rfl, .inl⟩

theorem Extends.trans {t₁ t₂ t₃ : Table} (h : Extends t₁ t₂) (h' : Extends t₂ t₃) :
    Extends t₁ t₃ where
  length_le := h.length_le.trans h'.length_le
  nameOf p hp := (h'.nameOf p (hp.trans_le h.length_le)).trans (h.nameOf p hp)
  ver hv := by
    obtain hv | hv := h'.ver hv
    · exact h.ver hv
    · exact .inr (h.length_le.trans hv)

theorem Below.mono (h : Below n e) (hnm : n ≤ m) : Below m e := fun q hq => (h q hq).trans_le hnm

theorem below_application {l r : Snode} {s : Bool} :
    Below n (.application l r s) ↔ Below n l ∧ Below n r := by
  simp only [Below, Snode.screfs, List.mem_append]
  constructor
  · exact fun h => ⟨fun q hq => h q (.inl hq), fun q hq => h q (.inr hq)⟩
  · rintro ⟨hl, hr⟩ q (hq | hq)
    · exact hl q hq
    · exact hr q hq

theorem below_scref {i : Nat} : Below n (.scref i) ↔ i < n := by
  simp [Below, Snode.screfs]

theorem below_letrec {bs : Letrec} {b : Snode} :
    Below n (.letrec bs b) ↔ (∀ q ∈ bs.screfs, q < n) ∧ Below n b := by
  simp only [Below, Snode.screfs, List.mem_append]
  constructor
  · exact fun h => ⟨fun q hq => h q (.inl hq), fun q hq => h q (.inr hq)⟩
  · rintro ⟨hl, hr⟩ q (hq | hq)
    · exact hl q hq
    · exact hr q hq

mutual

/-- A copy of a tree refers to the same supercombinators. -/
theorem screfs_renameVariablesR : ∀ (e : Snode) (n : Nat) (μ : Mappings),
    (renameVariablesR n μ e).1.screfs = e.screfs
  | .application l r s, n, μ => by
    simp only [renameVariablesR, Snode.screfs, screfs_renameVariablesR]
  | .lambda x b, n, μ => by
    simp only [renameVariablesR, Snode.screfs, screfs_renameVariablesR]
  | .letrec bs b, n, μ => by
    simp only [renameVariablesR, Snode.screfs, screfs_renameVariablesR, screfs_renameBindings]
  | .symbol _, _, _ => rfl
  | .builtin _, _, _ => rfl
  | .scref _, _, _ => rfl
  | .nil, _, _ => rfl
  | .number _, _, _ => rfl
  | .string _, _, _ => rfl

theorem screfs_renameBindings : ∀ (bs : Letrec) (n k : Nat) (μ : Mappings),
    (renameBindings n k μ bs).1.screfs = bs.screfs
  | .done, _, _, _ => rfl
  | .bind x v s next, n, k, μ => by
    simp only [renameBindings, Letrec.screfs, screfs_renameVariablesR, screfs_renameBindings]

end

theorem screfs_copyScombBody (n : Nat) (sc : Scomb) (newargnames : List String) :
    (copyScombBody n sc newargnames).1.screfs = sc.body.screfs := screfs_renameVariablesR ..

/-! ## super.c -/

theorem nameOf_of_getElem? {sc : Scomb} (h : t.cells[p]? = some sc) : t.nameOf p = sc.name := by
  rw [Table.nameOf, h]
  rfl

theorem Laid.nameOf_inj (h : Laid t) {q : Nat} (hp : p < t.cells.length)
    (hq : q < t.cells.length) (hname : t.nameOf p = t.nameOf q) : p = q := by
  rw [nameOf_of_getElem? (List.getElem?_eq_getElem hp),
    nameOf_of_getElem? (List.getElem?_eq_getElem hq)] at hname
  have hp' : p < (t.cells.map Scomb.name).length := by rwa [List.length_map]
  have hq' : q < (t.cells.map Scomb.name).length := by rwa [List.length_map]
  have heq : (t.cells.map Scomb.name)[p] = (t.cells.map Scomb.name)[q] := by simpa using hname
  exact h.names.getElem_inj_iff.mp heq

/-- A name that `get_scomb` does not find is free. -/
theorem Laid.not_mem_names (h : Laid t) {x : String} (hx : t.getScomb x = none) :
    x ∉ t.cells.map Scomb.name := by
  intro hmem
  obtain ⟨sc, hsc, rfl⟩ := List.mem_map.mp hmem
  obtain ⟨p, hp, hpsc⟩ := List.getElem_of_mem hsc
  have hname : t.nameOf p = sc.name := nameOf_of_getElem? (by rw [List.getElem?_eq_getElem hp, hpsc])
  have hchain := h.chained p hp
  rw [hname] at hchain
  have := List.find?_eq_none.mp hx p hchain
  simp [Table.isNamed, hname] at this

section

variable (t) (name : String)

@[simp] theorem length_push : (t.push name).cells.length = t.cells.length + 1 := List.length_append

theorem push_old (hp : p < t.cells.length) : (t.push name).cells[p]? = t.cells[p]? :=
  List.getElem?_append_left hp

theorem push_new : (t.push name).cells[t.cells.length]? =
    some { name := name, argnames := [], body := .nil } := List.getElem?_concat_length

theorem push_nameOf (hp : p < t.cells.length) : (t.push name).nameOf p = t.nameOf p := by
  rw [Table.nameOf, push_old t name hp]
  rfl

theorem push_nameOf_new : (t.push name).nameOf t.cells.length = name :=
  nameOf_of_getElem? (push_new t name)

theorem push_ver {v : Nat} : (t.push name).ver p = some v ↔ t.ver p = some v := by
  rw [Table.ver, Table.ver]
  obtain hlt | rfl | hgt := Nat.lt_trichotomy p t.cells.length
  · rw [push_old t name hlt]
  · rw [push_new, List.getElem?_eq_none (Nat.le_refl _)]
    simp
  · rw [List.getElem?_eq_none (by rw [length_push]; omega), List.getElem?_eq_none (by omega)]

theorem push_schash_self :
    (t.push name).schash (hash name) = t.cells.length :: t.schash (hash name) :=
  Function.update_self ..

theorem push_schash_of_ne {k : Nat} (hk : k ≠ hash name) : (t.push name).schash k = t.schash k :=
  Function.update_of_ne hk ..

theorem push_extends : Extends t (t.push name) :=
  ⟨by rw [length_push]; omega, fun _ hp => push_nameOf t name hp,
    fun hv => .inl ((push_ver t name).mp hv)⟩

end

theorem Laid.push (h : Laid t) {name : String} (hname : name ∉ t.cells.map Scomb.name) :
    Laid (t.push name) where
  scombs := by
    rw [length_push, List.range_succ, List.map_append, ← h.scombs]
    rfl
  index p hp := by
    rw [length_push] at hp
    by_cases hpl : p = t.cells.length
    · subst hpl
      refine (Function.update_self ..).trans ?_
      rw [h.scombs, List.length_map, List.length_range]
    · exact (Function.update_of_ne hpl ..).trans (h.index p (by omega))
  names := by
    have hcells : (t.push name).cells.map Scomb.name = t.cells.map Scomb.name ++ [name] :=
      List.map_append
    rw [hcells]
    exact List.nodup_append_comm.mp (List.nodup_cons.mpr ⟨hname, h.names⟩)
  chained p hp := by
    rw [length_push] at hp
    by_cases hpl : p = t.cells.length
    · subst hpl
      rw [push_nameOf_new, push_schash_self]
      exact List.mem_cons_self
    · have hlt : p < t.cells.length := by omega
      rw [push_nameOf t name hlt]
      have hold := h.chained p hlt
      by_cases hh : hash (t.nameOf p) = hash name
      · rw [hh] at hold ⊢
        rw [push_schash_self]
        exact List.mem_cons_of_mem _ hold
      · rwa [push_schash_of_ne t name hh]
  chains k p hp := by
    rw [length_push]
    by_cases hk : k = hash name
    · subst hk
      rw [push_schash_self] at hp
      obtain rfl | hp := List.mem_cons.mp hp
      · exact Nat.lt_succ_self _
      · exact Nat.lt_succ_of_lt (h.chains _ p hp)
    · rw [push_schash_of_ne t name hk] at hp
      exact Nat.lt_succ_of_lt (h.chains k p hp)
  screfs sc hsc := by
    rw [length_push]
    obtain hsc | hsc := List.mem_append.mp hsc
    · exact (h.screfs sc hsc).mono (Nat.le_succ _)
    · obtain rfl := List.mem_singleton.mp hsc
      exact fun q hq => absurd hq List.not_mem_nil
  ver hv := by
    rw [push_ver] at hv
    obtain ⟨hlt, hlen⟩ := h.ver hv
    rw [length_push]
    exact ⟨hlt, by omega⟩
  owner hv hv' := by
    rw [push_ver] at hv hv'
    exact h.owner hv hv'

/-- `add_scomb` keeps the table in order. -/
theorem Laid.addScomb (h : Laid t) {name1 : String} (ha : t.addScomb name1 = some (p, t')) :
    ∃ name, p = t.cells.length ∧ t' = t.push name ∧ Laid t' := by
  rw [Table.addScomb] at ha
  obtain ⟨name, hname, ha⟩ := Option.bind_eq_some_iff.mp ha
  cases ha
  refine ⟨name, rfl, rfl, h.push (h.not_mem_names ?_)⟩
  simpa using List.find?_some hname

section

variable (t) (p) (f : Scomb → Scomb)

@[simp] theorem length_modify : (t.modify p f).cells.length = t.cells.length :=
  List.length_modify ..

theorem modify_self : (t.modify p f).cells[p]? = (t.cells[p]?).map f := by
  exact List.getElem?_modify_eq ..

theorem modify_of_ne {q : Nat} (h : p ≠ q) : (t.modify p f).cells[q]? = t.cells[q]? := by
  exact List.getElem?_modify_ne _ _ h

end

/-- A change that keeps the name -/
theorem modify_nameOf {f : Scomb → Scomb} (hf : ∀ c, (f c).name = c.name) (q : Nat) :
    (t.modify p f).nameOf q = t.nameOf q := by
  rw [Table.nameOf, Table.nameOf]
  by_cases hpq : p = q
  · subst hpq
    rw [modify_self, Option.map_map]
    congr 2
    funext c
    exact hf c
  · rw [modify_of_ne t p f hpq]

theorem modify_names {f : Scomb → Scomb} (hf : ∀ c, (f c).name = c.name) :
    (t.modify p f).cells.map Scomb.name = t.cells.map Scomb.name := by
  apply List.ext_getElem?
  intro q
  rw [List.getElem?_map, List.getElem?_map]
  by_cases hpq : p = q
  · subst hpq
    rw [modify_self, Option.map_map]
    congr 1
    funext c
    exact hf c
  · rw [modify_of_ne t p f hpq]

theorem modify_ver {f : Scomb → Scomb} (hf : ∀ c, (f c).appendver = c.appendver) (q : Nat) :
    (t.modify p f).ver q = t.ver q := by
  rw [Table.ver, Table.ver]
  by_cases hpq : p = q
  · subst hpq
    rw [modify_self]
    cases t.cells[p]? with
    | none => rfl
    | some c => exact hf c
  · rw [modify_of_ne t p f hpq]

theorem modify_extends {f : Scomb → Scomb} (hf : ∀ c, (f c).name = c.name)
    (hver : ∀ c, (f c).appendver = c.appendver) : Extends t (t.modify p f) :=
  ⟨by rw [length_modify], fun q _ => modify_nameOf hf q,
    fun hv => .inl ((modify_ver hver _).symm.trans hv)⟩

theorem Extends.setAppendver (h : Extends t t') {v : Nat} (hv : t.cells.length ≤ v) :
    Extends t (t'.modify p (fun c => { c with appendver := some v })) := by
  refine ⟨?_, fun q hq => ?_, fun {q w} hw => ?_⟩
  · rw [length_modify]
    exact h.length_le
  · exact (modify_nameOf (f := fun c => { c with appendver := some v }) (fun _ => rfl) q).trans
      (h.nameOf q hq)
  · by_cases hpq : p = q
    · subst hpq
      rw [Table.ver, modify_self] at hw
      obtain ⟨c, hc, hcw⟩ := Option.bind_eq_some_iff.mp hw
      obtain ⟨c', -, rfl⟩ := Option.map_eq_some_iff.mp hc
      cases hcw
      exact .inr hv
    · rw [Table.ver, modify_of_ne t' p _ hpq] at hw
      exact h.ver hw

/-- A change of a supercombinator that keeps its name. The append versions are as `hver` says. -/
theorem Laid.modify (h : Laid t) {f : Scomb → Scomb} (hf : ∀ c, (f c).name = c.name)
    (hbody : ∀ c, t.cells[p]? = some c → Below t.cells.length (f c).body)
    (hver : ∀ c v, t.cells[p]? = some c → (f c).appendver = some v →
      c.appendver = some v ∨ p < v ∧ v < t.cells.length ∧ ∀ q, t.ver q ≠ some v) :
    Laid (t.modify p f) := by
  have hvers : ∀ {q v}, (t.modify p f).ver q = some v → t.ver q = some v ∨
      q = p ∧ p < v ∧ v < t.cells.length ∧ ∀ r, t.ver r ≠ some v := by
    intro q v hv
    by_cases hpq : p = q
    · subst hpq
      rw [Table.ver, modify_self] at hv
      cases hc : t.cells[p]? with
      | none => simp [hc] at hv
      | some c =>
        rw [hc] at hv
        obtain hold | hnew := hver c v hc hv
        · left
          rw [Table.ver, hc]
          exact hold
        · exact .inr ⟨rfl, hnew⟩
    · left
      rwa [Table.ver, modify_of_ne t p f hpq] at hv
  refine ⟨?_, ?_, ?_, ?_, ?_, ?_, ?_, ?_⟩
  · rw [length_modify]
    exact h.scombs
  · rw [length_modify]
    exact h.index
  · rw [modify_names hf]
    exact h.names
  · intro q hq
    rw [length_modify] at hq
    rw [modify_nameOf hf]
    exact h.chained q hq
  · rw [length_modify]
    exact h.chains
  · intro sc hsc
    rw [length_modify]
    obtain ⟨q, hq⟩ := List.mem_iff_getElem?.mp hsc
    by_cases hpq : p = q
    · subst hpq
      rw [modify_self] at hq
      obtain ⟨c, hc, rfl⟩ := Option.map_eq_some_iff.mp hq
      exact hbody c hc
    · rw [modify_of_ne t p f hpq] at hq
      exact h.screfs sc (List.mem_of_getElem? hq)
  · intro q v hv
    rw [length_modify]
    obtain hold | ⟨rfl, hlt, hlen, -⟩ := hvers hv
    · exact h.ver hold
    · exact ⟨hlt, hlen⟩
  · intro q q' v hv hv'
    obtain hold | ⟨rfl, -, -, hno⟩ := hvers hv
    · obtain hold' | ⟨rfl, -, -, hno'⟩ := hvers hv'
      · exact h.owner hold hold'
      · exact absurd hold (hno' q)
    · obtain hold' | ⟨rfl, -, -, -⟩ := hvers hv'
      · exact absurd hold' (hno q')
      · rfl

theorem Laid.getScomb_lt (h : Laid t) {name : String} (hp : t.getScomb name = some p) :
    p < t.cells.length := h.chains _ p (List.mem_of_find?_eq_some hp)

theorem Laid.withVarno (h : Laid t) (varno : Nat) : Laid { t with varno := varno } :=
  ⟨h.scombs, h.index, h.names, h.chained, h.chains, h.screfs, h.ver, h.owner⟩

/-! ## The rewriting loop -/

/-- The field `appendver` of a supercombinator that has no append version yet -/
theorem Laid.setAppendver (h : Laid t) {v : Nat} (hpv : p < v) (hv : v < t.cells.length)
    (hno : ∀ q, t.ver q ≠ some v) : Laid (t.modify p (fun c => { c with appendver := some v })) := by
  refine h.modify (fun _ => rfl) (fun c hc => h.screfs c (List.mem_of_getElem? hc)) ?_
  rintro c w - hw
  cases hw
  exact .inr ⟨hpv, hv, hno⟩

theorem Laid.setVersion (h : Laid t) (p : Nat) (cell : Scomb) {append : Nat} {copy : Snode}
    (restname : String) (happend : append < t.cells.length) (hcopy : Below t.cells.length copy) :
    Laid (t.modify p (appendVersion cell append copy restname)) := by
  refine h.modify (fun _ => rfl) (fun c _ => ?_) (fun c v _ hv => .inl hv)
  rw [appendVersion, below_application, below_application, below_scref]
  exact ⟨⟨happend, hcopy⟩, fun q hq => absurd hq List.not_mem_nil⟩

theorem Laid.makeAppendVersion (h : Laid t) {sc : Nat} {body : Snode}
    (hbody : Below t.cells.length body) (hm : makeAppendVersion t sc body = some t') :
    Laid t' ∧ Extends t t' := by
  rw [Appendopt.makeAppendVersion] at hm
  obtain ⟨cell, hcell, hm⟩ := Option.bind_eq_some_iff.mp hm
  obtain ⟨⟨newsc, t₁⟩, hadd, hm⟩ := Option.bind_eq_some_iff.mp hm
  obtain ⟨name, rfl, rfl, h₁⟩ := h.addScomb hadd
  obtain ⟨append, happend, hm⟩ := Option.bind_eq_some_iff.mp hm
  -- the table with the new supercombinator, before its fields are set
  obtain ⟨t₁, copy, restname, ht₁, hcopy, ht'⟩ : ∃ t₁ copy restname,
      (∃ varno, t₁ = ({ t.push name with varno := varno } : Table)) ∧
      copy.screfs = body.screfs ∧
      (t₁.modify t.cells.length (appendVersion cell append copy restname)).modify sc
        (fun c => { c with appendver := some t.cells.length }) = t' :=
    ⟨_, _, _, ⟨_, rfl⟩, screfs_copyScombBody .., Option.some.inj hm⟩
  obtain ⟨hlaid, hext, hlen, hver, happend⟩ : Laid t₁ ∧ Extends t t₁ ∧
      t₁.cells.length = t.cells.length + 1 ∧ (∀ q, t₁.ver q ≠ some t.cells.length) ∧
      append < t₁.cells.length := by
    obtain ⟨varno, rfl⟩ := ht₁
    have hnew : ∀ q, (t.push name).ver q ≠ some t.cells.length :=
      fun q hq => Nat.lt_irrefl _ (h.ver ((push_ver t name).mp hq)).2
    have hext := push_extends t name
    exact ⟨h₁.withVarno varno, ⟨hext.length_le, hext.nameOf, hext.ver⟩, length_push t name, hnew,
      h₁.getScomb_lt happend⟩
  subst ht'
  have hsc : sc < t.cells.length := (List.getElem?_eq_some_iff.mp hcell).1
  have hcopy : Below t₁.cells.length copy := by
    intro q hq
    rw [hcopy] at hq
    have := hbody q hq
    omega
  have h₃ := hlaid.setVersion t.cells.length cell restname happend hcopy
  have hext₂ := hext.trans (modify_extends (p := t.cells.length)
    (f := appendVersion cell append copy restname) (fun _ => rfl) (fun _ => rfl))
  refine ⟨h₃.setAppendver hsc ?_ (fun q hq => ?_), hext₂.setAppendver (Nat.le_refl _)⟩
  · rw [length_modify]
    omega
  · rw [modify_ver (f := appendVersion cell append copy restname) (fun _ => rfl)] at hq
    exact hver q hq

theorem below_setHead {v : Nat} (hv : v < n) : ∀ {e : Snode}, Below n e → Below n (setHead v e)
  | .application l r s, h => by
    rw [below_application] at h
    rw [setHead, below_application]
    exact ⟨below_setHead hv h.1, h.2⟩
  | .scref _, _ => below_scref.mpr hv
  | .lambda .., h => h
  | .letrec .., h => h
  | .symbol _, h => h
  | .builtin _, h => h
  | .nil, h => h
  | .number _, h => h
  | .string _, h => h

theorem below_appendNode {append : Nat} {first second : Snode} {s1 s2 : Bool} :
    Below n (.application (.application (.scref append) first s2) second s1) ↔
      append < n ∧ Below n first ∧ Below n second := by
  rw [below_application, below_application, below_scref, and_assoc]

theorem below_pushAppend {append : Nat} {first second : Snode} {s : Bool} (happend : append < n)
    (hfirst : Below n first) (hsecond : Below n second) :
    Below n (pushAppend append second s first) := by
  cases first with
  | application l r s1 =>
    rw [below_application] at hfirst
    rw [pushAppend, below_application, below_appendNode]
    exact ⟨hfirst.1, happend, hfirst.2, hsecond⟩
  | _ => exact hfirst

/-- What rewriting from `t` to `t'` with the result `e` keeps -/
structure Kept (t : Table) (e : Snode) (t' : Table) : Prop where
  laid : Laid t'
  grown : Extends t t'
  below : Below t'.cells.length e

theorem Kept.refl (h : Laid t) (he : Below t.cells.length e) : Kept t e t :=
  ⟨h, .refl t, he⟩

theorem appendIf_kept {c x y second first : Snode} {s1 s2 s3 : Bool} (h : Laid t)
    (hc : Below t.cells.length c) (hx : Below t.cells.length x) (hy : Below t.cells.length y)
    (hsecond : Below t.cells.length second)
    (hi : appendIf t c x y second s1 s2 s3 = some (first, t')) : Kept t first t' := by
  rw [appendIf] at hi
  obtain ⟨append, happend, hi⟩ := Option.bind_eq_some_iff.mp hi
  have hlaid := h.withVarno (t.varno + 1)
  have happend : append < t.cells.length := hlaid.getScomb_lt happend
  have hfirst : ∀ z, Below t.cells.length (.application (.application (.application (.builtin .if_)
      c s3) (.application (.application (.scref append) x false) (.symbol z) false) s2)
      (.application (.application (.scref append) y false) (.symbol z) false) s1) := by
    intro z
    have hz : Below t.cells.length (.symbol z) := fun q hq => absurd hq List.not_mem_nil
    have hif : Below t.cells.length (.builtin .if_) := fun q hq => absurd hq List.not_mem_nil
    rw [below_application, below_application, below_application, below_appendNode, below_appendNode]
    exact ⟨⟨⟨hif, hc⟩, happend, hx, hz⟩, happend, hy, hz⟩
  have hlet : ∀ z e, Below t.cells.length e →
      Below t.cells.length (.letrec (.bind z second false .done) e) := by
    intro z e he
    rw [below_letrec]
    refine ⟨fun q hq => hsecond q ?_, he⟩
    simpa [Letrec.screfs] using hq
  have hext : Extends t { t with varno := t.varno + 1 } :=
    ⟨Nat.le_refl _, fun _ _ => rfl, .inl⟩
  cases second <;> cases hi
  case symbol name => exact ⟨hlaid, hext, hfirst name⟩
  all_goals exact ⟨hlaid, hext, hlet _ _ (hfirst _)⟩

/-- A body around a node stays in the table when the node does. -/
def Fits (m : Nat) (ctx : Snode → Snode) : Prop :=
  ∀ {n e}, m ≤ n → Below n e → Below n (ctx e)

section

variable {self : Nat} {ctx : Snode → Snode} {append a : Nat} {first second l r : Snode}
  {s s1 s2 c : Bool}

theorem appendCall_kept (h : Laid t) (hctx : Fits t.cells.length ctx)
    (happend : append < t.cells.length) (hfirst : Below t.cells.length first)
    (hsecond : Below t.cells.length second)
    (hc : appendCall self ctx t append a first second s1 s2 = some (e, t', c)) : Kept t e t' := by
  have hnode : Below t.cells.length
      (.application (.application (.scref append) first s2) second s1) :=
    below_appendNode.mpr ⟨happend, hfirst, hsecond⟩
  rw [appendCall] at hc
  obtain ⟨cell, hcell, hc⟩ := Option.bind_eq_some_iff.mp hc
  split at hc
  · cases hc
    exact .refl h (below_pushAppend happend hfirst hsecond)
  · have hdone : ∀ {t₁ v}, Laid t₁ → Extends t t₁ → t₁.ver a = some v →
        some (Snode.application (setHead v first) second s1, t₁, true) = some (e, t', c) →
        Kept t e t' := by
      intro t₁ v hlaid hext hv he
      cases he
      refine ⟨hlaid, hext, below_application.mpr ⟨?_, hsecond.mono hext.length_le⟩⟩
      exact below_setHead (hlaid.ver hv).2 (hfirst.mono hext.length_le)
    cases hav : cell.appendver with
    | some _ =>
      rw [hav] at hc
      obtain ⟨t₁, ht₁, hc⟩ := Option.bind_eq_some_iff.mp hc
      obtain ⟨v, hv, hc⟩ := Option.bind_eq_some_iff.mp hc
      cases ht₁
      exact hdone h (.refl t) hv hc
    | none =>
      rw [hav] at hc
      obtain ⟨t₁, ht₁, hc⟩ := Option.bind_eq_some_iff.mp hc
      obtain ⟨v, hv, hc⟩ := Option.bind_eq_some_iff.mp hc
      obtain ⟨hlaid, hext⟩ := h.makeAppendVersion (by
        split
        · exact hctx (Nat.le_refl _) hnode
        · exact h.screfs cell (List.mem_of_getElem? hcell)) ht₁
      exact hdone hlaid hext hv hc

theorem appendRule_kept (h : Laid t) (hctx : Fits t.cells.length ctx)
    (happend : append < t.cells.length) (hfirst : Below t.cells.length first)
    (hsecond : Below t.cells.length second)
    (hr : appendRule self ctx t append first second s1 s2 = some (e, t', c)) : Kept t e t' := by
  have hkeep : some (Snode.application (.application (.scref append) first s2) second s1, t, false) =
      some (e, t', c) → Kept t e t' := by
    rintro ⟨⟩
    exact .refl h (below_appendNode.mpr ⟨happend, hfirst, hsecond⟩)
  revert hr
  fun_cases appendRule self ctx t append first second s1 s2 with
  | case1 bs b =>
    rintro ⟨⟩
    rw [below_letrec] at hfirst
    refine .refl h (below_letrec.mpr ⟨hfirst.1, ?_⟩)
    exact below_appendNode.mpr ⟨happend, hfirst.2, hsecond⟩
  | case2 c x y =>
    intro hr
    obtain ⟨⟨e', t₁⟩, hi, hr⟩ := Option.map_eq_some_iff.mp hr
    cases hr
    rw [below_application, below_application, below_application] at hfirst
    exact appendIf_kept h hfirst.1.1.2 hfirst.1.2 hfirst.2 hsecond hi
  | case3 _ _ hunwind =>
    rw [hunwind]
    rintro ⟨⟩
    exact .refl h hsecond
  | case4 _ _ _ _ hunwind =>
    rw [hunwind]
    rintro ⟨⟩
    exact .refl h (below_pushAppend happend hfirst hsecond)
  | case5 _ _ a args hunwind hname hargs =>
    rw [hunwind]
    simp only [hname, hargs, if_true]
    rintro ⟨⟩
    exact .refl h (below_pushAppend happend hfirst hsecond)
  | case6 _ _ a args hunwind hname hargs =>
    rw [hunwind]
    simp only [hname, hargs, if_true, if_false]
    exact hkeep
  | case7 _ _ a args hunwind hname =>
    rw [hunwind]
    simp only [hname, if_false]
    exact fun hr => appendCall_kept h hctx happend hfirst hsecond hr
  | case8 _ _ _ _ hnil hcons hscref =>
    split
    · next hunwind => exact (hnil hunwind).elim
    · next hunwind => exact (hcons _ _ hunwind).elim
    · next hunwind => exact (hscref _ _ hunwind).elim
    · exact hkeep

theorem appreplaceNode_kept (h : Laid t) (hctx : Fits t.cells.length ctx)
    (hl : Below t.cells.length l) (hr : Below t.cells.length r)
    (hn : appreplaceNode self ctx t l r s = some (e, t', c)) : Kept t e t' := by
  revert hn
  fun_cases appreplaceNode self ctx t l r s with
  | case1 i first s2 hname =>
    rw [below_application, below_scref] at hl
    exact fun hn => appendRule_kept h hctx hl.1 hl.2 hr hn
  | case2 i first s2 hname =>
    rintro ⟨⟩
    exact .refl h (below_application.mpr ⟨hl, hr⟩)
  | case3 =>
    rintro ⟨⟩
    exact .refl h (below_application.mpr ⟨hl, hr⟩)

end

mutual

theorem appreplaceR_kept {self : Nat} : ∀ (e : Snode) {ctx : Snode → Snode} {t t' : Table}
    {e' : Snode} {c : Bool}, Laid t → Fits t.cells.length ctx → Below t.cells.length e →
    appreplaceR self ctx t e = some (e', t', c) → Kept t e' t'
  | .application l r s, ctx, t, t', e', c, h, hctx, he, hr => by
    rw [below_application] at he
    rw [appreplaceR] at hr
    obtain ⟨⟨l', t₁, c1⟩, hl, hr⟩ := Option.bind_eq_some_iff.mp hr
    obtain ⟨⟨r', t₂, c2⟩, hr', hr⟩ := Option.bind_eq_some_iff.mp hr
    obtain ⟨⟨e'', t₃, c3⟩, hn, hr⟩ := Option.bind_eq_some_iff.mp hr
    cases hr
    have kl := appreplaceR_kept l h (fun hle hb => hctx hle
      (below_application.mpr ⟨hb, he.2.mono hle⟩)) he.1 hl
    have hle₁ := kl.grown.length_le
    have kr := appreplaceR_kept r kl.laid (fun hle hb => hctx (hle₁.trans hle)
      (below_application.mpr ⟨kl.below.mono hle, hb⟩)) (he.2.mono hle₁) hr'
    have hle₂ := kr.grown.length_le
    have kn := appreplaceNode_kept kr.laid (fun hle hb => hctx (hle₁.trans (hle₂.trans hle)) hb)
      (kl.below.mono hle₂) kr.below hn
    exact ⟨kn.laid, kl.grown.trans (kr.grown.trans kn.grown), kn.below⟩
  | .letrec bs b, ctx, t, t', e', c, h, hctx, he, hr => by
    rw [below_letrec] at he
    rw [appreplaceR] at hr
    obtain ⟨⟨bs', t₁, c1⟩, hbs, hr⟩ := Option.bind_eq_some_iff.mp hr
    obtain ⟨⟨b', t₂, c2⟩, hb, hr⟩ := Option.bind_eq_some_iff.mp hr
    cases hr
    obtain ⟨hlaid, hext, hbs'⟩ := appreplaceBindings_kept bs h (fun hle hq => hctx hle
      (below_letrec.mpr ⟨hq, he.2.mono hle⟩)) he.1 hbs
    have hle₁ := hext.length_le
    have kb := appreplaceR_kept b hlaid (fun hle hq => hctx (hle₁.trans hle)
      (below_letrec.mpr ⟨fun q hb => (hbs' q hb).trans_le hle, hq⟩)) (he.2.mono hle₁) hb
    have hle₂ := kb.grown.length_le
    refine ⟨kb.laid, hext.trans kb.grown, below_letrec.mpr ⟨?_, kb.below⟩⟩
    exact fun q hq => (hbs' q hq).trans_le hle₂
  | .symbol _, _, _, _, _, _, h, _, he, hr => by
    cases hr
    exact .refl h he
  | .builtin _, _, _, _, _, _, h, _, he, hr => by
    cases hr
    exact .refl h he
  | .scref _, _, _, _, _, _, h, _, he, hr => by
    cases hr
    exact .refl h he
  | .nil, _, _, _, _, _, h, _, he, hr => by
    cases hr
    exact .refl h he
  | .number _, _, _, _, _, _, h, _, he, hr => by
    cases hr
    exact .refl h he
  | .string _, _, _, _, _, _, h, _, he, hr => by
    cases hr
    exact .refl h he

theorem appreplaceBindings_kept {self : Nat} : ∀ (bs : Letrec) {ctx : Letrec → Snode}
    {t t' : Table} {bs' : Letrec} {c : Bool}, Laid t →
    (∀ {n bs}, t.cells.length ≤ n → (∀ q ∈ bs.screfs, q < n) → Below n (ctx bs)) →
    (∀ q ∈ bs.screfs, q < t.cells.length) →
    appreplaceBindings self ctx t bs = some (bs', t', c) →
    Laid t' ∧ Extends t t' ∧ ∀ q ∈ bs'.screfs, q < t'.cells.length
  | .done, _, _, _, _, _, h, _, hbs, hr => by
    cases hr
    exact ⟨h, .refl _, hbs⟩
  | .bind x v s next, ctx, t, t', bs', c, h, hctx, hbs, hr => by
    rw [appreplaceBindings] at hr
    obtain ⟨⟨v', t₁, c1⟩, hv, hr⟩ := Option.bind_eq_some_iff.mp hr
    obtain ⟨⟨next', t₂, c2⟩, hnext, hr⟩ := Option.bind_eq_some_iff.mp hr
    cases hr
    have hbv : Below t.cells.length v := fun q hq => hbs q (List.mem_append_left _ hq)
    have hbnext : ∀ q ∈ next.screfs, q < t.cells.length :=
      fun q hq => hbs q (List.mem_append_right _ hq)
    have kv := appreplaceR_kept v h (fun hle hb => hctx hle (fun q hq => by
      obtain hq | hq := List.mem_append.mp hq
      · exact hb q hq
      · exact (hbnext q hq).trans_le hle)) hbv hv
    have hle₁ := kv.grown.length_le
    obtain ⟨hlaid, hext, hnext'⟩ := appreplaceBindings_kept next kv.laid (fun hle hb =>
      hctx (hle₁.trans hle) (fun q hq => by
        obtain hq | hq := List.mem_append.mp hq
        · exact kv.below.mono hle q hq
        · exact hb q hq)) (fun q hq => (hbnext q hq).trans_le hle₁) hnext
    have hle₂ := hext.length_le
    refine ⟨hlaid, kv.grown.trans hext, fun q hq => ?_⟩
    obtain hq | hq := List.mem_append.mp hq
    · exact (kv.below q hq).trans_le hle₂
    · exact hnext' q hq

end

theorem Laid.setBody (h : Laid t) {body : Snode} (hbody : Below t.cells.length body) :
    Laid (t.modify p (fun c => { c with body := body })) :=
  h.modify (fun _ => rfl) (fun _ _ => hbody) (fun _ _ _ hv => .inl hv)

theorem rewriteBody_laid : ∀ (k : Nat) {t : Table}, Laid t → rewriteBody k p t = some t' →
    Laid t' ∧ Extends t t'
  | 0, _, _, hr => by cases hr
  | k + 1, t, h, hr => by
    rw [rewriteBody] at hr
    obtain ⟨cell, hcell, hr⟩ := Option.bind_eq_some_iff.mp hr
    obtain ⟨⟨body, t₁, changed⟩, hbody, hr⟩ := Option.bind_eq_some_iff.mp hr
    have kept := appreplaceR_kept cell.body h (fun _ hb => hb)
      (h.screfs cell (List.mem_of_getElem? hcell)) hbody
    have hlaid := kept.laid.setBody (p := p) kept.below
    have hext := kept.grown.trans (modify_extends (p := p)
      (f := fun c => { c with body := body }) (fun _ => rfl) (fun _ => rfl))
    simp only at hr
    split at hr
    · obtain ⟨hlaid', hext'⟩ := rewriteBody_laid k hlaid hr
      exact ⟨hlaid', hext.trans hext'⟩
    · cases hr
      exact ⟨hlaid, hext⟩

/-- The rewriting loop keeps the table in order, and no supercombinator loses its name. -/
theorem rewriteLoop_laid : ∀ (k scno : Nat) {t : Table}, Laid t →
    rewriteLoop k scno t = some t' → Laid t' ∧ Extends t t'
  | 0, _, _, _, hr => by cases hr
  | k + 1, scno, _, h, hr => by
    rw [rewriteLoop] at hr
    split at hr
    · obtain ⟨p, hp, hr⟩ := Option.bind_eq_some_iff.mp hr
      obtain ⟨t₁, hbody, hr⟩ := Option.bind_eq_some_iff.mp hr
      obtain ⟨hlaid, hext⟩ := rewriteBody_laid k h hbody
      obtain ⟨hlaid', hext'⟩ := rewriteLoop_laid k (scno + 1) hlaid hr
      exact ⟨hlaid', hext.trans hext'⟩
    · cases hr
      exact ⟨h, .refl _⟩

/-! ## The sweep -/

/-- The place of `j` has been blanked, for the version of a supercombinator that was freed. -/
def Taken (t : Table) (freed : List Nat) (j : Nat) : Prop := ∃ o ∈ freed, t.ver o = some j

/-- A supercombinator but for its name -/
def unnamed (c : Scomb) : Scomb := { c with name := "" }

/-- The sweep of `t` before its turn `k` -/
structure Swept (t : Table) (k : Nat) (s : Sweep) : Prop where
  /-- only names of supercombinators are changed -/
  cells : ∀ p : Nat, (s.table.cells[p]?).map unnamed = (t.cells[p]?).map unnamed
  slots : ∀ j : Nat, k ≤ j → j < t.cells.length →
    s.table.scombs[j]? = some (some j) ∧ ¬ Taken t s.freed j ∨
      s.table.scombs[j]? = some none ∧ Taken t s.freed j
  remaining : ∀ p, p ∈ s.newscombs ↔
    p < t.cells.length ∧ (Taken t s.freed p ∨ p < k ∧ p ∉ s.freed)
  freed : ∀ p ∈ s.freed, p < k ∧ markUsed t p = false ∧ t.nameOf p ≠ "__start" ∧
    (∃ v, t.ver p = some v) ∧ ¬ Taken t s.freed p
  nodup : s.newscombs.Nodup
  index_new : ∀ {i p}, s.newscombs[i]? = some p → s.table.index p = i
  index_old : ∀ j, k ≤ j → j < t.cells.length → ¬ Taken t s.freed j → s.table.index j = j
  moved : ∀ o ∈ s.freed, ∀ {v}, t.ver o = some v → s.table.nameOf v = t.nameOf o
  unmoved : ∀ p, ¬ Taken t s.freed p → s.table.nameOf p = t.nameOf p

variable {k v : Nat} {s : Sweep}

theorem Swept.start (h : Laid t) : Swept t 0 ⟨t, [], []⟩ where
  cells _ := rfl
  slots j _ hj := by
    left
    rw [h.scombs]
    simp [Taken, hj]
  remaining p := by simp [Taken]
  freed p hp := absurd hp List.not_mem_nil
  nodup := List.nodup_nil
  index_new hi := by simp at hi
  index_old j _ hj _ := h.index j hj
  moved o ho := absurd ho List.not_mem_nil
  unmoved _ _ := rfl

theorem Swept.ver (h : Swept t k s) (p : Nat) : s.table.ver p = t.ver p := by
  have hcells := h.cells p
  rw [Table.ver, Table.ver]
  cases hs : s.table.cells[p]? with
  | none =>
    rw [hs] at hcells
    cases ht : t.cells[p]? with
    | none => rfl
    | some c => simp [ht] at hcells
  | some c =>
    rw [hs] at hcells
    cases ht : t.cells[p]? with
    | none => simp [ht] at hcells
    | some c' =>
      rw [ht] at hcells
      have hsame : unnamed c = unnamed c' := Option.some.inj hcells
      have hver : (unnamed c).appendver = (unnamed c').appendver := congrArg Scomb.appendver hsame
      exact hver

/-- A blank place is passed over. -/
theorem Swept.skip (h : Swept t k s) (hk : Taken t s.freed k) : Swept t (k + 1) s where
  cells := h.cells
  slots j hj := h.slots j (by omega)
  remaining p := by
    rw [h.remaining]
    by_cases hpk : p = k
    · subst hpk
      simp [hk]
    · have : p < k + 1 ↔ p < k := by omega
      rw [this]
  freed p hp := by
    obtain ⟨hlt, hrest⟩ := h.freed p hp
    exact ⟨by omega, hrest⟩
  nodup := h.nodup
  index_new := h.index_new
  index_old j hj := h.index_old j (by omega)
  moved := h.moved
  unmoved := h.unmoved

theorem Swept.not_mem_freed (h : Swept t k s) : k ∉ s.freed :=
  fun hk => Nat.lt_irrefl _ (h.freed k hk).1

/-- The positions in `newscombs` after an addition -/
theorem index_append (h : ∀ {i q}, s.newscombs[i]? = some q → s.table.index q = i)
    (hp : p ∉ s.newscombs) {i q : Nat} (hq : (s.append p).newscombs[i]? = some q) :
    (s.append p).table.index q = i := by
  have hq : (s.newscombs ++ [p])[i]? = some q := hq
  obtain hi | hi := Nat.lt_or_ge i s.newscombs.length
  · rw [List.getElem?_append_left hi] at hq
    have hqp : q ≠ p := fun hqp => hp (hqp ▸ List.mem_of_getElem? hq)
    exact (Function.update_of_ne hqp ..).trans (h hq)
  · rw [List.getElem?_append_right hi, List.getElem?_singleton] at hq
    split at hq
    · cases hq
      refine (Function.update_self ..).trans ?_
      omega
    · cases hq

theorem nodup_append (h : s.newscombs.Nodup) (hp : p ∉ s.newscombs) :
    (s.append p).newscombs.Nodup :=
  List.nodup_append_comm.mp (List.nodup_cons.mpr ⟨hp, h⟩)

theorem Swept.not_mem_newscombs (h : Swept t k s) (hp : ¬ Taken t s.freed p) (hkp : k ≤ p) :
    p ∉ s.newscombs := by
  rw [h.remaining]
  rintro ⟨-, htaken | ⟨hlt, -⟩⟩
  · exact hp htaken
  · omega

theorem Swept.append (h : Swept t k s) (hlt : k < t.cells.length) (hk : ¬ Taken t s.freed k) :
    Swept t (k + 1) (s.append k) where
  cells := h.cells
  slots j hj := h.slots j (by omega)
  remaining p := by
    have hmem : p ∈ (s.append k).newscombs ↔ p ∈ s.newscombs ∨ p = k := by simp [Sweep.append]
    rw [hmem, h.remaining]
    by_cases hpk : p = k
    · subst hpk
      simpa [hlt] using .inr h.not_mem_freed
    · have : p < k + 1 ↔ p < k := by omega
      simp [Sweep.append, hpk, this]
  freed p hp := by
    obtain ⟨hlt, hrest⟩ := h.freed p hp
    exact ⟨by omega, hrest⟩
  nodup := nodup_append h.nodup (h.not_mem_newscombs hk (Nat.le_refl k))
  index_new := index_append h.index_new (h.not_mem_newscombs hk (Nat.le_refl k))
  index_old j hj hlen htaken := by
    refine (Function.update_of_ne (by omega) ..).trans (h.index_old j (by omega) hlen htaken)
  moved := h.moved
  unmoved := h.unmoved

theorem taken_append {freed : List Nat} (hv : t.ver p = some v) {j : Nat} :
    Taken t (freed ++ [p]) j ↔ Taken t freed j ∨ j = v := by
  constructor
  · rintro ⟨o, ho, hj⟩
    obtain ho | ho := List.mem_append.mp ho
    · exact .inl ⟨o, ho, hj⟩
    · obtain rfl := List.mem_singleton.mp ho
      exact .inr (Option.some.inj (hj.symm.trans hv))
  · rintro (⟨o, ho, hj⟩ | rfl)
    · exact ⟨o, List.mem_append_left _ ho, hj⟩
    · exact ⟨p, List.mem_append_right _ (List.mem_singleton_self p), hv⟩

theorem rename_self (name : String) (hv : v < t.cells.length) :
    (t.modify v (fun c => { c with name := name })).nameOf v = name := by
  rw [Table.nameOf, modify_self, List.getElem?_eq_getElem hv]
  rfl

theorem rename_of_ne (name : String) (hp : p ≠ v) :
    (t.modify v (fun c => { c with name := name })).nameOf p = t.nameOf p := by
  rw [Table.nameOf, modify_of_ne t v _ hp.symm]
  rfl

/-- The append version of `k` takes its name and place. -/
theorem Swept.replace (h : Swept t k s) (ht : Laid t) (hlt : k < t.cells.length)
    (hk : ¬ Taken t s.freed k) (hv : t.ver k = some v) (hused : markUsed t k = false)
    (hname : t.nameOf k ≠ "__start") : Swept t (k + 1) (s.replace k v) := by
  obtain ⟨hkv, hvlen⟩ := ht.ver hv
  have hvfree : ¬ Taken t s.freed v := by
    rintro ⟨o, ho, hov⟩
    obtain rfl := ht.owner hov hv
    exact h.not_mem_freed ho
  have hindex : s.table.index v = v := h.index_old v (by omega) hvlen hvfree
  have hvnew := h.not_mem_newscombs hvfree (by omega)
  have hlen : v < s.table.cells.length := by
    have hcells := h.cells v
    rw [List.getElem?_eq_getElem hvlen] at hcells
    by_contra hge
    rw [List.getElem?_eq_none (by omega)] at hcells
    cases hcells
  have hfreed : (s.replace k v).freed = s.freed ++ [k] := rfl
  have hscombs : (s.replace k v).table.scombs = s.table.scombs.set v none :=
    congrArg (fun i => s.table.scombs.set i none) hindex
  refine ⟨?_, ?_, ?_, ?_, ?_, ?_, ?_, ?_, ?_⟩
  · intro p
    rw [← h.cells p]
    by_cases hpv : v = p
    · subst hpv
      have : (s.replace k v).table.cells[v]? = _ :=
        modify_self s.table v (fun c => { c with name := s.table.nameOf k })
      rw [this, Option.map_map]
      rfl
    · have : (s.replace k v).table.cells[p]? = _ :=
        modify_of_ne s.table v (fun c => { c with name := s.table.nameOf k }) hpv
      rw [this]
  · intro j hj hjlen
    rw [hfreed, taken_append hv]
    by_cases hjv : j = v
    · subst hjv
      right
      refine ⟨?_, .inr rfl⟩
      rw [hscombs, List.getElem?_set_self' ]
      obtain ⟨hslot, -⟩ | ⟨hslot, -⟩ := h.slots j (by omega) hjlen
      · rw [hslot]
        rfl
      · rw [hslot]
        rfl
    · rw [hscombs, List.getElem?_set_ne (Ne.symm hjv)]
      simpa [hjv] using h.slots j (by omega) hjlen
  · intro p
    have hmem : p ∈ (s.replace k v).newscombs ↔ p ∈ s.newscombs ∨ p = v := by
      simp [Sweep.replace, Sweep.append]
    rw [hmem, h.remaining, hfreed, taken_append hv]
    by_cases hpv : p = v
    · subst hpv
      simp [hvlen]
    · by_cases hpk : p = k
      · subst hpk
        simp [hpv, hk]
      · have : p < k + 1 ↔ p < k := by omega
        simp [hpv, hpk, this]
  · intro p hp
    rw [hfreed] at hp
    rw [hfreed, taken_append hv]
    obtain hp | hp := List.mem_append.mp hp
    · obtain ⟨hpk, hpused, hpname, hpver, hptaken⟩ := h.freed p hp
      refine ⟨by omega, hpused, hpname, hpver, ?_⟩
      rintro (htaken | rfl)
      · exact hptaken htaken
      · omega
    · obtain rfl := List.mem_singleton.mp hp
      refine ⟨by omega, hused, hname, ⟨v, hv⟩, ?_⟩
      rintro (htaken | rfl)
      · exact hk htaken
      · omega
  · exact nodup_append h.nodup hvnew
  · exact index_append h.index_new hvnew
  · intro j hj hjlen htaken
    rw [hfreed, taken_append hv] at htaken
    have hjv : j ≠ v := fun hjv => htaken (.inr hjv)
    exact (Function.update_of_ne hjv ..).trans
      (h.index_old j (by omega) hjlen (fun hj => htaken (.inl hj)))
  · intro o ho w how
    rw [hfreed] at ho
    obtain ho | ho := List.mem_append.mp ho
    · have hwv : w ≠ v := by
        rintro rfl
        exact hvfree ⟨o, ho, how⟩
      exact (rename_of_ne _ hwv).trans (h.moved o ho how)
    · obtain rfl := List.mem_singleton.mp ho
      obtain rfl : w = v := Option.some.inj (how.symm.trans hv)
      exact (rename_self _ hlen).trans (h.unmoved o hk)
  · intro p hp
    rw [hfreed, taken_append hv] at hp
    exact (rename_of_ne _ (fun hpv => hp (.inr hpv))).trans
      (h.unmoved p (fun htaken => hp (.inl htaken)))

/-- One turn of the sweep -/
theorem sweepTurn_swept (h : Swept t k s) (ht : Laid t) (hlt : k < t.cells.length) :
    Swept t (k + 1) (sweepTurn (markUsed t) s k) := by
  obtain ⟨hslot, hk⟩ | ⟨hslot, hk⟩ := h.slots k (Nat.le_refl k) hlt
  · have hindex := h.index_old k (Nat.le_refl k) hlt hk
    cases hv : t.ver k with
    | none =>
      have hver : s.table.cells[k]?.bind Scomb.appendver = none := (h.ver k).trans hv
      have hturn : sweepTurn (markUsed t) s k = s.append k := by
        simp only [sweepTurn, hslot, Option.bind_eq_bind, Option.bind_some, id_eq, hver]
      rw [hturn]
      exact h.append hlt hk
    | some v =>
      have hver : s.table.cells[k]?.bind Scomb.appendver = some v := (h.ver k).trans hv
      have hturn : sweepTurn (markUsed t) s k =
          if markUsed t (s.table.index k) || s.table.isNamed "__start" k then s.append k
          else s.replace k v := by
        simp only [sweepTurn, hslot, Option.bind_eq_bind, Option.bind_some, id_eq, hver]
      rw [hturn, hindex]
      split
      · exact h.append hlt hk
      · next hcond =>
        rw [Bool.or_eq_true, not_or, Table.isNamed, h.unmoved k hk] at hcond
        exact h.replace ht hlt hk hv (by simpa using hcond.1) (by simpa using hcond.2)
  · rw [sweepTurn, hslot]
    exact h.skip hk

theorem foldl_swept (ht : Laid t) : ∀ k ≤ t.cells.length,
    Swept t k ((List.range k).foldl (sweepTurn (markUsed t)) ⟨t, [], []⟩)
  | 0, _ => .start ht
  | k + 1, hk => by
    rw [List.range_succ, List.foldl_append]
    exact sweepTurn_swept (foldl_swept ht k (by omega)) ht hk

/-! ## The table after the sweep -/

theorem mem_rehash (t : Table) {q i : Nat} : ∀ (ps : List Nat) (chains : Nat → List Nat),
    q ∈ t.rehash ps chains i ↔ q ∈ chains i ∨ q ∈ ps ∧ hash (t.nameOf q) = i
  | [], chains => by simp [Table.rehash]
  | p :: ps, chains => by
    rw [Table.rehash, mem_rehash t ps]
    by_cases hi : i = hash (t.nameOf p)
    · subst hi
      rw [Function.update_self, List.mem_cons, List.mem_cons]
      constructor
      · rintro ((rfl | hq) | ⟨hq, hh⟩)
        · exact .inr ⟨.inl rfl, rfl⟩
        · exact .inl hq
        · exact .inr ⟨.inr hq, hh⟩
      · rintro (hq | ⟨rfl | hq, hh⟩)
        · exact .inl (.inr hq)
        · exact .inl (.inl rfl)
        · exact .inr ⟨hq, hh⟩
    · rw [Function.update_of_ne hi, List.mem_cons]
      constructor
      · rintro (hq | ⟨hq, hh⟩)
        · exact .inl hq
        · exact .inr ⟨.inr hq, hh⟩
      · rintro (hq | ⟨rfl | hq, hh⟩)
        · exact .inl hq
        · exact absurd hh.symm hi
        · exact .inr ⟨hq, hh⟩

/-- What the later passes rely on -/
structure Consistent (t : Table) : Prop where
  present : none ∉ t.scombs
  screfs : ∀ p, some p ∈ t.scombs → ∀ sc, t.cells[p]? = some sc →
    ∀ q ∈ sc.body.screfs, some q ∈ t.scombs
  index : ∀ {i p : Nat}, t.scombs[i]? = some (some p) → t.index p = i
  nodup : t.scombs.Nodup
  names : ∀ {p q}, some p ∈ t.scombs → some q ∈ t.scombs → t.nameOf p = t.nameOf q → p = q
  getScomb : ∀ p, some p ∈ t.scombs → t.getScomb (t.nameOf p) = some p

theorem getScomb_schashRebuild
    (hnames : ∀ {p q}, some p ∈ t.scombs → some q ∈ t.scombs → t.nameOf p = t.nameOf q → p = q)
    (hp : some p ∈ t.scombs) : t.schashRebuild.getScomb (t.nameOf p) = some p := by
  have hmem : ∀ {q i}, q ∈ t.schashRebuild.schash i ↔
      some q ∈ t.scombs ∧ hash (t.nameOf q) = i := by
    intro q i
    refine (mem_rehash t _ _).trans ?_
    simp
  cases hfind : t.schashRebuild.getScomb (t.nameOf p) with
  | none =>
    have := List.find?_eq_none.mp hfind p (hmem.mpr ⟨hp, rfl⟩)
    have hself : t.schashRebuild.isNamed (t.nameOf p) p = true := decide_eq_true rfl
    exact absurd hself this
  | some q =>
    have hq := (hmem.mp (List.mem_of_find?_eq_some hfind)).1
    have hnamed : t.schashRebuild.isNamed (t.nameOf p) q = true := List.find?_some hfind
    have hname : t.nameOf q = t.nameOf p := of_decide_eq_true hnamed
    rw [hnames hq hp hname]

section

variable (ht : Laid t) (h : Swept t t.cells.length s)

include h

theorem Swept.mem_newscombs : p ∈ s.newscombs ↔ p < t.cells.length ∧ p ∉ s.freed := by
  rw [h.remaining]
  constructor
  · rintro ⟨hlt, htaken | ⟨-, hp⟩⟩
    · exact ⟨hlt, fun hp => (h.freed p hp).2.2.2.2 htaken⟩
    · exact ⟨hlt, hp⟩
  · exact fun hp => ⟨hp.1, .inr hp⟩

include ht

/-- Different supercombinators keep or get different names. -/
theorem Swept.nameOf_inj {q : Nat} (hp : p ∈ s.newscombs) (hq : q ∈ s.newscombs)
    (hname : s.table.nameOf p = s.table.nameOf q) : p = q := by
  rw [h.mem_newscombs] at hp hq
  by_cases hpt : Taken t s.freed p
  · obtain ⟨o, ho, hop⟩ := hpt
    have holt := (h.freed o ho).1
    rw [h.moved o ho hop] at hname
    by_cases hqt : Taken t s.freed q
    · obtain ⟨o', ho', hoq⟩ := hqt
      rw [h.moved o' ho' hoq] at hname
      obtain rfl := ht.nameOf_inj holt (h.freed o' ho').1 hname
      exact Option.some.inj (hop.symm.trans hoq)
    · rw [h.unmoved q hqt] at hname
      obtain rfl := ht.nameOf_inj holt hq.1 hname
      exact absurd ho hq.2
  · rw [h.unmoved p hpt] at hname
    by_cases hqt : Taken t s.freed q
    · obtain ⟨o', ho', hoq⟩ := hqt
      rw [h.moved o' ho' hoq] at hname
      obtain rfl := ht.nameOf_inj hp.1 (h.freed o' ho').1 hname
      exact absurd ho' hp.2
    · rw [h.unmoved q hqt] at hname
      exact ht.nameOf_inj hp.1 hq.1 hname

/-- What a body refers to is used, so it is not freed. -/
theorem Swept.screfs {sc : Scomb} (hp : s.table.cells[p]? = some sc) {q : Nat}
    (hq : q ∈ sc.body.screfs) : q ∈ s.newscombs := by
  have hcells := h.cells p
  rw [hp] at hcells
  obtain ⟨c, hc, hsame⟩ := Option.map_eq_some_iff.mp hcells.symm
  have hbody : c.body = sc.body := (congrArg Scomb.body hsame : (unnamed c).body = _)
  rw [← hbody] at hq
  have hqlt := ht.screfs c (List.mem_of_getElem? hc) q hq
  rw [h.mem_newscombs]
  refine ⟨hqlt, fun hfreed => ?_⟩
  have hplt := (List.getElem?_eq_some_iff.mp hc).1
  have hused : markUsed t q = true := by
    rw [markUsed, List.any_eq_true]
    refine ⟨some p, ?_, ?_⟩
    · rw [ht.scombs]
      exact List.mem_map_of_mem (List.mem_range.mpr hplt)
    · simp only [Option.any_some, hc, Option.map_some, List.any_eq_true]
      exact ⟨q, hq, decide_eq_true (ht.index q hqlt)⟩
  rw [(h.freed q hfreed).2.1] at hused
  cases hused

end

section

variable (h : Laid t)

include h

theorem sweep_swept : ∃ s, Swept t t.cells.length s ∧
    sweep t = (({ s.table with scombs := s.newscombs.map some }).schashRebuild, s.freed) := by
  refine ⟨_, foldl_swept h t.cells.length (Nat.le_refl _), ?_⟩
  have hlen : t.scombs.length = t.cells.length := by rw [h.scombs, List.length_map, List.length_range]
  rw [sweep, hlen]

theorem sweep_consistent : Consistent (sweep t).1 := by
  obtain ⟨s, hs, hsweep⟩ := sweep_swept h
  rw [hsweep]
  have hmem : ∀ {p}, some p ∈ s.newscombs.map some ↔ p ∈ s.newscombs := by simp
  have hinj : ∀ {p q}, some p ∈ s.newscombs.map some → some q ∈ s.newscombs.map some →
      s.table.nameOf p = s.table.nameOf q → p = q :=
    fun hp hq => hs.nameOf_inj h (hmem.mp hp) (hmem.mp hq)
  refine ⟨?_, ?_, ?_, ?_, ?_, ?_⟩
  · intro hnone
    obtain ⟨_, _, hp⟩ := List.mem_map.mp hnone
    cases hp
  · exact fun p _ sc hsc q hq => hmem.mpr (hs.screfs h hsc hq)
  · intro i p hi
    have hi : (s.newscombs.map some)[i]? = some (some p) := hi
    rw [List.getElem?_map] at hi
    obtain ⟨q, hq, hqp⟩ := Option.map_eq_some_iff.mp hi
    cases hqp
    exact hs.index_new hq
  · exact hs.nodup.map (Option.some_injective _)
  · exact hinj
  · exact fun p hp => getScomb_schashRebuild (t := { s.table with scombs := s.newscombs.map some })
      hinj hp

/-- What is freed is not in the table any more. -/
theorem sweep_freed : ∀ p ∈ (sweep t).2, some p ∉ (sweep t).1.scombs := by
  obtain ⟨s, hs, hsweep⟩ := sweep_swept h
  rw [hsweep]
  intro p hp hmem
  have hmem : some p ∈ s.newscombs.map some := hmem
  have hnew : p ∈ s.newscombs := by simpa using hmem
  exact (hs.mem_newscombs.mp hnew).2 hp

/-- `__start` is not freed, and no append version of another one gets its place. -/
theorem sweep_start (hp : p < t.cells.length) (hname : t.nameOf p = "__start")
    (hver : ∀ o, t.ver o ≠ some p) :
    some p ∈ (sweep t).1.scombs ∧ (sweep t).1.nameOf p = "__start" := by
  obtain ⟨s, hs, hsweep⟩ := sweep_swept h
  rw [hsweep]
  have hfree : p ∉ s.freed := fun hfreed => (hs.freed p hfreed).2.2.1 hname
  have hplace : ¬ Taken t s.freed p := fun ⟨o, _, ho⟩ => hver o ho
  exact ⟨List.mem_map_of_mem (hs.mem_newscombs.mpr ⟨hp, hfree⟩), (hs.unmoved p hplace).trans hname⟩

end

/-! ## The pass -/

/-- The tables that the passes before `appendopt` make: `add_scomb` adds supercombinators, and their
other fields are set to what is there already. None has an append version. -/
inductive Built : Table → Prop
  | empty (varno : Nat) : Built ⟨[], fun _ => 0, [], fun _ => [], varno⟩
  | add {t t' : Table} {name1 : String} {p : Nat} :
    Built t → t.addScomb name1 = some (p, t') → Built t'
  | set {t : Table} {p : Nat} {f : Scomb → Scomb} : Built t → (∀ c, (f c).name = c.name) →
    (∀ c, (f c).appendver = c.appendver) →
    (∀ c, t.cells[p]? = some c → Below t.cells.length (f c).body) → Built (t.modify p f)
  | nextVar {t : Table} : Built t → Built t.nextVar.2

theorem Built.laid : ∀ {t : Table}, Built t → Laid t ∧ ∀ p, t.ver p = none
  | _, .empty varno => by
    refine ⟨⟨rfl, ?_, List.nodup_nil, ?_, ?_, ?_, ?_, ?_⟩, fun p => rfl⟩
    · exact fun p hp => absurd hp (Nat.not_lt_zero p)
    · exact fun p hp => absurd hp (Nat.not_lt_zero p)
    · exact fun _ p hp => absurd hp List.not_mem_nil
    · exact fun _ hsc => absurd hsc List.not_mem_nil
    · intro p v hv
      cases hv
    · intro p _ v hv
      cases hv
  | _, .add (t := t) hb ha => by
    obtain ⟨name, rfl, rfl, hlaid⟩ := hb.laid.1.addScomb ha
    refine ⟨hlaid, fun p => ?_⟩
    rw [Option.eq_none_iff_forall_ne_some]
    intro v hv
    have hnone := hb.laid.2 p
    rw [(push_ver t name).mp hv] at hnone
    cases hnone
  | _, .set (t := t) hb hname hver hbody => by
    refine ⟨hb.laid.1.modify hname hbody (fun c v _ hv => .inl ((hver c).symm.trans hv)), ?_⟩
    intro q
    rw [modify_ver hver]
    exact hb.laid.2 q
  | _, .nextVar hb => ⟨hb.laid.1.withVarno _, hb.laid.2⟩

/-- After `appendopt` the table is consistent, nothing in it was freed, and `__start` is the
supercombinator that it was. -/
theorem appendopt_consistent {fuel : Nat} {freed : List Nat} (h : Built t)
    (hr : appendopt fuel t = some (t', freed)) :
    Consistent t' ∧ (∀ p ∈ freed, some p ∉ t'.scombs) ∧
      ∀ p, t.getScomb "__start" = some p → t'.getScomb "__start" = some p := by
  obtain ⟨t₁, hloop, hsweep⟩ := Option.map_eq_some_iff.mp hr
  obtain ⟨hlaid, hext⟩ := rewriteLoop_laid fuel 0 h.laid.1 hloop
  obtain ⟨rfl, rfl⟩ : (sweep t₁).1 = t' ∧ (sweep t₁).2 = freed := by
    rw [hsweep]
    exact ⟨rfl, rfl⟩
  have hcons := sweep_consistent hlaid
  refine ⟨hcons, sweep_freed hlaid, fun p hp => ?_⟩
  have hlt : p < t.cells.length := h.laid.1.getScomb_lt hp
  have hname : t.nameOf p = "__start" := by
    have hnamed : t.isNamed "__start" p = true := List.find?_some hp
    exact of_decide_eq_true hnamed
  -- the append versions are all younger than `__start`
  have hver : ∀ o, t₁.ver o ≠ some p := by
    intro o ho
    obtain hold | hge := hext.ver ho
    · rw [h.laid.2 o] at hold
      cases hold
    · omega
  obtain ⟨hmem, hname'⟩ := sweep_start hlaid (hlt.trans_le hext.length_le)
    ((hext.nameOf p hlt).trans hname) hver
  have hfound := hcons.getScomb p hmem
  rwa [hname'] at hfound

theorem Built.push (h : Built t) (name1 name : String) (hf : t.freeName name1 = some name) :
    Built (t.push name) := by
  have hadd : t.addScomb name1 = some (t.cells.length, t.push name) := by
    rw [Table.addScomb, hf]
    rfl
  exact h.add hadd

/-- What `lift` sets -/
def setScomb (argnames : List String) (body : Snode) (c : Scomb) : Scomb :=
  { c with argnames := argnames, body := body }

theorem Built.setScomb (h : Built t) (p : Nat) (argnames : List String) {body : Snode}
    (hbody : ∀ q ∈ body.screfs, q < t.cells.length) :
    Built (t.modify p (setScomb argnames body)) :=
  h.set (fun _ => rfl) (fun _ => rfl) (fun _ _ => hbody)

/-- `__start = (append (f nil) nil)` and `f x = (cons x nil)`, with a stub of `append` -/
def startTable : Table :=
  (((((Table.mk [] (fun _ => 0) [] (fun _ => []) 0).push "append").push "__start").push "f").modify 1
    (setScomb [] (.application (.application (.scref 0)
      (.application (.scref 2) .nil false) false) .nil false))).modify 2
    (setScomb ["x"] (.application (.application (.builtin .cons) (.symbol "x") false) .nil false))

theorem startTable_built : Built startTable := by
  have h := (((Built.empty 0).push "append" "append" (by decide +kernel)).push "__start" "__start"
    (by decide +kernel)).push "f" "f" (by decide +kernel)
  refine (h.setScomb 1 [] ?_).setScomb 2 ["x"] ?_
  · decide +kernel
  · decide +kernel

theorem startTable_isSome : (appendopt 9 startTable).isSome := by decide +kernel

/-- The append version gets the name of `f`, which is freed. -/
theorem appendopt_consistent_start : ∃ t' freed, appendopt 9 startTable = some (t', freed) ∧
    freed = [2] ∧ t'.scombs.map (fun p => p.map t'.nameOf) =
      [some "append", some "__start", some "f"] ∧ Consistent t' := by
  refine ⟨_, _, (Option.some_get startTable_isSome).symm, ?_, ?_, ?_⟩
  · decide +kernel
  · decide +kernel
  · exact (appendopt_consistent startTable_built (Option.some_get startTable_isSome).symm).1

end Appendopt
end Compiler
end NReduce
