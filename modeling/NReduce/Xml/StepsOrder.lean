import NReduce.Xml.Shapes

/-!
# NReduce.Xml.StepsOrder

Where the sequence that a step puts together is in document order. `Expr.run` follows an
expression through the shapes of sequences.

* `eval_fits`: what an expression gives has the shape that `run` says.
* `steps_in_order`: a step that `safe` accepts is in order, and of the steps from one axis to
  another `safe` accepts all those that are in order for every document.
-/

namespace NReduce
namespace Xml

open Logic

/-! ## The functions of the library -/

/-- The items with their positions, and with the number of all of them -/
def contexts : List Node → Nat → Nat → List (Node × Nat × Nat)
  | [], _, _ => []
  | node :: lst, pos, total =>
    (node, pos, total + (lst.length + 1)) :: contexts lst (pos + 1) (total + 1)

theorem contexts_fst (lst : List Node) (pos total : Nat) :
    (contexts lst pos total).map (·.1) = lst := by
  induction lst generalizing pos total with
  | nil => rfl
  | cons node lst ih => rw [contexts, List.map_cons, ih]

theorem apmap3a_mono {f : Nat → Node → Nat → Nat → Option (List Node)}
    (hf : ∀ n pos size, Mono (f · n pos size)) (lst : List Node) (pos total : Nat) :
    Mono fun k => apmap3a (f k) lst pos total := by
  induction lst generalizing pos total with
  | nil => exact .const _
  | cons node lst ih =>
    intro k
    exact (hf node pos _ k).bind fun first => (ih (pos + 1) (total + 1) k).bind fun rest => .refl _

theorem apmap3a_returns {f : Nat → Node → Nat → Nat → Option (List Node)}
    (hf : ∀ n pos size, Mono (f · n pos size)) {lst : List Node} {pos total : Nat}
    {v : List Node} (hv : Returns (fun k => apmap3a (f k) lst pos total) v) :
    ∃ us, List.Forall₂ (fun c u => Returns (f · c.1 c.2.1 c.2.2) u) (contexts lst pos total) us ∧
      us.flatten = v := by
  induction lst generalizing pos total v with
  | nil =>
    have := (Returns.const []).unique hv
    exact ⟨[], .nil, this⟩
  | cons node lst ih =>
    obtain ⟨first, hfirst, hv⟩ := Returns.of_bind (hf node pos _) (fun first k =>
      (apmap3a_mono hf lst (pos + 1) (total + 1) k).bind fun rest => .refl _) hv
    obtain ⟨rest, hrest, hv⟩ := Returns.of_bind (apmap3a_mono hf lst (pos + 1) (total + 1))
      (fun rest => .const _) hv
    obtain ⟨us, hus, rfl⟩ := ih hrest
    exact ⟨first :: us, .cons hfirst hus, (Returns.const _).unique hv⟩

theorem filter3a_sublist (f : Node → Nat → Nat → Bool) (lst : List Node) (pos total : Nat) :
    (filter3a f lst pos total).Sublist lst := by
  induction lst generalizing pos total with
  | nil => exact .slnil
  | cons node lst ih =>
    rw [filter3a]
    split
    · exact (ih _ _).cons_cons _
    · exact (ih _ _).cons _

theorem Node.itemIndex_mono (n : Node) : Mono (n.itemIndex ·) := by
  obtain ⟨d, p⟩ := n
  cases p with
  | tree x => exact fun k => (d.index_mono k).2 x
  | attr x i => exact fun k => ((d.index_mono k).2 x).map _
  | ns x i => exact .const _

theorem Axis.nodes_mono (axis : Axis) (n : Node) : Mono (axis.nodes · n) := by
  obtain ⟨d, p⟩ := n
  cases axis <;> cases p
  all_goals first
    | exact .const _
    | exact fun k => ((d.descList_mono k).2 _ []).map _
    | exact fun k => (((d.descList_mono k).2 _ []).map _).map _
    | exact (d.nodeAncestors_mono _).map
    | exact (d.nodeAncestors_mono _).map.map
    | exact (d.nodePrecedingSiblings_mono _).map
    | exact fun k => ((d.preceding_mono k).2 _ _ _).map _
    | exact fun k => ((d.following_mono k).1 _).map _

namespace Expr

theorem eval_filter {left : Expr} (hl : ∀ axis test, left ≠ .nodeTest axis test) (k : Nat)
    (predicate : Node → Nat → Nat → Bool) (citem : Node) (cpos csize : Nat) :
    eval k (.filter left predicate) citem cpos csize =
      (eval k left citem cpos csize).map (filter3 predicate) := by
  cases left with
  | nodeTest axis test => exact absurd rfl (hl axis test)
  | _ => rfl

theorem nodeTest_mono (axis : Axis) (f : List Node → List Node) (n : Node) :
    Mono fun k => if axis.isForward then (axis.nodes k n).map f
      else (axis.nodes k n).map fun lst => (f lst).reverse := by
  cases axis.isForward
  · exact (axis.nodes_mono n).map
  · exact (axis.nodes_mono n).map

theorem step_mono {left right : Expr} (hl : ∀ n pos size, Mono (eval · left n pos size))
    (hr : ∀ n pos size, Mono (eval · right n pos size)) (n : Node) (pos size : Nat) :
    Mono (stepNodes · left right n pos size) :=
  fun k => (hl n pos size k).bind fun lst => apmap3a_mono hr lst 1 0 k

theorem eval_mono (e : Expr) (n : Node) (pos size : Nat) : Mono (eval · e n pos size) := by
  induction e generalizing n pos size with
  | root => exact .const _
  | nodeTest axis test => exact nodeTest_mono axis (·.filter (test.holds axis)) n
  | filter left predicate ih =>
    by_cases hl : ∃ axis test, left = .nodeTest axis test
    · obtain ⟨axis, test, rfl⟩ := hl
      exact nodeTest_mono axis (fun lst => filter3 predicate (lst.filter (test.holds axis))) n
    · simp only [eval_filter fun axis test heq => hl ⟨axis, test, heq⟩]
      exact (ih n pos size).map
  | varRef target => cases target <;> exact .const _
  | other value => exact .const _
  | step left right ihl ihr =>
    intro k
    refine (ihl n pos size k).bind fun lst => (apmap3a_mono ihr lst 1 0 k).bind fun nodes => ?_
    cases left.isDocOrder && right.isDocOrder
    · exact sortBy_mono Node.itemIndex_mono nodes k
    · exact .refl _

theorem eval_step (left right : Expr) (k : Nat) (n : Node) (pos size : Nat) :
    eval k (.step left right) n pos size = (stepNodes k left right n pos size).bind fun nodes =>
      if left.isDocOrder && right.isDocOrder then some (pathResult nodes)
      else pathResultSort k nodes := by
  rw [stepNodes, Option.bind_assoc]
  rfl

/-- What a step without the sort gives is what it puts together. -/
theorem step_returns {left right : Expr} (hdoc : (left.isDocOrder && right.isDocOrder) = true)
    {n : Node} {pos size : Nat} {v : List Node}
    (hv : Returns (eval · (.step left right) n pos size) v) :
    Returns (stepNodes · left right n pos size) v := by
  refine hv.congr fun k => ?_
  rw [eval_step, hdoc]
  cases stepNodes k left right n pos size <;> rfl

/-- What a test of an axis, with or without a predicate, can give -/
theorem nodeTest_returns {axis : Axis} {f : List Node → List Node} (hf : ∀ l, (f l).Sublist l)
    {n : Node} {v l : List Node}
    (hv : Returns (fun k => if axis.isForward then (axis.nodes k n).map f
      else (axis.nodes k n).map fun lst => (f lst).reverse) v)
    (hl : Returns (axis.nodes · n) (if axis.isForward then l else l.reverse)) : v.Sublist l := by
  cases hfwd : axis.isForward
  · simp only [hfwd, Bool.false_eq_true, if_false] at hv hl
    have hsub := (hf l.reverse).reverse
    rw [List.reverse_reverse] at hsub
    rwa [hv.unique (hl.map rfl)]
  · simp only [hfwd, if_true] at hv hl
    rw [hv.unique (hl.map rfl)]
    exact hf l

end Expr

/-! ## Expressions and shapes -/

/-- One node of the tree, given for each node of a sequence -/
def Shape.repeated : Shape → Shape
  | .empty => .empty
  | .node | .single => .node
  | _ => .upward

namespace Expr

/-- The shape of what an expression gives for the nodes of a sequence, all of it put together. -/
def run : Shape → Expr → Option Shape
  | σ, .root => some σ.repeated
  | σ, .nodeTest axis _ => σ.after axis
  | σ, .filter (.nodeTest axis _) _ => σ.after axis
  | _, .filter .. => none
  | σ, .varRef (.content _) => some σ.repeated
  | _, .varRef (.select _) => none
  | _, .other _ => none
  | σ, .step left right =>
    if left.isDocOrder && right.isDocOrder then (run σ left).bind (run · right) else none

end Expr

/-- A node of a parsed document -/
def Node.Valid (n : Node) : Prop := (∃ tokens, parse tokens = .ok n.doc) ∧ n.place.In n.doc

/-- The values from outside of the expression are nodes of parsed documents. -/
def Expr.Valid : Expr → Prop
  | .root => True
  | .nodeTest .. => True
  | .filter left _ => left.Valid
  | .varRef (.select value) => ∀ n ∈ value, n.Valid
  | .varRef (.content doc) => ∃ tokens, parse tokens = .ok doc
  | .other value => ∀ n pos size, n.Valid → ∀ m ∈ value n pos size, m.Valid
  | .step left right => left.Valid ∧ right.Valid

namespace Shape.Fits

theorem axis_fits {σ τ : Shape} {axis : Axis} (hafter : σ.after axis = some τ)
    {cs : List (Node × Nat × Nat)} (hfits : σ.Fits (cs.map (·.1))) {vs : List (List Node)}
    (hvs : List.Forall₂ (fun c v => ∀ l, Returns (axis.nodes · c.1)
      (if axis.isForward then l else l.reverse) → v.Sublist l) cs vs) : τ.Fits vs.flatten := by
  obtain ⟨tokens, d, ext, dep, hd, h, ps, hps, hmem, hpair⟩ := hfits
  have hlists : ∃ qs : List Place, vs.flatten.Sublist (qs.map d.at) ∧
      (∀ q ∈ qs, ∃ p ∈ ps, OnAxis d ext axis p q ∧ q.In d) ∧ qs.Pairwise (τ.Before d ext) := by
    induction hvs generalizing ps with
    | nil => exact ⟨[], .slnil, fun q hq => absurd hq List.not_mem_nil, .nil⟩
    | @cons c v cs vs hv _ ih =>
      cases ps with
      | nil => cases hps
      | cons p ps =>
        obtain ⟨hpair₁, hpair₂⟩ := List.pairwise_cons.mp hpair
        obtain ⟨hc, hcs⟩ := List.cons.inj hps
        obtain ⟨hin, hholds⟩ := hmem p (List.mem_cons_self ..)
        have hrest : ∀ q ∈ ps, q.In d ∧ σ.Holds q := fun q hq => hmem q (List.mem_cons_of_mem _ hq)
        obtain ⟨qs, hsub, hqs, hqpair⟩ := ih ps hcs hrest hpair₂
        obtain ⟨l, hl⟩ := h.exists_axisList hafter hholds hin
        refine ⟨l ++ qs, ?_, fun q hq => ?_, List.pairwise_append.mpr ⟨h.within hafter hholds hl,
          hqpair, fun a ha b hb => ?_⟩⟩
        · rw [List.map_append, List.flatten_cons]
          refine List.Sublist.append (hv _ ?_) hsub
          have hnodes := hl.nodes
          rw [← hc] at hnodes
          cases hf : axis.isForward <;> simpa [hf] using hnodes
        · obtain hq | hq := List.mem_append.mp hq
          · exact ⟨p, List.mem_cons_self .., hl.mem q hq⟩
          · obtain ⟨p', hp', hon⟩ := hqs q hq
            exact ⟨p', List.mem_cons_of_mem _ hp', hon⟩
        · obtain ⟨p', hp', hon, -⟩ := hqs b hb
          exact h.across hafter hholds (hrest p' hp').2 (hpair₁ p' hp') (hl.mem a ha).1 hon
  obtain ⟨qs, hsub, hqs, hpair'⟩ := hlists
  refine Fits.sublist ⟨tokens, d, ext, dep, hd, h, qs, rfl, fun q hq => ?_, hpair'⟩ hsub
  obtain ⟨p, hp, hon, hin⟩ := hqs q hq
  exact ⟨hin, Layout.holds_after hafter (hmem p hp).2 hon⟩

/-- One document, for each node of a sequence -/
theorem repeated_fits {σ : Shape} {cs : List (Node × Nat × Nat)} (hfits : σ.Fits (cs.map (·.1)))
    {tokens : List Token} {d : Doc} (hd : parse tokens = .ok d) {vs : List (List Node)}
    (hvs : List.Forall₂ (fun _ v => v = [d.tree 0]) cs vs) : σ.repeated.Fits vs.flatten := by
  obtain ⟨ext, dep, h⟩ := parse_layout hd
  obtain ⟨_, d', ext', _, _, _, ps, hps, hmem, hpair⟩ := hfits
  have hflat : vs.flatten = (cs.map fun _ => Place.tree 0).map d.at := by
    clear hps
    induction hvs with
    | nil => rfl
    | cons hv _ ih =>
      subst hv
      simp only [List.flatten_cons, List.map_cons, ih]
      rfl
  refine ⟨tokens, d, ext, dep, hd, h, _, hflat, fun p hp => ?_, ?_⟩
  · obtain ⟨c, hc, rfl⟩ := List.mem_map.mp hp
    refine ⟨h.pos, ?_⟩
    have hne : ps ≠ [] := by
      rintro rfl
      rw [List.map_nil, List.map_eq_nil_iff] at hps
      rw [hps] at hc
      cases hc
    obtain ⟨q, hq⟩ := List.exists_mem_of_ne_nil ps hne
    have hholds := (hmem q hq).2
    cases σ <;> first | exact hholds.elim | trivial
  · match cs, ps, hps with
    | [], _, _ => exact .nil
    | [_], _, _ => exact List.pairwise_singleton ..
    | _ :: _ :: _, [], hps => cases hps
    | _ :: _ :: _, [_], hps => simp at hps
    | _ :: _ :: _, p :: q :: ps, _ =>
      have hpq := (List.pairwise_cons.mp hpair).1 q (List.mem_cons_self ..)
      rw [List.pairwise_map]
      refine List.pairwise_of_forall fun _ _ => ?_
      cases σ <;> first
        | exact Climb.refl d 0
        | exact ((hmem p (List.mem_cons_self ..)).2).elim
        | (cases p <;> cases q <;> exact hpq.elim)

end Shape.Fits

namespace Expr

/-- The nodes that the steps of a sequence start from on the right, with their positions -/
theorem step_contexts {left right : Expr} (hdoc : (left.isDocOrder && right.isDocOrder) = true)
    {cs : List (Node × Nat × Nat)} {vs : List (List Node)}
    (hvs : List.Forall₂ (fun c v => Returns (eval · (.step left right) c.1 c.2.1 c.2.2) v) cs vs) :
    ∃ (lsts : List (List Node)) (cs' : List (Node × Nat × Nat)) (us : List (List Node)),
      List.Forall₂ (fun c v => Returns (eval · left c.1 c.2.1 c.2.2) v) cs lsts ∧
      cs'.map (·.1) = lsts.flatten ∧
      List.Forall₂ (fun c v => Returns (eval · right c.1 c.2.1 c.2.2) v) cs' us ∧
      us.flatten = vs.flatten := by
  induction hvs with
  | nil => exact ⟨[], [], [], .nil, rfl, .nil, rfl⟩
  | @cons c v cs vs hv _ ih =>
    obtain ⟨lsts, cs', us, hlsts, hcs', hus, heq⟩ := ih
    obtain ⟨lst, hlst, hnodes⟩ := Returns.of_bind (eval_mono left c.1 c.2.1 c.2.2)
      (fun lst => apmap3a_mono (eval_mono right) lst 1 0) (step_returns hdoc hv)
    obtain ⟨us', hus', rfl⟩ := apmap3a_returns (eval_mono right) hnodes
    refine ⟨lst :: lsts, contexts lst 1 0 ++ cs', us' ++ us, .cons hlst hlsts, ?_, ?_, ?_⟩
    · rw [List.map_append, contexts_fst, hcs', List.flatten_cons]
    · exact List.rel_append hus' hus
    · rw [List.flatten_append, List.flatten_cons, heq]

theorem root_returns {n : Node} (hn : ∃ tokens, parse tokens = .ok n.doc) {pos size : Nat}
    {v : List Node} (hv : Returns (eval · .root n pos size) v) : v = [n.doc.tree 0] := by
  obtain ⟨tokens, hd⟩ := hn
  obtain ⟨k, hk⟩ := hv
  obtain ⟨r, hr, rfl⟩ := Option.map_eq_some_iff.mp (hk k (Nat.le_refl k))
  rw [Node.itemRoot] at hr
  split at hr
  · obtain ⟨x, hx, rfl⟩ := Option.map_eq_some_iff.mp hr
    rw [parse_root hd hx]
  · obtain ⟨x, hx, rfl⟩ := Option.map_eq_some_iff.mp hr
    rw [parse_root hd hx]
  · cases hr

theorem eval_fits {e : Expr} (he : e.Valid) {σ τ : Shape} (hrun : run σ e = some τ)
    {cs : List (Node × Nat × Nat)} (hfits : σ.Fits (cs.map (·.1))) {vs : List (List Node)}
    (hvs : List.Forall₂ (fun c v => Returns (eval · e c.1 c.2.1 c.2.2) v) cs vs) :
    τ.Fits vs.flatten := by
  induction e generalizing σ τ cs vs with
  | root =>
    cases hrun
    obtain ⟨tokens, d, _, _, hd, _, ps, hps, -⟩ := id hfits
    have hdoc : ∀ c ∈ cs, c.1.doc = d := fun c hc => by
      have hmem : c.1 ∈ cs.map (·.1) := List.mem_map.mpr ⟨c, hc, rfl⟩
      rw [hps] at hmem
      obtain ⟨p, -, hp⟩ := List.mem_map.mp hmem
      rw [← hp]
      rfl
    refine hfits.repeated_fits hd
      (((List.forall₂_and_left _ _).mpr ⟨hdoc, hvs⟩).imp fun c v ⟨hc, hv⟩ => ?_)
    subst hc
    exact root_returns ⟨tokens, hd⟩ hv
  | nodeTest axis test =>
    refine hfits.axis_fits hrun (hvs.imp fun c v hv l hl => ?_)
    exact nodeTest_returns (fun l => List.filter_sublist) hv hl
  | filter left predicate ih =>
    cases left with
    | nodeTest axis test =>
      refine hfits.axis_fits hrun (hvs.imp fun c v hv l hl => ?_)
      exact nodeTest_returns (f := fun lst => filter3 predicate (lst.filter (test.holds axis)))
        (fun l => (filter3a_sublist ..).trans List.filter_sublist) hv hl
    | _ => cases hrun
  | varRef target =>
    cases target with
    | select value => cases hrun
    | content doc =>
      cases hrun
      obtain ⟨tokens, hd⟩ := he
      exact hfits.repeated_fits hd (hvs.imp fun c v hv => (Returns.const _).unique hv |>.symm)
  | other value => cases hrun
  | step left right ihl ihr =>
    rw [run] at hrun
    split at hrun
    · rename_i hdoc
      obtain ⟨ρ, hρ, hτ⟩ := Option.bind_eq_some_iff.mp hrun
      obtain ⟨lsts, cs', us, hlsts, hcs', hus, heq⟩ := step_contexts hdoc hvs
      rw [← heq]
      exact ihr he.2 hτ (hcs' ▸ ihl he.1 hρ hfits hlsts) hus
    · cases hrun

end Expr

/-! ## The order of the result -/

theorem Layout.itemIndex_at {d : Doc} {ext dep : Nat → Nat} (h : Layout d ext dep) {p : Place}
    (hp : p.In d) : Returns ((d.at p).itemIndex ·) p.index := by
  cases p with
  | tree x => exact h.itemIndex_spec hp
  | attr x i => exact (h.itemIndex_spec hp.1).map rfl
  | ns x i => exact .const 0

theorem Node.Valid.itemIndex {n : Node} (hn : n.Valid) : Returns (n.itemIndex ·) n.place.index := by
  obtain ⟨⟨tokens, hd⟩, hin⟩ := hn
  obtain ⟨ext, dep, h⟩ := parse_layout hd
  exact h.itemIndex_at hin

def DocOrdered (lst : List Node) : Prop :=
  lst.Pairwise fun m n => ∃ i j, Returns (m.itemIndex ·) i ∧ Returns (n.itemIndex ·) j ∧ i ≤ j

theorem docOrdered_of_index {lst : List Node} (hv : ∀ n ∈ lst, n.Valid)
    (hl : lst.Pairwise (·.place.index ≤ ·.place.index)) : DocOrdered lst :=
  hl.imp_of_mem fun ha hb hle => ⟨_, _, (hv _ ha).itemIndex, (hv _ hb).itemIndex, hle⟩

theorem Shape.before_index {d : Doc} {ext dep : Nat → Nat} (h : Layout d ext dep) {σ : Shape}
    (hσ : σ ≠ .nsnodes) {p q : Place} (hp : p.In d) (hpq : σ.Before d ext p q) :
    p.index ≤ q.index ∧ (p.index = q.index → p = q) := by
  cases σ <;> cases p <;> cases q <;> simp only [Shape.Before, Place.index] at *
  · have := h.ext_gt _ hp
    omega
  · omega
  · omega
  · exact ⟨hpq.le, fun heq => congrArg _ heq⟩
  all_goals first | omega | exact absurd rfl hσ

theorem Shape.Fits.valid {σ : Shape} {l : List Node} (h : σ.Fits l) : ∀ n ∈ l, n.Valid := by
  obtain ⟨tokens, d, ext, dep, hd, hlay, ps, rfl, hmem, hpair⟩ := h
  intro n hn
  obtain ⟨p, hp, rfl⟩ := List.mem_map.mp hn
  exact ⟨⟨tokens, hd⟩, (hmem p hp).1⟩

/-- A sequence of a shape that keeps the order is in order, and the sort leaves it as it is. -/
theorem Shape.Fits.in_order {σ : Shape} (hσ : σ ≠ .nsnodes) {l : List Node} (h : σ.Fits l) :
    DocOrdered l ∧ Returns (pathResultSort · l) l := by
  have hvalid := h.valid
  obtain ⟨tokens, d, ext, dep, hd, hlay, ps, rfl, hmem, hpair⟩ := h
  have hindex : ps.Pairwise fun p q => p.index ≤ q.index ∧ (p.index = q.index → p = q) :=
    hpair.imp_of_mem fun hp hq hpq => Shape.before_index hlay hσ (hmem _ hp).1 hpq
  have hle : (ps.map d.at).Pairwise (·.place.index ≤ ·.place.index) :=
    List.pairwise_map.mpr (hindex.imp fun hpq => hpq.1)
  have heq : ∀ ⦃p⦄, p ∈ ps → ∀ ⦃q⦄, q ∈ ps → p.index = q.index → p = q :=
    List.Pairwise.forall_of_forall_of_flip (R := fun p q => p.index = q.index → p = q)
      (fun _ _ _ => rfl) (hindex.imp fun hpq => hpq.2)
      (hindex.imp fun hpq hqp => (hpq.2 hqp.symm).symm)
  refine ⟨docOrdered_of_index hvalid hle,
    sortBy_sorted (v := fun n => n.place.index) (fun n hn => (hvalid n hn).itemIndex) hle ?_⟩
  intro m hm n hn hmn
  obtain ⟨p, hp, rfl⟩ := List.mem_map.mp hm
  obtain ⟨q, hq, rfl⟩ := List.mem_map.mp hn
  rw [heq hp hq hmn]

/-! ## Every value is a sequence of valid nodes -/

theorem Layout.valid_following {d : Doc} {ext dep : Nat → Nat} (h : Layout d ext dep) {x i : Nat}
    (hx : x < d.items.length) {l : List Node}
    (hl : Returns (Axis.following.nodes · (d.at (.attr x i))) l) :
    ∃ ps : List Place, l = ps.map d.at ∧ ∀ p ∈ ps, p.In d := by
  have hfollowing := (h.nodeFollowing_spec hx).map
    (g := ((d.at (.attr x i)).itemNext ++ ·.map d.tree)) rfl
  refine ⟨(List.range' (i + 1) ((d.attributes x).length - (i + 1))).map (.attr x) ++
    (between (ext x) d.items.length).map .tree, ?_, fun p hp => ?_⟩
  · rw [hl.unique hfollowing]
    simp [Node.itemNext, Doc.attrs, Doc.at, Doc.tree, Function.comp_def]
  · obtain hp | hp := List.mem_append.mp hp
    · obtain ⟨j, hj, rfl⟩ := List.mem_map.mp hp
      rw [List.mem_range'_1] at hj
      exact ⟨hx, by omega⟩
    · obtain ⟨y, hy, rfl⟩ := List.mem_map.mp hp
      exact (mem_between.mp hy).2

theorem Axis.valid_nodes {axis : Axis} {n : Node} (hn : n.Valid) {l : List Node}
    (hl : Returns (axis.nodes · n) l) : ∀ m ∈ l, m.Valid := by
  obtain ⟨d, p⟩ := n
  obtain ⟨⟨tokens, hd⟩, hin⟩ := hn
  obtain ⟨ext, dep, h⟩ := parse_layout hd
  have hplaces : ∃ ps : List Place, l = ps.map d.at ∧ ∀ p ∈ ps, p.In d := by
    have hlist : ∀ ps, AxisList d ext axis p ps → ∃ ps : List Place, l = ps.map d.at ∧
        ∀ p ∈ ps, p.In d := by
      intro ps hps
      refine ⟨_, hl.unique hps.nodes, fun q hq => (hps.mem q ?_).2⟩
      cases hf : axis.isForward <;> simpa [hf] using hq
    cases p with
    | tree x =>
      obtain ⟨ps, hps⟩ := h.axisList_tree hin axis
      exact hlist ps hps
    | attr x i =>
      by_cases hne : axis = .following
      · subst hne
        exact h.valid_following hin.1 hl
      · obtain ⟨ps, hps⟩ := h.axisList_attr hin hne
        exact hlist ps hps
    | ns x i =>
      obtain ⟨ps, hps⟩ := Layout.axisList_ns hin axis
      exact hlist ps hps
  obtain ⟨ps, rfl, hps⟩ := hplaces
  intro m hm
  obtain ⟨q, hq, rfl⟩ := List.mem_map.mp hm
  exact ⟨⟨tokens, hd⟩, hps q hq⟩

namespace Expr

theorem valid_nodeTest {axis : Axis} {f : List Node → List Node} (hf : ∀ l, (f l).Sublist l)
    {n : Node} (hn : n.Valid) {v : List Node}
    (hv : Returns (fun k => if axis.isForward then (axis.nodes k n).map f
      else (axis.nodes k n).map fun lst => (f lst).reverse) v) : ∀ m ∈ v, m.Valid := by
  cases hfwd : axis.isForward
  · simp only [hfwd, Bool.false_eq_true, if_false] at hv
    obtain ⟨l, hl, rfl⟩ := Returns.of_map (axis.nodes_mono n) hv
    exact fun m hm => axis.valid_nodes hn hl m ((hf l).subset (List.mem_reverse.mp hm))
  · simp only [hfwd, if_true] at hv
    obtain ⟨l, hl, rfl⟩ := Returns.of_map (axis.nodes_mono n) hv
    exact fun m hm => axis.valid_nodes hn hl m ((hf l).subset hm)

theorem mem_contexts {lst : List Node} {pos total : Nat} {c : Node × Nat × Nat}
    (hc : c ∈ contexts lst pos total) : c.1 ∈ lst := by
  rw [← contexts_fst lst pos total]
  exact List.mem_map.mpr ⟨c, hc, rfl⟩

theorem forall₂_right {α β : Type} {P : β → Prop} {l : List α} {l' : List β}
    (h : List.Forall₂ (fun _ b => P b) l l') : ∀ b ∈ l', P b := by
  induction h with
  | nil => exact fun b hb => absurd hb List.not_mem_nil
  | cons hab _ ih =>
    intro b hb
    obtain rfl | hb := List.mem_cons.mp hb
    · exact hab
    · exact ih b hb

theorem valid_stepNodes {left right : Expr}
    (hl : ∀ {n}, n.Valid → ∀ {pos size v}, Returns (eval · left n pos size) v →
      ∀ m ∈ v, m.Valid)
    (hr : ∀ {n}, n.Valid → ∀ {pos size v}, Returns (eval · right n pos size) v →
      ∀ m ∈ v, m.Valid)
    {n : Node} (hn : n.Valid) {pos size : Nat} {v : List Node}
    (hv : Returns (stepNodes · left right n pos size) v) : ∀ m ∈ v, m.Valid := by
  obtain ⟨lst, hlst, hnodes⟩ := Returns.of_bind (eval_mono left n pos size)
    (fun lst => apmap3a_mono (eval_mono right) lst 1 0) hv
  obtain ⟨us, hus, rfl⟩ := apmap3a_returns (eval_mono right) hnodes
  intro m hm
  obtain ⟨u, hu, hmu⟩ := List.mem_flatten.mp hm
  have hvalid : ∀ c ∈ contexts lst 1 0, c.1.Valid := fun c hc => hl hn hlst c.1 (mem_contexts hc)
  have hall := ((List.forall₂_and_left _ _).mpr ⟨hvalid, hus⟩).imp fun c u h => hr h.1 h.2
  exact forall₂_right hall u hu m hmu

theorem exists_sort {nodes : List Node} (hv : ∀ n ∈ nodes, n.Valid) :
    ∃ lst, Returns (pathResultSort · nodes) lst ∧ lst.Perm nodes ∧
      lst.Pairwise (·.place.index ≤ ·.place.index) := by
  have hindex : ∀ n ∈ nodes, Returns (fun k => (fun k (n : Node) => n.itemIndex k) k n)
      n.place.index := fun n hn => (hv n hn).itemIndex
  exact sortBy_spec (v := fun n : Node => n.place.index) hindex

theorem valid_eval {e : Expr} (he : e.Valid) {n : Node} (hn : n.Valid) {pos size : Nat}
    {v : List Node} (hv : Returns (eval · e n pos size) v) : ∀ m ∈ v, m.Valid := by
  induction e generalizing n pos size v with
  | root =>
    rw [root_returns hn.1 hv]
    obtain ⟨tokens, hd⟩ := hn.1
    obtain ⟨ext, dep, h⟩ := parse_layout hd
    intro m hm
    rw [List.mem_singleton.mp hm]
    exact ⟨hn.1, h.pos⟩
  | nodeTest axis test => exact valid_nodeTest (fun l => List.filter_sublist) hn hv
  | filter left predicate ih =>
    by_cases hl : ∃ axis test, left = .nodeTest axis test
    · obtain ⟨axis, test, rfl⟩ := hl
      exact valid_nodeTest (f := fun lst => filter3 predicate (lst.filter (test.holds axis)))
        (fun l => (filter3a_sublist ..).trans List.filter_sublist) hn hv
    · simp only [eval_filter fun axis test heq => hl ⟨axis, test, heq⟩] at hv
      obtain ⟨l, hl, rfl⟩ := Returns.of_map (eval_mono left n pos size) hv
      exact fun m hm => ih he hn hl m ((filter3a_sublist ..).subset hm)
  | varRef target =>
    cases target with
    | select value =>
      rw [← (Returns.const value).unique hv]
      exact he
    | content doc =>
      rw [← (Returns.const [doc.tree 0]).unique hv]
      obtain ⟨tokens, hd⟩ := id he
      obtain ⟨ext, dep, h⟩ := parse_layout hd
      intro m hm
      rw [List.mem_singleton.mp hm]
      exact ⟨he, h.pos⟩
  | other value =>
    rw [← (Returns.const (value n pos size)).unique hv]
    exact he n pos size hn
  | step left right ihl ihr =>
    have hstep : ∀ {nodes}, Returns (stepNodes · left right n pos size) nodes →
        ∀ m ∈ nodes, m.Valid := valid_stepNodes (ihl he.1) (ihr he.2) hn
    by_cases hdoc : (left.isDocOrder && right.isDocOrder) = true
    · exact hstep (step_returns hdoc hv)
    · simp only [eval_step, hdoc] at hv
      obtain ⟨nodes, hnodes, hsort⟩ := Returns.of_bind (step_mono (eval_mono left) (eval_mono right)
        n pos size) (fun nodes => sortBy_mono Node.itemIndex_mono nodes) hv
      obtain ⟨lst, hlst, hperm, -⟩ := exists_sort (hstep hnodes)
      rw [hsort.unique hlst]
      exact fun m hm => hstep hnodes m (hperm.subset hm)

end Expr

/-! ## Steps -/

namespace Expr

/-- The step is in document order, without the sort where `compile_expression` leaves it out. -/
def StepInOrder (left right : Expr) : Prop :=
  ∀ citem, citem.Valid → ∀ cpos csize nodes,
    Returns (stepNodes · left right citem cpos csize) nodes →
    if left.isDocOrder && right.isDocOrder then
      DocOrdered nodes ∧ Returns (pathResultSort · nodes) (pathResult nodes)
    else ∃ lst, Returns (pathResultSort · nodes) lst ∧ DocOrdered lst

/-- The order of a step without the sort follows from the axes. -/
def safe (left right : Expr) : Bool :=
  match run .single (.step left right) with
  | none | some .nsnodes => !(left.isDocOrder && right.isDocOrder)
  | some _ => true

theorem single_fits {n : Node} (hn : n.Valid) : Shape.single.Fits [n] := by
  obtain ⟨⟨tokens, hd⟩, hin⟩ := hn
  obtain ⟨ext, dep, h⟩ := parse_layout hd
  refine ⟨tokens, n.doc, ext, dep, hd, h, [n.place], rfl, fun p hp => ?_, List.pairwise_singleton ..⟩
  rw [List.mem_singleton.mp hp]
  exact ⟨hin, trivial⟩

theorem stepInOrder_of_safe {left right : Expr} (hl : left.Valid) (hr : right.Valid)
    (hsafe : safe left right = true) : StepInOrder left right := by
  intro citem hcitem cpos csize nodes hnodes
  by_cases hdoc : (left.isDocOrder && right.isDocOrder) = true
  · rw [if_pos hdoc]
    obtain ⟨τ, hrun, hτ⟩ : ∃ τ, run .single (.step left right) = some τ ∧ τ ≠ .nsnodes := by
      rw [safe, hdoc] at hsafe
      split at hsafe
      · cases hsafe
      · cases hsafe
      · rename_i τ hne hrun
        exact ⟨τ, hrun, hne⟩
    have hret : Returns (eval · (.step left right) citem cpos csize) nodes :=
      hnodes.congr fun k => by
        rw [eval_step, hdoc]
        cases stepNodes k left right citem cpos csize <;> rfl
    have hrets : List.Forall₂ (fun c v => Returns (eval · (.step left right) c.1 c.2.1 c.2.2) v)
        [(citem, cpos, csize)] [nodes] := .cons hret .nil
    have hsingle : Shape.single.Fits ([(citem, cpos, csize)].map (·.1)) := single_fits hcitem
    have hfits := eval_fits (e := .step left right) ⟨hl, hr⟩ hrun hsingle hrets
    rw [List.flatten_singleton] at hfits
    exact hfits.in_order hτ
  · rw [if_neg hdoc]
    have hvalid := valid_stepNodes (valid_eval hl) (valid_eval hr) hcitem hnodes
    obtain ⟨lst, hlst, hperm, hsort⟩ := exists_sort hvalid
    exact ⟨lst, hlst, docOrdered_of_index (fun n hn => hvalid n (hperm.subset hn)) hsort⟩

/-- The step from the nodes on one axis to those on another, with any test -/
def safeAxes (axis₁ axis₂ : Axis) : Bool :=
  safe (.nodeTest axis₁ (.kind .any)) (.nodeTest axis₂ (.kind .any))

theorem safe_nodeTest (axis₁ axis₂ : Axis) (test₁ test₂ : Test) :
    safe (.nodeTest axis₁ test₁) (.nodeTest axis₂ test₂) = safeAxes axis₁ axis₂ := rfl

end Expr

/-! ## The other axes -/

/-- The tokens of an element up to its content, with these attributes -/
def startTokens (names : List Str) : List Token :=
  ⟨.startElem, ['e']⟩ :: names.flatMap fun name => [⟨.attrName, name⟩, ⟨.attrValue, ['v']⟩]

def leafTokens (names : List Str) : List Token := startTokens names ++ [⟨.endElem, []⟩]

def nsTokens : List Str := [xmlns ++ [':', 'p'], xmlns ++ [':', 'q'], xmlns ++ [':', 'r']]

/-- Siblings on each side of two elements with elements in them -/
def familyTokens : List Token :=
  let two := ['p'] :: ['q'] :: nsTokens
  let inner := startTokens two ++ startTokens [] ++ leafTokens two ++ leafTokens two ++
    ⟨.endElem, []⟩ :: leafTokens [] ++ [⟨.endElem, []⟩]
  startTokens (['s'] :: ['t'] :: two) ++ leafTokens two ++ leafTokens two ++ inner ++ inner ++
    leafTokens two ++ leafTokens two ++ leafTokens [] ++ leafTokens [] ++ [⟨.endElem, []⟩]

/-- The document of the tokens, if there is one. -/
def docOf (tokens : List Token) : Doc :=
  match parse tokens with
  | .ok d => d
  | .error _ => ⟨[]⟩

theorem parse_docOf {tokens : List Token} (h : (parse tokens).isOk = true) :
    parse tokens = .ok (docOf tokens) := by
  rw [docOf]
  cases hp : parse tokens with
  | ok d => rfl
  | error e =>
    rw [hp] at h
    cases h

def familyDoc : Doc := docOf familyTokens

theorem parse_family : parse familyTokens = .ok familyDoc := parse_docOf (by decide +kernel)

/-- The sort makes something else of what the step puts together there. -/
def disordered (d : Doc) (k : Nat) (axis₁ axis₂ : Axis) (p : Place) : Bool :=
  match Expr.stepNodes k (.nodeTest axis₁ (.kind .any)) (.nodeTest axis₂ (.kind .any))
    (d.at p) 1 1 with
  | none => false
  | some nodes =>
    match pathResultSort k nodes with
    | none => false
    | some lst => lst.map (·.place) ≠ nodes.map (·.place)

theorem not_inOrder_of_disordered {d : Doc} {tokens : List Token} (hd : parse tokens = .ok d)
    {k : Nat} {axis₁ axis₂ : Axis} {p : Place} (hp : p.In d)
    (h : disordered d k axis₁ axis₂ p = true) :
    ¬ Expr.StepInOrder (.nodeTest axis₁ (.kind .any)) (.nodeTest axis₂ (.kind .any)) := by
  intro hin
  rw [disordered] at h
  split at h
  · cases h
  · rename_i nodes hnodes
    split at h
    · cases h
    · rename_i lst hlst
      have hret := (Expr.step_mono (Expr.eval_mono _) (Expr.eval_mono _) _ _ _).returns hnodes
      have hsort := (hin _ ⟨⟨_, hd⟩, hp⟩ 1 1 nodes hret).2
      have heq := hsort.unique ((sortBy_mono Node.itemIndex_mono nodes).returns hlst)
      rw [pathResult] at heq
      simp [heq] at h

def Axis.all : List Axis :=
  [.self, .child, .descendant, .descendantOrSelf, .parent, .ancestor, .ancestorOrSelf,
    .precedingSibling, .followingSibling, .preceding, .following, .attr, .nsnode]

theorem Axis.mem_all (axis : Axis) : axis ∈ Axis.all := by cases axis <;> decide

def familyPlaces : List Place := [.tree 9, .tree 6, .tree 1, .tree 2, .attr 2 0, .tree 14]

theorem family_disordered :
    ∀ axis₁ ∈ Axis.all, ∀ axis₂ ∈ Axis.all, Expr.safeAxes axis₁ axis₂ = false →
      ∃ p ∈ familyPlaces, disordered familyDoc 40 axis₁ axis₂ p = true := by
  decide +kernel

theorem familyPlaces_in : ∀ p ∈ familyPlaces, p.In familyDoc := by
  decide +kernel

/-- Steps that are in document order without the sort. -/
theorem steps_in_order {left right : Expr} (hl : left.Valid) (hr : right.Valid)
    (axis₁ axis₂ : Axis) :
    (Expr.safe left right = true → Expr.StepInOrder left right) ∧
    ((∀ test₁ test₂, Expr.StepInOrder (.nodeTest axis₁ test₁) (.nodeTest axis₂ test₂)) ↔
      Expr.safeAxes axis₁ axis₂ = true) := by
  refine ⟨Expr.stepInOrder_of_safe hl hr, ?_⟩
  constructor
  · intro hin
    by_contra hsafe
    obtain ⟨p, hp, hdis⟩ := family_disordered axis₁ axis₁.mem_all axis₂ axis₂.mem_all
      (by simpa using hsafe)
    exact not_inOrder_of_disordered parse_family (familyPlaces_in p hp) hdis (hin _ _)
  · intro hsafe test₁ test₂
    refine Expr.stepInOrder_of_safe trivial trivial ?_
    rwa [Expr.safe_nodeTest]

/-- From the children of a node to their descendants -/
theorem steps_in_order_children :
    Expr.StepInOrder (.nodeTest .child (.kind .any)) (.nodeTest .descendant (.kind .any)) :=
  (@steps_in_order (.nodeTest .child (.kind .any)) (.nodeTest .descendant (.kind .any)) trivial
    trivial .child .descendant).1 rfl

/-- From the descendants of a node to their children: the sort is left out, but the children of a
node come before those of its first child. -/
theorem not_inOrder_descendants :
    (Expr.nodeTest .descendant (.kind .any)).isDocOrder = true ∧
    (Expr.nodeTest .child (.kind .any)).isDocOrder = true ∧
    ¬ Expr.StepInOrder (.nodeTest .descendant (.kind .any)) (.nodeTest .child (.kind .any)) := by
  refine ⟨rfl, rfl, ?_⟩
  have hdis : disordered familyDoc 40 .descendant .child (.tree 1) = true := by decide +kernel
  exact not_inOrder_of_disordered parse_family (familyPlaces_in _ (by decide)) hdis

end Xml
end NReduce
