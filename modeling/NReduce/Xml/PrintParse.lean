import NReduce.Xml.TokenizePrint

/-!
# NReduce.Xml.PrintParse

The tree that is read from the text of a tree.

* `parse1_tokens`: the parser on the tokens of a tree.
* `parse_print`: the tree comes back, but for the declarations that were in force already.
-/

namespace NReduce
namespace Xml

/-! ## Names -/

theorem getNsPrefix1_prefix {p : Str} (hp : ':' ∉ p) (l passed : Str) :
    getNsPrefix1 (p ++ ':' :: l) passed = passed.reverse ++ p := by
  induction p generalizing passed with
  | nil => simp [getNsPrefix1]
  | cons c p ih =>
    have hc : c ≠ ':' := fun heq => hp (heq ▸ List.mem_cons_self ..)
    rw [List.cons_append, getNsPrefix1, if_neg hc, ih fun h => hp (List.mem_cons_of_mem _ h),
      List.reverse_cons, List.append_assoc]
    rfl

theorem getNsPrefix1_none {l : Str} (hl : ':' ∉ l) (passed : Str) : getNsPrefix1 l passed = [] := by
  induction l generalizing passed with
  | nil => rfl
  | cons c l ih =>
    have hc : c ≠ ':' := fun heq => hl (heq ▸ List.mem_cons_self ..)
    rw [getNsPrefix1, if_neg hc, ih fun h => hl (List.mem_cons_of_mem _ h)]

theorem getlocalname1_prefix {p : Str} (hp : ':' ∉ p) (l start : Str) :
    getlocalname1 (p ++ ':' :: l) start = l := by
  induction p with
  | nil => simp [getlocalname1]
  | cons c p ih =>
    have hc : c ≠ ':' := fun heq => hp (heq ▸ List.mem_cons_self ..)
    rw [List.cons_append, getlocalname1, if_neg hc, ih fun h => hp (List.mem_cons_of_mem _ h)]

theorem getlocalname1_none {l : Str} (hl : ':' ∉ l) (start : Str) : getlocalname1 l start = start := by
  induction l with
  | nil => rfl
  | cons c l ih =>
    have hc : c ≠ ':' := fun heq => hl (heq ▸ List.mem_cons_self ..)
    rw [getlocalname1, if_neg hc, ih fun h => hl (List.mem_cons_of_mem _ h)]

theorem IsPrefix.no_colon {p : Str} (hp : IsPrefix p) : ':' ∉ p := by
  intro h
  obtain ⟨-, -, -, -, -, hc, -⟩ := nameChar_ne (hp _ h)
  exact hc rfl

theorem getNsPrefix_qname {p l : Str} (hp : IsPrefix p) (hl : IsName l) :
    getNsPrefix (qname p l) = p := by
  rw [qname]
  split
  · exact getNsPrefix1_prefix hp.no_colon l []
  · rename_i hne
    rw [getNsPrefix, getNsPrefix1_none (IsPrefix.no_colon hl.2)]
    exact (not_not.mp hne).symm

theorem getlocalname_qname {p l : Str} (hp : IsPrefix p) (hl : IsName l) :
    getlocalname (qname p l) = l := by
  rw [qname]
  split
  · exact getlocalname1_prefix hp.no_colon l _
  · exact getlocalname1_none (IsPrefix.no_colon hl.2) l

/-! ## The attributes of a start tag -/

/-- The tokens behind a start tag -/
def NotAttr (tokens : List Token) : Prop := ∀ t ∈ tokens.head?, t.tag ≠ .attrName

def pairNamespace (p : Str × Str) : Option Namespace :=
  if getNsPrefix p.1 = xmlns then some ⟨p.2, getlocalname p.1⟩
  else if getNsPrefix p.1 = [] ∧ getlocalname p.1 = xmlns then some ⟨p.2, []⟩
  else none

def pairAttr (namespaces : List (List Namespace)) (p : Str × Str) : Option Attr :=
  if getNsPrefix p.1 = xmlns then none
  else if getNsPrefix p.1 = [] ∧ getlocalname p.1 = xmlns then none
  else some ⟨if getNsPrefix p.1 ≠ [] then nsLookup (getNsPrefix p.1) namespaces else [],
    getNsPrefix p.1, getlocalname p.1, p.2⟩

theorem pairTokens_cons (p : Str × Str) (pairs : Pairs) (rest : List Token) :
    pairTokens (p :: pairs) ++ rest =
      ⟨.attrName, p.1⟩ :: ⟨.attrValue, p.2⟩ :: (pairTokens pairs ++ rest) := rfl

theorem skipAttrs_pairs (pairs : Pairs) {rest : List Token} (hrest : NotAttr rest) :
    skipAttrs (pairTokens pairs ++ rest) = .ok rest := by
  induction pairs with
  | nil =>
    cases rest with
    | nil => rfl
    | cons t rest =>
      change skipAttrs (t :: rest) = _
      rw [skipAttrs.eq_def]
      exact if_neg (hrest t rfl)
  | cons p pairs ih => rw [pairTokens_cons, skipAttrs, if_pos rfl, ih]

theorem parseNamespaces_pairs (pairs : Pairs) {rest : List Token} (hrest : NotAttr rest) :
    parseNamespaces (pairTokens pairs ++ rest) = .ok (pairs.filterMap pairNamespace) := by
  induction pairs with
  | nil =>
    cases rest with
    | nil => rfl
    | cons t rest =>
      change parseNamespaces (t :: rest) = _
      rw [parseNamespaces.eq_def]
      exact if_neg (hrest t rfl)
  | cons p pairs ih =>
    rw [pairTokens_cons, parseNamespaces, if_pos rfl, ih, List.filterMap_cons, pairNamespace]
    by_cases h1 : getNsPrefix p.1 = xmlns
    · simp only [if_pos h1]
      rfl
    · by_cases h2 : getNsPrefix p.1 = [] ∧ getlocalname p.1 = xmlns
      · simp only [if_neg h1, if_pos h2]
        rfl
      · simp only [if_neg h1, if_neg h2]
        rfl

theorem parseAttrs_pairs (namespaces : List (List Namespace)) (pairs : Pairs) {rest : List Token}
    (hrest : NotAttr rest) : parseAttrs namespaces (pairTokens pairs ++ rest) =
      .ok (pairs.filterMap (pairAttr namespaces)) := by
  induction pairs with
  | nil =>
    cases rest with
    | nil => rfl
    | cons t rest =>
      change parseAttrs namespaces (t :: rest) = _
      rw [parseAttrs.eq_def]
      exact if_neg (hrest t rfl)
  | cons p pairs ih =>
    rw [pairTokens_cons, parseAttrs, if_pos rfl, ih, List.filterMap_cons, pairAttr]
    by_cases h1 : getNsPrefix p.1 = xmlns
    · simp only [if_pos h1]
      rfl
    · by_cases h2 : getNsPrefix p.1 = [] ∧ getlocalname p.1 = xmlns
      · simp only [if_neg h1, if_pos h2]
        rfl
      · simp only [if_neg h1, if_neg h2]
        rfl

theorem pairNamespace_ns {n : Namespace} (hn : n.WellFormed) : pairNamespace n.pair = some n := by
  have hcolon : ':' ∉ xmlns := by decide
  obtain ⟨nsuri, nsPrefix⟩ := n
  by_cases hp : nsPrefix = []
  · subst hp
    rfl
  · have hpair : Namespace.pair ⟨nsuri, nsPrefix⟩ = (xmlns ++ ':' :: nsPrefix, nsuri) := by
      simp [Namespace.pair, hp]
    rw [hpair, pairNamespace, getNsPrefix, getlocalname, getNsPrefix1_prefix hcolon,
      getlocalname1_prefix hcolon]
    rfl

theorem pairAttr_ns {n : Namespace} (hn : n.WellFormed) (namespaces : List (List Namespace)) :
    pairAttr namespaces n.pair = none := by
  have hcolon : ':' ∉ xmlns := by decide
  obtain ⟨nsuri, nsPrefix⟩ := n
  by_cases hp : nsPrefix = []
  · subst hp
    rfl
  · have hpair : Namespace.pair ⟨nsuri, nsPrefix⟩ = (xmlns ++ ':' :: nsPrefix, nsuri) := by
      simp [Namespace.pair, hp]
    rw [hpair, pairAttr, getNsPrefix, getNsPrefix1_prefix hcolon]
    rfl

theorem pairNamespace_attr {a : Attr} {nslists : List (List Namespace)} (ha : a.WellFormed nslists)
    (hr : a.nsPrefix ≠ xmlns ∧ (a.nsPrefix = [] → a.localname ≠ xmlns)) :
    pairNamespace a.pair = none := by
  rw [Attr.pair, pairNamespace, getNsPrefix_qname ha.nsPrefix ha.localname,
    getlocalname_qname ha.nsPrefix ha.localname, if_neg hr.1, if_neg fun h => hr.2 h.1 h.2]

theorem pairAttr_attr {a : Attr} {nslists : List (List Namespace)} (ha : a.WellFormed nslists)
    (hr : a.nsPrefix ≠ xmlns ∧ (a.nsPrefix = [] → a.localname ≠ xmlns))
    {namespaces : List (List Namespace)}
    (hscope : nsLookup a.nsPrefix namespaces = nsLookup a.nsPrefix nslists) :
    pairAttr namespaces a.pair = some a := by
  rw [Attr.pair, pairAttr, getNsPrefix_qname ha.nsPrefix ha.localname,
    getlocalname_qname ha.nsPrefix ha.localname, if_neg hr.1, if_neg fun h => hr.2 h.1 h.2, hscope,
    ← ha.nsuri]

theorem filterMap_eq_self {α β : Type} {f : α → Option β} {g : β → α} {l : List β}
    (h : ∀ b ∈ l, f (g b) = some b) : (l.map g).filterMap f = l := by
  induction l with
  | nil => rfl
  | cons b l ih =>
    rw [List.map_cons, List.filterMap_cons, h b (List.mem_cons_self ..)]
    exact congrArg _ (ih fun c hc => h c (List.mem_cons_of_mem _ hc))

theorem filterMap_eq_nil {α β γ : Type} {f : α → Option γ} {g : β → α} {l : List β}
    (h : ∀ b ∈ l, f (g b) = none) : (l.map g).filterMap f = [] := by
  rw [List.filterMap_eq_nil_iff]
  intro a ha
  obtain ⟨b, hb, rfl⟩ := List.mem_map.mp ha
  exact h b hb

/-! ## Scopes -/

def SameScope (nslists nslists' : List (List Namespace)) : Prop :=
  ∀ p, nsLookup p nslists = nsLookup p nslists'

theorem nsLookup_cons (p : Str) (lst : List Namespace) (nslists : List (List Namespace)) :
    nsLookup p (lst :: nslists) = if p = xmlns then xmlnsNs
      else if nsLookup1 p lst ≠ [] then nsLookup1 p lst else nsLookup p nslists := by
  rw [nsLookup, nsLookup]
  by_cases hp : p = xmlns
  · simp only [if_pos hp]
  · simp only [if_neg hp]
    rfl

theorem nsLookup1_notMem {p : Str} {lst : List Namespace} (h : p ∉ lst.map (·.nsPrefix)) :
    nsLookup1 p lst = [] := by
  induction lst with
  | nil => rfl
  | cons n lst ih =>
    rw [List.map_cons, List.mem_cons] at h
    rw [nsLookup1, if_neg fun heq => h (.inl heq.symm), ih fun hm => h (.inr hm)]

/-- What is left out is in force around the element. -/
theorem nsLookup1_declared {lst : List Namespace} (hnodup : (lst.map (·.nsPrefix)).Nodup)
    (outer : List (List Namespace)) (p : Str) :
    nsLookup1 p (declared lst outer) = nsLookup1 p lst ∨
      (nsLookup1 p (declared lst outer) = [] ∧ nsLookup p outer = nsLookup1 p lst) := by
  induction lst with
  | nil => exact .inl rfl
  | cons n lst ih =>
    rw [List.map_cons, List.nodup_cons] at hnodup
    have ih := ih hnodup.2
    by_cases hp : n.nsPrefix = p
    · have hnone : nsLookup1 p (declared lst outer) = [] := by
        refine nsLookup1_notMem fun hm => hnodup.1 ?_
        obtain ⟨m, hm, hmp⟩ := List.mem_map.mp hm
        rw [hp]
        exact List.mem_map.mpr ⟨m, (List.mem_filter.mp hm).1, hmp⟩
      by_cases hin : nsLookup n.nsPrefix outer = n.nsuri
      · have hdecl : declared (n :: lst) outer = declared lst outer :=
          List.filter_cons_of_neg (by simpa using hin)
        rw [hdecl, hnone, nsLookup1, if_pos hp, ← hp, hin]
        exact .inr ⟨rfl, rfl⟩
      · have hdecl : declared (n :: lst) outer = n :: declared lst outer :=
          List.filter_cons_of_pos (by simpa using hin)
        rw [hdecl, nsLookup1, if_pos hp, nsLookup1, if_pos hp]
        exact .inl rfl
    · rw [show nsLookup1 p (n :: lst) = nsLookup1 p lst by rw [nsLookup1, if_neg hp]]
      by_cases hin : nsLookup n.nsPrefix outer = n.nsuri
      · have hdecl : declared (n :: lst) outer = declared lst outer :=
          List.filter_cons_of_neg (by simpa using hin)
        rwa [hdecl]
      · have hdecl : declared (n :: lst) outer = n :: declared lst outer :=
          List.filter_cons_of_pos (by simpa using hin)
        rwa [hdecl, nsLookup1, if_neg hp]

theorem sameScope_declared {lst : List Namespace} (hnodup : (lst.map (·.nsPrefix)).Nodup)
    {nslists outer : List (List Namespace)} (h : SameScope nslists outer) :
    SameScope (declared lst outer :: nslists) (lst :: outer) := by
  intro p
  rw [nsLookup_cons, nsLookup_cons, h p]
  by_cases hp : p = xmlns
  · rw [if_pos hp, if_pos hp]
  · rw [if_neg hp, if_neg hp]
    obtain heq | ⟨hnil, heq⟩ := nsLookup1_declared hnodup outer p
    · rw [heq]
    · rw [hnil, if_neg (by simp), heq]
      split <;> rfl

/-! ## The parser -/

namespace Forest

/-- The tree with the declarations that are written -/
def written : Forest → List (List Namespace) → Forest
  | nil, _ => nil
  | elem e c s, nslists =>
    elem { e with namespaces := declared e.namespaces nslists }
      (c.written (e.namespaces :: nslists)) (s.written nslists)
  | leaf l s, nslists => leaf l (s.written nslists)

@[simp] theorem size_written (f : Forest) (nslists : List (List Namespace)) :
    (f.written nslists).size = f.size := by
  induction f generalizing nslists with
  | nil => rfl
  | elem e c s ihc ihs => rw [written, size, ihc, ihs, size]
  | leaf l s ih => rw [written, size, ih, size]

@[simp] theorem tops_written (f : Forest) (nslists : List (List Namespace)) (n : Nat) :
    (f.written nslists).tops n = f.tops n := by
  induction f generalizing nslists n with
  | nil => rfl
  | elem e c s ihc ihs => rw [written, tops, ihs, size_written, tops]
  | leaf l s ih => rw [written, tops, ih, tops]

end Forest

/-- The node without the declarations that it makes -/
def Item.bare (i : Item) : Item := { i with namespaces := [] }

/-- The nodes with their types, names, values and attributes and the links between them -/
def Doc.bare (d : Doc) : List Item := d.items.map Item.bare

theorem Forest.bare_written (f : Forest) (nslists : List (List Namespace)) (root : Option Nat)
    (parent : Nat) (prev : Option Nat) (n : Nat) :
    ((f.written nslists).items root parent prev n).map Item.bare =
      (f.items root parent prev n).map Item.bare := by
  induction f generalizing nslists parent prev n with
  | nil => rfl
  | elem e c s ihc ihs =>
    simp only [written, items, List.map_cons, List.map_append, ihc, ihs, size_written,
      tops_written]
    rfl
  | leaf l s ih => simp only [written, items, List.map_cons, ih, tops_written]

theorem Doc.bare_written (f : Forest) (nslists : List (List Namespace)) :
    (Doc.ofForest (f.written nslists)).bare = (Doc.ofForest f).bare := by
  simp only [bare, ofForest, List.map_cons, Forest.bare_written, Forest.tops_written]

/-- What comes behind the children of an element, or at the end -/
def Closing (tokens : List Token) : Prop := tokens = [] ∨ ∃ rest, tokens = ⟨.endElem, []⟩ :: rest

theorem notAttr_tokens (f : Forest) (nslists : List (List Namespace)) {rest : List Token}
    (hrest : Closing rest) : NotAttr (f.tokens nslists ++ rest) := by
  cases f with
  | nil =>
    obtain rfl | ⟨rest, rfl⟩ := hrest
    · exact fun t ht => by cases ht
    · rintro t ⟨⟩
      decide
  | elem e c s =>
    rintro t ⟨⟩
    nofun
  | leaf l s => cases l <;> rintro t ⟨⟩ <;> nofun

theorem Elem.pairs_namespaces {e : Elem} {nslists : List (List Namespace)}
    (hw : e.WellFormed nslists) (hr : e.Regular) (outer : List (List Namespace)) :
    (e.pairs outer).filterMap pairNamespace = declared e.namespaces outer := by
  have hns : ∀ n ∈ declared e.namespaces outer, pairNamespace n.pair = some n := fun n hn =>
    pairNamespace_ns (hw.namespaces n (List.mem_filter.mp hn).1)
  have hattrs : ∀ a ∈ e.attributes, pairNamespace a.pair = none := fun a ha =>
    pairNamespace_attr (hw.attributes a ha) (hr.attributes a ha)
  rw [Elem.pairs, List.filterMap_append, filterMap_eq_self hns, filterMap_eq_nil hattrs,
    List.append_nil]

theorem Elem.pairs_attributes {e : Elem} {nslists namespaces : List (List Namespace)}
    (hw : e.WellFormed nslists) (hr : e.Regular) (hscope : SameScope namespaces nslists)
    (outer : List (List Namespace)) :
    (e.pairs outer).filterMap (pairAttr namespaces) = e.attributes := by
  have hns : ∀ n ∈ declared e.namespaces outer, pairAttr namespaces n.pair = none := fun n hn =>
    pairAttr_ns (hw.namespaces n (List.mem_filter.mp hn).1) namespaces
  have hattrs : ∀ a ∈ e.attributes, pairAttr namespaces a.pair = some a := fun a ha =>
    pairAttr_attr (hw.attributes a ha) (hr.attributes a ha) (hscope _)
  rw [Elem.pairs, List.filterMap_append, filterMap_eq_nil hns, filterMap_eq_self hattrs,
    List.nil_append]

theorem parse1_tokens {f : Forest} {nslists : List (List Namespace)} {inside : Bool}
    (hw : f.WellFormed nslists inside) (hr : f.Regular) {namespaces : List (List Namespace)}
    (hscope : SameScope namespaces nslists) {rest : List Token} (hrest : Closing rest)
    (root : Option Nat) (parent : Nat) (prev : Option Nat) (n : Nat) {k : Nat}
    (hk : (f.tokens nslists ++ rest).length < k) :
    parse1 k (f.tokens nslists ++ rest) namespaces root parent prev n =
      .ok ⟨rest.tail, (f.written nslists).tops n, (f.written nslists).items root parent prev n⟩ := by
  induction f generalizing nslists inside namespaces rest parent prev n k with
  | nil =>
    obtain ⟨k, rfl⟩ : ∃ j, k = j + 1 := ⟨k - 1, by omega⟩
    obtain rfl | ⟨rest, rfl⟩ := hrest <;> rfl
  | elem e c s ihc ihs =>
    obtain ⟨hwe, hwc, hws⟩ := hw
    obtain ⟨hre, hrc, hrs⟩ := hr
    obtain ⟨k, rfl⟩ : ∃ j, k = j + 1 := ⟨k - 1, by omega⟩
    have hinner := sameScope_declared hre.nodup hscope
    have hclose : Closing (⟨.endElem, []⟩ :: (s.tokens nslists ++ rest)) := .inr ⟨_, rfl⟩
    have hattr := notAttr_tokens c (e.namespaces :: nslists) hclose
    have htokens : (Forest.elem e c s).tokens nslists ++ rest =
        ⟨.startElem, qname e.nsPrefix e.localname⟩ :: (pairTokens (e.pairs nslists) ++
          (c.tokens (e.namespaces :: nslists) ++ ⟨.endElem, []⟩ :: (s.tokens nslists ++ rest))) := by
      simp [Forest.tokens]
    rw [htokens] at hk ⊢
    simp only [List.length_cons, List.length_append] at hk
    have ihc := ihc hwc hrc hinner hclose n none (n + 1) (k := k)
      (by simp only [List.length_cons, List.length_append]; omega)
    have ihs := ihs hws hrs hscope hrest parent (some n)
      (n + 1 + (c.written (e.namespaces :: nslists)).size) (k := k)
      (by simp only [List.length_append]; omega)
    simp only [parse1, parseNamespaces_pairs _ hattr, skipAttrs_pairs _ hattr,
      parseAttrs_pairs _ _ hattr, Elem.pairs_namespaces hwe hre, Elem.pairs_attributes hwe hre hinner,
      getNsPrefix_qname hwe.nsPrefix hwe.localname, getlocalname_qname hwe.nsPrefix hwe.localname,
      hinner _, ← hwe.nsuri, bind, Except.bind, ihc, List.tail_cons, Forest.length_items, ihs]
    rfl
  | leaf l s ih =>
    obtain ⟨hwl, htext, hws⟩ := hw
    obtain ⟨hrl, hpi, hrs⟩ := hr
    obtain ⟨k, rfl⟩ : ∃ j, k = j + 1 := ⟨k - 1, by omega⟩
    rw [Forest.tokens, List.append_assoc] at hk ⊢
    have hlen : 0 < l.tokens.length := by cases l <;> simp [Leaf.tokens]
    rw [List.length_append] at hk
    have ih := ih hws hrs hscope hrest parent (some n) (n + 1) (k := k) (by omega)
    cases l with
    | text value =>
      simp only [Leaf.tokens, List.cons_append, List.nil_append, parse1, ih, bind, Except.bind]
      rfl
    | comment value =>
      simp only [Leaf.tokens, List.cons_append, List.nil_append, parse1, ih, bind, Except.bind]
      rfl
    | pi localname value =>
      simp only [Leaf.tokens, List.cons_append, List.nil_append, parse1, ih, bind, Except.bind,
        if_neg hrl.1]
      rfl

/-- The document that is read from the text of a tree is the document of the tree. -/
def RoundTrip (f : Forest) : Prop :=
  ∃ tokens d, tokenize (printNodes f [] []) = .ok tokens ∧ parse tokens = .ok d ∧
    d.bare = (Doc.ofForest f).bare

theorem parse_print {f : Forest} (hne : f ≠ .nil) (hw : f.WellFormed [] false) (hr : f.Regular) :
    RoundTrip f := by
  have hlead : f.leadingText = none := by
    cases f with
    | nil => rfl
    | elem e c s => rfl
    | leaf l s =>
      cases l with
      | text value => exact absurd (hw.2.1 rfl).1 (by decide)
      | comment value => rfl
      | pi localname value => rfl
  have hmain := tokenizeMain_printNodes hw hr (.inl rfl) nofun
  have hnil : tokenizeMain [] [] = .ok [] := by rw [tokenizeMain]
  have hparse := parse1_tokens hw hr (fun _ => rfl) (.inl rfl) (some 0) 0 none 1
    (k := (f.tokens []).length + 1) (by simp)
  rw [List.append_nil] at hparse
  refine ⟨f.tokens [], .ofForest (f.written []), ?_, ?_, Doc.bare_written f []⟩
  · rw [tokenize, tokenizeSkipspace_markup (printNodes_markup hlead [] (.inl rfl)), hmain, hnil]
    simp [emits, Except.map]
  · have htokens : f.tokens [] ≠ [] := by
      cases f with
      | nil => exact absurd rfl hne
      | elem e c s => exact List.cons_ne_nil _ _
      | leaf l s => cases l <;> exact List.cons_ne_nil _ _
    rw [parse, if_neg htokens, hparse]
    rfl

/-- An element with a prefix, attributes and every kind of node in it -/
def mixedForest : Forest :=
  .elem ⟨['u'], ['p'], ['a'], [⟨['u'], ['p'], ['k'], ['v', '<']⟩, ⟨[], [], ['l'], []⟩],
      [⟨['u'], ['p']⟩]⟩
    (.leaf (.text [' ', 't']) (.leaf (.comment ['-', 'c']) (.leaf (.pi ['i'] ['?', '?'])
      (.elem ⟨['u'], ['p'], ['b'], [], [⟨['u'], ['p']⟩]⟩ .nil .nil)))) .nil

theorem parse_print_mixed : RoundTrip mixedForest :=
  parse_print (by decide) (by decide) (by decide)

/-! ## What does not come back -/

/-- An element `a` in no namespace -/
def elemA (attributes : List Attr) (namespaces : List Namespace) (children : Forest) : Forest :=
  .elem ⟨[], [], ['a'], attributes, namespaces⟩ children .nil

/-- No node at all; an instruction with the target `xml`; an attribute `xmlns`; a URI with a quote;
a prefix that is declared twice, the first time as around the element; an instruction that ends in
a question mark; whitespace behind an instruction. -/
def irregular : List Forest :=
  [.nil,
    elemA [] [] (.leaf (.pi ['x', 'm', 'l'] ['v']) .nil),
    elemA [⟨[], [], xmlns, ['u']⟩] [] .nil,
    elemA [] [⟨['\x22'], ['p']⟩] .nil,
    elemA [] [⟨['u'], ['p']⟩]
      (.elem ⟨['u'], ['p'], ['b'], [], [⟨['u'], ['p']⟩, ⟨['v'], ['p']⟩]⟩ .nil .nil),
    elemA [] [] (.leaf (.pi ['t'] ['?']) .nil),
    elemA [] [] (.leaf (.pi ['t'] ['v']) (.leaf (.text [' ']) .nil))]

theorem not_roundTrip {f : Forest}
    (h : ((tokenize (printNodes f [] [])).bind parse).map Doc.bare ≠ .ok (Doc.ofForest f).bare) :
    ¬ RoundTrip f := by
  rintro ⟨tokens, d, ht, hd, hbare⟩
  rw [ht, Except.bind, hd, ← hbare] at h
  exact h rfl

/-- Each of these is well formed. -/
theorem not_roundTrip_irregular :
    irregular.Forall fun f => f.WellFormed [] false ∧ ¬ RoundTrip f := by
  have hwellFormed : ∀ f ∈ irregular, f.WellFormed [] false := by decide
  have hread : ∀ f ∈ irregular,
      ((tokenize (printNodes f [] [])).bind parse).map Doc.bare ≠ .ok (Doc.ofForest f).bare := by
    decide +kernel
  exact List.forall_iff_forall_mem.mpr fun f hf => ⟨hwellFormed f hf, not_roundTrip (hread f hf)⟩

end Xml
end NReduce
