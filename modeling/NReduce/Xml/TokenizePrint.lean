import NReduce.Xml.Print
import NReduce.Xml.Tokenize

/-!
# NReduce.Xml.TokenizePrint

The tokens of what `print_nodes` writes.

* `Forest.WellFormed`: the trees that can be written as XML.
* `Forest.Regular`: what else the printer and the tokenizer rely on.
* `tokenize_printNodes`: the tokens of the text are those of the tree.
-/

namespace NReduce
namespace Xml

/-! ## Trees -/

def nameChar (c : Char) : Bool :=
  !isspace c && !(['<', '>', '/', '=', ':', '?', '!'].contains c)

def IsName (s : Str) : Prop := s ≠ [] ∧ ∀ c ∈ s, nameChar c = true

/-- A prefix may be missing. -/
def IsPrefix (s : Str) : Prop := ∀ c ∈ s, nameChar c = true

structure Attr.WellFormed (a : Attr) (nslists : List (List Namespace)) : Prop where
  localname : IsName a.localname
  nsPrefix : IsPrefix a.nsPrefix
  value : '\x22' ∉ a.value
  /-- an attribute without a prefix is in no namespace -/
  nsuri : a.nsuri = if a.nsPrefix ≠ [] then nsLookup a.nsPrefix nslists else []

structure Namespace.WellFormed (n : Namespace) : Prop where
  nsPrefix : IsPrefix n.nsPrefix
  nsuri : n.nsuri ≠ []

/-- `nslists` are the declarations of the element and those around it. -/
structure Elem.WellFormed (e : Elem) (nslists : List (List Namespace)) : Prop where
  localname : IsName e.localname
  nsPrefix : IsPrefix e.nsPrefix
  nsuri : e.nsuri = nsLookup e.nsPrefix nslists
  attributes : ∀ a ∈ e.attributes, a.WellFormed nslists
  namespaces : ∀ n ∈ e.namespaces, n.WellFormed

def Leaf.WellFormed : Leaf → Prop
  | .text value => value ≠ [] ∧ '<' ∉ value
  | .comment value => ¬ ['-', '-'] <:+: value ∧ value.getLast? ≠ some '-'
  | .pi localname value => IsName localname ∧ value ≠ [] ∧ ¬ ['?', '>'] <:+: value

def Leaf.isText : Leaf → Bool
  | .text _ => true
  | _ => false

namespace Forest

/-- The text that the siblings begin with -/
def leadingText : Forest → Option Str
  | leaf (.text value) _ => some value
  | _ => none

def startsWithSpace : Forest → Bool
  | leaf (.text (c :: _)) _ => isspace c
  | _ => false

/-- `inside`: the nodes are the children of an element. -/
def WellFormed : Forest → List (List Namespace) → Bool → Prop
  | nil, _, _ => True
  | elem e c s, nslists, inside =>
    e.WellFormed (e.namespaces :: nslists) ∧ c.WellFormed (e.namespaces :: nslists) true ∧
      s.WellFormed nslists inside
  | leaf l s, nslists, inside =>
    l.WellFormed ∧ (l.isText = true → inside = true ∧ s.leadingText = none) ∧
      s.WellFormed nslists inside

end Forest

/-- No attribute looks like a declaration, no URI ends its own string, and no prefix is declared
twice. -/
structure Elem.Regular (e : Elem) : Prop where
  attributes : ∀ a ∈ e.attributes, a.nsPrefix ≠ xmlns ∧ (a.nsPrefix = [] → a.localname ≠ xmlns)
  nsuri : ∀ n ∈ e.namespaces, '\x22' ∉ n.nsuri
  nodup : (e.namespaces.map (·.nsPrefix)).Nodup

/-- The number of question marks at the end -/
def trailingMarks (s : Str) : Nat := (s.reverse.takeWhile (· = '?')).length

/-- `xml` is the target of the declaration at the start of a document, and the tokenizer takes
question marks in pairs. -/
def Leaf.Regular : Leaf → Prop
  | .pi localname value => localname ≠ "xml".toList ∧ trailingMarks value % 2 = 0
  | _ => True

def Leaf.isPi : Leaf → Bool
  | .pi .. => true
  | _ => false

/-- Behind a processing instruction the tokenizer skips whitespace. -/
def Forest.Regular : Forest → Prop
  | nil => True
  | elem e c s => e.Regular ∧ c.Regular ∧ s.Regular
  | leaf l s =>
    l.Regular ∧ (l.isPi = true → s.startsWithSpace = false) ∧ s.Regular

/-! ### These conditions can be computed. -/

instance (s : Str) : Decidable (IsPrefix s) := List.decidableBAll (nameChar · = true) s

instance (s : Str) : Decidable (IsName s) := inferInstanceAs (Decidable (s ≠ [] ∧ IsPrefix s))

instance (a : Attr) (nslists : List (List Namespace)) : Decidable (a.WellFormed nslists) :=
  decidable_of_iff (IsName a.localname ∧ IsPrefix a.nsPrefix ∧ '\x22' ∉ a.value ∧
      a.nsuri = if a.nsPrefix ≠ [] then nsLookup a.nsPrefix nslists else [])
    ⟨fun ⟨h₁, h₂, h₃, h₄⟩ => ⟨h₁, h₂, h₃, h₄⟩, fun ⟨h₁, h₂, h₃, h₄⟩ => ⟨h₁, h₂, h₃, h₄⟩⟩

instance (n : Namespace) : Decidable n.WellFormed :=
  decidable_of_iff (IsPrefix n.nsPrefix ∧ n.nsuri ≠ [])
    ⟨fun ⟨h₁, h₂⟩ => ⟨h₁, h₂⟩, fun ⟨h₁, h₂⟩ => ⟨h₁, h₂⟩⟩

instance (e : Elem) (nslists : List (List Namespace)) : Decidable (e.WellFormed nslists) :=
  decidable_of_iff (IsName e.localname ∧ IsPrefix e.nsPrefix ∧
      e.nsuri = nsLookup e.nsPrefix nslists ∧ (∀ a ∈ e.attributes, a.WellFormed nslists) ∧
      ∀ n ∈ e.namespaces, n.WellFormed)
    ⟨fun ⟨h₁, h₂, h₃, h₄, h₅⟩ => ⟨h₁, h₂, h₃, h₄, h₅⟩,
      fun ⟨h₁, h₂, h₃, h₄, h₅⟩ => ⟨h₁, h₂, h₃, h₄, h₅⟩⟩

instance : (l : Leaf) → Decidable l.WellFormed
  | .text _ => inferInstanceAs (Decidable (_ ∧ _))
  | .comment _ => inferInstanceAs (Decidable (_ ∧ _))
  | .pi .. => inferInstanceAs (Decidable (_ ∧ _ ∧ _))

instance Forest.decidableWellFormed : (f : Forest) → (nslists : List (List Namespace)) →
    (inside : Bool) → Decidable (f.WellFormed nslists inside)
  | nil, _, _ => inferInstanceAs (Decidable True)
  | elem e c s, nslists, inside =>
    have := c.decidableWellFormed (e.namespaces :: nslists) true
    have := s.decidableWellFormed nslists inside
    inferInstanceAs (Decidable (_ ∧ _ ∧ _))
  | leaf _ s, nslists, inside =>
    have := s.decidableWellFormed nslists inside
    inferInstanceAs (Decidable (_ ∧ _ ∧ _))

instance (e : Elem) : Decidable e.Regular :=
  decidable_of_iff ((∀ a ∈ e.attributes, a.nsPrefix ≠ xmlns ∧
      (a.nsPrefix = [] → a.localname ≠ xmlns)) ∧ (∀ n ∈ e.namespaces, '\x22' ∉ n.nsuri) ∧
      (e.namespaces.map (·.nsPrefix)).Nodup)
    ⟨fun ⟨h₁, h₂, h₃⟩ => ⟨h₁, h₂, h₃⟩, fun ⟨h₁, h₂, h₃⟩ => ⟨h₁, h₂, h₃⟩⟩

instance : (l : Leaf) → Decidable l.Regular
  | .text _ => inferInstanceAs (Decidable True)
  | .comment _ => inferInstanceAs (Decidable True)
  | .pi .. => inferInstanceAs (Decidable (_ ∧ _))

instance Forest.decidableRegular : (f : Forest) → Decidable f.Regular
  | nil => inferInstanceAs (Decidable True)
  | elem _ c s =>
    have := c.decidableRegular
    have := s.decidableRegular
    inferInstanceAs (Decidable (_ ∧ _ ∧ _))
  | leaf _ s =>
    have := s.decidableRegular
    inferInstanceAs (Decidable (_ ∧ _ ∧ _))

/-! ## Tokens -/

/-- The names and the values in a start tag -/
abbrev Pairs := List (Str × Str)

def printPairs : Pairs → Str → Str
  | [], next => next
  | (name, value) :: pairs, next =>
    ' ' :: (name ++ ('=' :: '\x22' :: (value ++ ('\x22' :: printPairs pairs next))))

def pairTokens (pairs : Pairs) : List Token :=
  pairs.flatMap fun p => [⟨.attrName, p.1⟩, ⟨.attrValue, p.2⟩]

def Attr.pair (a : Attr) : Str × Str := (qname a.nsPrefix a.localname, a.value)

def Namespace.pair (n : Namespace) : Str × Str :=
  (if n.nsPrefix ≠ [] then xmlns ++ ':' :: n.nsPrefix else xmlns, n.nsuri)

/-- The declarations that are written -/
def declared (lst : List Namespace) (nslists : List (List Namespace)) : List Namespace :=
  lst.filter fun n => nsLookup n.nsPrefix nslists ≠ n.nsuri

def Elem.pairs (e : Elem) (nslists : List (List Namespace)) : Pairs :=
  (declared e.namespaces nslists).map Namespace.pair ++ e.attributes.map Attr.pair

def Leaf.tokens : Leaf → List Token
  | .text value => [⟨.text, value⟩]
  | .comment value => [⟨.comment, value⟩]
  | .pi localname value => [⟨.piTarget, localname⟩, ⟨.piContent, value⟩]

def Forest.tokens : Forest → List (List Namespace) → List Token
  | nil, _ => []
  | elem e c s, nslists =>
    ⟨.startElem, qname e.nsPrefix e.localname⟩ :: (pairTokens (e.pairs nslists) ++
      (c.tokens (e.namespaces :: nslists) ++ (⟨.endElem, []⟩ :: s.tokens nslists)))
  | leaf l s, nslists => l.tokens ++ s.tokens nslists

theorem printAttrs_eq (lst : List Attr) (next : Str) :
    printAttrs lst next = printPairs (lst.map Attr.pair) next := by
  induction lst with
  | nil => rfl
  | cons attr lst ih => rw [printAttrs, ih]; rfl

theorem printNamespaces_eq {lst : List Namespace} (h : ∀ n ∈ lst, n.nsuri ≠ [])
    (nslists : List (List Namespace)) (next : Str) :
    printNamespaces lst nslists next =
      printPairs ((declared lst nslists).map Namespace.pair) next := by
  induction lst with
  | nil => rfl
  | cons cur lst ih =>
    have hcur := h cur (List.mem_cons_self ..)
    have ih := ih fun n hn => h n (List.mem_cons_of_mem _ hn)
    rw [printNamespaces, ih]
    by_cases hin : nsLookup cur.nsPrefix nslists = cur.nsuri
    · have hdecl : declared (cur :: lst) nslists = declared lst nslists :=
        List.filter_cons_of_neg (by simpa using hin)
      rw [if_pos hin, hdecl]
    · have hdecl : declared (cur :: lst) nslists = cur :: declared lst nslists :=
        List.filter_cons_of_pos (by simpa using hin)
      rw [if_neg hin, if_neg (fun hno => hcur hno.2.1), hdecl, List.map_cons, Namespace.pair,
        printPairs]
      by_cases hp : cur.nsPrefix = [] <;> simp [hp, xmlns]

/-! ## The tokenizer on what was written -/

/-- Tokens in front of others -/
def emits (l : List Token) (next : Tokens) : Tokens := next.map (l ++ ·)

theorem emit_eq (tag : Tag) (value : Str) (next : Tokens) :
    emit tag value next = emits [⟨tag, value⟩] next := rfl

@[simp] theorem emits_nil (next : Tokens) : emits [] next = next := by
  cases next <;> rfl

@[simp] theorem emits_emits (l l' : List Token) (next : Tokens) :
    emits l (emits l' next) = emits (l ++ l') next := by
  cases next <;> simp [emits, Except.map]

/-- A state that goes on over certain characters -/
theorem accumulate {f : Str → Str → Tokens} {P : Char → Prop}
    (hf : ∀ c rest passed, P c → f (c :: rest) passed = f rest (c :: passed)) {s : Str}
    (hs : ∀ c ∈ s, P c) (rest passed : Str) :
    f (s ++ rest) passed = f rest (s.reverse ++ passed) := by
  induction s generalizing passed with
  | nil => rfl
  | cons c s ih =>
    rw [List.cons_append, hf c _ _ (hs c (List.mem_cons_self ..)),
      ih (fun c hc => hs c (List.mem_cons_of_mem _ hc)), List.reverse_cons, List.append_assoc]
    rfl

theorem nameChar_ne {c : Char} (h : nameChar c = true) :
    isspace c = false ∧ c ≠ '<' ∧ c ≠ '>' ∧ c ≠ '/' ∧ c ≠ '=' ∧ c ≠ ':' ∧ c ≠ '?' ∧ c ≠ '!' := by
  simpa [nameChar, and_assoc] using h

/-- What is in a name, with or without a prefix -/
def qnameChar (c : Char) : Prop := isspace c = false ∧ c ≠ '>' ∧ c ≠ '/' ∧ c ≠ '=' ∧ c ≠ '?' ∧ c ≠ '!'

theorem qnameChar_of_nameChar {c : Char} (h : nameChar c = true) : qnameChar c := by
  obtain ⟨hs, -, hgt, hsl, heq, -, hq, hex⟩ := nameChar_ne h
  exact ⟨hs, hgt, hsl, heq, hq, hex⟩

theorem qname_chars {p l : Str} (hp : IsPrefix p) (hl : IsName l) :
    ∀ c ∈ qname p l, qnameChar c := by
  intro c hc
  rw [qname] at hc
  split at hc
  · obtain hc | hc := List.mem_append.mp hc
    · exact qnameChar_of_nameChar (hp c hc)
    · obtain rfl | hc := List.mem_cons.mp hc
      · exact ⟨rfl, by decide, by decide, by decide, by decide, by decide⟩
      · exact qnameChar_of_nameChar (hl.2 c hc)
  · exact qnameChar_of_nameChar (hl.2 c hc)

theorem qname_ne_nil {p l : Str} (hl : IsName l) : qname p l ≠ [] := by
  rw [qname]
  split
  · simp
  · exact hl.1

/-- What may come behind the name in a start tag -/
def TagEnd (s : Str) : Prop := ∃ c rest, s = c :: rest ∧ (c = ' ' ∨ c = '>' ∨ c = '/')

theorem tokenizeName_qname {q : Str} (hq : ∀ c ∈ q, qnameChar c) {rest : Str} (hrest : TagEnd rest)
    (passed : Str) : tokenizeName (q ++ rest) passed =
      emit .startElem (passed.reverse ++ q) (tokenizeAttrsearch rest) := by
  have hstep : ∀ c rest passed, qnameChar c →
      tokenizeName (c :: rest) passed = tokenizeName rest (c :: passed) := by
    rintro c rest passed ⟨hs, hgt, hsl, -⟩
    rw [tokenizeName, if_neg hgt, if_neg hsl, hs]
    rfl
  rw [accumulate hstep hq]
  obtain ⟨c, rest, rfl, rfl | rfl | rfl⟩ := hrest
  · rw [tokenizeName, tokenizeAttrsearch]
    simp [isspace]
  · rw [tokenizeName, tokenizeAttrsearch]
    simp
  · rw [tokenizeName, tokenizeAttrsearch]
    simp

theorem tokenizeNamestart_qname {q : Str} (hne : q ≠ []) (hq : ∀ c ∈ q, qnameChar c) {rest : Str}
    (hrest : TagEnd rest) : tokenizeNamestart (q ++ rest) =
      emit .startElem q (tokenizeAttrsearch rest) := by
  have hname := tokenizeName_qname hq hrest []
  obtain ⟨c, q, rfl⟩ := List.exists_cons_of_ne_nil hne
  obtain ⟨-, -, hsl, -, hqm, hex⟩ := hq c (List.mem_cons_self ..)
  rw [List.cons_append] at hname ⊢
  rw [tokenizeNamestart, if_neg hsl, if_neg hqm, if_neg hex, hname]
  rfl

theorem tokenizeEndname_qname {q : Str} (hq : ∀ c ∈ q, qnameChar c) (rest : Str) :
    tokenizeEndname (q ++ '>' :: rest) [] = emit .endElem [] (tokenizeMain rest []) := by
  have hstep : ∀ c rest passed, qnameChar c →
      tokenizeEndname (c :: rest) passed = tokenizeEndname rest (c :: passed) := by
    rintro c rest passed ⟨-, hgt, -⟩
    rw [tokenizeEndname, if_neg hgt]
  rw [accumulate hstep hq, tokenizeEndname, if_pos rfl]

/-! ## Attributes -/

structure PairOk (p : Str × Str) : Prop where
  name : p.1 ≠ []
  chars : ∀ c ∈ p.1, qnameChar c
  value : '\x22' ∉ p.2

theorem tokenizeValueDq_value {v : Str} (hv : '\x22' ∉ v) (rest : Str) :
    tokenizeValueDq (v ++ '\x22' :: rest) [] = emit .attrValue v (tokenizeAttrsearch rest) := by
  have hstep : ∀ c rest passed, c ≠ '\x22' →
      tokenizeValueDq (c :: rest) passed = tokenizeValueDq rest (c :: passed) := by
    intro c rest passed hc
    rw [tokenizeValueDq, if_neg hc]
  rw [accumulate hstep fun c hc heq => hv (heq ▸ hc), tokenizeValueDq, if_pos rfl, List.append_nil,
    List.reverse_reverse]

theorem tokenizeAttrsearch_pair {p : Str × Str} (hp : PairOk p) (rest : Str) :
    tokenizeAttrsearch (' ' :: (p.1 ++ ('=' :: '\x22' :: (p.2 ++ ('\x22' :: rest))))) =
      emits [⟨.attrName, p.1⟩, ⟨.attrValue, p.2⟩] (tokenizeAttrsearch rest) := by
  obtain ⟨name, value⟩ := p
  obtain ⟨hne, hchars, hvalue⟩ := hp
  have hstep : ∀ c rest passed, qnameChar c →
      tokenizeAttrname (c :: rest) passed = tokenizeAttrname rest (c :: passed) := by
    rintro c rest passed ⟨hs, -, -, heq, -⟩
    rw [tokenizeAttrname]
    simp [hs, heq]
  dsimp only at hne hchars hvalue ⊢
  obtain ⟨c, name, rfl⟩ := List.exists_cons_of_ne_nil hne
  obtain ⟨hs, hgt, hsl, -⟩ := hchars c (List.mem_cons_self ..)
  have hname : tokenizeAttrname ((name ++ ('=' :: '\x22' :: (value ++ ('\x22' :: rest))))) [c] =
      emit .attrName (c :: name) (tokenizeEqsearch ('=' :: '\x22' :: (value ++ ('\x22' :: rest)))) := by
    rw [accumulate hstep (fun c hc => hchars c (List.mem_cons_of_mem _ hc)), tokenizeAttrname]
    simp
  rw [tokenizeAttrsearch, if_neg (by decide), if_neg (by decide), if_pos (by decide),
    List.cons_append, tokenizeAttrsearch, if_neg hgt, if_neg hsl, hs, if_neg (by decide), hname,
    tokenizeEqsearch, if_pos rfl, tokenizeValsearch, if_neg (by decide), if_pos rfl,
    tokenizeValueDq_value hvalue, emit_eq, emit_eq, emits_emits]
  rfl

theorem tokenizeAttrsearch_pairs {pairs : Pairs} (h : ∀ p ∈ pairs, PairOk p) (rest : Str) :
    tokenizeAttrsearch (printPairs pairs rest) =
      emits (pairTokens pairs) (tokenizeAttrsearch rest) := by
  induction pairs with
  | nil => exact (emits_nil _).symm
  | cons p pairs ih =>
    rw [printPairs, tokenizeAttrsearch_pair (h p (List.mem_cons_self ..)),
      ih fun q hq => h q (List.mem_cons_of_mem _ hq), emits_emits]
    rfl

theorem printPairs_append (pairs pairs' : Pairs) (next : Str) :
    printPairs (pairs ++ pairs') next = printPairs pairs (printPairs pairs' next) := by
  induction pairs with
  | nil => rfl
  | cons p pairs ih => rw [List.cons_append, printPairs, ih, printPairs]

theorem tagEnd_pairs (pairs : Pairs) {rest : Str} (hrest : TagEnd rest) :
    TagEnd (printPairs pairs rest) := by
  cases pairs with
  | nil => exact hrest
  | cons p pairs => exact ⟨' ', _, rfl, .inl rfl⟩

/-! ## Text, comments and processing instructions -/

theorem tokenizeMain_text {v : Str} (hne : v ≠ []) (hv : '<' ∉ v) (rest : Str) :
    tokenizeMain (v ++ '<' :: rest) [] = emit .text v (tokenizeMain ('<' :: rest) []) := by
  have hstep : ∀ c rest passed, c ≠ '<' →
      tokenizeMain (c :: rest) passed = tokenizeMain rest (c :: passed) := by
    intro c rest passed hc
    rw [tokenizeMain, if_neg hc]
  have hlen : 0 < v.length := List.length_pos_of_ne_nil hne
  rw [accumulate hstep fun c hc heq => hv (heq ▸ hc), tokenizeMain, tokenizeMain]
  simp [hlen]

theorem tokenizeComment_value {v : Str} (hv : ¬ ['-', '-'] <:+: v) (hlast : v.getLast? ≠ some '-')
    (rest passed : Str) : tokenizeComment (v ++ '-' :: '-' :: '>' :: rest) passed =
      emit .comment (passed.reverse ++ v) (tokenizeMain rest []) := by
  induction hn : v.length using Nat.strongRecOn generalizing v passed with
  | _ n ih =>
    cases v with
    | nil =>
      rw [List.nil_append, tokenizeComment, if_pos rfl, tokenizeCommentEnd1, if_pos rfl,
        tokenizeCommentEnd2, if_pos rfl]
      simp
    | cons c v =>
      by_cases hc : c = '-'
      · subst hc
        cases v with
        | nil => exact absurd rfl hlast
        | cons c v =>
          have hc : c ≠ '-' := by
            rintro rfl
            exact hv ⟨[], v, rfl⟩
          have hv' : ¬ ['-', '-'] <:+: v := fun h =>
            hv (h.trans ⟨['-', c], [], by simp⟩)
          have hlast' : v.getLast? ≠ some '-' := by
            cases v with
            | nil => simp
            | cons _ _ => simpa using hlast
          rw [List.cons_append, List.cons_append, tokenizeComment, if_pos rfl, tokenizeCommentEnd1,
            if_neg hc, ih v.length (by simp at hn; omega) hv' hlast' _ rfl]
          simp
      · have hv' : ¬ ['-', '-'] <:+: v := fun h => hv (h.trans ⟨[c], [], by simp⟩)
        have hlast' : v.getLast? ≠ some '-' := by
          cases v with
          | nil => simp
          | cons _ _ => simpa using hlast
        rw [List.cons_append, tokenizeComment, if_neg hc,
          ih v.length (by simp at hn; omega) hv' hlast' _ rfl]
        simp

theorem trailingMarks_cons (c : Char) (v : Str) : trailingMarks (c :: v) =
    if trailingMarks v = v.length ∧ c = '?' then v.length + 1 else trailingMarks v := by
  simp only [trailingMarks, List.reverse_cons, List.takeWhile_append, List.length_reverse]
  by_cases hall : (v.reverse.takeWhile (· = '?')).length = v.length <;> by_cases hc : c = '?' <;>
    simp [hall, hc]

theorem trailingMarks_le (v : Str) : trailingMarks v ≤ v.length := by
  have := (List.takeWhile_sublist (l := v.reverse) (· = '?')).length_le
  rwa [List.length_reverse] at this

theorem tokenizePicontent_value {v : Str} (hv : ¬ ['?', '>'] <:+: v)
    (hmarks : trailingMarks v % 2 = 0) (rest passed : Str) :
    tokenizePicontent (v ++ '?' :: '>' :: rest) passed =
      emit .piContent (passed.reverse ++ v) (tokenizeSkipspace rest) := by
  induction hn : v.length using Nat.strongRecOn generalizing v passed with
  | _ n ih =>
    cases v with
    | nil =>
      rw [List.nil_append, tokenizePicontent, if_pos rfl, tokenizePiend1, if_pos rfl]
      simp
    | cons c v =>
      by_cases hc : c = '?'
      · subst hc
        cases v with
        | nil => exact absurd hmarks (by decide)
        | cons c v =>
          have hc : c ≠ '>' := by
            rintro rfl
            exact hv ⟨[], v, rfl⟩
          have hv' : ¬ ['?', '>'] <:+: v := fun h => hv (h.trans ⟨['?', c], [], by simp⟩)
          have hmarks' : trailingMarks v % 2 = 0 := by
            have hle := trailingMarks_le v
            rw [trailingMarks_cons, trailingMarks_cons, List.length_cons] at hmarks
            by_cases hall : trailingMarks v = v.length ∧ c = '?'
            · rw [if_pos hall, if_pos ⟨rfl, rfl⟩] at hmarks
              omega
            · rwa [if_neg hall, if_neg fun h => by omega] at hmarks
          rw [List.cons_append, List.cons_append, tokenizePicontent, if_pos rfl, tokenizePiend1,
            if_neg hc, ih v.length (by simp at hn; omega) hv' hmarks' _ rfl]
          simp
      · have hv' : ¬ ['?', '>'] <:+: v := fun h => hv (h.trans ⟨[c], [], by simp⟩)
        have hmarks' : trailingMarks v % 2 = 0 := by
          rwa [trailingMarks_cons, if_neg fun h => hc h.2] at hmarks
        rw [List.cons_append, tokenizePicontent, if_neg hc,
          ih v.length (by simp at hn; omega) hv' hmarks' _ rfl]
        simp

theorem tokenizePitarget_name {t : Str} (ht : IsName t) (rest : Str) :
    tokenizePitarget (t ++ ' ' :: rest) [] = emit .piTarget t (tokenizePicontent rest []) := by
  have hstep : ∀ c rest passed, nameChar c = true →
      tokenizePitarget (c :: rest) passed = tokenizePitarget rest (c :: passed) := by
    intro c rest passed hc
    obtain ⟨hs, -, -, -, -, -, hq, -⟩ := nameChar_ne hc
    have hsp : c ≠ ' ' := by
      rintro rfl
      cases hs
    rw [tokenizePitarget, if_neg hsp, if_neg hq]
  rw [accumulate hstep ht.2, tokenizePitarget, if_pos rfl, List.append_nil, List.reverse_reverse]

/-- What may come behind a list of siblings -/
def MarkupAt (s : Str) : Prop := s = [] ∨ ∃ rest, s = '<' :: rest

theorem tokenizeSkipspace_markup {s : Str} (h : MarkupAt s) :
    tokenizeSkipspace s = tokenizeMain s [] := by
  obtain rfl | ⟨rest, rfl⟩ := h
  · rw [tokenizeSkipspace, tokenizeMain]
  · rw [tokenizeSkipspace, if_neg (by decide)]

theorem printNodes_markup {f : Forest} (hf : f.leadingText = none)
    (nslists : List (List Namespace)) {next : Str} (hnext : MarkupAt next) :
    MarkupAt (printNodes f nslists next) := by
  cases f with
  | nil => exact hnext
  | elem e c s =>
    cases c <;> exact .inr ⟨_, rfl⟩
  | leaf l s =>
    cases l with
    | text value => cases hf
    | comment value => exact .inr ⟨_, rfl⟩
    | pi localname value =>
      rw [printNodes]
      split <;> exact .inr ⟨_, rfl⟩

theorem printNodes_ne_nil {f : Forest} (nslists : List (List Namespace)) {next : Str}
    (hf : f.leadingText = none) (hnext : next ≠ []) : printNodes f nslists next ≠ [] := by
  cases f with
  | nil => exact hnext
  | elem e c s => cases c <;> exact List.cons_ne_nil _ _
  | leaf l s =>
    cases l with
    | text value => cases hf
    | comment value => exact List.cons_ne_nil _ _
    | pi localname value =>
      rw [printNodes]
      split <;> exact List.cons_ne_nil _ _

theorem tokenizeSkipspace_printNodes {f : Forest} {nslists : List (List Namespace)} {inside : Bool}
    (hf : f.WellFormed nslists inside)
    (hspace : f.startsWithSpace = false)
    {next : Str} (hnext : MarkupAt next) :
    tokenizeSkipspace (printNodes f nslists next) = tokenizeMain (printNodes f nslists next) [] := by
  cases hlead : f.leadingText with
  | none => exact tokenizeSkipspace_markup (printNodes_markup hlead nslists hnext)
  | some value =>
    cases f with
    | nil => cases hlead
    | elem e c s => cases hlead
    | leaf l s =>
      cases l with
      | comment value => cases hlead
      | pi localname value => cases hlead
      | text value =>
        obtain ⟨c, value, rfl⟩ := List.exists_cons_of_ne_nil hf.1.1
        have hc : isspace c = false := hspace
        rw [printNodes, List.cons_append, tokenizeSkipspace, hc]
        rfl

theorem Elem.pairOk {e : Elem} {nslists : List (List Namespace)} (hw : e.WellFormed nslists)
    (hr : e.Regular) (outer : List (List Namespace)) : ∀ p ∈ e.pairs outer, PairOk p := by
  intro p hp
  obtain hp | hp := List.mem_append.mp hp
  · obtain ⟨n, hn, rfl⟩ := List.mem_map.mp hp
    have hn := (List.mem_filter.mp hn).1
    have hxmlns : IsName xmlns := by decide
    refine ⟨?_, ?_, hr.nsuri n hn⟩
    · simp only [Namespace.pair]
      split
      · simp
      · exact hxmlns.1
    · simp only [Namespace.pair]
      intro c hc
      split at hc
      · obtain hc | hc := List.mem_append.mp hc
        · exact qnameChar_of_nameChar (hxmlns.2 c hc)
        · obtain rfl | hc := List.mem_cons.mp hc
          · exact ⟨rfl, by decide, by decide, by decide, by decide, by decide⟩
          · exact qnameChar_of_nameChar ((hw.namespaces n hn).nsPrefix c hc)
      · exact qnameChar_of_nameChar (hxmlns.2 c hc)
  · obtain ⟨a, ha, rfl⟩ := List.mem_map.mp hp
    have hwa := hw.attributes a ha
    exact ⟨qname_ne_nil hwa.localname, qname_chars hwa.nsPrefix hwa.localname, hwa.value⟩

/-- The start tag of an element -/
theorem tokenizeMain_elem {e : Elem} {nslists outer : List (List Namespace)}
    (hw : e.WellFormed nslists) (hr : e.Regular) {rest : Str} (hrest : TagEnd rest) :
    tokenizeMain ('<' :: (qname e.nsPrefix e.localname ++ printNamespaces e.namespaces outer
      (printAttrs e.attributes rest))) [] =
      emits (⟨.startElem, qname e.nsPrefix e.localname⟩ :: pairTokens (e.pairs outer))
        (tokenizeAttrsearch rest) := by
  have hpairs : printNamespaces e.namespaces outer (printAttrs e.attributes rest) =
      printPairs (e.pairs outer) rest := by
    rw [printNamespaces_eq fun n hn => (hw.namespaces n hn).nsuri, printAttrs_eq, Elem.pairs,
      printPairs_append]
  rw [hpairs, tokenizeMain, if_pos rfl, if_neg (by simp), tokenizeNamestart_qname
    (qname_ne_nil hw.localname) (qname_chars hw.nsPrefix hw.localname) (tagEnd_pairs _ hrest),
    tokenizeAttrsearch_pairs (Elem.pairOk hw hr outer), emit_eq, emits_emits]
  rfl

theorem tokenizeMain_printNodes {f : Forest} {nslists : List (List Namespace)} {inside : Bool}
    (hw : f.WellFormed nslists inside) (hr : f.Regular) {next : Str} (hnext : MarkupAt next)
    (hinside : inside = true → next ≠ []) :
    tokenizeMain (printNodes f nslists next) [] = emits (f.tokens nslists) (tokenizeMain next []) := by
  induction f generalizing nslists inside next with
  | nil => exact (emits_nil _).symm
  | elem e c s ihc ihs =>
    obtain ⟨hwe, hwc, hws⟩ := hw
    obtain ⟨hre, hrc, hrs⟩ := hr
    have ihs := ihs hws hrs hnext hinside
    have hempty : ∀ rest, tokenizeAttrsearch ('/' :: '>' :: rest) = emits [⟨.endElem, []⟩] (tokenizeMain rest []) := by
      intro rest
      rw [tokenizeAttrsearch, if_neg (by decide), if_pos rfl, tokenizeLeafend, if_pos rfl]
      rfl
    by_cases hc : c = .nil
    · subst hc
      rw [printNodes, tokenizeMain_elem hwe hre ⟨'/', _, rfl, .inr (.inr rfl)⟩, hempty, ihs,
        emits_emits, emits_emits]
      simp [Forest.tokens]
    · have hprint : printNodes (.elem e c s) nslists next = '<' :: (qname e.nsPrefix e.localname ++
          printNamespaces e.namespaces nslists (printAttrs e.attributes ('>' ::
            printNodes c (e.namespaces :: nslists) ('<' :: '/' :: (qname e.nsPrefix e.localname ++
              ('>' :: printNodes s nslists next)))))) := by
        cases c with
        | nil => exact absurd rfl hc
        | _ => rfl
      have hend : tokenizeMain ('<' :: '/' :: (qname e.nsPrefix e.localname ++
          ('>' :: printNodes s nslists next))) [] =
          emits [⟨.endElem, []⟩] (tokenizeMain (printNodes s nslists next) []) := by
        rw [tokenizeMain, if_pos rfl, if_neg (by simp), tokenizeNamestart, if_pos rfl,
          tokenizeEndname_qname (qname_chars hwe.nsPrefix hwe.localname)]
        rfl
      have hclose : MarkupAt ('<' :: '/' :: (qname e.nsPrefix e.localname ++
          ('>' :: printNodes s nslists next))) := .inr ⟨_, rfl⟩
      have ihc := ihc hwc hrc hclose (fun _ => List.cons_ne_nil _ _)
      rw [hprint, tokenizeMain_elem hwe hre ⟨'>', _, rfl, .inr (.inl rfl)⟩, tokenizeAttrsearch,
        if_pos rfl, ihc, hend, ihs, emits_emits, emits_emits, emits_emits]
      simp [Forest.tokens]
  | leaf l s ih =>
    obtain ⟨hwl, htext, hws⟩ := hw
    obtain ⟨hrl, hpi, hrs⟩ := hr
    have ih := ih hws hrs hnext hinside
    cases l with
    | text value =>
      obtain ⟨hin, hlead⟩ := htext rfl
      obtain hnil | ⟨rest, hrest⟩ := printNodes_markup hlead nslists hnext
      · exact absurd hnil (printNodes_ne_nil nslists hlead (hinside hin))
      · rw [printNodes, hrest, tokenizeMain_text hwl.1 hwl.2, ← hrest, ih, emit_eq, emits_emits]
        rfl
    | comment value =>
      have hstart : ∀ rest, tokenizeMain ("<!--".toList ++ rest) [] = tokenizeComment rest [] := by
        intro rest
        change tokenizeMain ('<' :: '!' :: '-' :: '-' :: rest) [] = _
        rw [tokenizeMain, if_pos rfl, if_neg (by simp), tokenizeNamestart, if_neg (by decide),
          if_neg (by decide), if_pos rfl, tokenizeComment1, if_pos rfl, tokenizeComment2, if_pos rfl]
      rw [printNodes, hstart]
      refine (tokenizeComment_value hwl.1 hwl.2 (printNodes s nslists next) []).trans ?_
      rw [ih, emit_eq, emits_emits]
      rfl
    | pi localname value =>
      have hstart : ∀ rest, tokenizeMain ("<?".toList ++ rest) [] = tokenizePitarget rest [] := by
        intro rest
        change tokenizeMain ('<' :: '?' :: rest) [] = _
        rw [tokenizeMain, if_pos rfl, if_neg (by simp), tokenizeNamestart, if_neg (by decide),
          if_pos rfl]
      obtain ⟨ht, hne, hv⟩ := hwl
      rw [printNodes, if_pos hne, hstart, tokenizePitarget_name ht]
      refine (congrArg _ (tokenizePicontent_value hv hrl.2 (printNodes s nslists next) [])).trans ?_
      rw [tokenizeSkipspace_printNodes hws (hpi rfl) hnext, ih, emit_eq, emit_eq, emits_emits,
        emits_emits]
      rfl

end Xml
end NReduce
