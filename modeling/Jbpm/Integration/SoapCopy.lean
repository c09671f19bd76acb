/-
  Copies of an element from a SOAP tree to a document, and from a document to a SOAP tree.  The
  source is never in the tree of the target.

  * `Saaj`: the library of SOAP trees;
  * `copyToDom`, `copyChildToDom`: copies of a SOAP element;
  * `copyToSoap`, `copyChildToSoap`: copies to a SOAP element, which may fail;
  * `means_copies`: what the copies mean.
-/
import Jbpm.Xml.CopiedElement

namespace Jbpm

open Lib Branch Declarations Xml

namespace Integration.Soap

/-- The methods of SOAP trees, with a test for white space.  Namespaces are looked up by prefix,
    and no method gives the default namespace as a prefix. -/
structure Saaj where
  /-- `getVisibleNamespacePrefixes` -/
  visiblePrefixes : Scopes NCName String → List NCName
  /-- `getNamespacePrefixes` -/
  prefixes : List (NCName × String) → List NCName
  /-- the declarations that the removal of attributes and namespaces leaves -/
  cleared : List (NCName × String) → List (NCName × String)
  /-- the declarations of a new child -/
  added : Scopes NCName String → ElementName → List (NCName × String)
  isEnvelope : Tag → Bool
  isWhitespace : String → Bool

variable (S : Saaj)

/-! ## From a SOAP tree -/

/-- `copyNamespaces` of prefixes to a document -/
def copyNamespaces (above : Scopes NCName String) (prefixes : List NCName)
    (source : Scopes NCName String) (e : Elem) : Elem :=
  prefixes.foldl (fun e k => (binding source k).elim e fun u => declared above u k e) e

/-- `copyAttributes` to a document -/
def copyAttributes (above : Scopes NCName String) (attributes : AList AttributeValue) (e : Elem) :
    Elem :=
  attributes.entries.foldl (fun e a => withAttribute above a e) e

mutual

/-- A child as it is copied to a document; elements as by `copyChildElement`. -/
def childToDom (above source : Scopes NCName String) : Node → Option Node
  | .branch label children =>
    let e := copyNamespaces above (S.prefixes label.decls) (label.decls :: source)
      ⟨⟨label.name, [], ∅⟩, []⟩
    let e := copyAttributes above label.attributes (ownDeclared above e)
    some (.branch e.label (childrenToDom (e.label.decls :: above) (label.decls :: source) children))
  -- comments are texts of a SOAP tree
  | .leaf ⟨.text, data⟩ | .leaf ⟨.cdata, data⟩ | .leaf ⟨.comment, data⟩ => some (.leaf ⟨.text, data⟩)
  | .leaf ⟨.instruction _, _⟩ => none

/-- `copyChildNodes` to a document -/
def childrenToDom (above source : Scopes NCName String) : List Node → List Node
  | [] => []
  | c :: cs => (childToDom above source c).toList ++ childrenToDom above source cs

end

/-- `copy` to an element, with the declarations around it and those of the source. -/
def domCopy (above source : Scopes NCName String) (s t : Elem) : Elem :=
  let e := copyAttributes above s.label.attributes (removeAttributes t)
  let e := ownDeclared above (copyNamespaces above (S.visiblePrefixes source) source e)
  { e with children := childrenToDom S (e.label.decls :: above) source s.children }

/-- `SoapUtil.copy` to an element of a document -/
def copyToDom (target : List ℕ) (source : List ℕ) (document root : Elem) : Elem :=
  (document.at? source).elim root fun s =>
    modify (domCopy S (scopes target root).tail (scopes source document) s) target root

/-- `SoapUtil.copyChildElement` to an element of a document -/
def copyChildToDom (parent : List ℕ) (source : List ℕ) (document root : Elem) : Elem :=
  (document.at? source).elim root fun s =>
    (childToDom S (scopes parent root) (scopes source document).tail s.toTree).elim root
      fun child => modify (appendChild child) parent root

/-! ## To a SOAP tree -/

/-- `DEFAULT_NAMESPACE_PREFIX` -/
def defaultNS : NCName := ⟨"defaultNS", by decide⟩

/-- A declaration of a source: the default namespace gets a prefix. -/
def reassigned (decls : List (NCName × String)) (d : NCName × String) :
    Option (NCName × String) :=
  if d.1 ≠ xmlns then some d
  else if d.2 = "" then none
  else (generatePrefix defaultNS decls).map fun k => (k, d.2)

/-- One pass of `copyNamespaces` to a SOAP tree; a prefix may not be generated. -/
def copyNamespace (above : Scopes NCName String) (decls : List (NCName × String)) (e : Elem)
    (d : NCName × String) : Option Elem :=
  if d.1 ≠ xmlns then
    some { e with label := { e.label with decls := rebind above e.label.decls d } }
  else if d.2 = "" then some e
  else (generatePrefix defaultNS decls).map fun k => addNamespaceDeclaration d.2 k e

/-- `copyNamespaces` to a SOAP tree -/
def copyDeclarations (above : Scopes NCName String) (e : Elem) (decls : List (NCName × String)) :
    Option Elem :=
  decls.foldlM (copyNamespace above decls) e

/-- `ensureOwnNamespaceDeclared` in a SOAP tree -/
def ownRebound (above : Scopes NCName String) (e : Elem) : Elem :=
  if e.label.name.namespaceURI = "" then e
  else { e with label := { e.label with
    decls := rebind above e.label.decls e.label.name.declaration } }

/-- `getPrefix` in a SOAP tree -/
def getPrefix (namespaceURI : String) (s : Scopes NCName String) : Option NCName :=
  (S.visiblePrefixes s).find? fun k => binding s k = some namespaceURI

/-- The prefix of a child that has the default namespace in a document. -/
def childPrefix (above : Scopes NCName String) (decls : List (NCName × String))
    (namespaceURI : String) : Option NCName :=
  match getPrefix S namespaceURI above with
  | none => generatePrefix defaultNS decls
  | some k =>
    if binding [decls] k = some namespaceURI then some k else generatePrefix k decls

/-- `targetName` -/
def childName (above : Scopes NCName String) (decls : List (NCName × String))
    (name : ElementName) : Option ElementName :=
  if h : name.prefix_ = none ∧ name.namespaceURI ≠ "" then
    (childPrefix S above decls name.namespaceURI).map fun k =>
      ⟨name.namespaceURI, some k, name.localName, fun _ => h.2⟩
  else some name

/-- `copyAttributes` to a SOAP tree: no prefix is declared. -/
def setAttributes (attributes : AList AttributeValue) (e : Elem) : Elem :=
  attributes.entries.foldl (fun e a => setAttribute a.1 a.2 e) e

mutual

/-- A child as it is copied to a SOAP tree, if that does not fail; it may be left out. -/
def childToSoap (envelope : Bool) (above : Scopes NCName String) : Node → Option (Option Node)
  | .branch label children =>
    -- names are created by the envelope
    if envelope then
      (childName S above label.decls label.name).bind fun name =>
      (copyDeclarations above ⟨⟨name, S.added above name, ∅⟩, []⟩ label.decls).bind fun e =>
      let e := setAttributes label.attributes (ownRebound above e)
      (childrenToSoap envelope (e.label.decls :: above) children).map fun children =>
        some (.branch e.label children)
    else none
  | .leaf ⟨.text, data⟩ | .leaf ⟨.cdata, data⟩ =>
    some (if S.isWhitespace data then none else some (.leaf ⟨.text, data⟩))
  | .leaf ⟨.comment, _⟩ | .leaf ⟨.instruction _, _⟩ => some none

/-- `copyChildNodes` to a SOAP tree -/
def childrenToSoap (envelope : Bool) (above : Scopes NCName String) :
    List Node → Option (List Node)
  | [] => some []
  | c :: cs =>
    (childToSoap envelope above c).bind fun child =>
    (childrenToSoap envelope above cs).map fun children => child.toList ++ children

end

/-- `copy` to an element of a SOAP tree, with the declarations around it and those of the
    source. -/
def soapCopy (envelope : Bool) (above source : Scopes NCName String) (s t : Elem) : Option Elem :=
  let e := { t with label := { t.label with decls := S.cleared t.label.decls, attributes := ∅ } }
  (source.foldlM (copyDeclarations above) (setAttributes s.label.attributes e)).bind fun e =>
  let e := ownRebound above e
  (childrenToSoap S envelope (e.label.decls :: above) s.children).map fun children =>
    { e with children := children }

/-- `findEnvelope`, from an element outwards -/
def findEnvelope (element : List ℕ) (root : Elem) : Bool :=
  (root.labels element).any S.isEnvelope

/-- `SoapUtil.copy` to an element of a SOAP tree -/
def copyToSoap (target : List ℕ) (source : List ℕ) (document root : Elem) : Option Elem :=
  (document.at? source).bind fun s => (root.at? target).bind fun t =>
    (soapCopy S (findEnvelope S target root) (scopes target root).tail (scopes source document)
      s t).map fun e => modify (fun _ => e) target root

/-- `SoapUtil.copyChildElement` to an element of a SOAP tree -/
def copyChildToSoap (parent : List ℕ) (source : List ℕ) (document root : Elem) : Option Elem :=
  (document.at? source).bind fun s =>
    (childToSoap S (findEnvelope S parent root) (scopes parent root) s.toTree).map fun child =>
      modify (fun t => { t with children := t.children ++ child.toList }) parent root

/-! ## Meaning -/

/-- Prefixes are those that are declared, but for the default namespace. -/
structure Saaj.Lawful : Prop where
  visiblePrefixes : ∀ s k, k ∈ S.visiblePrefixes s ↔ k ≠ xmlns ∧ binding s k ≠ none
  prefixes : ∀ own k, k ∈ S.prefixes own ↔ k ≠ xmlns ∧ ∃ u, (k, u) ∈ own

/-- Text that is copied to a SOAP tree. -/
def isContent (l : Leaf) : Bool := l.isText && ! S.isWhitespace l.data

/-- All declarations of a source, as they are made in a SOAP tree. -/
def reassignments (source : Scopes NCName String) : List (NCName × String) :=
  source.flatMap fun decls => decls.filterMap (reassigned decls)

/-- A prefix is bound at the source, or is the one that a default namespace gets. -/
def Reassigned (source : Scopes NCName String) (k : NCName) (u : String) : Prop :=
  k ≠ xmlns ∧ binding source k = some u ∨
    u ≠ "" ∧ ∃ decls ∈ source, (xmlns, u) ∈ decls ∧ generatePrefix defaultNS decls = some k

/-- A prefix that a SOAP tree is given for one namespace only. -/
structure Carried (source : Scopes NCName String) (name : ElementName) (k : NCName) (u : String) :
    Prop where
  given : Reassigned source k u
  once : ∀ u', (k, u') ∈ reassignments source → u' = u
  own : ∀ u', name.declaration = (k, u') → u' = u

variable {S} {above source : Scopes NCName String} {e e' s t : Elem} {k : NCName} {u : String}

/-- The prefixes that are bound, with their namespaces. -/
def boundPrefixes (prefixes : List NCName) (source : Scopes NCName String) :
    List (NCName × String) :=
  prefixes.filterMap fun k => (binding source k).map fun u => (k, u)

theorem mem_boundPrefixes {prefixes : List NCName} :
    (k, u) ∈ boundPrefixes prefixes source ↔ k ∈ prefixes ∧ binding source k = some u := by
  rw [boundPrefixes, List.mem_filterMap]
  constructor
  · rintro ⟨k', hk', hmap⟩
    obtain ⟨u', hu', heq⟩ := Option.map_eq_some_iff.1 hmap
    obtain ⟨rfl, rfl⟩ := Prod.mk.inj heq
    exact ⟨hk', hu'⟩
  · rintro ⟨hk, hu⟩
    exact ⟨k, hk, Option.map_eq_some_iff.2 ⟨u, hu, rfl⟩⟩

theorem copyNamespaces_eq (above : Scopes NCName String) (prefixes : List NCName)
    (source : Scopes NCName String) (e : Elem) : copyNamespaces above prefixes source e =
      (boundPrefixes prefixes source).foldl (fun e d => declared above d.2 d.1 e) e := by
  unfold copyNamespaces boundPrefixes
  induction prefixes generalizing e with
  | nil => rfl
  | cons k prefixes ih =>
    rw [List.foldl_cons, ih, List.filterMap_cons]
    cases binding source k <;> rfl

theorem attributes_copyAttributes (above : Scopes NCName String)
    (attributes : AList AttributeValue) (he : e.label.attributes = ∅) :
    SameAttributes attributes (copyAttributes above attributes e).label.attributes := by
  rw [copyAttributes, attributes_foldl_withAttribute, he]
  exact sameAttributes_foldl attributes

/-- The children of a SOAP element without comments. -/
theorem sameContent_childrenToDom (above source : Scopes NCName String) :
    ∀ cs : List Node, (∀ l ∈ Tree.leavesAll cs, l.kind ≠ .comment) →
      SameContent Leaf.isText cs (childrenToDom S above source cs)
  | [], _ => .nil
  | .branch label children :: cs, h => by
    have hchildren : ∀ l ∈ Tree.leavesAll children, l.kind ≠ .comment :=
      fun l hl => h l (List.mem_append_left _ hl)
    have hcs : ∀ l ∈ Tree.leavesAll cs, l.kind ≠ .comment :=
      fun l hl => h l (List.mem_append_right _ hl)
    refine .branch ?_ (sameContent_childrenToDom _ _ children hchildren)
      (sameContent_childrenToDom above source cs hcs)
    have hname : ∀ e : Elem,
        (copyAttributes above label.attributes e).label.name = e.label.name :=
      name_foldl_withAttribute label.attributes.entries
    refine ⟨?_, ?_, attributes_copyAttributes above label.attributes ?_⟩
    · rw [hname, ownDeclared, name_declared, copyNamespaces_eq, name_foldl_declared]
    · rw [hname, ownDeclared, name_declared, copyNamespaces_eq, name_foldl_declared]
    · rw [ownDeclared, attributes_declared, copyNamespaces_eq, attributes_foldl_declared]
  | .leaf ⟨.text, data⟩ :: cs, h => .leaf rfl rfl rfl (sameContent_childrenToDom above source cs
      fun l hl => h l (List.mem_cons_of_mem _ hl))
  | .leaf ⟨.cdata, data⟩ :: cs, h => .leaf rfl rfl rfl (sameContent_childrenToDom above source cs
      fun l hl => h l (List.mem_cons_of_mem _ hl))
  | .leaf ⟨.comment, data⟩ :: cs, h => absurd rfl (h ⟨.comment, data⟩ (List.mem_cons_self ..))
  | .leaf ⟨.instruction target, data⟩ :: cs, h => .left rfl (sameContent_childrenToDom above source cs
      fun l hl => h l (List.mem_cons_of_mem _ hl))

theorem means_domCopy (hS : S.Lawful) (above source : Scopes NCName String) (t : Elem)
    (hs : ∀ l ∈ s.leaves, l.kind ≠ .comment) :
    (domCopy S above source s t).label.name = t.label.name ∧
      Means Leaf.isText s (fun k u => binding source k = some u ∧ k ≠ xmlns ∧
        Unclaimed s.label.attributes t.label.name above k u) above
        (domCopy S above source s t) := by
  let ds := boundPrefixes (S.visiblePrefixes source) source
  have hdecls : (domCopy S above source s t).label.decls =
      (attributePrefixes s.label.attributes.entries ++ ds ++ [t.label.name.declaration]).foldl
        (ensure above) [] := by
    rw [List.foldl_append, List.foldl_append, domCopy, ownDeclared]
    rw [decls_declared above (_, _), copyNamespaces_eq, name_foldl_declared, copyAttributes]
    rw [name_foldl_withAttribute, decls_foldl_declared, decls_foldl_withAttribute]
    rfl
  refine ⟨?_, ?_, sameContent_childrenToDom _ source s.children hs, ?_⟩
  · rw [domCopy, ownDeclared, name_declared, copyNamespaces_eq, name_foldl_declared,
      copyAttributes, name_foldl_withAttribute]
    rfl
  · rw [domCopy, ownDeclared, attributes_declared, copyNamespaces_eq, attributes_foldl_declared]
    exact attributes_copyAttributes above s.label.attributes rfl
  · rintro k u ⟨hbound, hk, hfree⟩
    have hmem : (k, u) ∈ ds := by
      refine mem_boundPrefixes.2 ⟨(hS.visiblePrefixes source k).2 ⟨hk, ?_⟩, hbound⟩
      rw [hbound]
      exact Option.some_ne_none u
    rw [hdecls]
    refine hfree.binding (List.mem_append_left _ (List.mem_append_right _ hmem)) fun u' hu' => ?_
    rcases List.mem_append.1 hu' with hu' | hu'
    · rcases List.mem_append.1 hu' with hu' | hu'
      · exact .inr (.inr hu')
      · exact .inl (Option.some.inj ((mem_boundPrefixes.1 hu').2.symm.trans hbound))
    · exact .inr (.inl (List.mem_singleton.1 hu').symm)

/-- An appended copy has the prefixes that its source declares itself. -/
theorem means_childToDom (hS : S.Lawful) (above source : Scopes NCName String)
    (hs : ∀ l ∈ s.leaves, l.kind ≠ .comment) :
    ∃ e, childToDom S above source s.toTree = some e.toTree ∧ e.label.name = s.label.name ∧
      Means Leaf.isText s (fun k u => binding (s.label.decls :: source) k = some u ∧ k ≠ xmlns ∧
        (∃ u', (k, u') ∈ s.label.decls) ∧ Unclaimed s.label.attributes s.label.name above k u)
        above e := by
  let ds := boundPrefixes (S.prefixes s.label.decls) (s.label.decls :: source)
  let named := copyNamespaces above (S.prefixes s.label.decls) (s.label.decls :: source)
    ⟨⟨s.label.name, [], ∅⟩, []⟩
  let start := copyAttributes above s.label.attributes (ownDeclared above named)
  have hname : named.label.name = s.label.name := by
    change (copyNamespaces ..).label.name = _
    rw [copyNamespaces_eq, name_foldl_declared]
  have hdecls : start.label.decls =
      (ds ++ [s.label.name.declaration] ++ attributePrefixes s.label.attributes.entries).foldl
        (ensure above) [] := by
    change (copyAttributes ..).label.decls = _
    rw [List.foldl_append, List.foldl_append, copyAttributes, decls_foldl_withAttribute]
    rw [ownDeclared, decls_declared above (_, _), hname]
    change List.foldl _ (ensure above (copyNamespaces ..).label.decls _) _ = _
    rw [copyNamespaces_eq, decls_foldl_declared]
    rfl
  refine ⟨⟨start.label, childrenToDom S (start.label.decls :: above) (s.label.decls :: source)
    s.children⟩, rfl, ?_, ?_, sameContent_childrenToDom _ _ s.children hs, ?_⟩
  · change (copyAttributes ..).label.name = _
    rw [copyAttributes, name_foldl_withAttribute, ownDeclared, name_declared, hname]
  · refine attributes_copyAttributes above s.label.attributes ?_
    rw [ownDeclared, attributes_declared]
    change (copyNamespaces ..).label.attributes = _
    rw [copyNamespaces_eq, attributes_foldl_declared]
  · rintro k u ⟨hbound, hk, hown, hfree⟩
    have hmem : (k, u) ∈ ds :=
      mem_boundPrefixes.2 ⟨(hS.prefixes s.label.decls k).2 ⟨hk, hown⟩, hbound⟩
    change binding (start.label.decls :: above) k = some u
    rw [hdecls]
    refine hfree.binding (List.mem_append_left _ (List.mem_append_left _ hmem)) fun u' hu' => ?_
    rcases List.mem_append.1 hu' with hu' | hu'
    · rcases List.mem_append.1 hu' with hu' | hu'
      · exact .inl (Option.some.inj ((mem_boundPrefixes.1 hu').2.symm.trans hbound))
      · exact .inr (.inl (List.mem_singleton.1 hu').symm)
    · exact .inr (.inr hu')

/-! ## Meaning in a SOAP tree -/

theorem attributes_setAttributes (attributes : AList AttributeValue)
    (he : e.label.attributes = ∅) :
    SameAttributes attributes (setAttributes attributes e).label.attributes := by
  have hfold : ∀ (as : List (Σ name, AttributeValue name)) (e : Elem),
      (as.foldl (fun e a => setAttribute a.1 a.2 e) e).label.attributes =
        as.foldl (fun bs a => bs.insert a.1 a.2) e.label.attributes := by
    intro as
    induction as with
    | nil => exact fun e => rfl
    | cons a as ih => exact fun e => ih _
  rw [setAttributes, hfold, he]
  exact sameAttributes_foldl attributes

theorem label_setAttributes (attributes : AList AttributeValue) (e : Elem) :
    (setAttributes attributes e).label.name = e.label.name ∧
      (setAttributes attributes e).label.decls = e.label.decls := by
  unfold setAttributes
  induction attributes.entries generalizing e with
  | nil => exact ⟨rfl, rfl⟩
  | cons a as ih => exact ih _

/-- One declaration. -/
theorem copyNamespace_spec {decls : List (NCName × String)} {d : NCName × String}
    (h : copyNamespace above decls e d = some e') :
    e'.label.name = e.label.name ∧ e'.label.attributes = e.label.attributes ∧
      ∀ k, binding (e'.label.decls :: above) k =
        match reassigned decls d with
        | some d' => if k = d'.1 then some d'.2 else binding (e.label.decls :: above) k
        | none => binding (e.label.decls :: above) k := by
  unfold copyNamespace at h
  unfold reassigned
  split at h
  case isTrue hd =>
    cases h
    rw [if_pos hd]
    exact ⟨rfl, rfl, fun k => binding_rebind above e.label.decls d k⟩
  case isFalse hd =>
    rw [if_neg hd]
    split at h
    case isTrue hempty =>
      cases h
      rw [if_pos hempty]
      exact ⟨rfl, rfl, fun k => rfl⟩
    case isFalse hempty =>
      obtain ⟨g, hg, rfl⟩ := Option.map_eq_some_iff.1 h
      rw [if_neg hempty, hg]
      exact ⟨rfl, rfl, fun k => binding_declare e.label.decls above g d.2 k⟩

/-- What passes of declarations leave: names and attributes, and a prefix that is bound once. -/
structure Declares (above : Scopes NCName String) (writes : List (NCName × String))
    (e e' : Elem) : Prop where
  name : e'.label.name = e.label.name
  attributes : e'.label.attributes = e.label.attributes
  binds : ∀ k u, (∀ u', (k, u') ∈ writes → u' = u) →
    (k, u) ∈ writes ∨ binding (e.label.decls :: above) k = some u →
      binding (e'.label.decls :: above) k = some u

theorem Declares.trans {writes writes' : List (NCName × String)} {e'' : Elem}
    (h : Declares above writes e e') (h' : Declares above writes' e' e'') :
    Declares above (writes ++ writes') e e'' where
  name := h'.name.trans h.name
  attributes := h'.attributes.trans h.attributes
  binds k u honce hk := by
    refine h'.binds k u (fun u' hu' => honce u' (List.mem_append_right _ hu')) ?_
    have honce' : ∀ u', (k, u') ∈ writes → u' = u :=
      fun u' hu' => honce u' (List.mem_append_left _ hu')
    rcases hk with hk | hk
    · rcases List.mem_append.1 hk with hk | hk
      · exact .inr (h.binds k u honce' (.inl hk))
      · exact .inl hk
    · exact .inr (h.binds k u honce' (.inr hk))

theorem declares_copyNamespace {decls : List (NCName × String)} {d : NCName × String}
    (h : copyNamespace above decls e d = some e') :
    Declares above (reassigned decls d).toList e e' := by
  obtain ⟨hname, hattributes, hbinding⟩ := copyNamespace_spec h
  refine ⟨hname, hattributes, fun k u honce hk => ?_⟩
  rw [hbinding]
  cases hd : reassigned decls d with
  | none =>
    rw [hd] at hk
    exact hk.resolve_left List.not_mem_nil
  | some d' =>
    rw [hd] at honce hk
    dsimp only
    split
    case isTrue hkd =>
      subst hkd
      exact congrArg some (honce d'.2 (List.mem_singleton_self _))
    case isFalse hkd =>
      refine hk.resolve_left fun hmem => hkd ?_
      rw [← List.mem_singleton.1 hmem]

theorem declares_foldlM {A : Type} {f : Elem → A → Option Elem} {writes : A → List (NCName × String)}
    (hf : ∀ e e' a, f e a = some e' → Declares above (writes a) e e') (as : List A)
    (h : as.foldlM f e = some e') : Declares above (as.flatMap writes) e e' := by
  induction as generalizing e with
  | nil =>
    cases h
    exact ⟨rfl, rfl, fun k u _ hk => hk.resolve_left List.not_mem_nil⟩
  | cons a as ih =>
    rw [List.foldlM_cons] at h
    obtain ⟨e₁, he₁, h⟩ := Option.bind_eq_some_iff.1 h
    exact (hf e e₁ a he₁).trans (ih h)

theorem declares_copyDeclarations {decls : List (NCName × String)}
    (h : copyDeclarations above e decls = some e') :
    Declares above (decls.filterMap (reassigned decls)) e e' := by
  have hwrites := declares_foldlM (fun e e' d hd => declares_copyNamespace hd) decls h
  rwa [← List.filterMap_eq_flatMap_toList] at hwrites

theorem declares_copyVisible (h : source.foldlM (copyDeclarations above) e = some e') :
    Declares above (reassignments source) e e' :=
  declares_foldlM (fun _ _ _ hdecls => declares_copyDeclarations hdecls) source h

/-- A prefix that is carried is declared. -/
theorem Carried.mem {name : ElementName} (h : Carried source name k u) :
    (k, u) ∈ reassignments source := by
  rcases h.given with ⟨hk, hbound⟩ | ⟨hu, decls, hdecls, hmem, hgen⟩
  · obtain ⟨decls, hdecls, hmem⟩ := List.mem_flatten.1 (mem_of_binding hbound)
    refine List.mem_flatMap.2 ⟨decls, hdecls, List.mem_filterMap.2 ⟨(k, u), hmem, ?_⟩⟩
    exact if_pos hk
  · refine List.mem_flatMap.2 ⟨decls, hdecls, List.mem_filterMap.2 ⟨(xmlns, u), hmem, ?_⟩⟩
    rw [reassigned, if_neg (fun h => h rfl), if_neg hu, hgen]
    rfl

theorem name_ownRebound (above : Scopes NCName String) (e : Elem) :
    (ownRebound above e).label.name = e.label.name := by
  unfold ownRebound
  split <;> rfl

theorem attributes_ownRebound (above : Scopes NCName String) (e : Elem) :
    (ownRebound above e).label.attributes = e.label.attributes := by
  unfold ownRebound
  split <;> rfl

theorem binding_ownRebound (hown : ∀ u', e.label.name.declaration = (k, u') → u' = u)
    (h : binding (e.label.decls :: above) k = some u) :
    binding ((ownRebound above e).label.decls :: above) k = some u := by
  unfold ownRebound
  split
  case isTrue => exact h
  case isFalse =>
    refine (binding_rebind ..).trans ?_
    split
    case isTrue hk =>
      refine congrArg some (hown _ ?_)
      rw [hk]
    case isFalse => exact h

/-- The children, without text that is white space. -/
theorem sameContent_childrenToSoap (envelope : Bool) :
    ∀ (above : Scopes NCName String) (cs cs' : List Node),
      childrenToSoap S envelope above cs = some cs' → SameContent (isContent S) cs cs'
  | above, [], cs', h => by
    cases h
    exact .nil
  | above, .branch label children :: cs, cs', h => by
    obtain ⟨child, hchild, h⟩ := Option.bind_eq_some_iff.1 h
    obtain ⟨rest, hrest, rfl⟩ := Option.map_eq_some_iff.1 h
    rw [childToSoap] at hchild
    split at hchild
    case isFalse => cases hchild
    case isTrue =>
      obtain ⟨name, hname, hchild⟩ := Option.bind_eq_some_iff.1 hchild
      obtain ⟨e, he, hchild⟩ := Option.bind_eq_some_iff.1 hchild
      obtain ⟨children', hchildren', rfl⟩ := Option.map_eq_some_iff.1 hchild
      obtain ⟨hename, heattributes, -⟩ := declares_copyDeclarations he
      have hlabel : (setAttributes label.attributes (ownRebound above e)).label.name = name := by
        rw [(label_setAttributes _ _).1, name_ownRebound, hename]
      have hsame : name.namespaceURI = label.name.namespaceURI ∧
          name.localName = label.name.localName := by
        unfold childName at hname
        split at hname
        case isTrue =>
          obtain ⟨k, -, rfl⟩ := Option.map_eq_some_iff.1 hname
          exact ⟨rfl, rfl⟩
        case isFalse =>
          cases hname
          exact ⟨rfl, rfl⟩
      refine .branch ⟨?_, ?_, ?_⟩ (sameContent_childrenToSoap envelope _ children children' hchildren')
        (sameContent_childrenToSoap envelope above cs rest hrest)
      · rw [hlabel, hsame.1]
      · rw [hlabel, hsame.2]
      · exact attributes_setAttributes label.attributes
          ((attributes_ownRebound above e).trans heattributes)
  | above, .leaf ⟨kind, data⟩ :: cs, cs', h => by
    obtain ⟨child, hchild, h⟩ := Option.bind_eq_some_iff.1 h
    obtain ⟨rest, hrest, rfl⟩ := Option.map_eq_some_iff.1 h
    have hcs := sameContent_childrenToSoap envelope above cs rest hrest
    cases kind with
    | text | cdata =>
      obtain rfl := Option.some.inj hchild
      cases hspace : S.isWhitespace data with
      | true => exact .left (by rw [isContent, hspace, Bool.not_true, Bool.and_false]) hcs
      | false =>
        refine .leaf ?_ ?_ rfl hcs
        · rw [isContent, hspace]
          rfl
        · rw [isContent, hspace]
          rfl
    | comment | instruction =>
      obtain rfl := Option.some.inj hchild
      exact .left rfl hcs

theorem means_soapCopy {envelope : Bool} (h : soapCopy S envelope above source s t = some e) :
    e.label.name = t.label.name ∧
      Means (isContent S) s (Carried source t.label.name) above e := by
  obtain ⟨e₁, he₁, h⟩ := Option.bind_eq_some_iff.1 h
  obtain ⟨children, hchildren, rfl⟩ := Option.map_eq_some_iff.1 h
  obtain ⟨hname, hattributes, hbinds⟩ := declares_copyVisible he₁
  have hname₁ : e₁.label.name = t.label.name := by
    rw [hname, (label_setAttributes _ _).1]
  refine ⟨(name_ownRebound above e₁).trans hname₁, ?_,
    sameContent_childrenToSoap envelope _ _ _ hchildren, fun k u hk => ?_⟩
  · change SameAttributes _ (ownRebound above e₁).label.attributes
    rw [attributes_ownRebound, hattributes]
    exact attributes_setAttributes s.label.attributes rfl
  · exact binding_ownRebound (hname₁ ▸ hk.own) (hbinds k u hk.once (.inl hk.mem))

/-- An appended copy has the expanded name of its source, and the prefixes that its source
    declares itself. -/
theorem means_childToSoap {envelope : Bool} {child : Option Node}
    (h : childToSoap S envelope above s.toTree = some child) :
    ∃ e : Elem, child = some e.toTree ∧
      e.label.name.namespaceURI = s.label.name.namespaceURI ∧
      e.label.name.localName = s.label.name.localName ∧
      Means (isContent S) s (Carried [s.label.decls] e.label.name) above e := by
  obtain ⟨label, children⟩ := s
  have hcontent := sameContent_childrenToSoap (S := S) envelope above [.branch label children]
    child.toList (by rw [childrenToSoap, childrenToSoap]; exact h ▸ by simp)
  change childToSoap S envelope above (.branch label children) = some child at h
  rw [childToSoap] at h
  split at h
  case isFalse => cases h
  case isTrue =>
    obtain ⟨name, hname, h⟩ := Option.bind_eq_some_iff.1 h
    obtain ⟨e, he, h⟩ := Option.bind_eq_some_iff.1 h
    obtain ⟨children', hchildren', rfl⟩ := Option.map_eq_some_iff.1 h
    obtain ⟨hename, heattributes, hbinds⟩ := declares_copyDeclarations he
    cases hcontent with
    | branch htag hchildren hrest =>
    refine ⟨⟨_, children'⟩, rfl, htag.namespaceURI, htag.localName, htag.attributes, hchildren,
      fun k u hk => ?_⟩
    have hlabel := label_setAttributes label.attributes (ownRebound above e)
    change binding ((setAttributes label.attributes (ownRebound above e)).label.decls :: above) k =
      some u
    have hown := hk.own
    change ∀ u', (setAttributes label.attributes (ownRebound above e)).label.name.declaration =
      (k, u') → u' = u at hown
    rw [hlabel.1, name_ownRebound] at hown
    rw [hlabel.2]
    have hflat : reassignments [label.decls] = label.decls.filterMap (reassigned label.decls) :=
      List.append_nil _
    have honce := hk.once
    have hmem := hk.mem
    rw [hflat] at honce hmem
    exact binding_ownRebound hown (hbinds k u honce (.inl hmem))

/-! ## All copies -/

/-- What copies mean: within documents, from a SOAP tree and to a SOAP tree, of an element to
    another one or as a new child. -/
theorem means_copies (hS : S.Lawful) {p q : List ℕ} {root d : Elem} (ht : root.at? p = some t)
    (hs : d.at? q = some s) :
    (∃ e, Xml.copy p ⟨some d, q⟩ root = modify (fun _ => e) p root ∧
      e.label.name = t.label.name ∧
      Means Leaf.isText s (fun k u => binding (scopes q d) k = some u ∧
        (∀ u', (k, u') ∈ (scopes q d).flatten → u' = u) ∧
        Unclaimed s.label.attributes t.label.name (scopes p root).tail k u)
        (scopes p root).tail e) ∧
    ((∀ l ∈ s.leaves, l.kind ≠ .comment) →
      (∃ e, copyToDom S p q d root = modify (fun _ => e) p root ∧
        e.label.name = t.label.name ∧
        Means Leaf.isText s (fun k u => binding (scopes q d) k = some u ∧ k ≠ xmlns ∧
          Unclaimed s.label.attributes t.label.name (scopes p root).tail k u)
          (scopes p root).tail e) ∧
      ∃ e : Elem, copyChildToDom S p q d root = modify (appendChild e.toTree) p root ∧
        e.label.name = s.label.name ∧
        Means Leaf.isText s (fun k u => binding (scopes q d) k = some u ∧ k ≠ xmlns ∧
          (∃ u', (k, u') ∈ s.label.decls) ∧
          Unclaimed s.label.attributes s.label.name (scopes p root) k u) (scopes p root) e) ∧
    (∀ r, copyToSoap S p q d root = some r → ∃ e, r = modify (fun _ => e) p root ∧
      e.label.name = t.label.name ∧
      Means (isContent S) s (Carried (scopes q d) t.label.name) (scopes p root).tail e) ∧
    (∀ r, copyChildToSoap S p q d root = some r →
      ∃ e : Elem, r = modify (appendChild e.toTree) p root ∧
        e.label.name.namespaceURI = s.label.name.namespaceURI ∧
        e.label.name.localName = s.label.name.localName ∧
        Means (isContent S) s (Carried [s.label.decls] e.label.name) (scopes p root) e) := by
  have hscopes := scopes_eq_cons hs
  refine ⟨means_copy ht hs, fun hcomments => ⟨?_, ?_⟩, fun r hr => ?_, fun r hr => ?_⟩
  · have hmeans := means_domCopy hS (scopes p root).tail (scopes q d) t hcomments
    refine ⟨_, ?_, hmeans⟩
    rw [copyToDom, hs]
    exact modify_congr ht rfl
  · obtain ⟨e, hchild, hname, hmeans⟩ :=
      means_childToDom hS (scopes p root) (scopes q d).tail hcomments
    rw [← hscopes] at hmeans
    refine ⟨e, ?_, hname, hmeans⟩
    rw [copyChildToDom, hs, Option.elim_some, hchild]
    rfl
  · rw [copyToSoap, hs, Option.bind_some, ht, Option.bind_some] at hr
    obtain ⟨e, he, rfl⟩ := Option.map_eq_some_iff.1 hr
    exact ⟨e, rfl, means_soapCopy he⟩
  · rw [copyChildToSoap, hs, Option.bind_some] at hr
    obtain ⟨child, hchild, rfl⟩ := Option.map_eq_some_iff.1 hr
    obtain ⟨e, rfl, hmeans⟩ := means_childToSoap hchild
    exact ⟨e, rfl, hmeans⟩

/-- A library where no method keeps or adds a declaration. -/
def plainSaaj : Saaj where
  visiblePrefixes s := (s.flatten.map Prod.fst).filter (· ≠ xmlns)
  prefixes own := (own.map Prod.fst).filter (· ≠ xmlns)
  cleared _ := []
  added _ _ := []
  isEnvelope tag := tag.name.localName.1 = "Envelope"
  isWhitespace text := text.toList.all Char.isWhitespace

theorem plainSaaj_lawful : plainSaaj.Lawful where
  visiblePrefixes s k := by
    have hbinding : binding s k ≠ none ↔ k ∈ s.flatten.map Prod.fst := by
      rw [← Option.isSome_iff_ne_none, binding, Option.isSome_map, List.find?_isSome, List.mem_map]
      simp only [decide_eq_true_eq]
    rw [hbinding]
    change k ∈ List.filter _ _ ↔ _
    rw [List.mem_filter, decide_eq_true_iff, and_comm]
  prefixes own k := by
    change k ∈ List.filter _ _ ↔ _
    rw [List.mem_filter, decide_eq_true_iff, and_comm]
    simp

theorem isNCName_p : "p" ≠ "" ∧ ':' ∉ "p".toList := by decide

def p : NCName := ⟨"p", isNCName_p⟩

/-- A prefix around a text. -/
def prefixed : Elem :=
  ⟨⟨⟨"", none, ⟨"s", by decide⟩, ElementName.ne_of_no_prefix⟩, [(p, "urn:a")], ∅⟩, [.leaf ⟨.text, "p:x"⟩]⟩

/-- An element that has the same prefix for another namespace. -/
def otherPrefixed : Elem :=
  ⟨⟨⟨"urn:b", some p, ⟨"t", by decide⟩, fun _ => by decide⟩, [(p, "urn:b")], ∅⟩, []⟩

/-- The name of the target comes before a prefix of the source. -/
theorem own_prefix_kept :
    binding (scopes [] prefixed) p = some "urn:a" ∧
    binding (scopes [] (Xml.copy [] ⟨some prefixed, []⟩ otherPrefixed)) p = some "urn:b" := by
  decide

theorem text_copied : ∃ e,
    Xml.copy [] ⟨some prefixed, []⟩ otherPrefixed = modify (fun _ => e) [] otherPrefixed ∧
    SameContent Leaf.isText prefixed.children e.children := by
  obtain ⟨⟨e, he, -, hmeans⟩, -⟩ :=
    means_copies plainSaaj_lawful (at?_nil otherPrefixed) (at?_nil prefixed)
  exact ⟨e, he, hmeans.content⟩

end Integration.Soap

end Jbpm
