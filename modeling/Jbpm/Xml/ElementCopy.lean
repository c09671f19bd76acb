/-
  Copies of an element into another one.  The source may be anywhere: in another document, or in
  the document of the target, around the target or inside it.

  * `copy`: the attributes, namespaces and child nodes of the target are removed and those of the
    source are read, in this order;
  * `copy_eq`: the copy of an element of another document changes only the target;
  * `lookup_copy`, `children_copy`: the attributes and children that the target then has.
-/
import Jbpm.Xml.Dom

namespace Jbpm

open Lib Branch Declarations

namespace Xml

/-- An element that is read while a document changes: in a document of its own, or in the one
    that changes. -/
structure Source where
  document : Option Elem
  address : List ℕ

namespace Source

variable (source : Source)

def element? (root : Elem) : Option Elem := (source.document.getD root).at? source.address

def tag? (root : Elem) : Option Tag := (source.element? root).map Branch.label

def attributes (root : Elem) : AList AttributeValue :=
  (source.tag? root).elim ∅ Tag.attributes

def children (root : Elem) : List Node := (source.element? root).elim [] Branch.children

def scopes (root : Elem) : Scopes NCName String :=
  Xml.scopes source.address (source.document.getD root)

/-- A source inside an element is out of the document once the element has no children. -/
def detach (target : List ℕ) (root : Elem) : Source :=
  if source.document = none ∧ target <+: source.address ∧ target ≠ source.address then
    { source with document := some root }
  else source

end Source

/-- `ensureNamespaceDeclared`: a declaration on the element, unless the prefix is found for the
    namespace. -/
def ensureNamespaceDeclared (target : List ℕ) (u : String) (k : NCName) (root : Elem) : Elem :=
  if getPrefix u (scopes target root) = some (prefixText k) then root
  else modify (addNamespaceDeclaration u k) target root

/-- `ensureOwnNamespaceDeclared` -/
def ensureOwnNamespaceDeclared (target : List ℕ) (root : Elem) : Elem :=
  match root.at? target with
  | none => root
  | some e =>
    ensureNamespaceDeclared target e.label.name.namespaceURI (e.label.name.prefix_.getD xmlns) root

/-- One pass of `copyAttributes` -/
def copyAttribute (target : List ℕ) (root : Elem) : (Σ name, AttributeValue name) → Elem
  | ⟨.unqualified n, value⟩ => modify (setAttribute (.unqualified n) value) target root
  | ⟨.qualified u n, value⟩ =>
    ensureNamespaceDeclared target u value.1
      (modify (setAttribute (.qualified u n) value) target root)

def copyAttributes (target : List ℕ) (attributes : AList AttributeValue) (root : Elem) : Elem :=
  attributes.entries.foldl (copyAttribute target) root

/-- `copyNamespaces` -/
def copyNamespaces (target : List ℕ) (decls : List (NCName × String)) (root : Elem) : Elem :=
  decls.foldl (fun root d => ensureNamespaceDeclared target d.2 d.1 root) root

/-- `copyVisibleNamespaces`, from the source outwards. -/
def copyVisibleNamespaces (target : List ℕ) (source : Source) (root : Elem) : Elem :=
  (List.range (source.scopes root).length).foldl
    (fun root i => copyNamespaces target ((source.scopes root)[i]?.getD []) root) root

/-- One pass of `copyChildNodes`; an imported element is declared where it has come to. -/
def copyChildNode (target : List ℕ) (root : Elem) : Node → Elem
  | .branch label children =>
    let index := ((root.at? target).elim [] Branch.children).length
    ensureOwnNamespaceDeclared (target ++ [index])
      (modify (appendChild (.branch label children)) target root)
  | .leaf ⟨.text, data⟩ | .leaf ⟨.cdata, data⟩ =>
    modify (appendChild (.leaf ⟨.text, data⟩)) target root
  | .leaf ⟨.comment, _⟩ | .leaf ⟨.instruction _, _⟩ => root

/-- `copyChildNodes`, with the children as they are when they are reached. -/
def copyChildNodes (target : List ℕ) (source : Source) (root : Elem) : Elem :=
  (List.range (source.children root).length).foldl
    (fun root i => ((source.children root)[i]?).elim root (copyChildNode target root)) root

/-- `XmlUtil.copy` -/
def copy (target : List ℕ) (source : Source) (root : Elem) : Elem :=
  let root := modify removeAttributes target root
  let root := copyAttributes target (source.attributes root) root
  let root := copyVisibleNamespaces target source root
  let root := ensureOwnNamespaceDeclared target root
  let source := source.detach target root
  let root := modify removeChildNodes target root
  copyChildNodes target source root

variable {target p q : List ℕ} {source : Source} {root t : Elem} {u : String} {k : NCName}

/-! ## What a copy leaves -/

/-- An element keeps its name. -/
def KeepsName (f : Elem → Elem) : Prop := ∀ e, (f e).label.name = e.label.name

theorem keepsName_addNamespaceDeclaration (u : String) (k : NCName) :
    KeepsName (addNamespaceDeclaration u k) := fun _ => rfl

theorem keepsName_setAttribute (n : AttributeName) (value : AttributeValue n) :
    KeepsName (setAttribute n value) := fun _ => rfl

theorem keepsName_removeAttributes : KeepsName removeAttributes := fun _ => rfl

theorem keepsName_removeChildNodes : KeepsName removeChildNodes := fun _ => rfl

theorem keepsName_appendChild (child : Node) : KeepsName (appendChild child) := fun _ => rfl

section Keeps
variable {X : Type*} {m : Elem → X}

theorem foldl_keeps {A : Type*} {f : Elem → A → Elem} (hf : ∀ root a, m (f root a) = m root)
    (as : List A) (root : Elem) : m (as.foldl f root) = m root := by
  induction as generalizing root with
  | nil => rfl
  | cons a as ih => exact (ih _).trans (hf root a)

section
variable (hm : ∀ u k root, m (modify (addNamespaceDeclaration u k) target root) = m root)
include hm

theorem ensureNamespaceDeclared_keeps (u : String) (k : NCName) (root : Elem) :
    m (ensureNamespaceDeclared target u k root) = m root := by
  unfold ensureNamespaceDeclared
  split
  · rfl
  · exact hm u k root

theorem ensureOwnNamespaceDeclared_keeps (root : Elem) :
    m (ensureOwnNamespaceDeclared target root) = m root := by
  unfold ensureOwnNamespaceDeclared
  split
  · rfl
  · exact ensureNamespaceDeclared_keeps hm _ _ root

theorem copyVisibleNamespaces_keeps (source : Source) (root : Elem) :
    m (copyVisibleNamespaces target source root) = m root := by
  unfold copyVisibleNamespaces copyNamespaces
  refine foldl_keeps (fun root i => ?_) _ root
  exact foldl_keeps
    (fun r (d : NCName × String) => ensureNamespaceDeclared_keeps hm d.2 d.1 r) _ root

end

theorem copyAttribute_keeps
    (hns : ∀ u k root, m (modify (addNamespaceDeclaration u k) target root) = m root)
    (hset : ∀ n value root, m (modify (setAttribute n value) target root) = m root)
    (root : Elem) (a : Σ name, AttributeValue name) :
    m (copyAttribute target root a) = m root := by
  obtain ⟨n, value⟩ := a
  cases n with
  | unqualified n => exact hset _ value root
  | qualified u n => exact (ensureNamespaceDeclared_keeps hns ..).trans (hset _ value root)

section
variable (hm : ∀ f q root, KeepsName f → m (modify f (target ++ q) root) = m root)
include hm

theorem modify_keeps {f : Elem → Elem} (hf : KeepsName f) (root : Elem) :
    m (modify f target root) = m root := by
  simpa using hm f [] root hf

theorem copyChildNode_keeps (root : Elem) (child : Node) :
    m (copyChildNode target root child) = m root := by
  cases child with
  | branch label children =>
    refine (ensureOwnNamespaceDeclared_keeps (fun u k r => ?_) _).trans
      (modify_keeps hm (keepsName_appendChild _) root)
    exact hm _ _ r (keepsName_addNamespaceDeclaration u k)
  | leaf l =>
    obtain ⟨kind, data⟩ := l
    cases kind with
    | text | cdata => exact modify_keeps hm (keepsName_appendChild _) root
    | comment | instruction => rfl

/-- What no change of the target, or below it, changes is left by a copy. -/
theorem copy_keeps (source : Source) (root : Elem) : m (copy target source root) = m root := by
  refine (foldl_keeps (fun r i => ?_) ..).trans ?_
  · cases (Source.children _ r)[i]? with
    | none => rfl
    | some child => exact copyChildNode_keeps hm r child
  · have hns := fun u k => modify_keeps hm (keepsName_addNamespaceDeclaration u k)
    have hset := fun n value => modify_keeps hm (keepsName_setAttribute n value)
    refine (modify_keeps hm keepsName_removeChildNodes _).trans ?_
    refine (ensureOwnNamespaceDeclared_keeps hns _).trans ?_
    refine (copyVisibleNamespaces_keeps hns _ _).trans ?_
    exact (foldl_keeps (copyAttribute_keeps hns hset) ..).trans
      (modify_keeps hm keepsName_removeAttributes _)

end

end Keeps

/-- A copy replaces the target by an element with the same name. -/
theorem copy_replaces (ht : root.at? target = some t) (source : Source) :
    ∃ e, (copy target source root).at? target = some e ∧ e.label.name = t.label.name ∧
      copy target source root = modify (fun _ => e) target root := by
  have hname : ((copy target source root).at? target).map (fun e => e.label.name) =
      some t.label.name := by
    refine (copy_keeps (m := fun r : Elem => (r.at? target).map fun e => e.label.name)
      (fun f q r hf => ?_) source root).trans (by rw [ht, Option.map_some])
    cases q with
    | nil =>
      rw [List.append_nil, at?_modify_self, Option.map_map]
      exact congrArg (fun g => (r.at? target).map g) (funext hf)
    | cons i q =>
      rw [at?_modify_around, Option.map_map]
      rfl
  obtain ⟨e, he, hen⟩ := Option.map_eq_some_iff.1 hname
  refine ⟨e, he, hen, eq_modify_of_modify_eq t ?_ he⟩
  refine copy_keeps (m := fun r : Elem => modify (fun _ => t) target r) (fun f q r _ => ?_)
    source root
  rw [modify_append, modify_modify]
  rfl

/-! ## Attributes -/

/-- The attributes of the element at an address. -/
def attributesAt (p : List ℕ) (root : Elem) : Option (AList AttributeValue) :=
  (root.at? p).map fun e => e.label.attributes

theorem attributesAt_addNamespaceDeclaration (u : String) (k : NCName) (root : Elem) :
    attributesAt p (modify (addNamespaceDeclaration u k) p root) = attributesAt p root := by
  rw [attributesAt, at?_modify_self, Option.map_map]
  rfl

theorem attributesAt_modify_below (f : Elem → Elem) (i : ℕ) (q : List ℕ) (root : Elem) :
    attributesAt p (modify f (p ++ i :: q) root) = attributesAt p root := by
  rw [attributesAt, at?_modify_around, Option.map_map]
  rfl

theorem attributesAt_copyAttribute (root : Elem) (a : Σ name, AttributeValue name) :
    attributesAt p (copyAttribute p root a) =
      (attributesAt p root).map fun as => as.insert a.1 a.2 := by
  have hset : ∀ (n : AttributeName) (value : AttributeValue n),
      attributesAt p (modify (setAttribute n value) p root) =
        (attributesAt p root).map fun as => as.insert n value := by
    intro n value
    rw [attributesAt, attributesAt, at?_modify_self, Option.map_map, Option.map_map]
    rfl
  obtain ⟨n, value⟩ := a
  cases n with
  | unqualified n => exact hset _ _
  | qualified u n =>
    exact (ensureNamespaceDeclared_keeps attributesAt_addNamespaceDeclaration ..).trans (hset _ _)

theorem attributesAt_copyChildNode (root : Elem) (child : Node) :
    attributesAt p (copyChildNode p root child) = attributesAt p root := by
  have happend : ∀ child, attributesAt p (modify (appendChild child) p root) =
      attributesAt p root := by
    intro child
    rw [attributesAt, at?_modify_self, Option.map_map]
    rfl
  cases child with
  | branch label children =>
    exact (ensureOwnNamespaceDeclared_keeps (fun _ _ => attributesAt_modify_below _ _ _) _).trans
      (happend _)
  | leaf l =>
    obtain ⟨kind, data⟩ := l
    cases kind <;> first | exact happend _ | rfl

/-- The insertion of the attributes of one map into another. -/
theorem lookup_foldl_insert (as : AList AttributeValue) (n : AttributeName) :
    (as.entries.foldl (fun bs a => bs.insert a.1 a.2) (∅ : AList AttributeValue)).lookup n =
      as.lookup n := by
  have h : ∀ (l : List (Σ name, AttributeValue name)) (bs : AList AttributeValue),
      l.NodupKeys → (∀ a ∈ l, a.1 ∉ bs) →
      (l.foldl (fun bs a => bs.insert a.1 a.2) bs).lookup n = (l.dlookup n).or (bs.lookup n) := by
    intro l
    induction l with
    | nil => exact fun bs _ _ => rfl
    | cons a l ih =>
      intro bs hl hbs
      obtain ⟨hal, hl⟩ := List.nodupKeys_cons.1 hl
      rw [List.foldl_cons, ih _ hl]
      · by_cases hn : a.1 = n
        · subst hn
          rw [List.dlookup_cons_eq, AList.lookup_insert,
            List.dlookup_eq_none.2 hal]
          rfl
        · rw [List.dlookup_cons_ne _ _ (Ne.symm hn), AList.lookup_insert_ne (Ne.symm hn)]
      · intro b hb hmem
        rcases (AList.mem_insert _).1 hmem with heq | hmem
        · exact hal (heq ▸ List.mem_keys_of_mem hb)
        · exact hbs b (List.mem_cons_of_mem _ hb) hmem
  rw [h as.entries ∅ as.nodupKeys (fun a _ => AList.notMem_empty a.1)]
  rw [AList.lookup_empty, Option.or_none]
  rfl

/-- The target has the attributes of the source, as they are once its own have been removed. -/
theorem lookup_copy (ht : root.at? target = some t) (source : Source) :
    ∃ e, (copy target source root).at? target = some e ∧ ∀ n, e.label.attributes.lookup n =
      (source.attributes (modify removeAttributes target root)).lookup n := by
  have hattributes : attributesAt target (copy target source root) =
      some ((source.attributes (modify removeAttributes target root)).entries.foldl
        (fun bs a => bs.insert a.1 a.2) ∅) := by
    have hremove : attributesAt target (modify removeAttributes target root) = some ∅ := by
      rw [attributesAt, at?_modify_self, ht]
      rfl
    have hfold : ∀ (l : List (Σ name, AttributeValue name)) (r : Elem) bs,
        attributesAt target r = some bs →
        attributesAt target (l.foldl (copyAttribute target) r) =
          some (l.foldl (fun bs a => bs.insert a.1 a.2) bs) := by
      intro l
      induction l with
      | nil => exact fun r bs h => h
      | cons a l ih =>
        intro r bs h
        refine ih _ _ ?_
        rw [attributesAt_copyAttribute, h]
        rfl
    refine (foldl_keeps (fun r i => ?_) ..).trans ?_
    · cases (Source.children _ r)[i]? with
      | none => rfl
      | some child => exact attributesAt_copyChildNode r child
    · have hchildren : ∀ r, attributesAt target (modify removeChildNodes target r) =
          attributesAt target r := by
        intro r
        rw [attributesAt, at?_modify_self, Option.map_map]
        rfl
      refine (hchildren _).trans ?_
      refine (ensureOwnNamespaceDeclared_keeps attributesAt_addNamespaceDeclaration _).trans ?_
      refine (copyVisibleNamespaces_keeps attributesAt_addNamespaceDeclaration _ _).trans ?_
      exact hfold _ _ _ hremove
  obtain ⟨e, he, hlabel⟩ := Option.map_eq_some_iff.1 hattributes
  refine ⟨e, he, fun n => ?_⟩
  rw [hlabel, lookup_foldl_insert]

/-! ## A source in another document -/

/-- `ensureNamespaceDeclared` of an element, with the declarations around it. -/
def declared (above : Scopes NCName String) (u : String) (k : NCName) (e : Elem) : Elem :=
  if getPrefix u (e.label.decls :: above) = some (prefixText k) then e
  else addNamespaceDeclaration u k e

/-- `ensureOwnNamespaceDeclared` likewise. -/
def ownDeclared (above : Scopes NCName String) (e : Elem) : Elem :=
  declared above e.label.name.namespaceURI (e.label.name.prefix_.getD xmlns) e

def withAttribute (above : Scopes NCName String) (a : Σ name, AttributeValue name) (e : Elem) :
    Elem :=
  match a with
  | ⟨.unqualified n, value⟩ => setAttribute (.unqualified n) value e
  | ⟨.qualified u n, value⟩ => declared above u value.1 (setAttribute (.qualified u n) value e)

/-- A child as it is copied, below the declarations of the target. -/
def copied (above : Scopes NCName String) : Node → Option Node
  | .branch label children => some (ownDeclared above ⟨label, children⟩).toTree
  | .leaf ⟨.text, data⟩ | .leaf ⟨.cdata, data⟩ => some (.leaf ⟨.text, data⟩)
  | .leaf ⟨.comment, _⟩ | .leaf ⟨.instruction _, _⟩ => none

/-- The start of a copy: the attributes, with what a source declares and the target itself. -/
def copyTag (above visible : Scopes NCName String) (attributes : AList AttributeValue)
    (e : Elem) : Elem :=
  ownDeclared above <| visible.flatten.foldl (fun e d => declared above d.2 d.1 e) <|
    attributes.entries.foldl (fun e a => withAttribute above a e) (removeAttributes e)

/-- The children of a copy. -/
def copyContent (above : Scopes NCName String) (children : List Node) (e : Elem) : Elem :=
  { e with children := e.children ++ children.filterMap (copied (e.label.decls :: above)) }

variable {above : Scopes NCName String} {d s : Elem}

theorem scopes_eq_cons (ht : root.at? p = some t) :
    scopes p root = t.label.decls :: (scopes p root).tail := by
  unfold scopes
  rw [labels_eq_cons ht]
  rfl

theorem scopes_modify (ht : root.at? p = some t) (f : Elem → Elem) :
    scopes p (modify f p root) = (f t).label.decls :: (scopes p root).tail := by
  unfold scopes
  rw [labels_modify_self f ht, List.map_cons, List.map_tail]

theorem ensureNamespaceDeclared_eq (ht : root.at? p = some t)
    (habove : (scopes p root).tail = above) (u : String) (k : NCName) :
    ensureNamespaceDeclared p u k root = modify (declared above u k) p root := by
  unfold ensureNamespaceDeclared
  rw [scopes_eq_cons ht, habove]
  split
  case isTrue h =>
    refine (modify_id p root).symm.trans (modify_congr ht ?_)
    rw [declared, if_pos h]
  case isFalse h =>
    refine modify_congr ht ?_
    rw [declared, if_neg h]

theorem ensureOwnNamespaceDeclared_eq (ht : root.at? p = some t)
    (habove : (scopes p root).tail = above) :
    ensureOwnNamespaceDeclared p root = modify (ownDeclared above) p root := by
  rw [ensureOwnNamespaceDeclared, ht]
  dsimp only
  rw [ensureNamespaceDeclared_eq ht habove]
  exact modify_congr ht rfl

theorem copyAttribute_eq (ht : root.at? p = some t) (habove : (scopes p root).tail = above)
    (a : Σ name, AttributeValue name) :
    copyAttribute p root a = modify (withAttribute above a) p root := by
  obtain ⟨n, value⟩ := a
  cases n with
  | unqualified n => exact modify_congr ht rfl
  | qualified u n =>
    have ht' := (at?_modify_self (setAttribute (.qualified u n) value) p root).trans
      (congrArg _ ht)
    have habove' := (congrArg List.tail
      (scopes_modify ht (setAttribute (.qualified u n) value))).trans habove
    rw [copyAttribute, ensureNamespaceDeclared_eq ht' habove', modify_modify]
    exact modify_congr ht rfl

/-- Passes that each change the target. -/
theorem foldl_eq {A : Type*} {pass : Elem → A → Elem} {f : A → Elem → Elem}
    (hpass : ∀ root t a, root.at? p = some t → (scopes p root).tail = above →
      pass root a = modify (f a) p root)
    (as : List A) (ht : root.at? p = some t) (habove : (scopes p root).tail = above) :
    as.foldl pass root = modify (fun t => as.foldl (fun t a => f a t) t) p root := by
  induction as generalizing root t with
  | nil => exact (modify_id p root).symm
  | cons a as ih =>
    rw [List.foldl_cons, hpass root t a ht habove, ih ((at?_modify_self ..).trans (congrArg _ ht))
      ((congrArg List.tail (scopes_modify ht _)).trans habove), modify_modify]
    rfl

theorem copyChildNode_eq (ht : root.at? p = some t) (habove : (scopes p root).tail = above)
    (child : Node) : copyChildNode p root child =
      modify (fun t => copyContent above [child] t) p root := by
  cases child with
  | leaf l =>
    obtain ⟨kind, data⟩ := l
    cases kind with
    | text | cdata => exact modify_congr ht rfl
    | comment | instruction =>
      refine (modify_id p root).symm.trans (modify_congr ht ?_)
      change t = { t with children := t.children ++ [] }
      rw [List.append_nil]
  | branch label children =>
    rw [copyChildNode, ht, Option.elim_some]
    have ht' : (modify (appendChild (.branch label children)) p root).at? p =
        some (appendChild (.branch label children) t) := by
      rw [at?_modify_self, ht]
      rfl
    have hchild : (appendChild (.branch label children) t).child? t.children.length =
        some ⟨label, children⟩ := by
      have hlast : (appendChild (.branch label children) t).children[t.children.length]? =
          some (.branch label children) := List.getElem?_concat_length
      rw [child?, hlast]
      rfl
    have hat : (modify (appendChild (.branch label children)) p root).at?
        (p ++ [t.children.length]) = some ⟨label, children⟩ := by
      rw [at?_append, ht', Option.bind_some, at?, hchild]
      rfl
    have hscopes : (scopes (p ++ [t.children.length])
        (modify (appendChild (.branch label children)) p root)).tail =
          t.label.decls :: above := by
      unfold scopes
      rw [labels_append_singleton ht' hchild, List.map_cons, List.tail_cons]
      exact (scopes_modify ht _).trans (by rw [habove]; rfl)
    rw [ensureOwnNamespaceDeclared_eq hat hscopes, modify_append, modify_modify]
    exact modify_congr ht (modify_last _ t.label t.children ⟨label, children⟩)

theorem foldl_range {A R : Type*} (l : List A) (f : R → Option A → R) (r : R) :
    (List.range l.length).foldl (fun r i => f r l[i]?) r =
      l.foldl (fun r a => f r (some a)) r := by
  have hmap : (List.range l.length).map (fun i => l[i]?) = l.map some := by
    refine List.ext_getElem (by simp) fun i _ hi => ?_
    simp
  rw [← List.foldl_map (f := fun i => l[i]?) (g := f), hmap, List.foldl_map]

theorem copyContent_append (above : Scopes NCName String) (cs ds : List Node) (t : Elem) :
    copyContent above ds (copyContent above cs t) = copyContent above (cs ++ ds) t := by
  unfold copyContent
  rw [List.filterMap_append, List.append_assoc]

theorem copyChildNodes_eq (ht : root.at? p = some t) (habove : (scopes p root).tail = above)
    (hs : d.at? q = some s) :
    copyChildNodes p ⟨some d, q⟩ root = modify (copyContent above s.children) p root := by
  have hchildren : ∀ r, Source.children ⟨some d, q⟩ r = s.children := by
    intro r
    rw [Source.children, Source.element?, Option.getD_some, hs]
    rfl
  have hcontent : ∀ (cs : List Node) (t : Elem),
      cs.foldl (fun t c => copyContent above [c] t) t = copyContent above cs t := by
    intro cs
    induction cs with
    | nil =>
      intro t
      change t = { t with children := t.children ++ [] }
      rw [List.append_nil]
    | cons c cs ih =>
      intro t
      rw [List.foldl_cons, ih, copyContent_append]
      rfl
  unfold copyChildNodes
  simp only [hchildren]
  rw [foldl_range s.children (fun r c => c.elim r (copyChildNode p r))]
  refine (foldl_eq (fun r t c ht ha => copyChildNode_eq ht ha c) s.children ht habove).trans ?_
  exact modify_congr ht (hcontent s.children t)

theorem copyVisibleNamespaces_eq (ht : root.at? p = some t)
    (habove : (scopes p root).tail = above) (d : Elem) (q : List ℕ) :
    copyVisibleNamespaces p ⟨some d, q⟩ root =
      modify (fun t => (scopes q d).flatten.foldl (fun t b => declared above b.2 b.1 t) t)
        p root := by
  unfold copyVisibleNamespaces
  simp only [Source.scopes, Option.getD_some]
  rw [foldl_range (scopes q d) (fun r ds => copyNamespaces p (ds.getD []) r)]
  have hscope : ∀ r t (ds : List (NCName × String)), r.at? p = some t →
      (scopes p r).tail = above →
      copyNamespaces p ds r =
        modify (fun t => ds.foldl (fun t b => declared above b.2 b.1 t) t) p r :=
    fun r t ds ht ha =>
      foldl_eq (fun r t b ht ha => ensureNamespaceDeclared_eq ht ha b.2 b.1) ds ht ha
  refine (foldl_eq hscope (scopes q d) ht habove).trans (modify_congr ht ?_)
  rw [List.foldl_flatten]

/-- A copy from another document changes the target, and nothing else. -/
theorem copy_eq (ht : root.at? p = some t) (hs : d.at? q = some s) :
    copy p ⟨some d, q⟩ root =
      modify (fun t => copyContent (scopes p root).tail s.children
        (removeChildNodes (copyTag (scopes p root).tail (scopes q d) s.label.attributes t)))
        p root := by
  have hattributes : ∀ r, Source.attributes ⟨some d, q⟩ r = s.label.attributes := by
    intro r
    rw [Source.attributes, Source.tag?, Source.element?, Option.getD_some, hs]
    rfl
  have hstep : ∀ {r : Elem} {t : Elem} {f : Elem → Elem}, r = modify f p root →
      root.at? p = some t → r.at? p = some (f t) ∧ (scopes p r).tail = (scopes p root).tail := by
    rintro r t f rfl ht
    refine ⟨(at?_modify_self ..).trans (congrArg _ ht), ?_⟩
    rw [scopes_modify ht, List.tail_cons]
  obtain ⟨ht₁, ha₁⟩ := hstep rfl ht
  have h₂ := foldl_eq (fun r t a ht ha => copyAttribute_eq ht ha a) s.label.attributes.entries
    ht₁ ha₁
  rw [modify_modify] at h₂
  obtain ⟨ht₂, ha₂⟩ := hstep h₂ ht
  have h₃ := copyVisibleNamespaces_eq ht₂ ha₂ d q
  rw [h₂, modify_modify] at h₃
  obtain ⟨ht₃, ha₃⟩ := hstep h₃ ht
  have h₄ := ensureOwnNamespaceDeclared_eq ht₃ ha₃
  rw [h₃, modify_modify] at h₄
  obtain ⟨ht₄, ha₄⟩ := hstep ((congrArg (modify removeChildNodes p) h₄).trans (modify_modify ..)) ht
  have h₅ := copyChildNodes_eq ht₄ ha₄ hs
  rw [h₄, modify_modify, modify_modify] at h₅
  have hdetach : ∀ r, Source.detach ⟨some d, q⟩ p r = ⟨some d, q⟩ :=
    fun r => if_neg fun h => Option.some_ne_none d h.1
  unfold copy copyAttributes
  simp only [hattributes]
  rw [h₂, h₃, h₄, modify_modify, hdetach]
  exact h₅

/-! ## A source in the document of the target -/

/-- What is read of a source. -/
def seen (q : List ℕ) (root : Elem) : Option Elem × Scopes NCName String :=
  (root.at? q, scopes q root)

theorem seen_modify (h : Apart p q) (f : Elem → Elem) (r : List ℕ) (root : Elem) :
    seen q (modify f (p ++ r) root) = seen q root := by
  rw [seen, seen, scopes, scopes, at?_modify_apart f (h.append r),
    labels_modify_apart f (h.append r)]

theorem foldl_congr {A X : Type*} {m : Elem → X} {f g : Elem → A → Elem}
    (hm : ∀ r a, m (f r a) = m r) (root : Elem) (hfg : ∀ r a, m r = m root → f r a = g r a)
    (as : List A) (r : Elem) (hr : m r = m root) : as.foldl f r = as.foldl g r := by
  induction as generalizing r with
  | nil => rfl
  | cons a as ih =>
    rw [List.foldl_cons, List.foldl_cons, ← hfg r a hr]
    exact ih _ ((hm r a).trans hr)

/-- A source that is apart from the target does not change. -/
theorem copy_own_eq (h : Apart p q) (root : Elem) :
    copy p ⟨none, q⟩ root = copy p ⟨some root, q⟩ root := by
  have hm : ∀ (f : Elem → Elem) r root, KeepsName f →
      seen q (modify f (p ++ r) root) = seen q root := fun f r root _ => seen_modify h f r root
  have hm₁ := fun u k => modify_keeps hm (keepsName_addNamespaceDeclaration u k)
  have hm₂ := fun n value => modify_keeps hm (keepsName_setAttribute n value)
  have helement : ∀ r, seen q r = seen q root →
      Source.element? ⟨none, q⟩ r = Source.element? ⟨some root, q⟩ r :=
    fun r hr => congrArg Prod.fst hr
  have hattributes : ∀ r, seen q r = seen q root →
      Source.attributes ⟨none, q⟩ r = Source.attributes ⟨some root, q⟩ r := by
    intro r hr
    rw [Source.attributes, Source.attributes, Source.tag?, Source.tag?, helement r hr]
  have hvisible : ∀ r, seen q r = seen q root →
      copyVisibleNamespaces p ⟨none, q⟩ r = copyVisibleNamespaces p ⟨some root, q⟩ r := by
    intro r hr
    have hscopes : ∀ r, seen q r = seen q root →
        Source.scopes ⟨none, q⟩ r = Source.scopes ⟨some root, q⟩ r :=
      fun r hr => congrArg Prod.snd hr
    unfold copyVisibleNamespaces
    rw [hscopes r hr]
    refine foldl_congr (fun r i => ?_) root (fun r i hr => ?_) _ r hr
    · exact foldl_keeps
        (fun r (b : NCName × String) => ensureNamespaceDeclared_keeps hm₁ b.2 b.1 r) _ r
    · rw [hscopes r hr]
  have hcontent : ∀ r, seen q r = seen q root →
      copyChildNodes p ⟨none, q⟩ r = copyChildNodes p ⟨some root, q⟩ r := by
    intro r hr
    have hchildren : ∀ r, seen q r = seen q root →
        Source.children ⟨none, q⟩ r = Source.children ⟨some root, q⟩ r := by
      intro r hr
      rw [Source.children, Source.children, helement r hr]
    unfold copyChildNodes
    rw [hchildren r hr]
    refine foldl_congr (fun r i => ?_) root (fun r i hr => ?_) _ r hr
    · cases (Source.children ⟨none, q⟩ r)[i]? with
      | none => rfl
      | some c => exact copyChildNode_keeps hm r c
    · rw [hchildren r hr]
  have hdetach : ∀ r, Source.detach ⟨none, q⟩ p r = ⟨none, q⟩ :=
    fun r => if_neg fun hp => h.1 hp.2.1
  have hdetach' : ∀ r, Source.detach ⟨some root, q⟩ p r = ⟨some root, q⟩ :=
    fun r => if_neg fun hp => Option.some_ne_none root hp.1
  have h₁ := modify_keeps hm keepsName_removeAttributes root
  unfold copy
  simp only [hdetach, hdetach', hattributes _ h₁]
  have h₂ : seen q (copyAttributes p (Source.attributes ⟨some root, q⟩
      (modify removeAttributes p root)) (modify removeAttributes p root)) = seen q root :=
    (foldl_keeps (copyAttribute_keeps hm₁ hm₂) ..).trans h₁
  rw [hvisible _ h₂]
  refine hcontent _ ?_
  exact (modify_keeps hm keepsName_removeChildNodes _).trans
    ((ensureOwnNamespaceDeclared_keeps hm₁ _).trans
      ((copyVisibleNamespaces_keeps hm₁ _ _).trans h₂))

/-- Inside the changed element, where only its start changes. -/
theorem at?_modify_tag {f : Elem → Elem} (hf : ∀ e, (f e).children = e.children) (i : ℕ)
    (r : List ℕ) (root : Elem) : (modify f p root).at? (p ++ i :: r) = root.at? (p ++ i :: r) := by
  rw [at?_modify_inside, at?_append]
  cases root.at? p with
  | none => rfl
  | some e =>
    rw [Option.bind_some, Option.bind_some, at?, at?, child?, child?, hf]

/-- The source is not the target itself, or around it. -/
def Outside (p : List ℕ) (source : Source) : Prop :=
  source.document = none → Apart p source.address ∨ ∃ i r, source.address = p ++ i :: r

/-- The target has what is copied of the children of the source. -/
theorem children_copy (ht : root.at? p = some t) (hs : source.element? root = some s)
    (h : Outside p source) : ∃ e, (copy p source root).at? p = some e ∧
      e.children = s.children.filterMap (copied (e.label.decls :: (scopes p root).tail)) := by
  have hforeign : ∀ d q, d.at? q = some s → ∃ e, (copy p ⟨some d, q⟩ root).at? p = some e ∧
      e.children = s.children.filterMap (copied (e.label.decls :: (scopes p root).tail)) := by
    intro d q hs
    rw [copy_eq ht hs, at?_modify_self, ht]
    exact ⟨_, rfl, List.nil_append _⟩
  obtain ⟨document, address⟩ := source
  cases document with
  | some d => exact hforeign d address hs
  | none =>
    rcases h rfl with hapart | ⟨i, r, hinside⟩
    · rw [copy_own_eq hapart]
      exact hforeign root address hs
    · obtain rfl : address = p ++ i :: r := hinside
      -- the source is out of the document when its children are read
      have hdetach : ∀ root, Source.detach ⟨none, p ++ i :: r⟩ p root = ⟨some root, p ++ i :: r⟩ :=
        fun root => if_pos ⟨rfl, List.prefix_append .., by simp⟩
      have hstart : ∀ {X : Type} (m : Elem → X), (∀ f : Elem → Elem,
          (∀ e, (f e).children = e.children) → ∀ root, m (modify f p root) = m root) →
          m (ensureOwnNamespaceDeclared p (copyVisibleNamespaces p ⟨none, p ++ i :: r⟩
            (copyAttributes p
              (Source.attributes ⟨none, p ++ i :: r⟩ (modify removeAttributes p root))
              (modify removeAttributes p root)))) = m root := by
        intro X m hm
        have hns : ∀ u k root, m (modify (addNamespaceDeclaration u k) p root) = m root :=
          fun u k => hm _ fun _ => rfl
        refine (ensureOwnNamespaceDeclared_keeps hns _).trans ?_
        refine (copyVisibleNamespaces_keeps hns _ _).trans ?_
        have hset : ∀ n value root, m (modify (setAttribute n value) p root) = m root :=
          fun n value => hm _ fun _ => rfl
        exact (foldl_keeps (copyAttribute_keeps hns hset) ..).trans
          (hm removeAttributes (fun _ => rfl) root)
      unfold copy
      simp only [hdetach]
      generalize hroot₄ : ensureOwnNamespaceDeclared p _ = root₄ at hstart ⊢
      have hs₄ : root₄.at? (p ++ i :: r) = some s :=
        (hstart _ fun f hf root => at?_modify_tag hf i r root).trans hs
      have habove : (scopes p root₄).tail = (scopes p root).tail := by
        refine hstart (fun root => (scopes p root).tail) fun f _ root => ?_
        rw [scopes, scopes, ← List.map_tail, ← List.map_tail, tail_labels_modify]
      have ht₄ : ∃ t₄, root₄.at? p = some t₄ := by
        refine Option.isSome_iff_exists.1 ((hstart (fun root => (root.at? p).isSome) ?_).trans ?_)
        · intro f _ root
          rw [at?_modify_self, Option.isSome_map]
        · rw [ht]
          rfl
      obtain ⟨t₄, ht₄⟩ := ht₄
      have ht₅ : (modify removeChildNodes p root₄).at? p = some (removeChildNodes t₄) :=
        (at?_modify_self ..).trans (congrArg _ ht₄)
      have habove₅ : (scopes p (modify removeChildNodes p root₄)).tail = (scopes p root).tail := by
        rw [scopes_modify ht₄, List.tail_cons, habove]
      rw [copyChildNodes_eq ht₅ habove₅ hs₄, at?_modify_self, ht₅]
      exact ⟨_, rfl, List.nil_append _⟩

end Xml

end Jbpm
