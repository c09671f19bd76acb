/-
  What a copy of an element means to a reader.

  * `SameContent`: the same elements and character data in the same order;
  * `Means`: the attributes and content of another element, and prefixes that are bound as there;
  * `means_copy`: the copy of an element of another document.
-/
import Jbpm.Xml.ElementCopy

namespace Jbpm

open Lib Branch Declarations

namespace Xml

/-! ## Content -/

/-- Prefixes do not count. -/
def SameAttributes (as bs : AList AttributeValue) : Prop :=
  ∀ n, (bs.lookup n).map AttributeValue.text = (as.lookup n).map AttributeValue.text

structure SameTag (tag tag' : Tag) : Prop where
  namespaceURI : tag'.name.namespaceURI = tag.name.namespaceURI
  localName : tag'.name.localName = tag.name.localName
  attributes : SameAttributes tag.attributes tag'.attributes

/-- The same content to a reader who keeps some of the leaves. -/
inductive SameContent (keeps : Leaf → Bool) : List Node → List Node → Prop
  | nil : SameContent keeps [] []
  | branch {tag tag' children children' cs cs'} : SameTag tag tag' →
    SameContent keeps children children' → SameContent keeps cs cs' →
    SameContent keeps (.branch tag children :: cs) (.branch tag' children' :: cs')
  | leaf {l l' cs cs'} : keeps l → keeps l' → l'.data = l.data → SameContent keeps cs cs' →
    SameContent keeps (.leaf l :: cs) (.leaf l' :: cs')
  | left {l cs cs'} : keeps l = false → SameContent keeps cs cs' →
    SameContent keeps (.leaf l :: cs) cs'
  | right {l cs cs'} : keeps l = false → SameContent keeps cs cs' →
    SameContent keeps cs (.leaf l :: cs')

/-- Character data -/
def Leaf.isText (l : Leaf) : Bool := l.kind = .text ∨ l.kind = .cdata

/-- An element has the attributes and the content of a source, and some prefixes bound. -/
structure Means (keeps : Leaf → Bool) (s : Elem) (bound : NCName → String → Prop)
    (above : Scopes NCName String) (e : Elem) : Prop where
  attributes : SameAttributes s.label.attributes e.label.attributes
  content : SameContent keeps s.children e.children
  bindings : ∀ k u, bound k u → binding (e.label.decls :: above) k = some u

theorem SameTag.refl (tag : Tag) : SameTag tag tag := ⟨rfl, rfl, fun _ => rfl⟩

theorem SameContent.refl (keeps : Leaf → Bool) : ∀ cs : List Node, SameContent keeps cs cs
  | [] => .nil
  | .branch label children :: cs =>
    .branch (SameTag.refl label) (SameContent.refl keeps children) (SameContent.refl keeps cs)
  | .leaf l :: cs => by
    cases h : keeps l with
    | true => exact .leaf h h rfl (SameContent.refl keeps cs)
    | false => exact .left h (.right h (SameContent.refl keeps cs))

/-! ## Declarations -/

/-- The prefixes of attributes, with their namespaces. -/
def attributePrefixes (attributes : List (Σ name, AttributeValue name)) :
    List (NCName × String) :=
  attributes.filterMap fun
    | ⟨.qualified u _, value⟩ => some (value.1, u)
    | ⟨.unqualified _, _⟩ => none

/-- The declaration of the name of an element. -/
def ElementName.declaration (name : ElementName) : NCName × String :=
  (name.prefix_.getD xmlns, name.namespaceURI)

variable {above : Scopes NCName String} {e s : Elem} {k : NCName} {u : String}

theorem decls_declared (above : Scopes NCName String) (d : NCName × String) (e : Elem) :
    (declared above d.2 d.1 e).label.decls = ensure above e.label.decls d := by
  unfold declared ensure
  by_cases h : keyOf (e.label.decls :: above) d.2 = some d.1
  · rw [if_pos ((getPrefix_eq_some_iff ..).2 h), if_pos h]
  · rw [if_neg (mt (getPrefix_eq_some_iff ..).1 h), if_neg h]
    rfl

theorem name_declared (above : Scopes NCName String) (u : String) (k : NCName) (e : Elem) :
    (declared above u k e).label.name = e.label.name := by
  unfold declared
  split <;> rfl

theorem attributes_declared (above : Scopes NCName String) (u : String) (k : NCName) (e : Elem) :
    (declared above u k e).label.attributes = e.label.attributes := by
  unfold declared
  split <;> rfl

theorem decls_foldl_declared (ds : List (NCName × String)) (e : Elem) :
    (ds.foldl (fun e d => declared above d.2 d.1 e) e).label.decls =
      ds.foldl (ensure above) e.label.decls := by
  induction ds generalizing e with
  | nil => rfl
  | cons d ds ih => rw [List.foldl_cons, ih, decls_declared, List.foldl_cons]

theorem name_foldl_declared (ds : List (NCName × String)) (e : Elem) :
    (ds.foldl (fun e d => declared above d.2 d.1 e) e).label.name = e.label.name := by
  induction ds generalizing e with
  | nil => rfl
  | cons d ds ih => rw [List.foldl_cons, ih, name_declared]

theorem decls_foldl_withAttribute (as : List (Σ name, AttributeValue name)) (e : Elem) :
    (as.foldl (fun e a => withAttribute above a e) e).label.decls =
      (attributePrefixes as).foldl (ensure above) e.label.decls := by
  induction as generalizing e with
  | nil => rfl
  | cons a as ih =>
    obtain ⟨n, value⟩ := a
    rw [List.foldl_cons, ih]
    cases n with
    | unqualified n => rfl
    | qualified u n =>
      exact congrArg ((attributePrefixes as).foldl (ensure above))
        (decls_declared above (value.1, u) (setAttribute (.qualified u n) value e))

theorem name_foldl_withAttribute (as : List (Σ name, AttributeValue name)) (e : Elem) :
    (as.foldl (fun e a => withAttribute above a e) e).label.name = e.label.name := by
  induction as generalizing e with
  | nil => rfl
  | cons a as ih =>
    obtain ⟨n, value⟩ := a
    rw [List.foldl_cons, ih]
    cases n with
    | unqualified n => rfl
    | qualified u n => exact name_declared above u value.1 _

theorem attributes_foldl_declared (ds : List (NCName × String)) (e : Elem) :
    (ds.foldl (fun e d => declared above d.2 d.1 e) e).label.attributes =
      e.label.attributes := by
  induction ds generalizing e with
  | nil => rfl
  | cons d ds ih => rw [List.foldl_cons, ih, attributes_declared]

/-- Everything that is declared at a copy, in its order. -/
theorem decls_copyTag (above visible : Scopes NCName String) (attributes : AList AttributeValue)
    (e : Elem) : (copyTag above visible attributes e).label.decls =
      (attributePrefixes attributes.entries ++ visible.flatten ++ [e.label.name.declaration]).foldl
        (ensure above) [] := by
  rw [List.foldl_append, List.foldl_append, copyTag, ownDeclared]
  rw [decls_declared above (_, _), name_foldl_declared, name_foldl_withAttribute]
  rw [decls_foldl_declared, decls_foldl_withAttribute]
  rfl

theorem attributes_foldl_withAttribute (as : List (Σ name, AttributeValue name)) (e : Elem) :
    (as.foldl (fun e a => withAttribute above a e) e).label.attributes =
      as.foldl (fun bs a => bs.insert a.1 a.2) e.label.attributes := by
  induction as generalizing e with
  | nil => rfl
  | cons a as ih =>
    obtain ⟨n, value⟩ := a
    rw [List.foldl_cons, ih]
    cases n with
    | unqualified n => rfl
    | qualified u n =>
      exact congrArg (as.foldl fun bs a => bs.insert a.1 a.2)
        (attributes_declared above u value.1 (setAttribute (.qualified u n) value e))

/-- Attributes that are set where there are none. -/
theorem sameAttributes_foldl (as : AList AttributeValue) :
    SameAttributes as (as.entries.foldl (fun bs a => bs.insert a.1 a.2) ∅) := by
  intro n
  rw [lookup_foldl_insert]

/-- The element a prefix is copied to does not use it for another namespace, in its name or for
    an attribute, and the elements around it declare it with the namespace only if it is bound to
    it there. -/
structure Unclaimed (attributes : AList AttributeValue) (name : ElementName)
    (above : Scopes NCName String) (k : NCName) (u : String) : Prop where
  own : ∀ u', name.declaration = (k, u') → u' = u
  attributes : ∀ u', (k, u') ∈ attributePrefixes attributes.entries → u' = u
  above : (k, u) ∈ above.flatten → binding above k = some u

/-- Such a prefix is bound, if it is declared with no other namespace. -/
theorem Unclaimed.binding {attributes : AList AttributeValue} {name : ElementName}
    (h : Unclaimed attributes name above k u) {ds : List (NCName × String)}
    (hmem : (k, u) ∈ ds) (hds : ∀ u', (k, u') ∈ ds → u' = u ∨ name.declaration = (k, u') ∨
      (k, u') ∈ attributePrefixes attributes.entries) :
    Declarations.binding (ds.foldl (ensure above) [] :: above) k = some u := by
  refine binding_foldl_ensure ds (fun u' hu' => ?_) (fun u' hu' => absurd hu' List.not_mem_nil)
    h.above (.inl hmem)
  rcases hds u' hu' with heq | hown | hattribute
  · exact heq
  · exact h.own u' hown
  · exact h.attributes u' hattribute

/-! ## Copies of another document -/

theorem sameContent_copied (above : Scopes NCName String) :
    ∀ cs : List Node, SameContent Leaf.isText cs (cs.filterMap (copied above))
  | [] => .nil
  | .branch label children :: cs => by
    have htag : SameTag label (ownDeclared above ⟨label, children⟩).label := by
      refine ⟨?_, ?_, fun n => ?_⟩
      · rw [ownDeclared, name_declared]
      · rw [ownDeclared, name_declared]
      · rw [ownDeclared, attributes_declared]
    have hchildren : (ownDeclared above ⟨label, children⟩).children = children := by
      unfold ownDeclared declared
      split <;> rfl
    rw [List.filterMap_cons_some (copied.eq_def above _)]
    refine .branch htag ?_ (sameContent_copied above cs)
    rw [hchildren]
    exact .refl Leaf.isText children
  | .leaf ⟨.text, data⟩ :: cs => .leaf rfl rfl rfl (sameContent_copied above cs)
  | .leaf ⟨.cdata, data⟩ :: cs => .leaf rfl rfl rfl (sameContent_copied above cs)
  | .leaf ⟨.comment, data⟩ :: cs => .left rfl (sameContent_copied above cs)
  | .leaf ⟨.instruction target, data⟩ :: cs => .left rfl (sameContent_copied above cs)

/-- What `copy` makes of a target, with the element it copies. -/
theorem means_copy {p q : List ℕ} {root t d : Elem} (ht : root.at? p = some t)
    (hs : d.at? q = some s) :
    ∃ e, copy p ⟨some d, q⟩ root = modify (fun _ => e) p root ∧
      e.label.name = t.label.name ∧
      Means Leaf.isText s (fun k u => binding (scopes q d) k = some u ∧
        (∀ u', (k, u') ∈ (scopes q d).flatten → u' = u) ∧
        Unclaimed s.label.attributes t.label.name (scopes p root).tail k u)
        (scopes p root).tail e := by
  let above := (scopes p root).tail
  let tag := copyTag above (scopes q d) s.label.attributes t
  have hattributes : tag.label.attributes =
      s.label.attributes.entries.foldl (fun bs a => bs.insert a.1 a.2) ∅ := by
    change (copyTag ..).label.attributes = _
    rw [copyTag, ownDeclared, attributes_declared, attributes_foldl_declared,
      attributes_foldl_withAttribute]
    rfl
  refine ⟨copyContent above s.children (removeChildNodes tag), ?_, ?_, ?_, ?_, ?_⟩
  · rw [copy_eq ht hs]
    exact modify_congr ht rfl
  · change (copyTag ..).label.name = _
    rw [copyTag, ownDeclared, name_declared, name_foldl_declared, name_foldl_withAttribute]
    rfl
  · change SameAttributes _ tag.label.attributes
    rw [hattributes]
    exact sameAttributes_foldl s.label.attributes
  · exact sameContent_copied _ s.children
  · intro k u ⟨hbound, honce, hfree⟩
    change Declarations.binding (tag.label.decls :: above) k = some u
    rw [decls_copyTag]
    refine hfree.binding ?_ fun u' hu' => ?_
    · exact List.mem_append_left _ (List.mem_append_right _ (mem_of_binding hbound))
    · rcases List.mem_append.1 hu' with hu' | hu'
      · rcases List.mem_append.1 hu' with hu' | hu'
        · exact .inr (.inr hu')
        · exact .inl (honce u' hu')
      · exact .inr (.inl (List.mem_singleton.1 hu').symm)

end Xml

end Jbpm
