/-
  Documents: elements with their names, namespace declarations and attributes, and the character
  data between them.

  A node is given by its address in the document.  The attributes of an element have no order.
-/
import Mathlib.Data.List.AList
import Jbpm.Lib.TreeAddress
import Jbpm.Xml.QNames

namespace Jbpm

open Lib Declarations

namespace Xml

/-- Only names in a namespace have a prefix. -/
structure ElementName where
  namespaceURI : String
  prefix_ : Option NCName
  localName : NCName
  namespaceURI_ne : prefix_ ≠ none → namespaceURI ≠ ""
  deriving DecidableEq

/-- Without a prefix the namespace may be empty. -/
theorem ElementName.ne_of_no_prefix {u : String} (h : (none : Option NCName) ≠ none) : u ≠ "" :=
  absurd rfl h

/-- The name of an attribute that is not a namespace declaration. -/
inductive AttributeName
  | unqualified (localName : NCName)
  | qualified (namespaceURI : String) (localName : NCName)
  deriving DecidableEq

/-- The value of an attribute, with the prefix of its name if it has one. -/
def AttributeValue : AttributeName → Type
  | .unqualified _ => String
  | .qualified _ _ => NCName × String

/-- `getNodeValue` -/
def AttributeValue.text : {name : AttributeName} → AttributeValue name → String
  | .unqualified _, value => value
  | .qualified _ _, value => value.2

/-- `setNodeValue` -/
def AttributeValue.setText (text : String) :
    {name : AttributeName} → AttributeValue name → AttributeValue name
  | .unqualified _, _ => text
  | .qualified _ _, value => (value.1, text)

@[simp] theorem AttributeValue.text_setText (text : String) {name : AttributeName}
    (value : AttributeValue name) : (value.setText text).text = text := by
  cases name <;> rfl

/-- What the start of an element says. -/
structure Tag where
  name : ElementName
  decls : List (NCName × String)
  attributes : AList AttributeValue

inductive LeafKind
  | text
  | cdata
  | comment
  | instruction (target : NCName)
  deriving DecidableEq

/-- A node without children that is not an attribute. -/
structure Leaf where
  kind : LeafKind
  data : String
  deriving DecidableEq

abbrev Node := Tree Tag Leaf

/-- An element, with all that is below it. -/
abbrev Elem := Branch Tag Leaf

/-- The namespace declarations from an element outwards. -/
def scopes (address : List ℕ) (root : Elem) : Scopes NCName String :=
  (root.labels address).map Tag.decls

/-- The prefix in `getPrefix` that stands for a declaration. -/
def prefixText (k : NCName) : String := if k = xmlns then "" else k.1

theorem prefixText_inj {k k' : NCName} (h : prefixText k = prefixText k') : k = k' := by
  unfold prefixText at h
  split at h <;> split at h
  case isTrue.isTrue hk hk' => rw [hk, hk']
  case isTrue.isFalse => exact absurd h.symm k'.2.1
  case isFalse.isTrue => exact absurd h k.2.1
  case isFalse.isFalse => exact Subtype.ext h

/-- `getPrefix` finds the first declaration of the namespace. -/
theorem getPrefix_eq_some_iff (u : String) (s : Scopes NCName String) (k : NCName) :
    getPrefix u s = some (prefixText k) ↔ keyOf s u = some k := by
  rw [getPrefix_eq]
  constructor
  · intro h
    obtain ⟨k', hk', hp⟩ := Option.map_eq_some_iff.1 h
    rw [hk', prefixText_inj hp]
  · intro h
    rw [h]
    rfl

/-! ## Updates of an element -/

/-- `addNamespaceDeclaration` -/
def addNamespaceDeclaration (u : String) (k : NCName) (e : Elem) : Elem :=
  { e with label := { e.label with decls := declare e.label.decls k u } }

def setAttribute (name : AttributeName) (value : AttributeValue name) (e : Elem) : Elem :=
  { e with label := { e.label with attributes := e.label.attributes.insert name value } }

def removeAttribute (name : AttributeName) (e : Elem) : Elem :=
  { e with label := { e.label with attributes := e.label.attributes.erase name } }

/-- `removeAttributes`: the declarations are attributes too. -/
def removeAttributes (e : Elem) : Elem :=
  { e with label := { e.label with decls := [], attributes := ∅ } }

/-- `removeChildNodes` -/
def removeChildNodes (e : Elem) : Elem := { e with children := [] }

def appendChild (child : Node) (e : Elem) : Elem := { e with children := e.children ++ [child] }

/-! ## References to nodes -/

/-- A reference to a node of a document; a leaf is given by its parent and its index. -/
inductive Ref
  | document
  | element (address : List ℕ)
  | leaf (parent : List ℕ) (index : ℕ)
  | attribute (owner : List ℕ) (name : AttributeName)
  deriving DecidableEq

end Xml

end Jbpm
