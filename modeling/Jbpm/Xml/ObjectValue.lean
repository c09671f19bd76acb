/-
  The values that are assigned to a node, and how they replace its content.
-/
import Mathlib.Data.Option.Basic
import Jbpm.Xml.ElementCopy

namespace Jbpm

open Lib Branch

namespace Xml

/-- `NS_VENDOR` -/
def vendor : String := "urn:jbpm.org:bpel-1.1"

/-- `jbpm:initialized` -/
def initialized : AttributeName := .qualified vendor ⟨"initialized", by decide⟩

/-- `xsi:nil` -/
def nil : AttributeName :=
  .qualified "http://www.w3.org/2001/XMLSchema-instance" ⟨"nil", by decide⟩

/-- `DatatypeUtil.parseBoolean` -/
def parseBoolean (text : String) : Option Bool :=
  if text = "0" then some false
  else if text = "1" then some true
  else if text = "true" then some true
  else if text = "false" then some false
  else none

/-- What ends an assignment: the faults that a process may catch, and other exceptions. -/
inductive Thrown
  | selectionFailure
  | mismatchedAssignmentFailure
  | uninitializedVariable
  | subLanguageExecutionFault
  | exception
  deriving DecidableEq

/-- The text of a node and of all below it. -/
def characters (leaves : List Leaf) : String :=
  String.join ((leaves.filter fun l => l.kind = .text ∨ l.kind = .cdata).map Leaf.data)

/-- An assigned object, as `setObjectValue` distinguishes them. -/
inductive Value
  | element (source : Source)
  /-- a document, in place of its element -/
  | document (root : Option Elem)
  /-- another node -/
  | node (data : String)
  /-- an endpoint reference, with the element that it writes and its text -/
  | endpointReference (scheme : Option String) (written : Elem) (text : String)
  /-- anything else, with its text -/
  | object (text : String)

/-- `DatatypeUtil.toString` -/
def Value.text (root : Elem) : Value → String
  | .element source => (source.element? root).elim "" fun e => characters e.leaves
  | .document d => characters (d.getD root).leaves
  | .node data => data
  | .endpointReference _ _ text => text
  | .object text => text

/-- The source element is nil. -/
def Value.isNil (root : Elem) : Value → Bool
  | .element source =>
    ((source.attributes root).lookup nil).any fun value => parseBoolean value.text = some true
  | _ => false

/-- A first child that is text is used again. -/
def textChild (data : String) : List Node → Leaf
  | .leaf ⟨.cdata, _⟩ :: _ => ⟨.cdata, data⟩
  | _ => ⟨.text, data⟩

/-- `setStringValue` -/
def setStringValue (text : String) (e : Elem) : Elem :=
  { removeAttribute initialized e with children := [.leaf (textChild text e.children)] }

/-- `NS_SERVICE_REF` and `ELEM_SERVICE_REF` -/
def isServiceRef (name : ElementName) : Bool :=
  name.namespaceURI = "http://docs.oasis-open.org/wsbpel/2.0/serviceref" ∧
    name.localName.1 = "service-ref"

theorem isNCName_scheme : "reference-scheme" ≠ "" ∧ ':' ∉ "reference-scheme".toList := by
  decide

/-- `reference-scheme` -/
def schemeAttribute : NCName := ⟨"reference-scheme", isNCName_scheme⟩

/-- The container of an endpoint reference: the scheme is set where there is none. -/
def setServiceRef (scheme : Option String) (written : Elem) (e : Elem) : Elem :=
  let e := removeChildNodes (removeAttributes e)
  let e := if scheme.getD "" = "" then
    setAttribute (.unqualified schemeAttribute) "" e else e
  appendChild written.toTree e

/-- `writeServiceRef` -/
def writeServiceRef (target : List ℕ) (scheme : Option String) (written root : Elem) : Elem :=
  if ((root.at? target).any fun e => isServiceRef e.label.name) then
    modify (setServiceRef scheme written) target root
  else copy target ⟨some written, []⟩ root

/-- `setObjectValue` of an element -/
def setElementValue (target : List ℕ) (root : Elem) : Value → Elem
  | .element source => copy target source root
  | .document d => copy target ⟨d, []⟩ root
  | .node data => modify (setStringValue data) target root
  | .endpointReference scheme written _ => writeServiceRef target scheme written root
  | .object text => modify (setStringValue text) target root

def setLeafData (index : ℕ) (text : String) (e : Elem) : Elem :=
  { e with children := e.children.modify index fun
      | .leaf l => .leaf { l with data := text }
      | .branch label children => .branch label children }

def setAttributeText (name : AttributeName) (text : String) (e : Elem) : Elem :=
  match e.label.attributes.lookup name with
  | some value => setAttribute name (value.setText text) e
  | none => e

/-- `setObjectValue`; only an element that is nil cannot be assigned, to a node that is none. -/
def setObjectValue (value : Value) (root : Elem) : Ref → Except Thrown Elem
  | .document => .ok (setElementValue [] root value)
  | .element target => .ok (setElementValue target root value)
  | .leaf parent index =>
    if value.isNil root then .error .selectionFailure
    else .ok (modify (setLeafData index (value.text root)) parent root)
  | .attribute owner name =>
    if value.isNil root then .error .selectionFailure
    else .ok (modify (setAttributeText name (value.text root)) owner root)

end Xml

end Jbpm
