/-
  Assign activities.  Their copies are executed one after the other, directly on the variables in
  scope: the value of the from-spec is extracted, and assigned to the location of the to-spec.

  * `State`: the variables and partner links;
  * `Engine.extract`, `Engine.assign`: the from-specs and to-specs;
  * `Engine.execute`: all copies, up to the first that faults.

  What ends with a fault gives the state it leaves.
-/
import Mathlib.Logic.Function.Basic
import Jbpm.Sublang.XPathUpdate
import Jbpm.Variable.XmlType

namespace Jbpm

open Lib Branch Xml XPath Variable

namespace Bpel.Assign

/-! ## State -/

variable {V L M P E X : Type} [DecidableEq V] [DecidableEq L] [DecidableEq M]

/-- The parts of messages: for each its name, and the name of its element if it has one. -/
abbrev Messages (M : Type) := M → List (NCName × Option Xml.QName)

variable (messages : Messages M)

/-- A part that the message defines. -/
abbrev PartName (type : M) := { n : NCName // n ∈ (messages type).map Prod.fst }

/-- The value of a variable; `MessageValue` has some of the parts of its type. -/
inductive VariableValue
  | xml (root : Elem)
  | message (type : M) (parts : AList fun _ : PartName messages type => Elem)

/-- An endpoint reference, with the element that it writes and its text. -/
structure Reference where
  scheme : Option String
  written : Elem
  text : String

structure State (V L : Type) {M : Type} (messages : Messages M) where
  values : V → VariableValue messages
  links : L → Option Reference

/-- An XML document of a variable: its value, or one of its parts. -/
structure Location (V : Type) where
  owner : V
  part : Option NCName
  deriving DecidableEq

/-- An extracted value, by reference. -/
inductive Object (V : Type)
  | node (l : Location V) (r : Ref)
  | message (v : V)
  | literal (document : Elem) (address : List ℕ)
  | reference (r : Reference)
  | other (text : String)

variable {messages}

def VariableValue.root : VariableValue messages → Option NCName → Option Elem
  | .xml root, none => some root
  | .message type parts, some n =>
    if h : n ∈ (messages type).map Prod.fst then parts.lookup ⟨n, h⟩ else none
  | .xml _, some _ | .message _ _, none => none

def VariableValue.setRoot (root : Elem) :
    VariableValue messages → Option NCName → VariableValue messages
  | .xml _, none => .xml root
  | .message type parts, some n =>
    if h : n ∈ (messages type).map Prod.fst then .message type (parts.insert ⟨n, h⟩ root)
    else .message type parts
  | .xml root, some _ => .xml root
  | .message type parts, none => .message type parts

def State.root (s : State V L messages) (l : Location V) : Option Elem :=
  (s.values l.owner).root l.part

def State.setValue (s : State V L messages) (v : V) (value : VariableValue messages) :
    State V L messages :=
  { s with values := Function.update s.values v value }

def State.setRoot (s : State V L messages) (root : Elem) (l : Location V) : State V L messages :=
  s.setValue l.owner ((s.values l.owner).setRoot root l.part)

/-- `DatatypeUtil.toString` of a node -/
def nodeText (root : Elem) : Ref → String
  | .document => characters root.leaves
  | .element p => (root.at? p).elim "" fun e => characters e.leaves
  | .leaf p i => (root.at? p).elim "" fun e =>
      match e.children[i]? with
      | some (.leaf l) => l.data
      | _ => ""
  | .attribute p n => (root.at? p).elim "" fun e =>
      (e.label.attributes.lookup n).elim "" AttributeValue.text

/-- A value as it is assigned to a node of a document. -/
def State.toValue (s : State V L messages) (target : Location V) : Object V → Value
  | .node l r =>
    let root := (s.root l).getD ⟨⟨⟨"", none, xmlns, ElementName.ne_of_no_prefix⟩, [], ∅⟩, []⟩
    let document := if l = target then none else some root
    match r with
    | .element p => .element ⟨document, p⟩
    | .document => .document document
    | r => .node (nodeText root r)
  | .message _ => .object ""
  | .literal document address => .element ⟨some document, address⟩
  | .reference r => .endpointReference r.scheme r.written r.text
  | .other text => .object text

/-! ## Copies -/

/-- The namespaces of the prefixes in a snippet. -/
abbrev Namespaces := NCName → Option { u : String // u ≠ "" }

/-- A query with its namespaces. -/
structure Snippet (P E : Type) where
  namespaces : Namespaces
  query : Query P E

/-- A property alias: a part of a message, and a query. -/
structure PropertyAlias (P E : Type) where
  part : Option NCName
  query : Option (Snippet P E)

inductive From (V L P E X : Type)
  | variable (v : V) (part : Option NCName) (query : Option (Snippet P E))
  | property (v : V) (name : Xml.QName)
  | expression (x : X)
  | text (literal : String)
  | element (document : Elem) (address : List ℕ)
  | myRole (l : L)
  | partnerRole (l : L)

/-- An expression that is assigned: a variable or a part, or a path from there or from the nodes
    of a function call. -/
inductive Lhs (V P X : Type)
  | variable (v : V) (part : Option NCName)
  | path (v : V) (part : Option NCName) (steps : List (Step P))
  | call (x : X) (steps : List (Step P))

inductive To (V L P E X : Type)
  | variable (v : V) (part : Option NCName) (query : Option (Snippet P E))
  | property (v : V) (name : Xml.QName)
  | expression (namespaces : Namespaces) (x : Lhs V P X)
  | partnerLink (l : L)

structure Copy (V L P E X : Type) where
  source : From V L P E X
  target : To V L P E X

/-- What copies use.  A predicate of a query may read variables, and so may an expression; what
    reads a variable can change it. -/
structure Engine (V L P E X : Type) {M : Type} (messages : Messages M) where
  jaxen : Namespaces → State V L messages → Jaxen P E
  /-- the state for the evaluation of a query, as its predicates leave it -/
  reads : Snippet P E → State V L messages → State V L messages
  evaluate : X → State V L messages → State V L messages × Except Thrown (Object V)
  /-- the nodes of a function call, and the state for the steps from there -/
  call : X → List (Step P) → State V L messages →
    State V L messages × Except Thrown (Location V × List Ref)
  /-- a path from an object that is no node -/
  noNode : List (Step P) → Thrown
  propertyAlias : V → Xml.QName → Option (PropertyAlias P E)
  myReference : L → State V L messages → Except Thrown Reference
  readServiceRef : Elem → Except Thrown Reference

variable (G : Engine V L P E X messages)

/-! ## From-specs -/

/-- `VariableDefinition.getValue`: a bogus mark is removed. -/
def State.getValue (s : State V L messages) (v : V) : State V L messages × Except Thrown Unit :=
  match s.values v with
  | .xml root =>
    if (isInitialized root).1 then (s.setRoot (isInitialized root).2 ⟨v, none⟩, .ok ())
    else (s, .error .uninitializedVariable)
  | .message type parts =>
    if parts.entries ≠ [] ∨ messages type = [] then (s, .ok ())
    else (s, .error .uninitializedVariable)

/-- The value of a variable, or `getPart` of it. -/
def State.locate (s : State V L messages) (v : V) (part : Option NCName) :
    Except Thrown (Object V) :=
  match s.values v, part with
  | .xml _, none => .ok (.node ⟨v, none⟩ (.element []))
  | .message _ _, none => .ok (.message v)
  | .xml _, some _ => .error .exception
  | .message type _, some n =>
    match s.root ⟨v, some n⟩ with
    | some _ => .ok (.node ⟨v, some n⟩ (.element []))
    | none =>
      if n ∈ (messages type).map Prod.fst then .error .uninitializedVariable
      else .error .exception

/-- `selectNodes` -/
def selectNodes (J : Jaxen P E) (query : Query P E) (contextNode : Ref) (root : Elem) :
    Except Thrown (List (Option Ref)) :=
  match query with
  | .path absolute steps =>
    (XPath.evaluate J steps root [start absolute contextNode]).map (List.map some)
  | .expr e => J.selectNodes e root contextNode

/-- A query of a node. -/
def Engine.query (s : State V L messages) (snippet : Snippet P E) (l : Location V) (r : Ref) :
    State V L messages × Except Thrown (Object V) :=
  let s := G.reads snippet s
  match s.root l with
  | none => (s, .error .exception)
  | some root =>
    match selectNodes (G.jaxen snippet.namespaces s) snippet.query r root with
    | .error e => (s, .error e)
    | .ok nodes => (s, (narrowToSingleNode nodes).map (.node l))

/-- `FromVariable.extract`, once the variable has been read. -/
def Engine.extractVariable (s : State V L messages) (v : V) (part : Option NCName)
    (query : Option (Snippet P E)) : State V L messages × Except Thrown (Object V) :=
  match s.locate v part, query with
  | .ok (.node l r), some snippet => G.query s snippet l r
  | .ok _, some _ => (s, .error .exception)
  | result, none => (s, result)
  | .error e, some _ => (s, .error e)

/-- A property is the text of its node. -/
def State.propertyValue (s : State V L messages) : Object V → Object V
  | .node l r => .other ((s.root l).elim "" fun root => nodeText root r)
  | o => o

/-- `getPropertyValue`, once the variable has been read. -/
def Engine.extractProperty (s : State V L messages) (v : V) (name : Xml.QName) :
    State V L messages × Except Thrown (Object V) :=
  match G.propertyAlias v name with
  | none => (s, .error .selectionFailure)
  | some a =>
    let extracted := match s.values v, a.part with
      | .xml _, _ => G.extractVariable s v none a.query
      | .message _ _, some n => G.extractVariable s v (some n) a.query
      | .message _ _, none => (s, .error .exception)
    (extracted.1, extracted.2.map extracted.1.propertyValue)

/-- `From.extract` -/
def Engine.extract (s : State V L messages) :
    From V L P E X → State V L messages × Except Thrown (Object V)
  | .variable v part query =>
    match s.getValue v with
    | (s, .error e) => (s, .error e)
    | (s, .ok ()) => G.extractVariable s v part query
  | .property v name =>
    match s.getValue v with
    | (s, .error e) => (s, .error e)
    | (s, .ok ()) => G.extractProperty s v name
  | .expression x => G.evaluate x s
  | .text literal => (s, .ok (.other literal))
  | .element document address => (s, .ok (.literal document address))
  | .myRole l => (s, (G.myReference l s).map .reference)
  | .partnerRole l => (s, .ok ((s.links l).elim (.other "") .reference))

/-! ## To-specs -/

/-- The element of a part that is not there yet: it has the name of its element, or its own. -/
def createPart (messages : Messages M) (type : M) (n : NCName) : Elem :=
  match (messages type).find? fun part => part.1 = n with
  | some (_, some name) => createElement name
  | _ => ⟨⟨⟨"", none, n, ElementName.ne_of_no_prefix⟩, [], ∅⟩, []⟩

/-- `getPartForAssign` -/
def State.partForAssign (s : State V L messages) (v : V) (n : NCName) :
    Except Thrown (State V L messages) :=
  match s.values v with
  | .xml _ => .error .exception
  | .message type _ =>
    match s.root ⟨v, some n⟩ with
    | some _ => .ok s
    | none =>
      if n ∈ (messages type).map Prod.fst then
        .ok (s.setRoot (createPart messages type n) ⟨v, some n⟩)
      else .error .exception

/-- A document of a variable is assigned, or a location in it. -/
def Engine.assignAt (s : State V L messages) (l : Location V) (query : Option (Snippet P E))
    (o : Object V) : State V L messages × Except Thrown Unit :=
  let s := query.elim s fun snippet => G.reads snippet s
  match s.root l with
  | none => (s, .error .exception)
  | some root =>
    match query with
    | none => (s.setRoot (setElementValue [] root (s.toValue l o)) l, .ok ())
    | some snippet =>
      let assigned := XPath.assign (G.jaxen snippet.namespaces s) snippet.query (.element [])
        (s.toValue l o) root
      (s.setRoot assigned.1 l, assigned.2.map fun _ => ())

/-- `setPart`, among the parts of a message, from a part of another one. -/
def setPart {type : M} (parts : AList fun _ : PartName messages type => Elem)
    (part : Σ _ : PartName messages type, Elem) : AList fun _ : PartName messages type => Elem :=
  parts.insert part.1 (setElementValue []
    ((parts.lookup part.1).getD (createPart messages type part.1.1))
    (.element ⟨some part.2, []⟩))

/-- `MessageType.setValue`: the parts are dropped, then those of the other message are set. -/
def State.setMessage (s : State V L messages) (v : V) (type : M) (o : Object V) :
    State V L messages × Except Thrown Unit :=
  match o with
  | .message source =>
    match s.values source with
    | .xml _ => (s, .error .mismatchedAssignmentFailure)
    | .message type' _ =>
      if type' = type then
        let s := s.setValue v (.message type ∅)
        match s.values source with
        | .xml _ => (s, .ok ())
        | .message type' parts' =>
          (s.setValue v (.message type' (parts'.entries.foldl setPart ∅)), .ok ())
      else (s, .error .mismatchedAssignmentFailure)
  | _ => (s, .error .mismatchedAssignmentFailure)

/-- `ToVariable.assign` -/
def Engine.assignVariable (s : State V L messages) (v : V) (part : Option NCName)
    (query : Option (Snippet P E)) (o : Object V) : State V L messages × Except Thrown Unit :=
  match part with
  | some n =>
    match s.partForAssign v n with
    | .error e => (s, .error e)
    | .ok s => G.assignAt s ⟨v, some n⟩ query o
  | none =>
    match s.values v, query with
    | .xml _, query => G.assignAt s ⟨v, none⟩ query o
    | .message _ _, some _ => (s, .error .exception)
    | .message type _, none => s.setMessage v type o

/-- `setPropertyValue`, once the variable has been read. -/
def Engine.assignProperty (s : State V L messages) (v : V) (name : Xml.QName) (o : Object V) :
    State V L messages × Except Thrown Unit :=
  match G.propertyAlias v name with
  | none => (s, .error .exception)
  | some a =>
    match s.values v, a.part with
    | .xml _, _ => G.assignAt s ⟨v, none⟩ a.query o
    | .message _ _, some n => G.assignVariable s v (some n) a.query o
    | .message _ _, none => (s, .error .exception)

/-- `XPathExpressionEvaluator.assign` -/
def Engine.assignExpression (namespaces : Namespaces) (s : State V L messages) (o : Object V) :
    Lhs V P X → State V L messages × Except Thrown Unit
  | .variable v part =>
    match s.values v, part with
    | .message _ _, none => (s, .error .exception)
    | _, part => G.assignVariable s v part none o
  | .path v part steps =>
    match s.values v, part with
    | .message _ _, none => (s, .error (G.noNode steps))
    | _, part => G.assignVariable s v part (some ⟨namespaces, .path false steps⟩) o
  | .call x steps =>
    match G.call x steps s with
    | (s, .error e) => (s, .error e)
    | (s, .ok (_, [])) => (s, .error .selectionFailure)
    | (s, .ok (l, n :: ns)) =>
      match s.root l with
      | none => (s, .error .exception)
      | some root =>
        let selected := selectOrCreateNodes (G.jaxen namespaces s) steps root (n :: ns)
        let assigned := assignSelected (s.toValue l o)
          (selected.1, selected.2.map (List.map some))
        (s.setRoot assigned.1 l, assigned.2.map fun _ => ())

/-- The reference that a value is for a partner link. -/
def Engine.toReference (s : State V L messages) : Object V → Except Thrown Reference
  | .reference r => .ok r
  | .node d (.element p) =>
    ((s.root d).bind (at? p)).elim (.error .mismatchedAssignmentFailure) G.readServiceRef
  | .literal document p =>
    (document.at? p).elim (.error .mismatchedAssignmentFailure) G.readServiceRef
  | _ => .error .mismatchedAssignmentFailure

/-- `ToPartnerLink.assign` -/
def Engine.assignPartnerLink (s : State V L messages) (l : L) (o : Object V) :
    State V L messages × Except Thrown Unit :=
  match G.toReference s o with
  | .error e => (s, .error e)
  | .ok r => ({ s with links := Function.update s.links l (some r) }, .ok ())

/-- `To.assign` -/
def Engine.assign (s : State V L messages) (o : Object V) :
    To V L P E X → State V L messages × Except Thrown Unit
  | .variable v part query => G.assignVariable s v part query o
  | .property v name =>
    match s.getValue v with
    | (s, .error e) => (s, .error e)
    | (s, .ok ()) => G.assignProperty s v name o
  | .expression namespaces x => G.assignExpression namespaces s o x
  | .partnerLink l => G.assignPartnerLink s l o

/-- `Copy.execute` -/
def Engine.copy (s : State V L messages) (c : Copy V L P E X) :
    State V L messages × Except Thrown Unit :=
  match G.extract s c.source with
  | (s, .error e) => (s, .error e)
  | (s, .ok o) => G.assign s o c.target

/-- `Assign.execute`, without leaving the activity. -/
def Engine.execute : List (Copy V L P E X) → State V L messages →
    State V L messages × Except Thrown Unit
  | [], s => (s, .ok ())
  | c :: cs, s =>
    match G.copy s c with
    | (s, .error e) => (s, .error e)
    | (s, .ok ()) => execute cs s

end Bpel.Assign

end Jbpm
