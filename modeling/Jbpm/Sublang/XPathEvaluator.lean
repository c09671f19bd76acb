/-
  Assignments to the location of a query.  The steps of the path are evaluated one after the
  other, and a step that selects nothing has its node created.

  * `Jaxen`: the library that evaluates steps and predicates;
  * `selectOrCreateNodes`, `createNode`: the path, and its missing nodes;
  * `assign`: the update of the node that is selected.

  An update gives the document also where it ends with a fault.
-/
import Jbpm.Xml.ObjectValue

namespace Jbpm

open Lib Branch Xml

namespace XPath

/-! ## Paths -/

inductive Axis
  | child | descendant | parent | ancestor | followingSibling | precedingSibling | following
  | preceding | attribute | namespace_ | self | descendantOrSelf | ancestorOrSelf
  deriving DecidableEq

/-- A name test without local name is for any name. -/
inductive NodeTest
  | name (prefix_ : Option NCName) (localName : Option NCName)
  | text
  | instruction (target : Option NCName)
  | comment
  | any
  deriving DecidableEq

/-- A whole number, or another expression. -/
inductive Predicate (P : Type)
  | position (n : ℕ)
  | expr (p : P)

/-- `org.jaxen.expr.Step` -/
structure Step (P : Type) where
  axis : Axis
  test : NodeTest
  predicates : List (Predicate P)

/-- A location path, or another expression. -/
inductive Query (P E : Type)
  | path (absolute : Bool) (steps : List (Step P))
  | expr (e : E)

/-- The evaluation of steps, predicates and expressions.  A predicate may be a number, of which
    the integer part counts here, and what an expression selects need not be nodes. -/
structure Jaxen (P E : Type) where
  select : Step P → Elem → List Ref → Except Thrown (List Ref)
  predicate : P → Elem → List Ref → Except Thrown (Option ℤ)
  selectNodes : E → Elem → Ref → Except Thrown (List (Option Ref))
  namespaceURI : NCName → Option { u : String // u ≠ "" }

variable {P E : Type} (J : Jaxen P E)

/-- `Predicate.evaluate` -/
def Jaxen.number : Predicate P → Elem → List Ref → Except Thrown (Option ℤ)
  | .position n, _, _ => .ok (some n)
  | .expr p, root, contextNodes => J.predicate p root contextNodes

/-! ## Creation of nodes -/

/-- `createAttributeNS`, with the prefix where there is a namespace. -/
def attributeName (prefix_ : Option NCName) (localName : NCName) :
    Σ name, AttributeValue name :=
  match prefix_ with
  | none => ⟨.unqualified localName, ""⟩
  | some p =>
    match J.namespaceURI p with
    | some u => ⟨.qualified u.1 localName, (p, "")⟩
    | none => ⟨.unqualified localName, ""⟩

/-- `createElementNS`, with the prefix where there is a namespace. -/
def elementName (prefix_ : Option NCName) (localName : NCName) : ElementName :=
  match prefix_ with
  | none => ⟨"", none, localName, ElementName.ne_of_no_prefix⟩
  | some p =>
    match J.namespaceURI p with
    | some u => ⟨u.1, some p, localName, fun _ => u.2⟩
    | none => ⟨"", none, localName, ElementName.ne_of_no_prefix⟩

/-- `nodeNameEquals`: prefixes do not count. -/
def nodeNameEquals (e : Elem) (name : ElementName) : Bool :=
  e.label.name.namespaceURI = name.namespaceURI ∧ e.label.name.localName = name.localName

/-- `getElements` -/
def getElements (parent : List ℕ) (root : Elem) (name : ElementName) : List Ref :=
  match root.at? parent with
  | none => []
  | some e =>
    ((List.range e.children.length).filter fun i =>
      (e.child? i).any fun c => nodeNameEquals c name).map fun i => .element (parent ++ [i])

/-- `createAttribute` -/
def createAttribute (step : Step P) (owner : List ℕ) (root : Elem) : Except Thrown (Elem × Ref) :=
  match step.predicates, step.test with
  | [], .name prefix_ (some localName) =>
    let created := attributeName J prefix_ localName
    .ok (modify (setAttribute created.1 created.2) owner root, .attribute owner created.1)
  | _, _ => .error .selectionFailure

/-- The predicates allow one more element: there is none, or the next position. -/
def nextPosition (predicates : List (Predicate P)) (root : Elem) (found : List Ref) :
    Except Thrown Unit :=
  match predicates with
  | [] => .ok ()
  | [predicate] =>
    match J.number predicate root found with
    | .error e => .error e
    | .ok none => .error .selectionFailure
    | .ok (some position) =>
      if position = found.length + 1 then .ok () else .error .selectionFailure
  | _ :: _ :: _ => .error .selectionFailure

/-- `createElement` -/
def createElement (prefix_ localName : Option NCName) (predicates : List (Predicate P))
    (parent : List ℕ) (root : Elem) : Except Thrown Node :=
  match localName with
  | none => .error .selectionFailure
  | some localName =>
    let name := elementName J prefix_ localName
    match nextPosition J predicates root (getElements parent root name) with
    | .error e => .error e
    | .ok () => .ok (.branch ⟨name, [], ∅⟩ [])

/-- `createNonElementChild` -/
def createNonElementChild (step : Step P) : Except Thrown Node :=
  match step.predicates, step.test with
  | [], .text => .ok (.leaf ⟨.text, ""⟩)
  | [], .instruction (some target) => .ok (.leaf ⟨.instruction target, ""⟩)
  -- a processing instruction cannot be created without a name
  | [], .instruction none => .error .exception
  | [], .comment => .ok (.leaf ⟨.comment, ""⟩)
  | _, _ => .error .selectionFailure

/-- A new child comes after the others. -/
def appended (parent : List ℕ) (index : ℕ) : Node → Ref
  | .branch _ _ => .element (parent ++ [index])
  | .leaf _ => .leaf parent index

/-- The child that a step of the child axis is to select. -/
def createChild (step : Step P) (parent : List ℕ) (root : Elem) : Except Thrown Node :=
  match step.test with
  | .name prefix_ localName => createElement J prefix_ localName step.predicates parent root
  | _ => createNonElementChild step

/-- `createNode` -/
def createNode (step : Step P) (root : Elem) (contextNodes : List Ref) :
    Except Thrown (Elem × Ref) :=
  match contextNodes with
  | [.element context] =>
    match step.axis with
    | .attribute => createAttribute J step context root
    | .child =>
      match createChild J step context root with
      | .error e => .error e
      | .ok child =>
        let index := ((root.at? context).elim [] Branch.children).length
        .ok (modify (appendChild child) context root, appended context index child)
    | _ => .error .selectionFailure
  | _ => .error .selectionFailure

/-! ## Updates -/

/-- `selectOrCreateNodes`, from the context nodes of the first step. -/
def selectOrCreateNodes : List (Step P) → Elem → List Ref → Elem × Except Thrown (List Ref)
  | [], root, contextNodes => (root, .ok contextNodes)
  | step :: steps, root, contextNodes =>
    match J.select step root contextNodes with
    | .error e => (root, .error e)
    | .ok [] =>
      match createNode J step root contextNodes with
      | .error e => (root, .error e)
      | .ok (root', newNode) => selectOrCreateNodes steps root' [newNode]
    | .ok (n :: ns) => selectOrCreateNodes steps root (n :: ns)

/-- The node a path starts from. -/
def start (absolute : Bool) (contextNode : Ref) : Ref :=
  if absolute then .document else contextNode

/-- The nodes of a query that is assigned, in the document as it is then. -/
def selectForAssign (query : Query P E) (contextNode : Ref) (root : Elem) :
    Elem × Except Thrown (List (Option Ref)) :=
  match query with
  | .path absolute steps =>
    let selected := selectOrCreateNodes J steps root [start absolute contextNode]
    (selected.1, selected.2.map (List.map some))
  | .expr e => (root, J.selectNodes e root contextNode)

/-- `narrowToSingleNode` -/
def narrowToSingleNode : List (Option Ref) → Except Thrown Ref
  | [some node] => .ok node
  | _ => .error .selectionFailure

/-- The end of `assign`, once nodes are selected. -/
def assignSelected (value : Value) (selected : Elem × Except Thrown (List (Option Ref))) :
    Elem × Except Thrown Ref :=
  match selected.2 with
  | .error e => (selected.1, .error e)
  | .ok nodes =>
    match narrowToSingleNode nodes with
    | .error e => (selected.1, .error e)
    | .ok node =>
      match setObjectValue value selected.1 node with
      | .error e => (selected.1, .error e)
      | .ok root => (root, .ok node)

/-- `XPathVariableQueryEvaluator.assign` and its equal for properties, with the node that was
    assigned. -/
def assign (query : Query P E) (contextNode : Ref) (value : Value) (root : Elem) :
    Elem × Except Thrown Ref :=
  assignSelected value (selectForAssign J query contextNode root)

end XPath

end Jbpm
