/-
  Endpoint references in service reference containers.

  * `Kind`, `EndpointReference`: WS-Addressing and WSDL references, with what they must have;
  * `writeEndpointRef`, `readEndpointRef`: the element of a reference;
  * `write`, `readServiceRef`: the container around it, with the scheme;
  * `reference_survives_iff`: the references that are read from a container as they were written.
-/
import Jbpm.Xml.ObjectValue

namespace Jbpm

open Lib Branch Declarations Xml

namespace Integration.Endpoint

/-! ## References -/

/-- `WsaEndpointReference` and `WsdlEndpointReference` -/
inductive Kind
  | wsa
  | wsdl
  deriving DecidableEq

/-- The parts of a name that count when names are compared. -/
def expandedName (name : Xml.QName) : String × String := (name.namespaceURI, name.localPart.1)

/-- What is known of an endpoint. -/
structure Fields (Q : Type) where
  scheme : Option String
  portTypeName : Option Q
  serviceName : Option Q
  portName : Option String
  address : Option String
  deriving DecidableEq

/-- The address is required with WS-Addressing, the service with WSDL; a port is meaningful only
    with a service. -/
def Fields.Complete {Q : Type} (f : Fields Q) : Kind → Prop
  | .wsa => f.address ≠ none ∧ (f.portName ≠ none → f.serviceName ≠ none)
  | .wsdl => f.serviceName ≠ none ∧ f.portTypeName = none ∧ (f.address ≠ none → f.portName ≠ none)

structure EndpointReference (Q : Type) where
  kind : Kind
  fields : Fields Q
  complete : fields.Complete kind

/-! ## Names -/

/-- `NS_ADDRESSING` -/
def nsAddressing : String := "http://schemas.xmlsoap.org/ws/2004/08/addressing"

/-- `NS_URI_WSDL` -/
def nsWsdl : String := "http://schemas.xmlsoap.org/wsdl/"

/-- `NS_URI_SOAP` -/
def nsSoap : String := "http://schemas.xmlsoap.org/wsdl/soap/"

def wsaName (localName : NCName) : ElementName := ⟨nsAddressing, none, localName, nofun⟩

def wsdlName (localName : NCName) : ElementName :=
  ⟨nsWsdl, some ⟨"wsdl", by decide⟩, localName, fun _ => by decide⟩

/-- The element of a reference. -/
def Kind.name : Kind → ElementName
  | .wsa => wsaName ⟨"EndpointReference", by decide⟩
  | .wsdl => wsdlName ⟨"service", by decide⟩

def addressName : ElementName := wsaName ⟨"Address", by decide⟩

def portTypeName : ElementName := wsaName ⟨"PortType", by decide⟩

def serviceName : ElementName := wsaName ⟨"ServiceName", by decide⟩

def portName : ElementName := wsdlName ⟨"port", by decide⟩

def soapAddressName : ElementName :=
  ⟨nsSoap, some ⟨"soap", by decide⟩, ⟨"address", by decide⟩, fun _ => by decide⟩

/-- `PortName` -/
def portNameAttribute : NCName := ⟨"PortName", by decide⟩

theorem isNCName_name : "name" ≠ "" ∧ ':' ∉ "name".toList := by decide

/-- `name` -/
def nameAttribute : NCName := ⟨"name", isNCName_name⟩

/-- `location` -/
def locationAttribute : NCName := ⟨"location", by decide⟩

/-! ## Elements -/

/-- `createElementNS` -/
def createElement (name : ElementName) : Elem := ⟨⟨name, [], ∅⟩, []⟩

/-- `nodeNameEquals`: prefixes do not count. -/
def sameName (name name' : ElementName) : Bool :=
  name.namespaceURI = name'.namespaceURI ∧ name.localName = name'.localName

/-- `getElement`: the first child with the name -/
def getElement (name : ElementName) (e : Elem) : Option Elem :=
  (e.children.filterMap Tree.toBranch?).find? fun c => sameName c.label.name name

/-- `getAttribute`, which may be `null` -/
def getAttribute (name : NCName) (e : Elem) : Option String :=
  (e.label.attributes.lookup (.unqualified name)).map AttributeValue.text

/-- `XmlUtil.setQNameValue`, with the declarations around the element -/
def setQName (above : Scopes NCName String) (value : Xml.QName) (e : Elem) : Option Elem :=
  (formatQName value ⟨e.label.decls, above, ""⟩).map fun r =>
    setStringValue r.1 { e with label := { e.label with decls := r.2.own } }

/-- The lookup of a prefix, which may be `null` for the default namespace. -/
abbrev PrefixLookup : Type := Scopes NCName String → Option String → Option String

structure PrefixLookup.Lawful (getNamespaceURI : PrefixLookup) : Prop where
  named : LooksUp fun s found => getNamespaceURI s (some found)
  unnamed : ∀ s, getNamespaceURI s none = binding s xmlns

section Read

variable (getNamespaceURI : PrefixLookup)

/-- `XmlUtil.getQNameValue`, with the declarations around the element -/
def getQName (above : Scopes NCName String) (e : Elem) : String × String :=
  getQNameValue (fun s found => getNamespaceURI s (some found))
    ⟨e.label.decls, above, characters e.leaves⟩

/-! ## WS-Addressing -/

/-- `writeEndpointRef`; a prefix may not be generated. -/
def writeWsa (f : Fields Xml.QName) : Option Elem :=
  let e := addNamespaceDeclaration nsAddressing xmlns (createElement (Kind.name .wsa))
  let e := appendChild (setStringValue (f.address.getD "") (createElement addressName)).toTree e
  (match f.portTypeName with
    | none => some e
    | some name => (setQName [e.label.decls] name (createElement portTypeName)).map fun c : Elem =>
      appendChild c.toTree e).bind fun e =>
  match f.serviceName with
  | none => some e
  | some name => (setQName [e.label.decls] name (createElement serviceName)).map fun c : Elem =>
    let c := f.portName.elim c fun port => setAttribute (.unqualified portNameAttribute) port c
    appendChild c.toTree e

/-- `readEndpointRef`, with the declarations around the element -/
def readWsa (above : Scopes NCName String) (scheme : Option String) (e : Elem) :
    Fields (String × String) :=
  let service := getElement serviceName e
  { scheme := scheme
    portTypeName :=
      (getElement portTypeName e).map (getQName getNamespaceURI (e.label.decls :: above))
    serviceName := service.map (getQName getNamespaceURI (e.label.decls :: above))
    portName := service.bind (getAttribute portNameAttribute)
    address := some ((getElement addressName e).elim "" fun c => characters c.leaves) }

/-! ## WSDL -/

/-- `writeEndpointRef`, which fails without a service. -/
def writeWsdl (f : Fields Xml.QName) : Option Elem :=
  f.serviceName.map fun name =>
  let e := addNamespaceDeclaration nsWsdl ⟨"wsdl", by decide⟩ (createElement (Kind.name .wsdl))
  let e := setAttribute (.unqualified nameAttribute) name.localPart.1 e
  let e := addNamespaceDeclaration name.namespaceURI xmlns e
  match f.portName with
  | none => e
  | some port =>
    let p := setAttribute (.unqualified nameAttribute) port (createElement portName)
    match f.address with
    | none => appendChild p.toTree e
    | some address =>
      let a := addNamespaceDeclaration nsSoap ⟨"soap", by decide⟩ (createElement soapAddressName)
      let a := setAttribute (.unqualified locationAttribute) address a
      appendChild (appendChild a.toTree p).toTree e

/-- `readEndpointRef`: an attribute that is absent is empty. -/
def readWsdl (above : Scopes NCName String) (scheme : Option String) (e : Elem) :
    Fields (String × String) :=
  let port := getElement portName e
  { scheme := scheme
    portTypeName := none
    serviceName := some ((getNamespaceURI (e.label.decls :: above) none).getD "",
      (getAttribute nameAttribute e).getD "")
    portName := port.map fun p => (getAttribute nameAttribute p).getD ""
    address := (port.bind (getElement soapAddressName)).map fun a =>
      (getAttribute locationAttribute a).getD "" }

/-! ## Containers -/

def writeEndpointRef (r : EndpointReference Xml.QName) : Option Elem :=
  match r.kind with
  | .wsa => writeWsa r.fields
  | .wsdl => writeWsdl r.fields

def readEndpointRef (above : Scopes NCName String) (scheme : Option String) (e : Elem) :
    Kind → Fields (String × String)
  | .wsa => readWsa getNamespaceURI above scheme e
  | .wsdl => readWsdl getNamespaceURI above scheme e

/-- `acceptsReference` -/
def acceptsReference (endpointRefName : ElementName) (refScheme : Option String)
    (k : Kind) : Bool :=
  (refScheme.getD "" = "" ∨ refScheme = some k.name.namespaceURI) ∧
    sameName endpointRefName k.name

/-- `EndpointReferenceFactory.getInstance` -/
def getInstance (endpointRefName : ElementName) (refScheme : Option String) : Option Kind :=
  [Kind.wsa, .wsdl].find? (acceptsReference endpointRefName refScheme)

/-- `writeServiceRef` to an element of a document -/
def write (r : EndpointReference Xml.QName) (target : List ℕ) (root : Elem) : Option Elem :=
  (writeEndpointRef r).map fun written => writeServiceRef target r.fields.scheme written root

/-- `EndpointReference.readServiceRef`, with the declarations around the element, unless it ends
    with a fault or another exception. -/
def readServiceRef (above : Scopes NCName String) (referenceElem : Elem) :
    Option (Kind × Fields (String × String)) :=
  if isServiceRef referenceElem.label.name then
    let scheme := (getAttribute schemeAttribute referenceElem).getD ""
    ((referenceElem.children.filterMap Tree.toBranch?).head?).bind fun c =>
    (getInstance c.label.name (some scheme)).map fun k =>
      (k, readEndpointRef getNamespaceURI (referenceElem.label.decls :: above) (some scheme) c k)
  else
    (getInstance referenceElem.label.name none).map fun k =>
      (k, readEndpointRef getNamespaceURI above none referenceElem k)

end Read

/-! ## References that survive -/

/-- The reference is read with the same kind and the same data; a scheme that is absent is like an
    empty one. -/
def Survives (getNamespaceURI : PrefixLookup) (r : EndpointReference Xml.QName) (target : List ℕ)
    (root : Elem) : Prop :=
  ∃ root' e f, write r target root = some root' ∧ root'.at? target = some e ∧
    readServiceRef getNamespaceURI (scopes target root').tail e = some (r.kind, f) ∧
    f.scheme.getD "" = r.fields.scheme.getD "" ∧
    f.portTypeName = r.fields.portTypeName.map expandedName ∧
    f.serviceName = r.fields.serviceName.map expandedName ∧
    f.portName = r.fields.portName ∧ f.address = r.fields.address

/-- There is no scheme, and with WS-Addressing no name is in its own namespace: that is the default
    one of the element. -/
def Encodable (r : EndpointReference Xml.QName) : Prop :=
  r.fields.scheme.getD "" = "" ∧
    (r.kind = .wsa → ∀ name,
      r.fields.portTypeName = some name ∨ r.fields.serviceName = some name →
        name.namespaceURI ≠ nsAddressing)

variable {getNamespaceURI : PrefixLookup} {above : Scopes NCName String} {scheme : Option String}
  {e : Elem}

theorem getAttribute_setAttribute (name : NCName) (value : String) (e : Elem) :
    getAttribute name (setAttribute (.unqualified name) value e) = some value :=
  congrArg (Option.map AttributeValue.text) <|
    @AList.lookup_insert AttributeName AttributeValue _ (.unqualified name) value e.label.attributes

/-- The container is read without the scheme that was written. -/
theorem readServiceRef_set (hc : isServiceRef e.label.name) (written : Elem) :
    readServiceRef getNamespaceURI above (setServiceRef scheme written e) =
      (getInstance written.label.name (some "")).map fun k =>
        (k, readEndpointRef getNamespaceURI ([] :: above) (some "") written k) := by
  have hname : (setServiceRef scheme written e).label.name = e.label.name := by
    unfold setServiceRef
    split <;> rfl
  have hdecls : (setServiceRef scheme written e).label.decls = [] := by
    unfold setServiceRef
    split <;> rfl
  have hchildren : (setServiceRef scheme written e).children = [written.toTree] := by
    unfold setServiceRef
    split <;> rfl
  have hscheme : (getAttribute schemeAttribute (setServiceRef scheme written e)).getD "" = "" := by
    unfold setServiceRef
    split
    · exact congrArg (·.getD "") (getAttribute_setAttribute schemeAttribute "" _)
    · rfl
  simp only [readServiceRef, hname, hc, if_true, hchildren, hscheme, hdecls]
  rfl

theorem getInstance_name (k : Kind) : getInstance k.name (some "") = some k := by
  cases k <;> decide

/-! ### Names -/

/-- The declarations of the element of a WS-Addressing reference. -/
def addressingScope : List (NCName × String) := [(xmlns, nsAddressing)]

/-- The element of a name. -/
def nameElement (name : ElementName) (value : Xml.QName) : Elem :=
  setStringValue (formatted nsAddressing value).1
    { createElement name with label := ⟨name, (formatted nsAddressing value).2, ∅⟩ }

theorem setQName_new (value : Xml.QName) (name : ElementName) :
    setQName [addressingScope] value (createElement name) = some (nameElement name value) := by
  have hnew : (createElement name).label.decls = [] := rfl
  rw [setQName, hnew, formatQName_default rfl]
  rfl

@[simp] theorem characters_setStringValue (name : ElementName) (decls : List (NCName × String))
    (text : String) : characters (setStringValue text ⟨⟨name, decls, ∅⟩, []⟩).leaves = text := by
  simp [characters, setStringValue, textChild, Branch.leaves, Tree.leavesAll, Tree.leaves,
    String.join]

theorem getQName_nameElement (h : getNamespaceURI.Lawful) (name : ElementName) (value : Xml.QName)
    (above : Scopes NCName String) :
    getQName getNamespaceURI (addressingScope :: above) (nameElement name value) =
      Xml.reread nsAddressing value := by
  have hget : getQName getNamespaceURI (addressingScope :: above) (nameElement name value) =
      parseQName (fun s found => getNamespaceURI s (some found)) (formatted nsAddressing value).1
        ((formatted nsAddressing value).2 :: addressingScope :: above) := by
    rw [getQName, getQNameValue, nameElement, createElement, characters_setStringValue]
    rfl
  rw [hget]
  exact parseQName_formatted h.named nsAddressing value _

/-! ### Elements -/

/-- What is written for a WS-Addressing reference, with the children after the address. -/
def wsaElement (f : Fields Xml.QName) : Elem :=
  let port := fun c : Elem => f.portName.elim c fun port =>
    setAttribute (.unqualified portNameAttribute) port c
  ⟨⟨Kind.name .wsa, addressingScope, ∅⟩,
    (setStringValue (f.address.getD "") (createElement addressName)).toTree ::
      ((f.portTypeName.map fun name => (nameElement portTypeName name).toTree).toList ++
        (f.serviceName.map fun name => (port (nameElement serviceName name)).toTree).toList)⟩

theorem writeWsa_eq (f : Fields Xml.QName) : writeWsa f = some (wsaElement f) := by
  have hdecls : (addNamespaceDeclaration nsAddressing xmlns
      (createElement (Kind.name .wsa))).label.decls = addressingScope := rfl
  unfold writeWsa wsaElement
  simp only [appendChild, hdecls]
  cases f.portTypeName with
  | none =>
    cases f.serviceName with
    | none => rfl
    | some s =>
      simp only [Option.bind_some, hdecls]
      rw [setQName_new]
      rfl
  | some p =>
    simp only [hdecls, setQName_new, Option.map_some, Option.bind_some]
    cases f.serviceName with
    | none => rfl
    | some s => rfl

theorem label_wsaElement (f : Fields Xml.QName) : (wsaElement f).label.name = Kind.name .wsa := rfl

/-- The port is an attribute of the service. -/
def portAttribute (port : Option String) (e : Elem) : Elem :=
  port.elim e fun port => setAttribute (.unqualified portNameAttribute) port e

theorem getElement_wsaElement (f : Fields Xml.QName) :
    getElement addressName (wsaElement f) =
        some (setStringValue (f.address.getD "") (createElement addressName)) ∧
      getElement portTypeName (wsaElement f) = f.portTypeName.map (nameElement portTypeName) ∧
      getElement serviceName (wsaElement f) =
        f.serviceName.map fun name => portAttribute f.portName (nameElement serviceName name) := by
  unfold wsaElement portAttribute
  cases f.portTypeName <;> cases f.serviceName <;> cases f.portName <;> exact ⟨rfl, rfl, rfl⟩

theorem readWsa_wsaElement (h : getNamespaceURI.Lawful) (above : Scopes NCName String)
    (f : Fields Xml.QName) :
    readWsa getNamespaceURI above scheme (wsaElement f) =
      { scheme := scheme
        portTypeName := f.portTypeName.map (Xml.reread nsAddressing)
        serviceName := f.serviceName.map (Xml.reread nsAddressing)
        portName := f.serviceName.bind fun _ => f.portName
        address := some (f.address.getD "") } := by
  obtain ⟨haddress, hportType, hservice⟩ := getElement_wsaElement f
  have hport : ∀ name, getQName getNamespaceURI (addressingScope :: above)
      (nameElement portTypeName name) = Xml.reread nsAddressing name :=
    fun name => getQName_nameElement h _ name above
  have hname : ∀ name, getQName getNamespaceURI (addressingScope :: above)
      (portAttribute f.portName (nameElement serviceName name)) =
        Xml.reread nsAddressing name := by
    intro name
    rw [← getQName_nameElement h serviceName name above]
    cases f.portName <;> rfl
  have hattribute : ∀ name, getAttribute portNameAttribute
      (portAttribute f.portName (nameElement serviceName name)) = f.portName := by
    intro name
    cases f.portName with
    | none => rfl
    | some port => exact getAttribute_setAttribute portNameAttribute port _
  have htext : characters (setStringValue (f.address.getD "") (createElement addressName)).leaves =
      f.address.getD "" := characters_setStringValue ..
  have hdecls : (wsaElement f).label.decls = addressingScope := rfl
  rw [readWsa, haddress, hportType, hservice, hdecls]
  simp only [Option.map_map, Option.bind_map, Function.comp_def, hport, hname, hattribute,
    Option.elim_some, htext]

/-- The element of an address. -/
def soapAddress (address : String) : Elem :=
  setAttribute (.unqualified locationAttribute) address
    (addNamespaceDeclaration nsSoap ⟨"soap", by decide⟩ (createElement soapAddressName))

/-- The element of a port. -/
def portElement (address : Option String) (port : String) : Elem :=
  { setAttribute (.unqualified nameAttribute) port (createElement portName) with
    children := (address.map fun address => (soapAddress address).toTree).toList }

/-- What is written for a WSDL reference. -/
def wsdlElement (f : Fields Xml.QName) (name : Xml.QName) : Elem :=
  let e := addNamespaceDeclaration nsWsdl ⟨"wsdl", by decide⟩ (createElement (Kind.name .wsdl))
  let e := setAttribute (.unqualified nameAttribute) name.localPart.1 e
  { addNamespaceDeclaration name.namespaceURI xmlns e with
    children := (f.portName.map fun port => (portElement f.address port).toTree).toList }

theorem writeWsdl_eq (f : Fields Xml.QName) : writeWsdl f = f.serviceName.map (wsdlElement f) := by
  unfold writeWsdl wsdlElement
  cases f.portName with
  | none => rfl
  | some port => cases f.address <;> rfl

theorem getElement_portElement (address : Option String) (port : String) :
    getElement soapAddressName (portElement address port) = address.map soapAddress := by
  cases address <;> rfl

theorem getElement_wsdlElement (f : Fields Xml.QName) (name : Xml.QName) :
    getElement portName (wsdlElement f name) = f.portName.map (portElement f.address) := by
  unfold wsdlElement
  cases f.portName <;> rfl

theorem readWsdl_wsdlElement (h : getNamespaceURI.Lawful) (above : Scopes NCName String)
    (f : Fields Xml.QName) (name : Xml.QName) :
    readWsdl getNamespaceURI above scheme (wsdlElement f name) =
      { scheme := scheme
        portTypeName := none
        serviceName := some (expandedName name)
        portName := f.portName
        address := f.portName.bind fun _ => f.address } := by
  have hdecls : binding ((wsdlElement f name).label.decls :: above) xmlns =
      some name.namespaceURI := rfl
  have hname : getAttribute nameAttribute (wsdlElement f name) = some name.localPart.1 :=
    getAttribute_setAttribute nameAttribute name.localPart.1 _
  have hport : ∀ port, getAttribute nameAttribute (portElement f.address port) = some port :=
    fun port => getAttribute_setAttribute nameAttribute port _
  have haddress : ∀ address, getAttribute locationAttribute (soapAddress address) = some address :=
    fun address => getAttribute_setAttribute locationAttribute address _
  rw [readWsdl, h.unnamed, hdecls, hname, getElement_wsdlElement]
  simp only [Option.map_map, Option.bind_map, Option.map_bind, Function.comp_def, hport,
    getElement_portElement, haddress, Option.getD_some, Option.map_id']
  rfl

/-! ### References -/

/-- What is read of a reference that was written to a container. -/
def reread (r : EndpointReference Xml.QName) : Fields (String × String) :=
  let name := match r.kind with
    | .wsa => Xml.reread nsAddressing
    | .wsdl => expandedName
  { scheme := some ""
    portTypeName := r.fields.portTypeName.map name
    serviceName := r.fields.serviceName.map name
    portName := r.fields.portName
    address := r.fields.address }

theorem readServiceRef_written (r : EndpointReference Xml.QName) (h : getNamespaceURI.Lawful)
    (hc : isServiceRef e.label.name) :
    ∃ written, writeEndpointRef r = some written ∧ ∀ above scheme,
      readServiceRef getNamespaceURI above (setServiceRef scheme written e) =
        some (r.kind, reread r) := by
  obtain ⟨kind, f, hf⟩ := r
  cases kind with
  | wsa =>
    refine ⟨_, writeWsa_eq f, fun above scheme => ?_⟩
    rw [readServiceRef_set hc, label_wsaElement, getInstance_name, Option.map_some,
      readEndpointRef, readWsa_wsaElement h]
    obtain ⟨address, haddress⟩ := Option.ne_none_iff_exists'.1 hf.1
    have hport : (f.serviceName.bind fun _ => f.portName) = f.portName := by
      cases hservice : f.serviceName with
      | none => exact (not_ne_iff.1 fun hp => hf.2 hp hservice).symm
      | some => rfl
    simp only [hport, haddress, reread, Option.getD_some]
  | wsdl =>
    obtain ⟨name, hname⟩ := Option.ne_none_iff_exists'.1 hf.1
    refine ⟨wsdlElement f name, ?_, fun above scheme => ?_⟩
    · rw [writeEndpointRef, writeWsdl_eq, hname]
      rfl
    · have hlabel : (wsdlElement f name).label.name = Kind.name .wsdl := rfl
      rw [readServiceRef_set hc, hlabel, getInstance_name, Option.map_some, readEndpointRef,
        readWsdl_wsdlElement h]
      have haddress : (f.portName.bind fun _ => f.address) = f.address := by
        cases hport : f.portName with
        | none => exact (not_ne_iff.1 fun ha => hf.2.2 ha hport).symm
        | some => rfl
      rw [haddress]
      simp only [reread, hf.2.1, hname, Option.map_some, Option.map_none]

theorem write_eq (r : EndpointReference Xml.QName) {target : List ℕ} {root written : Elem}
    (he : root.at? target = some e) (hc : isServiceRef e.label.name)
    (hwritten : writeEndpointRef r = some written) :
    write r target root = some (modify (setServiceRef r.fields.scheme written) target root) := by
  have hany : ((root.at? target).any fun e => isServiceRef e.label.name) = true := by
    rw [he]
    exact hc
  rw [write, hwritten, Option.map_some, writeServiceRef, if_pos hany]

theorem map_eq_map_iff {α β : Type} {f g : α → β} (o : Option α) :
    o.map f = o.map g ↔ ∀ a, o = some a → f a = g a := by
  cases o <;> simp

/-- The names are read as they were written, and there was no scheme. -/
theorem reread_iff (r : EndpointReference Xml.QName) :
    ("" = r.fields.scheme.getD "" ∧
      (reread r).portTypeName = r.fields.portTypeName.map expandedName ∧
      (reread r).serviceName = r.fields.serviceName.map expandedName) ↔ Encodable r := by
  have hname : ∀ value, Xml.reread nsAddressing value = expandedName value ↔
      value.namespaceURI ≠ nsAddressing := reread_eq_iff (by decide)
  rw [Encodable, eq_comm]
  refine and_congr_right fun _ => ?_
  obtain ⟨kind, f, hf⟩ := r
  cases kind with
  | wsdl => simp [reread]
  | wsa =>
    simp only [reread, map_eq_map_iff, hname, forall_const]
    constructor
    · rintro ⟨hport, hservice⟩ name (hn | hn)
      · exact hport name hn
      · exact hservice name hn
    · exact fun hn => ⟨fun name hp => hn name (.inl hp), fun name hs => hn name (.inr hs)⟩

/-- A container keeps the references that are encodable, and no other one. -/
theorem reference_survives_iff (r : EndpointReference Xml.QName) {target : List ℕ} {root : Elem}
    (h : getNamespaceURI.Lawful)
    (hc : ∃ e, root.at? target = some e ∧ isServiceRef e.label.name) :
    Survives getNamespaceURI r target root ↔ Encodable r := by
  obtain ⟨e, he, hc⟩ := hc
  obtain ⟨written, hwritten, hread⟩ := readServiceRef_written r h hc
  have hwrite := write_eq r he hc hwritten
  have hat : (modify (setServiceRef r.fields.scheme written) target root).at? target =
      some (setServiceRef r.fields.scheme written e) := by
    rw [at?_modify_self, he]
    rfl
  rw [← reread_iff]
  constructor
  · rintro ⟨root', e', f, hw, he', hf, hscheme, hport, hservice, -, -⟩
    obtain rfl := Option.some.inj (hwrite.symm.trans hw)
    obtain rfl := Option.some.inj (hat.symm.trans he')
    obtain rfl := (Prod.mk.inj (Option.some.inj ((hread _ _).symm.trans hf))).2
    exact ⟨hscheme, hport, hservice⟩
  · rintro ⟨hscheme, hport, hservice⟩
    exact ⟨_, _, _, hwrite, hat, hread _ _, hscheme, hport, hservice, rfl, rfl⟩

/-! ### Runs -/

/-- The innermost declaration, and none for the empty prefix. -/
def innermostURI : PrefixLookup
  | s, some found => declaredURI s found
  | s, none => binding s xmlns

theorem innermostURI_lawful : PrefixLookup.Lawful innermostURI where
  named := declaredURI_looksUp
  unnamed _ := rfl

/-- A container without content. -/
def emptyContainer : Elem :=
  createElement ⟨"http://docs.oasis-open.org/wsbpel/2.0/serviceref", none,
    ⟨"service-ref", by decide⟩, nofun⟩

def pizzaService : Xml.QName where
  namespaceURI := "urn:pizzas:srv"
  localPart := ⟨"pizzaService", by decide⟩
  prefix_ := none

/-- A reference to a WSDL service. -/
def pizzaReference (scheme : Option String) : EndpointReference Xml.QName where
  kind := .wsdl
  fields := ⟨scheme, none, some pizzaService, some "pizzaPort", none⟩
  complete := ⟨nofun, rfl, fun _ => nofun⟩

/-- A reference with its port is kept. -/
theorem pizzaReference_survives :
    innermostURI.Lawful ∧ Survives innermostURI (pizzaReference none) [] emptyContainer :=
  ⟨innermostURI_lawful,
    (reference_survives_iff (pizzaReference none) innermostURI_lawful
      ⟨emptyContainer, rfl, by decide⟩).2 ⟨rfl, nofun⟩⟩

/-- The scheme of the reference is not in the container. -/
theorem scheme_lost : ¬ Survives innermostURI (pizzaReference (some nsWsdl)) [] emptyContainer := by
  rintro ⟨root', e, f, hwrite, he, hread, hscheme, -⟩
  have hc : isServiceRef emptyContainer.label.name := by decide
  obtain ⟨written, hwritten, hreread⟩ :=
    readServiceRef_written (pizzaReference (some nsWsdl)) innermostURI_lawful hc
  obtain rfl := Option.some.inj ((write_eq _ (at?_nil _) hc hwritten).symm.trans hwrite)
  obtain rfl := Option.some.inj he
  obtain rfl := (Prod.mk.inj (Option.some.inj ((hreread _ _).symm.trans hread))).2
  exact absurd hscheme (show ¬ "" = nsWsdl by decide)

end Integration.Endpoint

end Jbpm
