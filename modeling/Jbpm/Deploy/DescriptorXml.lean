/-
  Deployment descriptors as elements.

  * `write`, `read`: the writer and the reader, with a codec for catalogs;
  * `read_write`: what is read of a descriptor that was written;
  * `survives_descriptor_iff`: the descriptors that are read as they were written.
-/
import Jbpm.Deploy.DeploymentDescriptor
import Jbpm.Integration.EndpointReference

namespace Jbpm

open Lib Branch Declarations Xml Integration.Endpoint

namespace Deploy

/-! ## Names -/

/-- `NS_DEPLOYMENT_DESCRIPTOR` -/
def nsDeployment : String := "urn:jbpm.org:bpel-1.1:deployment"

def deploymentName (localName : NCName) : ElementName := ⟨nsDeployment, none, localName, nofun⟩

def bpelDeploymentName : ElementName := deploymentName ⟨"bpelDeployment", by decide⟩

def partnerLinksName : ElementName := deploymentName ⟨"partnerLinks", by decide⟩

def partnerLinkName : ElementName := deploymentName ⟨"partnerLink", by decide⟩

def myRoleName : ElementName := deploymentName ⟨"myRole", by decide⟩

def partnerRoleName : ElementName := deploymentName ⟨"partnerRole", by decide⟩

def scopesName : ElementName := deploymentName ⟨"scopes", by decide⟩

def scopeName : ElementName := deploymentName ⟨"scope", by decide⟩

def serviceCatalogsName : ElementName := deploymentName ⟨"serviceCatalogs", by decide⟩

theorem isNCName_serviceRef : "service-ref" ≠ "" ∧ ':' ∉ "service-ref".toList := by decide

def serviceRefName : ElementName :=
  ⟨"http://docs.oasis-open.org/wsbpel/2.0/serviceref", none, ⟨"service-ref", isNCName_serviceRef⟩,
    ElementName.ne_of_no_prefix⟩

def handleAttribute : NCName := ⟨"handle", by decide⟩

theorem isNCName_service : "service" ≠ "" ∧ ':' ∉ "service".toList := by decide

def serviceAttribute : NCName := ⟨"service", isNCName_service⟩

theorem isNCName_port : "port" ≠ "" ∧ ':' ∉ "port".toList := by decide

def portAttribute : NCName := ⟨"port", isNCName_port⟩

def initiateAttribute : NCName := ⟨"initiate", by decide⟩

def targetNamespaceAttribute : NCName := ⟨"targetNamespace", by decide⟩

def versionAttribute : NCName := ⟨"version", by decide⟩

/-- `getName` -/
def InitiateMode.name : InitiateMode → String
  | .static => "static"
  | .push => "push"
  | .pull => "pull"

/-- `InitiateMode.valueOf` -/
def InitiateMode.valueOf : Option String → Option InitiateMode
  | none => some .static
  | some name => [InitiateMode.static, .push, .pull].find? fun m => m.name = name

/-! ## The writer -/

/-- `setAttribute`, unless the value is `null` -/
def setOptional (name : NCName) (value : Option String) (e : Elem) : Elem :=
  value.elim e fun text => setAttribute (.unqualified name) text e

/-- `setQNameValue` of an attribute -/
def setQNameAttribute (above : Scopes NCName String) (name : NCName) (value : Xml.QName)
    (e : Elem) : Option Elem :=
  (formatQName value ⟨e.label.decls, above, ""⟩).map fun r =>
    setAttribute (.unqualified name) r.1 { e with label := { e.label with decls := r.2.own } }

/-- Children are appended, if all are written. -/
def appendWritten (children : List (Option Elem)) (e : Elem) : Option Elem :=
  (children.mapM id).map fun cs => { e with children := e.children ++ cs.map Branch.toTree }

def writeMyRole (above : Scopes NCName String) (r : MyRoleDescriptor Xml.QName) : Option Elem :=
  let e := setOptional handleAttribute r.handle (createElement myRoleName)
  (match r.service with
    | none => some e
    | some service => setQNameAttribute above serviceAttribute service e).map
  (setOptional portAttribute r.port)

def writePartnerRole (r : PartnerRoleDescriptor (EndpointReference Xml.QName)) : Option Elem :=
  let e := setOptional initiateAttribute (r.initiateMode.map InitiateMode.name)
    (createElement partnerRoleName)
  appendWritten (r.endpointReference.map fun reference =>
    Integration.Endpoint.write reference [] (createElement serviceRefName)).toList e

def writePartnerLink (above : Scopes NCName String)
    (l : PartnerLinkDescriptor Xml.QName (EndpointReference Xml.QName)) : Option Elem :=
  let e := setAttribute (.unqualified nameAttribute) l.name (createElement partnerLinkName)
  appendWritten ((l.partnerRole.map writePartnerRole).toList ++
    (l.myRole.map (writeMyRole (e.label.decls :: above))).toList) e

/-- `writePartnerLinks`, unless there are none -/
def writePartnerLinks (above : Scopes NCName String)
    (links : List (PartnerLinkDescriptor Xml.QName (EndpointReference Xml.QName))) :
    List (Option Elem) :=
  if links.isEmpty then []
  else
    let e := createElement partnerLinksName
    [appendWritten (links.map (writePartnerLink (e.label.decls :: above))) e]

/-- `writeScope` to an element, with the elements of the inner scopes -/
def writeScopeWith (above : Scopes NCName String) (name : Option String)
    (links : List (PartnerLinkDescriptor Xml.QName (EndpointReference Xml.QName)))
    (scopes : List (Option Elem)) (e : Elem) : Option Elem :=
  let e := setOptional nameAttribute name e
  appendWritten (writePartnerLinks (e.label.decls :: above) links ++
    if scopes.isEmpty then [] else [appendWritten scopes (createElement scopesName)]) e

mutual

def writeScope (above : Scopes NCName String) (e : Elem) :
    ScopeDescriptor Xml.QName (EndpointReference Xml.QName) → Option Elem
  | .mk name links scopes =>
    writeScopeWith above name links (writeScopes ([] :: e.label.decls :: above) scopes) e

/-- The elements of `writeScopes` -/
def writeScopes (above : Scopes NCName String) :
    List (ScopeDescriptor Xml.QName (EndpointReference Xml.QName)) → List (Option Elem)
  | [] => []
  | s :: ss => writeScope above (createElement scopeName) s :: writeScopes above ss

end

/-- The writers and readers of catalogs, if there is one for a class or an element. -/
structure CatalogCodec (C : Type) where
  write : C → Option Elem
  read : Elem → Option C

/-- What is written is read again. -/
def CatalogCodec.Faithful {C : Type} (codec : CatalogCodec C) : Prop :=
  ∀ c, ∃ e, codec.write c = some e ∧ e.label.name.namespaceURI = nsDeployment ∧
    codec.read e = some c

section Codec

variable {C : Type} (codec : CatalogCodec C)

def ServiceCatalog.catalogs : ServiceCatalog C → List C
  | .leaf c => [c]
  | .composite cs => cs

/-- `writeServiceCatalogs`: a catalog that is not recognized is left out. -/
def writeServiceCatalogs (c : ServiceCatalog C) : Elem :=
  ⟨⟨serviceCatalogsName, [], ∅⟩, (c.catalogs.filterMap codec.write).map Branch.toTree⟩

/-- `DeploymentDescriptorWriter.write`: an attribute that is set to `null` is empty. -/
def write (d : DeploymentDescriptor Xml.QName (EndpointReference Xml.QName) C)
    (descriptorElem : Elem) : Option Elem :=
  (writeScope [] descriptorElem d.scope).map fun e =>
    let e := setAttribute (.unqualified targetNamespaceAttribute) (d.targetNamespace.getD "") e
    let e := setOptional versionAttribute (d.version.map fun n => String.ofList (Java.intText n)) e
    d.serviceCatalog.elim e fun c => appendChild (writeServiceCatalogs codec c).toTree e

end Codec

/-! ## The reader -/

inductive Problem
  | portWithoutService
  | notStatic
  | missingEndpointReference
  | unrecognizedCatalog
  deriving DecidableEq

/-- The problems are handled while an element is read, unless there is an exception. -/
abbrev Reading (α : Type) : Type := StateT (List Problem) Option α

def addProblem (p : Problem) : Reading Unit := modify fun ps => ps ++ [p]

section Read

variable (getNamespaceURI : PrefixLookup)

def readMyRole (above : Scopes NCName String) (e : Elem) :
    Reading (MyRoleDescriptor (String × String)) := do
  let handle := getAttribute handleAttribute e
  let service := (getAttribute serviceAttribute e).map fun text =>
    parseQName (fun s found => getNamespaceURI s (some found)) text (e.label.decls :: above)
  let port := getAttribute portAttribute e
  if service = none ∧ port ≠ none then addProblem .portWithoutService
  return ⟨handle, service, if service = none then none else port⟩

def readPartnerRole (above : Scopes NCName String) (e : Elem) :
    Reading (PartnerRoleDescriptor (Kind × Fields (String × String))) := do
  let mode := InitiateMode.valueOf (getAttribute initiateAttribute e)
  match (e.children.filterMap Tree.toBranch?).head? with
  | some referenceElem =>
    if mode = some .static then
      let reference ←
        (readServiceRef getNamespaceURI (e.label.decls :: above) referenceElem : Option _)
      return ⟨mode, some reference⟩
    else
      addProblem .notStatic
      return ⟨mode, none⟩
  | none =>
    if mode = some .static then addProblem .missingEndpointReference
    return ⟨mode, none⟩

def readPartnerLink (above : Scopes NCName String) (e : Elem) :
    Reading (PartnerLinkDescriptor (String × String) (Kind × Fields (String × String))) := do
  let myRole ← (getElement myRoleName e).mapM (readMyRole getNamespaceURI (e.label.decls :: above))
  let partnerRole ←
    (getElement partnerRoleName e).mapM (readPartnerRole getNamespaceURI (e.label.decls :: above))
  return ⟨(getAttribute nameAttribute e).getD "", partnerRole, myRole⟩

/-- `addPartnerLink`: the link is put in a map. -/
def addPartnerLink {Q R : Type} (links : List (PartnerLinkDescriptor Q R))
    (l : PartnerLinkDescriptor Q R) : List (PartnerLinkDescriptor Q R) :=
  if links.any fun l' => l'.name = l.name then
    links.map fun l' => if l'.name = l.name then l else l'
  else links ++ [l]

/-- The child elements with a name. -/
def getElements (name : ElementName) (e : Elem) : List Elem :=
  (e.children.filterMap Tree.toBranch?).filter fun c => sameName c.label.name name

def readPartnerLinks (above : Scopes NCName String) (e : Elem) :
    Reading (List (PartnerLinkDescriptor (String × String) (Kind × Fields (String × String)))) :=
  (getElements partnerLinkName e).foldlM (fun links c => do
    let l ← readPartnerLink getNamespaceURI (e.label.decls :: above) c
    return addPartnerLink links l) []

/-- `readScope`, with what reads the inner scopes -/
def readScopeWith (above : Scopes NCName String) (e : Elem)
    (inner : Reading (List (ScopeDescriptor (String × String) (Kind × Fields (String × String))))) :
    Reading (ScopeDescriptor (String × String) (Kind × Fields (String × String))) := do
  let links ← (getElement partnerLinksName e).elim (pure [])
    (readPartnerLinks getNamespaceURI (e.label.decls :: above))
  let scopes ← inner
  return .mk (getAttribute nameAttribute e) links scopes

mutual

/-- The scopes in the first element for scopes among the nodes. -/
def scopesAmong (above : Scopes NCName String) : List Node →
    Reading (List (ScopeDescriptor (String × String) (Kind × Fields (String × String))))
  | [] => pure []
  | .leaf _ :: rest => scopesAmong above rest
  | .branch label children :: rest =>
    if sameName label.name scopesName then readScopes (label.decls :: above) children
    else scopesAmong above rest

def readScopes (above : Scopes NCName String) : List Node →
    Reading (List (ScopeDescriptor (String × String) (Kind × Fields (String × String))))
  | [] => pure []
  | .leaf _ :: rest => readScopes above rest
  | .branch label children :: rest =>
    do
      let own ← if sameName label.name scopeName then do
          let s ← readScopeWith getNamespaceURI above ⟨label, children⟩
            (scopesAmong (label.decls :: above) children)
          pure [s]
        else pure []
      let ss ← readScopes above rest
      return own ++ ss

end

def readScope (above : Scopes NCName String) (e : Elem) :
    Reading (ScopeDescriptor (String × String) (Kind × Fields (String × String))) :=
  readScopeWith getNamespaceURI above e
    (scopesAmong getNamespaceURI (e.label.decls :: above) e.children)

variable {C : Type} (codec : CatalogCodec C)

/-- `readServiceCatalogs`: the catalogs that are recognized -/
def readServiceCatalogs (e : Elem) : Reading (Option (ServiceCatalog C)) := do
  let elems := (e.children.filterMap Tree.toBranch?).filter fun c =>
    c.label.name.namespaceURI = nsDeployment
  let catalogs ← elems.foldlM (fun (cs : List C) c =>
    match codec.read c with
    | some catalog => pure (cs ++ [catalog])
    | none => do
      addProblem .unrecognizedCatalog
      return cs) []
  return match catalogs with
    | [] => none
    | [c] => some (.leaf c)
    | cs => some (.composite cs)

/-- `DeploymentDescriptorReader.read` of a parsed element -/
def read (descriptorElem : Elem) :
    Reading (DeploymentDescriptor (String × String) (Kind × Fields (String × String)) C) := do
  let scope ← readScope getNamespaceURI [] descriptorElem
  let version ← (getAttribute versionAttribute descriptorElem).mapM fun text =>
    (Java.parseInt text.toList : Option ℤ)
  let catalog ← (getElement serviceCatalogsName descriptorElem).elim (pure none)
    (readServiceCatalogs codec)
  return ⟨scope, getAttribute targetNamespaceAttribute descriptorElem, version, catalog⟩

end Read

/-! ## What is read of a descriptor that was written -/

variable {getNamespaceURI : PrefixLookup} {above : Scopes NCName String} {e : Elem}

section Attributes

variable {name name' : NCName}

theorem getAttribute_setAttribute_ne (h : name ≠ name') (value : String) (e : Elem) :
    getAttribute name (setAttribute (.unqualified name') value e) = getAttribute name e :=
  congrArg (Option.map AttributeValue.text) <|
    @AList.lookup_insert_ne AttributeName AttributeValue _ (.unqualified name)
      (.unqualified name') value e.label.attributes (by simpa using h)

theorem getAttribute_setOptional (name : NCName) (value : Option String) (e : Elem) :
    getAttribute name (setOptional name value e) = value.or (getAttribute name e) := by
  cases value with
  | none => rfl
  | some text => exact getAttribute_setAttribute name text e

theorem getAttribute_setOptional_ne (h : name ≠ name') (value : Option String) (e : Elem) :
    getAttribute name (setOptional name' value e) = getAttribute name e := by
  cases value with
  | none => rfl
  | some text => exact getAttribute_setAttribute_ne h text e

theorem getAttribute_createElement (name : NCName) (n : ElementName) :
    getAttribute name (createElement n) = none := rfl

@[simp] theorem name_setOptional (value : Option String) (e : Elem) :
    (setOptional name value e).label.name = e.label.name := by
  cases value <;> rfl

@[simp] theorem decls_setOptional (value : Option String) (e : Elem) :
    (setOptional name value e).label.decls = e.label.decls := by
  cases value <;> rfl

@[simp] theorem children_setOptional (value : Option String) (e : Elem) :
    (setOptional name value e).children = e.children := by
  cases value <;> rfl

end Attributes

/-- Nothing but the default namespace is declared around the elements that are written. -/
def Plain (s : Scopes NCName String) : Prop := s.flatten = [(xmlns, nsDeployment)]

theorem Plain.cons (h : Plain above) : Plain ([] :: above) := h

/-! ### Roles -/

/-- The declarations of an element are replaced. -/
def withDecls (decls : List (NCName × String)) (e : Elem) : Elem :=
  { e with label := { e.label with decls := decls } }

theorem getAttribute_withDecls (name : NCName) (decls : List (NCName × String)) (e : Elem) :
    getAttribute name (withDecls decls e) = getAttribute name e := rfl

/-- What is written for a role. -/
def myRoleElement (r : MyRoleDescriptor Xml.QName) : Elem :=
  let e := setOptional handleAttribute r.handle (createElement myRoleName)
  setOptional portAttribute r.port (r.service.elim e fun value =>
    setAttribute (.unqualified serviceAttribute) (formatted nsDeployment value).1
      (withDecls (formatted nsDeployment value).2 e))

theorem name_myRoleElement (r : MyRoleDescriptor Xml.QName) :
    (myRoleElement r).label.name = myRoleName := by
  unfold myRoleElement
  cases r.service with
  | none => rw [name_setOptional, Option.elim_none, name_setOptional]; rfl
  | some value =>
    rw [name_setOptional, Option.elim_some]
    exact name_setOptional ..

theorem writeMyRole_eq (habove : Plain above) (r : MyRoleDescriptor Xml.QName) :
    writeMyRole above r = some (myRoleElement r) := by
  have hwrite : ∀ (value : Xml.QName) (e : Elem), e.label.decls = [] →
      setQNameAttribute above serviceAttribute value e =
        some (setAttribute (.unqualified serviceAttribute) (formatted nsDeployment value).1
          (withDecls (formatted nsDeployment value).2 e)) := by
    intro value e he
    rw [setQNameAttribute, he, formatQName_default habove]
    rfl
  unfold writeMyRole myRoleElement
  cases r.service with
  | none => rfl
  | some value =>
    dsimp only
    rw [hwrite value _ (decls_setOptional ..)]
    rfl

theorem readMyRole_myRoleElement (h : getNamespaceURI.Lawful) {r : MyRoleDescriptor Xml.QName}
    (hr : r.Sound) (above : Scopes NCName String) :
    readMyRole getNamespaceURI above (myRoleElement r) = pure (r.map (reread nsDeployment)) := by
  obtain ⟨handle, service, port⟩ := r
  have hsp : serviceAttribute ≠ portAttribute := by decide
  have hhp : handleAttribute ≠ portAttribute := by decide
  have hhs : handleAttribute ≠ serviceAttribute := by decide
  cases service with
  | none =>
    obtain rfl : port = none := not_ne_iff.1 fun hp => hr hp rfl
    simp only [readMyRole, myRoleElement, Option.elim_none, getAttribute_setOptional,
      getAttribute_setOptional_ne hhp, getAttribute_setOptional_ne hsp,
      getAttribute_setOptional_ne hhs.symm, getAttribute_setOptional_ne hhp.symm,
      getAttribute_createElement]
    cases handle <;> rfl
  | some value =>
    have hparse : parseQName (fun s found => getNamespaceURI s (some found))
        (formatted nsDeployment value).1 ((formatted nsDeployment value).2 :: above) =
          reread nsDeployment value := parseQName_formatted h.named nsDeployment value above
    have hdecls : (setAttribute (.unqualified serviceAttribute) (formatted nsDeployment value).1
        (withDecls (formatted nsDeployment value).2
          (setOptional handleAttribute handle (createElement myRoleName)))).label.decls =
        (formatted nsDeployment value).2 := rfl
    simp only [readMyRole, myRoleElement, Option.elim_some, getAttribute_setOptional,
      getAttribute_setOptional_ne hhp, getAttribute_setOptional_ne hsp,
      getAttribute_setOptional_ne hhp.symm, getAttribute_setAttribute,
      getAttribute_setAttribute_ne hhs, getAttribute_setAttribute_ne hsp.symm,
      getAttribute_withDecls, getAttribute_createElement, decls_setOptional, hdecls, hparse,
      Option.map_some]
    cases handle <;> cases port <;> rfl

theorem mapM_id_map_some {α : Type} (as : List α) : (as.map some).mapM id = some as := by
  induction as with
  | nil => rfl
  | cons a as ih => simp [List.mapM_cons, ih]

theorem appendWritten_map_some (es : List Elem) (e : Elem) :
    appendWritten (es.map some) e =
      some { e with children := e.children ++ es.map Branch.toTree } := by
  rw [appendWritten, mapM_id_map_some]
  rfl

theorem filterMap_toBranch? (es : List Elem) :
    (es.map Branch.toTree).filterMap Tree.toBranch? = es := by
  induction es with
  | nil => rfl
  | cons e es ih => rw [List.map_cons, List.filterMap_cons_some (toBranch?_toTree e), ih]

/-- What is read of an endpoint reference. -/
def rereadReference (r : EndpointReference Xml.QName) : Kind × Fields (String × String) :=
  (r.kind, Integration.Endpoint.reread r)

theorem valueOf_name (m : InitiateMode) : InitiateMode.valueOf (some m.name) = some m := by
  cases m <;> decide

theorem readPartnerRole_none {m : InitiateMode}
    (hmode : InitiateMode.valueOf (getAttribute initiateAttribute e) = some m)
    (hchildren : e.children = []) (hm : m ≠ .static) :
    readPartnerRole getNamespaceURI above e = pure ⟨some m, none⟩ := by
  simp [readPartnerRole, hmode, hchildren, hm]

theorem readPartnerRole_some {c : Elem} {reference : Kind × Fields (String × String)}
    (hmode : InitiateMode.valueOf (getAttribute initiateAttribute e) = some .static)
    (hchildren : e.children = [c.toTree])
    (hread : readServiceRef getNamespaceURI (e.label.decls :: above) c = some reference) :
    readPartnerRole getNamespaceURI above e = pure ⟨some .static, some reference⟩ := by
  simp [readPartnerRole, hmode, hchildren, hread]
  rfl

theorem readPartnerRole_write (h : getNamespaceURI.Lawful)
    {r : PartnerRoleDescriptor (EndpointReference Xml.QName)} (hr : r.Sound) :
    ∃ e, writePartnerRole r = some e ∧ e.label.name = partnerRoleName ∧
      ∀ above, readPartnerRole getNamespaceURI above e = pure (r.map rereadReference) := by
  obtain ⟨mode, reference⟩ := r
  obtain ⟨m, rfl⟩ := Option.ne_none_iff_exists'.1 hr.1
  have hmode : ∀ children, InitiateMode.valueOf (getAttribute initiateAttribute
      { setAttribute (.unqualified initiateAttribute) m.name (createElement partnerRoleName) with
        children := children }) = some m := by
    intro children
    rw [← valueOf_name]
    exact congrArg _ (getAttribute_setAttribute initiateAttribute m.name
      { createElement partnerRoleName with children := children })
  cases reference with
  | none =>
    refine ⟨_, appendWritten_map_some [] _, rfl, fun above => ?_⟩
    exact readPartnerRole_none (hmode _) rfl fun hm => hr.2.2 (congrArg some hm) rfl
  | some reference =>
    have hc : isServiceRef (createElement serviceRefName).label.name := by decide
    obtain ⟨written, hwritten, hread⟩ := readServiceRef_written reference h hc
    have hwrite := write_eq reference (at?_nil _) hc hwritten
    obtain rfl : m = .static := Option.some.inj (hr.2.1 nofun)
    have hrole := appendWritten_map_some [setServiceRef reference.fields.scheme written
      (createElement serviceRefName)] (setOptional initiateAttribute (some InitiateMode.static.name)
        (createElement partnerRoleName))
    refine ⟨_, ?_, rfl,
      fun above => readPartnerRole_some (hmode _) rfl (hread _ reference.fields.scheme)⟩
    rw [writePartnerRole, Option.map_some, Option.map_some, hwrite]
    exact hrole

/-! ### Partner links -/

/-- A part is written to an element with the name, and read from it as `f` says. -/
def ReadAs {A B : Type} (name : ElementName) (read : Scopes NCName String → Elem → Reading B)
    (f : A → B) (a : A) (e : Elem) : Prop :=
  e.label.name = name ∧ ∀ above, read above e = pure (f a)

section Parts

variable {A B : Type} {write : A → Option Elem} {name : ElementName}
  {read : Scopes NCName String → Elem → Reading B} {f : A → B}

theorem exists_optional (o : Option A)
    (h : ∀ a ∈ o, ∃ e, write a = some e ∧ ReadAs name read f a e) :
    ∃ part : Option Elem, o.map write = part.map some ∧ (∀ c ∈ part, c.label.name = name) ∧
      ∀ above, part.mapM (read above) = pure (o.map f) := by
  cases o with
  | none => exact ⟨none, rfl, nofun, fun above => rfl⟩
  | some a =>
    obtain ⟨e, hwrite, hname, hread⟩ := h a rfl
    refine ⟨some e, by rw [Option.map_some, hwrite]; rfl, ?_, fun above => ?_⟩
    · simpa using hname
    · simp [hread]

theorem exists_list (as : List A) (h : ∀ a ∈ as, ∃ e, write a = some e ∧ ReadAs name read f a e) :
    ∃ es : List Elem, as.map write = es.map some ∧ List.Forall₂ (ReadAs name read f) as es := by
  induction as with
  | nil => exact ⟨[], rfl, .nil⟩
  | cons a as ih =>
    obtain ⟨e, hwrite, hread⟩ := h a List.mem_cons_self
    obtain ⟨es, hes, hreads⟩ := ih fun b hb => h b (List.mem_cons_of_mem a hb)
    exact ⟨e :: es, by rw [List.map_cons, hwrite, hes, List.map_cons], .cons hread hreads⟩

end Parts

theorem find?_optional {p : Elem → Bool} (o : Option Elem) (h : ∀ c ∈ o, p c = true) :
    o.toList.find? p = o := by
  cases o with
  | none => rfl
  | some c => exact List.find?_cons_of_pos (h c rfl)

theorem find?_optional_none {p : Elem → Bool} (o : Option Elem) (h : ∀ c ∈ o, p c = false) :
    o.toList.find? p = none :=
  List.find?_eq_none.2 fun c hc => by simp [h c (Option.mem_toList.1 hc)]

theorem readPartnerLink_write (h : getNamespaceURI.Lawful) (habove : Plain above)
    {l : PartnerLinkDescriptor Xml.QName (EndpointReference Xml.QName)} (hl : l.Sound) :
    ∃ e, writePartnerLink above l = some e ∧
      ReadAs partnerLinkName (readPartnerLink getNamespaceURI)
        (PartnerLinkDescriptor.map (reread nsDeployment) rereadReference) l e := by
  obtain ⟨name, partnerRole, myRole⟩ := l
  obtain ⟨partner, hpartner, hpartnerName, hpartnerRead⟩ := exists_optional partnerRole
    fun r hr => readPartnerRole_write h (hl.1 r hr)
  obtain ⟨mine, hmine, hmineName, hmineRead⟩ := exists_optional myRole fun r hr =>
    ⟨_, writeMyRole_eq habove.cons r, name_myRoleElement r,
      readMyRole_myRoleElement h (hl.2 r hr)⟩
  let e : Elem := { setAttribute (.unqualified nameAttribute) name (createElement partnerLinkName)
    with children := (partner.toList ++ mine.toList).map Branch.toTree }
  have hwrite : writePartnerLink above ⟨name, partnerRole, myRole⟩ = some e := by
    refine Eq.trans ?_ (appendWritten_map_some (partner.toList ++ mine.toList) _)
    rw [List.map_append, ← Option.toList_map, ← Option.toList_map, ← hpartner, ← hmine]
    rfl
  have hget : ∀ n, getElement n e = (partner.toList.find? fun c => sameName c.label.name n).or
      (mine.toList.find? fun c => sameName c.label.name n) := by
    intro n
    rw [getElement, filterMap_toBranch?, List.find?_append]
  have hpartnerElem : getElement partnerRoleName e = partner := by
    rw [hget, find?_optional partner fun c hc => by rw [hpartnerName c hc]; decide,
      find?_optional_none mine fun c hc => by rw [hmineName c hc]; decide, Option.or_none]
  have hmineElem : getElement myRoleName e = mine := by
    rw [hget, find?_optional_none partner fun c hc => by rw [hpartnerName c hc]; decide,
      find?_optional mine fun c hc => by rw [hmineName c hc]; decide, Option.none_or]
  have hname : getAttribute nameAttribute e = some name :=
    getAttribute_setAttribute nameAttribute name
      { createElement partnerLinkName with children := e.children }
  refine ⟨e, hwrite, rfl, fun above => ?_⟩
  rw [readPartnerLink, hpartnerElem, hmineElem, hpartnerRead, hmineRead, hname]
  rfl

theorem addPartnerLink_of_notMem {Q R : Type} {links : List (PartnerLinkDescriptor Q R)}
    {l : PartnerLinkDescriptor Q R} (h : l.name ∉ links.map (·.name)) :
    addPartnerLink links l = links ++ [l] := by
  have hany : (links.any fun l' => decide (l'.name = l.name)) = false := by
    rw [List.any_eq_false]
    exact fun l' hl' => by simpa using fun hn => h (List.mem_map.2 ⟨l', hl', hn⟩)
  rw [addPartnerLink, hany]
  rfl

theorem getElements_of_forall₂ {A B : Type} {name : ElementName}
    {read : Scopes NCName String → Elem → Reading B} {f : A → B} {as : List A} {es : List Elem}
    (h : List.Forall₂ (ReadAs name read f) as es) (label : Tag) :
    getElements name ⟨label, es.map Branch.toTree⟩ = es := by
  rw [getElements, filterMap_toBranch?, List.filter_eq_self]
  intro c hc
  induction h with
  | nil => cases hc
  | cons hread _ ih =>
    rcases List.mem_cons.1 hc with rfl | hc
    · simp [hread.1, sameName]
    · exact ih hc

/-- Links with distinct names are all kept, in their order. -/
theorem readPartnerLinks_of_forall₂
    {links : List (PartnerLinkDescriptor Xml.QName (EndpointReference Xml.QName))} {es : List Elem}
    (h : List.Forall₂ (ReadAs partnerLinkName (readPartnerLink getNamespaceURI)
      (PartnerLinkDescriptor.map (reread nsDeployment) rereadReference)) links es)
    (hdistinct : (links.map (·.name)).Nodup) (label : Tag) (above : Scopes NCName String) :
    readPartnerLinks getNamespaceURI above ⟨label, es.map Branch.toTree⟩ =
      pure (links.map (·.map (reread nsDeployment) rereadReference)) := by
  suffices ∀ acc : List (PartnerLinkDescriptor (String × String) (Kind × Fields (String × String))),
      (acc.map (·.name) ++ links.map (·.name)).Nodup →
      es.foldlM (fun links c => do
        let l ← readPartnerLink getNamespaceURI (label.decls :: above) c
        return addPartnerLink links l) acc =
      pure (acc ++ links.map (·.map (reread nsDeployment) rereadReference)) by
    rw [readPartnerLinks, getElements_of_forall₂ h]
    exact this [] hdistinct
  clear hdistinct
  induction h with
  | nil =>
    intro acc _
    simp
  | @cons l e links es hread _ ih =>
    intro acc hacc
    have hfresh : (l.map (reread nsDeployment) rereadReference).name ∉ acc.map (·.name) := by
      intro hmem
      exact List.disjoint_of_nodup_append hacc hmem List.mem_cons_self
    have hname : (l.map (reread nsDeployment) rereadReference).name = l.name := rfl
    rw [List.foldlM_cons, hread.2, pure_bind, pure_bind, addPartnerLink_of_notMem hfresh, ih]
    · simp
    · simpa [hname] using hacc

theorem readPartnerLinks_write (h : getNamespaceURI.Lawful) (habove : Plain above)
    {links : List (PartnerLinkDescriptor Xml.QName (EndpointReference Xml.QName))}
    (hl : SoundLinks links) :
    ∃ part : Option Elem, writePartnerLinks above links = part.toList.map some ∧
      (∀ c ∈ part, c.label.name = partnerLinksName) ∧
      ∀ above, part.elim (pure []) (readPartnerLinks getNamespaceURI above) =
        pure (links.map (·.map (reread nsDeployment) rereadReference)) := by
  obtain ⟨es, hes, hreads⟩ := exists_list links fun l hl' =>
    readPartnerLink_write h habove.cons (hl.2 l hl')
  cases links with
  | nil => exact ⟨none, rfl, nofun, fun above => rfl⟩
  | cons l links =>
    refine ⟨some { createElement partnerLinksName with children := es.map Branch.toTree }, ?_, ?_,
      readPartnerLinks_of_forall₂ hreads hl.1 _⟩
    · have hwritten := appendWritten_map_some es (createElement partnerLinksName)
      rw [← hes] at hwritten
      exact congrArg (fun o => [o]) hwritten
    · rintro c ⟨rfl⟩
      rfl

/-! ### Scopes -/

/-- What the reader finds in the element of a scope. -/
structure HasScope (getNamespaceURI : PrefixLookup) (name : Option String)
    (links : List (PartnerLinkDescriptor (String × String) (Kind × Fields (String × String))))
    (scopes : List (ScopeDescriptor (String × String) (Kind × Fields (String × String))))
    (e : Elem) : Prop where
  name : getAttribute nameAttribute e = name
  links : ∀ above, (getElement partnerLinksName e).elim (pure [])
    (readPartnerLinks getNamespaceURI above) = pure links
  scopes : ∀ above, scopesAmong getNamespaceURI above e.children = pure scopes

section HasScope

variable {name : Option String}
  {links : List (PartnerLinkDescriptor (String × String) (Kind × Fields (String × String)))}
  {scopes : List (ScopeDescriptor (String × String) (Kind × Fields (String × String)))}

theorem HasScope.read (h : HasScope getNamespaceURI name links scopes e)
    (above : Scopes NCName String) :
    readScopeWith getNamespaceURI above e
      (scopesAmong getNamespaceURI (e.label.decls :: above) e.children) =
        pure (.mk name links scopes) := by
  rw [readScopeWith, h.links, h.scopes, h.name]
  rfl

theorem scopesAmong_append (nodes : List Node) {c : Elem}
    (hc : sameName c.label.name scopesName = false) (above : Scopes NCName String) :
    scopesAmong getNamespaceURI above (nodes ++ [c.toTree]) =
      scopesAmong getNamespaceURI above nodes := by
  induction nodes with
  | nil => simp [scopesAmong, Branch.toTree, hc]
  | cons node nodes ih =>
    cases node with
    | leaf l => simpa [scopesAmong] using ih
    | branch label children =>
      simp only [List.cons_append, scopesAmong]
      rw [ih]

/-- Other attributes and other children do not matter. -/
theorem HasScope.setAttribute (h : HasScope getNamespaceURI name links scopes e) {n : NCName}
    (hn : nameAttribute ≠ n) (value : String) :
    HasScope getNamespaceURI name links scopes (setAttribute (.unqualified n) value e) where
  name := (getAttribute_setAttribute_ne hn value e).trans h.name
  links := h.links
  scopes := h.scopes

theorem HasScope.appendChild (h : HasScope getNamespaceURI name links scopes e) {c : Elem}
    (hlinks : sameName c.label.name partnerLinksName = false)
    (hscopes : sameName c.label.name scopesName = false) :
    HasScope getNamespaceURI name links scopes (appendChild c.toTree e) where
  name := h.name
  links above := by
    have hget : getElement partnerLinksName (Xml.appendChild c.toTree e) =
        getElement partnerLinksName e := by
      simp [getElement, Xml.appendChild, hlinks]
    rw [hget, h.links]
  scopes above := (scopesAmong_append e.children hscopes above).trans (h.scopes above)

end HasScope

/-- The element of a scope has no attribute but the name, and no catalogs. -/
structure OnlyScope (n : ElementName) (e : Elem) : Prop where
  name : e.label.name = n
  attributes : ∀ a, a ≠ nameAttribute → getAttribute a e = none
  catalogs : getElement serviceCatalogsName e = none

/-- The element of inner scopes, if there are any. -/
def scopesElement (es : List Elem) : Option Elem :=
  if es.isEmpty then none
  else some { createElement scopesName with children := es.map Branch.toTree }

theorem name_scopesElement {es : List Elem} :
    ∀ c ∈ scopesElement es, c.label.name = scopesName := by
  intro c hc
  unfold scopesElement at hc
  split at hc
  · cases hc
  · cases hc
    rfl

theorem appendWritten_scopes (es : List Elem) :
    (if (es.map some).isEmpty then []
      else [appendWritten (es.map some) (createElement scopesName)]) =
        (scopesElement es).toList.map some := by
  cases es with
  | nil => rfl
  | cons e es => exact congrArg (fun o => [o]) (appendWritten_map_some (e :: es) _)

theorem scopesAmong_scopesElement {es : List Elem}
    {scopes : List (ScopeDescriptor (String × String) (Kind × Fields (String × String)))}
    (hes : ∀ above, readScopes getNamespaceURI above (es.map Branch.toTree) = pure scopes)
    (above : Scopes NCName String) :
    scopesAmong getNamespaceURI above ((scopesElement es).toList.map Branch.toTree) =
      pure scopes := by
  cases es with
  | nil =>
    have hnil := hes above
    rw [List.map_nil, readScopes] at hnil
    rw [scopesElement, List.isEmpty_nil, if_pos rfl, Option.toList_none, List.map_nil, scopesAmong]
    exact hnil
  | cons e es =>
    have hname : sameName (createElement scopesName).label.name scopesName = true := by decide
    rw [scopesElement, List.isEmpty_cons, if_neg Bool.false_ne_true, Option.toList_some,
      List.map_singleton, Branch.toTree, scopesAmong, if_pos hname]
    exact hes _

theorem writeScopeWith_spec (name : Option String)
    {links : List (PartnerLinkDescriptor Xml.QName (EndpointReference Xml.QName))} {es : List Elem}
    {scopes : List (ScopeDescriptor (String × String) (Kind × Fields (String × String)))}
    (h : getNamespaceURI.Lawful) (n : ElementName) {decls : List (NCName × String)}
    (habove : Plain (decls :: above)) (hl : SoundLinks links)
    (hes : ∀ above, readScopes getNamespaceURI above (es.map Branch.toTree) = pure scopes) :
    ∃ e, writeScopeWith above name links (es.map some) ⟨⟨n, decls, ∅⟩, []⟩ = some e ∧
      OnlyScope n e ∧
      HasScope getNamespaceURI name (links.map (·.map (reread nsDeployment) rereadReference))
        scopes e := by
  obtain ⟨part, hpart, hpartName, hpartRead⟩ := readPartnerLinks_write h habove hl
  let e₀ : Elem := setOptional nameAttribute name ⟨⟨n, decls, ∅⟩, []⟩
  let e : Elem :=
    { e₀ with children := (part.toList ++ (scopesElement es).toList).map Branch.toTree }
  have hwrite : writeScopeWith above name links (es.map some) ⟨⟨n, decls, ∅⟩, []⟩ = some e := by
    rw [writeScopeWith, decls_setOptional, hpart, appendWritten_scopes, ← List.map_append,
      appendWritten_map_some, children_setOptional]
    rfl
  have hcatalogs : getElement serviceCatalogsName e = none := by
    rw [getElement, filterMap_toBranch?, List.find?_append,
      find?_optional_none part fun c hc => by rw [hpartName c hc]; decide,
      find?_optional_none _ fun c hc => by rw [name_scopesElement c hc]; decide, Option.or_none]
  refine ⟨e, hwrite, ⟨name_setOptional .., fun a ha => ?_, hcatalogs⟩, ?_, fun above => ?_,
    fun above => ?_⟩
  · exact getAttribute_setOptional_ne ha name ⟨⟨n, decls, ∅⟩, []⟩
  · refine (getAttribute_setOptional nameAttribute name ⟨⟨n, decls, ∅⟩, []⟩).trans ?_
    exact Option.or_none
  · have hget : getElement partnerLinksName e = part := by
      rw [getElement, filterMap_toBranch?, List.find?_append,
        find?_optional part fun c hc => by rw [hpartName c hc]; decide,
        find?_optional_none _ fun c hc => by rw [name_scopesElement c hc]; decide, Option.or_none]
    rw [hget, hpartRead]
  · rw [← scopesAmong_scopesElement hes above]
    cases part with
    | none => rfl
    | some c =>
      have hc : sameName c.label.name scopesName = false := by
        rw [hpartName c rfl]
        decide
      change scopesAmong getNamespaceURI above
        (c.toTree :: (scopesElement es).toList.map Branch.toTree) = _
      rw [Branch.toTree, scopesAmong, if_neg (by rw [hc]; decide)]

mutual

theorem writeScope_spec (h : getNamespaceURI.Lawful) :
    ∀ (s : ScopeDescriptor Xml.QName (EndpointReference Xml.QName)) (above : Scopes NCName String)
      (n : ElementName) (decls : List (NCName × String)), s.Sound → Plain (decls :: above) →
      ∃ e, writeScope above ⟨⟨n, decls, ∅⟩, []⟩ s = some e ∧ OnlyScope n e ∧
        ∃ name links scopes, s.map (reread nsDeployment) rereadReference = .mk name links scopes ∧
          HasScope getNamespaceURI name links scopes e
  | .mk name links scopes, above, n, decls, hs, habove => by
    rw [ScopeDescriptor.Sound] at hs
    obtain ⟨es, hes, hreads⟩ := writeScopes_spec h scopes _ hs.2 habove.cons
    obtain ⟨e, hwrite, hn, he⟩ := writeScopeWith_spec name h n habove hs.1 hreads
    rw [writeScope, hes, ScopeDescriptor.map]
    exact ⟨e, hwrite, hn, _, _, _, rfl, he⟩

theorem writeScopes_spec (h : getNamespaceURI.Lawful) :
    ∀ (ss : List (ScopeDescriptor Xml.QName (EndpointReference Xml.QName)))
      (above : Scopes NCName String), SoundScopes ss → Plain above →
      ∃ es : List Elem, writeScopes above ss = es.map some ∧ ∀ above,
        readScopes getNamespaceURI above (es.map Branch.toTree) =
          pure (mapScopes (reread nsDeployment) rereadReference ss)
  | [], above, _, _ =>
    ⟨[], by rw [writeScopes]; rfl, fun above => by rw [List.map_nil, readScopes, mapScopes]⟩
  | s :: ss, above, hs, habove => by
    rw [SoundScopes] at hs
    obtain ⟨e, hwrite, hn, name, links, scopes, hmap, he⟩ :=
      writeScope_spec h s above scopeName [] hs.1 habove.cons
    obtain ⟨es, hes, hreads⟩ := writeScopes_spec h ss above hs.2 habove
    refine ⟨e :: es, ?_, fun above => ?_⟩
    · rw [writeScopes, hes, createElement, hwrite]
      rfl
    · have hname : sameName e.label.name scopeName = true := by
        rw [hn.name]
        decide
      rw [List.map_cons, Branch.toTree, readScopes, if_pos hname, he.read, hreads, mapScopes, hmap]
      rfl

end

/-! ### Catalogs -/

section Catalogs

variable {C : Type} {codec : CatalogCodec C}

/-- Catalogs that are read together. -/
def composed : List C → Option (ServiceCatalog C)
  | [] => none
  | [c] => some (.leaf c)
  | cs => some (.composite cs)

/-- A composite of one catalog is that catalog. -/
def ServiceCatalog.simplified : ServiceCatalog C → ServiceCatalog C
  | .composite [c] => .leaf c
  | c => c

theorem composed_iff (c : ServiceCatalog C) :
    composed c.catalogs = some c.simplified ↔ c.catalogs ≠ [] := by
  match c with
  | .leaf c => simp [composed, ServiceCatalog.catalogs, ServiceCatalog.simplified]
  | .composite [] => simp [composed, ServiceCatalog.catalogs]
  | .composite [c] => simp [composed, ServiceCatalog.catalogs, ServiceCatalog.simplified]
  | .composite (c :: c' :: cs) =>
    simp [composed, ServiceCatalog.catalogs, ServiceCatalog.simplified]

theorem readServiceCatalogs_write (h : codec.Faithful) (c : ServiceCatalog C) :
    readServiceCatalogs codec (writeServiceCatalogs codec c) = pure (composed c.catalogs) := by
  suffices ∀ cs acc : List C,
      (cs.filterMap codec.write).filter (fun e => e.label.name.namespaceURI = nsDeployment) =
        cs.filterMap codec.write ∧
      (cs.filterMap codec.write).foldlM (fun (cs : List C) e =>
        match codec.read e with
        | some catalog => pure (cs ++ [catalog])
        | none => do
          addProblem .unrecognizedCatalog
          return cs) acc = (pure (acc ++ cs) : Reading (List C)) by
    obtain ⟨hfilter, hfold⟩ := this c.catalogs []
    rw [readServiceCatalogs, writeServiceCatalogs, filterMap_toBranch?, hfilter, hfold]
    rfl
  intro cs
  induction cs with
  | nil => exact fun acc => ⟨rfl, by simp⟩
  | cons c cs ih =>
    intro acc
    obtain ⟨e, hwrite, hname, hread⟩ := h c
    obtain ⟨hfilter, hfold⟩ := ih (acc ++ [c])
    rw [List.filterMap_cons_some hwrite, List.filter_cons_of_pos (by simpa using hname), hfilter,
      List.foldlM_cons, hread, pure_bind, hfold, List.append_assoc]
    exact ⟨rfl, rfl⟩

/-! ### Descriptors -/

/-- The element that the descriptor is written to. -/
def descriptorElem : Elem :=
  addNamespaceDeclaration nsDeployment xmlns (createElement bpelDeploymentName)

/-- What is read of a descriptor that was written. -/
def rereadDescriptor (d : DeploymentDescriptor Xml.QName (EndpointReference Xml.QName) C) :
    DeploymentDescriptor (String × String) (Kind × Fields (String × String)) C where
  scope := d.scope.map (reread nsDeployment) rereadReference
  targetNamespace := some (d.targetNamespace.getD "")
  version := d.version
  serviceCatalog := d.serviceCatalog.bind fun c => composed c.catalogs

theorem HasScope.setOptional {getNamespaceURI : PrefixLookup} {name : Option String}
    {links : List (PartnerLinkDescriptor (String × String) (Kind × Fields (String × String)))}
    {scopes : List (ScopeDescriptor (String × String) (Kind × Fields (String × String)))}
    {e : Elem} (h : HasScope getNamespaceURI name links scopes e) {n : NCName}
    (hn : nameAttribute ≠ n) (value : Option String) :
    HasScope getNamespaceURI name links scopes (Deploy.setOptional n value e) := by
  cases value with
  | none => exact h
  | some text => exact h.setAttribute hn text

theorem read_write (h : getNamespaceURI.Lawful) (hcodec : codec.Faithful)
    {d : DeploymentDescriptor Xml.QName (EndpointReference Xml.QName) C} (hd : d.Sound) :
    ∃ e, write codec d descriptorElem = some e ∧
      read getNamespaceURI codec e = pure (rereadDescriptor d) := by
  obtain ⟨e, hwrite, honly, name, links, scopes, hmap, he⟩ :=
    writeScope_spec h d.scope [] bpelDeploymentName [(xmlns, nsDeployment)] hd.scope rfl
  have hnv : nameAttribute ≠ versionAttribute := by decide
  have hnt : nameAttribute ≠ targetNamespaceAttribute := by decide
  have htv : targetNamespaceAttribute ≠ versionAttribute := by decide
  let e₂ := setOptional versionAttribute (d.version.map fun n => String.ofList (Java.intText n))
    (setAttribute (.unqualified targetNamespaceAttribute) (d.targetNamespace.getD "") e)
  let e₃ := d.serviceCatalog.elim e₂ fun c => appendChild (writeServiceCatalogs codec c).toTree e₂
  have he₂ : HasScope getNamespaceURI name links scopes e₂ :=
    (he.setAttribute hnt _).setOptional hnv _
  have he₃ : HasScope getNamespaceURI name links scopes e₃ := by
    cases hc : d.serviceCatalog with
    | none => rwa [show e₃ = e₂ by simp only [e₃, hc, Option.elim_none]]
    | some c =>
      have hlinks : sameName serviceCatalogsName partnerLinksName = false := by decide
      have hscopes : sameName serviceCatalogsName scopesName = false := by decide
      simp only [e₃, hc, Option.elim_some]
      exact he₂.appendChild hlinks hscopes
  have hattribute : ∀ n, getAttribute n e₃ = getAttribute n e₂ := by
    intro n
    simp only [e₃]
    cases d.serviceCatalog <;> rfl
  have htarget : getAttribute targetNamespaceAttribute e₃ = some (d.targetNamespace.getD "") := by
    rw [hattribute, getAttribute_setOptional_ne htv, getAttribute_setAttribute]
  have hversion : getAttribute versionAttribute e₃ =
      d.version.map fun n => String.ofList (Java.intText n) := by
    rw [hattribute, getAttribute_setOptional, getAttribute_setAttribute_ne htv.symm,
      honly.attributes _ hnv.symm, Option.or_none]
  have hparse : (d.version.map fun n => String.ofList (Java.intText n)).mapM
      (fun text => ((Java.parseInt text.toList : Option ℤ) : Reading ℤ)) = pure d.version := by
    cases hn : d.version with
    | none => rfl
    | some n =>
      rw [Option.map_some, Option.mapM_some, String.toList_ofList,
        Java.parseInt_intText (hd.version n hn)]
      rfl
  have hchildren : e₂.children = e.children := children_setOptional ..
  have hcatalogs : getElement serviceCatalogsName e₃ =
      d.serviceCatalog.map (writeServiceCatalogs codec) := by
    have hnone : getElement serviceCatalogsName e₂ = none := by
      rw [getElement, hchildren]
      exact honly.catalogs
    cases hc : d.serviceCatalog with
    | none => rwa [show e₃ = e₂ by simp only [e₃, hc, Option.elim_none]]
    | some c =>
      have hsame : sameName serviceCatalogsName serviceCatalogsName = true := by decide
      have hname : sameName (writeServiceCatalogs codec c).label.name serviceCatalogsName = true :=
        hsame
      rw [getElement] at hnone
      simp [e₃, hc, getElement, appendChild, hnone, hname]
  refine ⟨e₃, ?_, ?_⟩
  · refine (congrArg _ hwrite).trans ?_
    rfl
  · rw [read, readScope, he₃.read, hversion, hparse, hcatalogs, htarget, rereadDescriptor, hmap]
    cases d.serviceCatalog with
    | none => rfl
    | some c =>
      rw [Option.map_some, Option.elim_some, readServiceCatalogs_write hcodec]
      rfl

/-! ## Descriptors that survive -/

/-- A reference without prefixes; a scheme that is absent is like an empty one. -/
def expandedReference (r : EndpointReference Xml.QName) : Kind × Fields (String × String) :=
  (r.kind,
    { r.fields with
      scheme := some (r.fields.scheme.getD "")
      portTypeName := r.fields.portTypeName.map expandedName
      serviceName := r.fields.serviceName.map expandedName })

/-- A descriptor without prefixes; a composite of one catalog is that catalog. -/
def expandedDescriptor (d : DeploymentDescriptor Xml.QName (EndpointReference Xml.QName) C) :
    DeploymentDescriptor (String × String) (Kind × Fields (String × String)) C where
  scope := d.scope.map expandedName expandedReference
  targetNamespace := d.targetNamespace
  version := d.version
  serviceCatalog := d.serviceCatalog.map ServiceCatalog.simplified

/-- The descriptor that is read is equal, and there are no problems. -/
def SurvivesXml (codec : CatalogCodec C) (getNamespaceURI : PrefixLookup)
    (d : DeploymentDescriptor Xml.QName (EndpointReference Xml.QName) C) : Prop :=
  ∃ e, write codec d descriptorElem = some e ∧
    (read getNamespaceURI codec e).run [] = some (expandedDescriptor d, [])

/-- There is a target namespace, no service is in the namespace of the descriptor, and no composite
    catalog is empty; the endpoint references are encodable. -/
def EncodableDescriptor (d : DeploymentDescriptor Xml.QName (EndpointReference Xml.QName) C) :
    Prop :=
  d.targetNamespace ≠ none ∧ (∀ c ∈ d.serviceCatalog, c.catalogs ≠ []) ∧
    ∀ l ∈ d.scope.links, l.Forall (fun service => service.namespaceURI ≠ nsDeployment) Encodable

theorem rereadReference_eq_iff (r : EndpointReference Xml.QName) :
    rereadReference r = expandedReference r ↔ Encodable r := by
  rw [← reread_iff, rereadReference, expandedReference]
  simp [Integration.Endpoint.reread]

/-- The writer and the reader agree on the descriptors that are encodable, and on no other one. -/
theorem survives_descriptor_iff {getNamespaceURI : PrefixLookup}
    (d : DeploymentDescriptor Xml.QName (EndpointReference Xml.QName) C) (hd : d.Sound)
    (h : getNamespaceURI.Lawful) (hcodec : codec.Faithful) :
    SurvivesXml codec getNamespaceURI d ↔ EncodableDescriptor d := by
  obtain ⟨e, hwrite, hread⟩ := read_write h hcodec hd
  have hequal : SurvivesXml codec getNamespaceURI d ↔
      rereadDescriptor d = expandedDescriptor d := by
    constructor
    · rintro ⟨e', hwrite', hread'⟩
      obtain rfl := Option.some.inj (hwrite.symm.trans hwrite')
      rw [hread] at hread'
      exact (Prod.mk.inj (Option.some.inj hread')).1
    · intro heq
      refine ⟨e, hwrite, ?_⟩
      rw [hread, heq]
      rfl
  have hname : ∀ value, reread nsDeployment value = expandedName value ↔
      value.namespaceURI ≠ nsDeployment := reread_eq_iff (by decide)
  have htarget : some (d.targetNamespace.getD "") = d.targetNamespace ↔
      d.targetNamespace ≠ none := by
    cases d.targetNamespace <;> simp
  have hcatalog : (d.serviceCatalog.bind fun c => composed c.catalogs) =
      d.serviceCatalog.map ServiceCatalog.simplified ↔ ∀ c ∈ d.serviceCatalog, c.catalogs ≠ [] := by
    cases d.serviceCatalog with
    | none => simp
    | some c => simpa using composed_iff c
  rw [hequal, rereadDescriptor, expandedDescriptor, EncodableDescriptor]
  simp only [DeploymentDescriptor.mk.injEq, ScopeDescriptor.map_eq_map_iff, htarget, true_and,
    hcatalog, hname, rereadReference_eq_iff]
  tauto

/-! ### Runs -/

/-- A codec of no catalogs. -/
def noCatalogs : CatalogCodec Empty where
  write := Empty.elim
  read _ := none

/-- A process with a role that has a handle, a service and a port. -/
def translator (targetNamespace : Option String) :
    DeploymentDescriptor Xml.QName (EndpointReference Xml.QName) Empty where
  scope := .mk (some "translator")
    [⟨"document", none, some ⟨some "documentTranslator", some pizzaService, some "port"⟩⟩] []
  targetNamespace := targetNamespace
  version := some 7
  serviceCatalog := none

theorem translator_sound (targetNamespace : Option String) :
    (translator targetNamespace).Sound where
  scope := by
    simp [translator, ScopeDescriptor.Sound, SoundScopes, SoundLinks, PartnerLinkDescriptor.Sound,
      MyRoleDescriptor.Sound]
  version := by
    rintro n ⟨rfl⟩
    decide

/-- The descriptor of a process with a target namespace is kept. -/
theorem translator_survives :
    SurvivesXml noCatalogs innermostURI (translator (some "urn:translator")) :=
  (survives_descriptor_iff (translator (some "urn:translator")) (translator_sound _)
    innermostURI_lawful nofun).2 <| by
    refine ⟨nofun, nofun, ?_⟩
    simp [translator, ScopeDescriptor.links, linksOfScopes, PartnerLinkDescriptor.Forall,
      pizzaService, nsDeployment]

/-- Without a target namespace, an empty one is read. -/
theorem targetNamespace_not_kept : ¬ SurvivesXml noCatalogs innermostURI (translator none) := by
  rintro ⟨e, hwrite, hread⟩
  have hcodec : noCatalogs.Faithful := nofun
  obtain ⟨e', hwrite', hread'⟩ := read_write innermostURI_lawful hcodec (translator_sound none)
  obtain rfl := Option.some.inj (hwrite.symm.trans hwrite')
  rw [hread'] at hread
  have heq := (Prod.mk.inj (Option.some.inj hread)).1
  cases congrArg DeploymentDescriptor.targetNamespace heq

end Catalogs

end Deploy

end Jbpm
