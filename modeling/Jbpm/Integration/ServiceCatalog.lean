/-
  Service catalogs, and the port that an endpoint reference selects from them.

  * `Service`, `Port`, `Binding`: what a selection reads of a WSDL definition;
  * `ServiceCatalog`, `lookupService`, `lookupServices`: a catalog, and the composite one;
  * `SoapEndpointReference`, `selectPort`: the selection, by a named port or by a scan;
  * `scanServices_eq`: a scan stops at the first candidate with the address, and keeps the first
    candidate otherwise;
  * `Covers`: for each of other ports there is one that can be selected in its place;
  * `searched_iff`: the names for which the composite catalog is searched completely.
-/
import Jbpm.Lib.Lists

namespace Jbpm

open Lib

namespace Integration.Catalog

/-! ## Services -/

/-- The extensions of a binding or a port that the selection tells apart. -/
inductive Extension
  | soapBinding
  | soapAddress (locationURI : Option String)
  | other
  deriving DecidableEq

structure Binding (Q : Type) where
  portType : Q
  extensions : List Extension
  deriving DecidableEq

structure Port (Q : Type) where
  name : String
  binding : Binding Q
  extensions : List Extension
  deriving DecidableEq

/-- The ports are the values of a map by their names. -/
structure Service (Q : Type) where
  name : Q
  ports : List (Port Q)
  distinct : (ports.map (·.name)).Nodup

instance {Q : Type} [DecidableEq Q] : DecidableEq (Service Q) := fun s s' =>
  decidable_of_iff (s.name = s'.name ∧ s.ports = s'.ports) <| by
    cases s
    cases s'
    simp

/-- `isSoapBinding` -/
def isSoapBinding {Q : Type} (b : Binding Q) : Bool := b.extensions.contains .soapBinding

/-- `getSoapAddress`: the location of the first address. -/
def getSoapAddress {Q : Type} (port : Port Q) : Option String :=
  (port.extensions.findSome? fun e =>
    match e with
    | .soapAddress locationURI => some locationURI
    | .soapBinding | .other => none).join

/-! ## Catalogs -/

/-- What a catalog answers.  The port type name may be `null`. -/
structure ServiceCatalog (Q : Type) where
  lookupServices : Option Q → List (Service Q)
  lookupService : Q → Option (Service Q)

variable {Q : Type}

namespace CompositeCatalog

def lookupServices (catalogs : List (ServiceCatalog Q)) (portTypeName : Option Q) :
    List (Service Q) :=
  catalogs.foldl (fun allServices catalog => allServices ++ catalog.lookupServices portTypeName) []

/-- The loop of `lookupService`, with the service at the head of it. -/
def lookupLoop (serviceName : Q) : Option (Service Q) → List (ServiceCatalog Q) →
    Option (Service Q)
  | service, [] => service
  | _, catalog :: catalogs =>
    match catalog.lookupService serviceName with
    | none => none
    | some service => lookupLoop serviceName (some service) catalogs

def lookupService (catalogs : List (ServiceCatalog Q)) (serviceName : Q) : Option (Service Q) :=
  lookupLoop serviceName none catalogs

end CompositeCatalog

/-- A list of catalogs as one. -/
def compositeCatalog (catalogs : List (ServiceCatalog Q)) : ServiceCatalog Q where
  lookupServices := CompositeCatalog.lookupServices catalogs
  lookupService := CompositeCatalog.lookupService catalogs

/-! ## Selection -/

/-- What identifies a port.  Its name is only given with the name of a service. -/
structure SoapEndpointReference (Q : Type) where
  portTypeName : Option Q
  serviceName : Option Q
  portName : Option String
  address : Option String
  combined : portName.isSome → serviceName.isSome

/-- The errors of `selectPort`, with the texts that their messages name. -/
inductive SelectError (Q : Type)
  | noPort (portTypeName : Option Q)
  | serviceNotFound (serviceName : Q)
  | portNotFound (serviceName : Q) (portName : String)
  | typeNotImplemented (serviceName : Q) (portName : String) (portTypeName : Option Q)
  | nonSoapPort (serviceName : Q) (portName : String) (portTypeName : Option Q)
  | noPortOfService (serviceName : Q) (portTypeName : Option Q)
  /-- `NullPointerException`: no port type name to compare. -/
  | nullPointer
  deriving DecidableEq

/-- How a pass over ports ends: the search stops with a port, or goes on with the one selected. -/
inductive Scan (Q : Type)
  | stop (port : Port Q)
  | go (selectedPort : Option (Port Q))

namespace SoapEndpointReference

variable [DecidableEq Q] (r : SoapEndpointReference Q)

/-- The loop over the ports of a service, the same in both methods. -/
def scanPorts : Option (Port Q) → List (Port Q) → Scan Q
  | selectedPort, [] => .go selectedPort
  | selectedPort, port :: ports =>
    if some port.binding.portType = r.portTypeName ∧ isSoapBinding port.binding then
      if r.address ≠ none ∧ r.address = getSoapAddress port then .stop port
      else if selectedPort = none then scanPorts (some port) ports
      else scanPorts selectedPort ports
    else scanPorts selectedPort ports

/-- The loop over the services, which the inner loop may leave. -/
def scanServices : Option (Port Q) → List (Service Q) → Option (Port Q)
  | selectedPort, [] => selectedPort
  | selectedPort, service :: services =>
    match r.scanPorts selectedPort service.ports with
    | .stop port => some port
    | .go selectedPort => scanServices selectedPort services

/-- `selectPort` of a list of services. -/
def selectPortOfServices (services : List (Service Q)) : Except (SelectError Q) (Port Q) :=
  match r.scanServices none services with
  | some port => .ok port
  | none => .error (.noPort r.portTypeName)

/-- The reference designates a specific port. -/
def selectNamedPort (serviceName : Q) (portName : String) (service : Service Q) :
    Except (SelectError Q) (Port Q) :=
  match service.ports.find? fun port => port.name = portName with
  | none => .error (.portNotFound serviceName portName)
  | some port =>
    if r.portTypeName = none then .error .nullPointer
    else if r.portTypeName ≠ some port.binding.portType then
      .error (.typeNotImplemented serviceName portName r.portTypeName)
    else if ¬ isSoapBinding port.binding then
      .error (.nonSoapPort serviceName portName r.portTypeName)
    else .ok port

/-- `selectPort` of the service that was looked up. -/
def selectPortOfService (serviceName : Q) (service : Option (Service Q)) :
    Except (SelectError Q) (Port Q) :=
  match service with
  | none => .error (.serviceNotFound serviceName)
  | some service =>
    match r.portName with
    | some portName => r.selectNamedPort serviceName portName service
    | none =>
      match r.scanPorts none service.ports with
      | .stop port | .go (some port) => .ok port
      | .go none => .error (.noPortOfService serviceName r.portTypeName)

def selectPort (catalog : ServiceCatalog Q) : Except (SelectError Q) (Port Q) :=
  match r.serviceName with
  | none => r.selectPortOfServices (catalog.lookupServices r.portTypeName)
  | some serviceName => r.selectPortOfService serviceName (catalog.lookupService serviceName)

/-! ## What a selection is for -/

/-- A port of the referenced port type that is bound to SOAP, with the referenced name if there
    is one. -/
def isCandidate (port : Port Q) : Bool :=
  some port.binding.portType = r.portTypeName ∧ isSoapBinding port.binding ∧
    (r.portName = none ∨ r.portName = some port.name)

def hasAddress (port : Port Q) : Bool := r.address ≠ none ∧ r.address = getSoapAddress port

/-- The ports that the catalogs offer for a reference, in the order of the catalogs: those of all
    services with the referenced name, or those of all services of the port type. -/
def offered (catalogs : List (ServiceCatalog Q)) : List (Port Q) :=
  match r.serviceName with
  | none => (catalogs.flatMap (·.lookupServices r.portTypeName)).flatMap (·.ports)
  | some serviceName => (catalogs.filterMap (·.lookupService serviceName)).flatMap (·.ports)

/-- The first candidate with the referenced address, or else the first one. -/
def best (ports : List (Port Q)) : Option (Port Q) :=
  ((ports.filter r.isCandidate).find? r.hasAddress).or (ports.filter r.isCandidate).head?

/-- The result is the best of the ports, and an error only if no port is a candidate. -/
def Selects (ports : List (Port Q)) (result : Except (SelectError Q) (Port Q)) : Prop :=
  match r.best ports with
  | some port => result = .ok port
  | none => ports.filter r.isCandidate = [] ∧ ∃ e, result = .error e

end SoapEndpointReference

/-- For each of the other ports that is bound to SOAP, one of the ports has its name and port type,
    and its address if it has one. -/
def Covers (ports others : List (Port Q)) : Prop :=
  ∀ other ∈ others, isSoapBinding other.binding → ∃ port ∈ ports,
    isSoapBinding port.binding ∧ port.name = other.name ∧
      port.binding.portType = other.binding.portType ∧
        (getSoapAddress other ≠ none → getSoapAddress port = getSoapAddress other)

/-- The catalogs are searched completely for a name: the service is that of the first catalog
    that has it, and every reference to that service, or to none, selects the best port. -/
def Searched [DecidableEq Q] (catalogs : List (ServiceCatalog Q)) (serviceName : Q) : Prop :=
  (compositeCatalog catalogs).lookupService serviceName =
      catalogs.findSome? (·.lookupService serviceName) ∧
    ∀ r : SoapEndpointReference Q, (∀ n, r.serviceName = some n → n = serviceName) →
      r.Selects (r.offered catalogs) (r.selectPort (compositeCatalog catalogs))

/-! ## Lookups -/

section
variable {catalogs : List (ServiceCatalog Q)} {serviceName : Q}

theorem lookupServices_eq (catalogs : List (ServiceCatalog Q)) (portTypeName : Option Q) :
    CompositeCatalog.lookupServices catalogs portTypeName =
      catalogs.flatMap (·.lookupServices portTypeName) := by
  have hfold : ∀ services, catalogs.foldl (fun allServices catalog =>
      allServices ++ catalog.lookupServices portTypeName) services =
      services ++ catalogs.flatMap (·.lookupServices portTypeName) := by
    induction catalogs with
    | nil => simp
    | cons catalog catalogs ih =>
      intro services
      rw [List.foldl_cons, ih, List.flatMap_cons, List.append_assoc]
  exact (hfold []).trans (List.nil_append _)

/-- If every catalog has the service, it is that of the last one. -/
theorem lookupLoop_of_isSome (service : Option (Service Q))
    (h : ∀ catalog ∈ catalogs, (catalog.lookupService serviceName).isSome) :
    CompositeCatalog.lookupLoop serviceName service catalogs =
      (catalogs.getLast?.map (·.lookupService serviceName)).getD service := by
  induction catalogs generalizing service with
  | nil => rfl
  | cons catalog catalogs ih =>
    obtain ⟨found, hfound⟩ := Option.isSome_iff_exists.1 (h catalog List.mem_cons_self)
    unfold CompositeCatalog.lookupLoop
    rw [hfound]
    dsimp only
    rw [ih (some found) fun c hc => h c (List.mem_cons_of_mem _ hc), ← hfound]
    cases catalogs with
    | nil => rfl
    | cons c cs =>
      rw [List.getLast?_cons_cons, List.getLast?_eq_some_getLast (List.cons_ne_nil c cs)]
      rfl

/-- If some catalog lacks the service, none is found. -/
theorem lookupLoop_of_none (service : Option (Service Q)) {catalog : ServiceCatalog Q}
    (hmem : catalog ∈ catalogs) (h : catalog.lookupService serviceName = none) :
    CompositeCatalog.lookupLoop serviceName service catalogs = none := by
  induction catalogs generalizing service with
  | nil => cases hmem
  | cons c cs ih =>
    unfold CompositeCatalog.lookupLoop
    cases hc : c.lookupService serviceName with
    | none => rfl
    | some found =>
      refine ih (some found) ?_
      rcases List.mem_cons.1 hmem with rfl | hmem
      · rw [h] at hc
        cases hc
      · exact hmem

/-- The composite catalog finds the service of the first catalog that has it: no catalog has it,
    or all have, and the last one the same as the first. -/
theorem lookupService_eq_iff :
    CompositeCatalog.lookupService catalogs serviceName =
        catalogs.findSome? (·.lookupService serviceName) ↔
      (∀ catalog ∈ catalogs, catalog.lookupService serviceName = none) ∨
        ((∀ catalog ∈ catalogs, (catalog.lookupService serviceName).isSome) ∧
          catalogs.getLast?.bind (·.lookupService serviceName) =
            catalogs.head?.bind (·.lookupService serviceName)) := by
  by_cases hall : ∀ catalog ∈ catalogs, (catalog.lookupService serviceName).isSome
  · have hlast : CompositeCatalog.lookupService catalogs serviceName =
        catalogs.getLast?.bind (·.lookupService serviceName) := by
      rw [CompositeCatalog.lookupService, lookupLoop_of_isSome none hall]
      cases catalogs.getLast? <;> rfl
    have hfirst : catalogs.findSome? (·.lookupService serviceName) =
        catalogs.head?.bind (·.lookupService serviceName) := by
      cases catalogs with
      | nil => rfl
      | cons c cs =>
        obtain ⟨found, hfound⟩ := Option.isSome_iff_exists.1 (hall c List.mem_cons_self)
        simp [hfound]
    rw [hlast, hfirst]
    refine ⟨fun h => .inr ⟨hall, h⟩, ?_⟩
    rintro (hnone | ⟨-, h⟩)
    · cases catalogs with
      | nil => rfl
      | cons c cs =>
        have hsome := hall c List.mem_cons_self
        rw [hnone c List.mem_cons_self] at hsome
        cases hsome
    · exact h
  · push Not at hall
    obtain ⟨catalog, hmem, hcatalog⟩ := hall
    rw [CompositeCatalog.lookupService,
      lookupLoop_of_none none hmem (Option.not_isSome_iff_eq_none.1 hcatalog), eq_comm,
      List.findSome?_eq_none_iff]
    exact ⟨.inl, fun h => h.elim id fun h => absurd (h.1 catalog hmem) hcatalog⟩

end

/-! ## Scans -/

namespace SoapEndpointReference

variable [DecidableEq Q] (r : SoapEndpointReference Q)

/-- The condition of the loops: the port implements the required type and uses a SOAP binding. -/
def implements (port : Port Q) : Bool :=
  some port.binding.portType = r.portTypeName ∧ isSoapBinding port.binding

theorem isCandidate_of_portName (h : r.portName = none) : r.isCandidate = r.implements := by
  funext port
  simp [isCandidate, implements, h]

theorem scanPorts_eq (selectedPort : Option (Port Q)) (ports : List (Port Q)) :
    r.scanPorts selectedPort ports =
      match (ports.filter r.implements).find? r.hasAddress with
      | some port => .stop port
      | none => .go (selectedPort.or (ports.filter r.implements).head?) := by
  induction ports generalizing selectedPort with
  | nil => cases selectedPort <;> rfl
  | cons port ports ih =>
    unfold scanPorts
    by_cases hport : some port.binding.portType = r.portTypeName ∧ isSoapBinding port.binding
    · have himpl : r.implements port = true := decide_eq_true hport
      rw [if_pos hport, List.filter_cons_of_pos himpl]
      by_cases haddress : r.address ≠ none ∧ r.address = getSoapAddress port
      · have hhas : r.hasAddress port = true := decide_eq_true haddress
        rw [if_pos haddress, List.find?_cons_of_pos hhas]
      · have hhas : ¬ r.hasAddress port = true := fun h => haddress (of_decide_eq_true h)
        rw [if_neg haddress, List.find?_cons_of_neg hhas, ih, ih]
        cases selectedPort with
        | none => rw [if_pos rfl, Option.none_or, List.head?_cons, Option.some_or]
        | some => rw [if_neg (by simp), Option.some_or, Option.some_or]
    · have himpl : ¬ r.implements port = true := fun h => hport (of_decide_eq_true h)
      rw [if_neg hport, List.filter_cons_of_neg himpl, ih]

/-- The scan of the services is one over all their ports. -/
theorem scanServices_eq (selectedPort : Option (Port Q)) (services : List (Service Q)) :
    r.scanServices selectedPort services =
      (((services.flatMap (·.ports)).filter r.implements).find? r.hasAddress).or
        (selectedPort.or ((services.flatMap (·.ports)).filter r.implements).head?) := by
  induction services generalizing selectedPort with
  | nil => cases selectedPort <;> rfl
  | cons service services ih =>
    unfold scanServices
    rw [scanPorts_eq, List.flatMap_cons, List.filter_append, List.find?_append, List.head?_append]
    cases (service.ports.filter r.implements).find? r.hasAddress with
    | some port => rfl
    | none =>
      dsimp only
      rw [ih, Option.none_or, Option.or_assoc]

theorem filter_eq_nil_of_best {ports : List (Port Q)} (h : r.best ports = none) :
    ports.filter r.isCandidate = [] :=
  List.head?_eq_none_iff.1 (Option.or_eq_none_iff.1 h).2

/-! ## Selections -/

/-- A reference without a service selects among all services of the port type. -/
theorem selects_ofServices (hname : r.portName = none) (services : List (Service Q)) :
    r.Selects (services.flatMap (·.ports)) (r.selectPortOfServices services) := by
  have hbest : r.best (services.flatMap (·.ports)) = r.scanServices none services := by
    rw [best, scanServices_eq, isCandidate_of_portName r hname, Option.none_or]
  unfold Selects selectPortOfServices
  rw [← hbest]
  cases h : r.best (services.flatMap (·.ports)) with
  | some port => rfl
  | none => exact ⟨r.filter_eq_nil_of_best h, _, rfl⟩

/-- The candidates for a named port: the port of that name, if it implements the type. -/
theorem filter_named {portName : String} (hname : r.portName = some portName)
    (service : Service Q) :
    service.ports.filter r.isCandidate =
      (service.ports.find? fun port => port.name = portName).toList.filter r.implements := by
  rw [← filter_key service.distinct portName, List.filter_filter]
  refine List.filter_congr fun port _ => ?_
  simp [isCandidate, implements, hname, eq_comm (a := portName), Bool.and_assoc]

/-- With one candidate at most, that is the best one. -/
theorem best_of_toList {ports : List (Port Q)} {found : Option (Port Q)}
    (h : ports.filter r.isCandidate = found.toList) : r.best ports = found := by
  rw [best, h]
  cases found with
  | none => rfl
  | some port => cases hport : r.hasAddress port <;> simp [hport]

theorem selects_named {serviceName : Q} {portName : String} (hname : r.portName = some portName)
    (service : Service Q) :
    r.Selects service.ports (r.selectNamedPort serviceName portName service) := by
  have hcandidates := r.filter_named hname service
  unfold Selects selectNamedPort
  cases hport : service.ports.find? fun port => port.name = portName with
  | none =>
    rw [hport] at hcandidates
    have hbest : r.best service.ports = none := r.best_of_toList hcandidates
    rw [hbest]
    exact ⟨hcandidates, _, rfl⟩
  | some port =>
    rw [hport, Option.toList_some] at hcandidates
    dsimp only
    by_cases himpl : r.implements port = true
    · obtain ⟨htype, hsoap⟩ := of_decide_eq_true himpl
      have hbest : r.best service.ports = some port :=
        r.best_of_toList (by rw [hcandidates, List.filter_cons_of_pos himpl]; rfl)
      rw [hbest, ← htype, if_neg (Option.some_ne_none _), if_neg (not_not.2 rfl),
        if_neg (not_not.2 hsoap)]
    · have hnil : service.ports.filter r.isCandidate = [] := by
        rw [hcandidates, List.filter_cons_of_neg himpl]
        rfl
      have hbest : r.best service.ports = none := r.best_of_toList hnil
      rw [hbest]
      refine ⟨hnil, ?_⟩
      -- one of the checks fails
      by_cases hnull : r.portTypeName = none
      · exact ⟨_, if_pos hnull⟩
      by_cases htype : r.portTypeName ≠ some port.binding.portType
      · rw [if_neg hnull]
        exact ⟨_, if_pos htype⟩
      have hsoap : ¬ isSoapBinding port.binding := fun hsoap =>
        himpl (decide_eq_true ⟨(not_not.1 htype).symm, hsoap⟩)
      rw [if_neg hnull, if_neg htype]
      exact ⟨_, if_pos hsoap⟩

/-- A reference to a service selects among its ports. -/
theorem selects_ofService {serviceName : Q} (service : Option (Service Q)) :
    r.Selects ((service.map (·.ports)).getD []) (r.selectPortOfService serviceName service) := by
  cases service with
  | none => exact ⟨rfl, _, rfl⟩
  | some service =>
    rw [Option.map_some, Option.getD_some]
    unfold selectPortOfService
    cases hname : r.portName with
    | some portName => exact r.selects_named hname service
    | none =>
      have hbest : r.best service.ports = match r.scanPorts none service.ports with
          | .stop port => some port
          | .go selectedPort => selectedPort := by
        rw [scanPorts_eq, best, isCandidate_of_portName r hname, Option.none_or]
        cases (service.ports.filter r.implements).find? r.hasAddress <;> rfl
      unfold Selects
      dsimp only
      rw [hbest]
      generalize r.scanPorts none service.ports = scan at hbest
      cases scan with
      | stop port => rfl
      | go selectedPort =>
        cases selectedPort with
        | some port => rfl
        | none => exact ⟨r.filter_eq_nil_of_best hbest, _, rfl⟩

/-- A reference without a service selects among all services. -/
theorem selects_of_none (hservice : r.serviceName = none) (catalogs : List (ServiceCatalog Q)) :
    r.Selects (r.offered catalogs) (r.selectPort (compositeCatalog catalogs)) := by
  have hname : r.portName = none := by
    cases hname : r.portName with
    | none => rfl
    | some portName =>
      have := r.combined (by rw [hname]; rfl)
      rw [hservice] at this
      cases this
  unfold offered selectPort
  rw [hservice]
  dsimp only [compositeCatalog]
  rw [lookupServices_eq]
  exact r.selects_ofServices hname _

/-! ## Services of one name -/

/-- A selection tells which port is the best. -/
theorem selects_congr {ports ports' : List (Port Q)} {result : Except (SelectError Q) (Port Q)}
    (h : r.Selects ports result) : r.Selects ports' result ↔ r.best ports' = r.best ports := by
  unfold Selects at h ⊢
  cases hbest : r.best ports with
  | some port =>
    rw [hbest] at h
    obtain rfl : result = .ok port := h
    cases r.best ports' with
    | some port' =>
      dsimp only
      rw [Except.ok.injEq, Option.some.injEq]
      exact eq_comm
    | none => simp
  | none =>
    rw [hbest] at h
    obtain ⟨-, e, rfl⟩ := h
    cases hbest' : r.best ports' with
    | some port' => simp
    | none => simpa using r.filter_eq_nil_of_best hbest'

/-- The best port is a candidate, with the address if one of the candidates has it. -/
theorem best_spec {ports : List (Port Q)} {port : Port Q} (h : r.best ports = some port) :
    port ∈ ports ∧ r.isCandidate port ∧
      ∀ other ∈ ports, r.isCandidate other → r.hasAddress other → r.hasAddress port := by
  unfold best at h
  cases hfind : (ports.filter r.isCandidate).find? r.hasAddress with
  | some found =>
    rw [hfind] at h
    obtain rfl := Option.some.inj h
    obtain ⟨hmem, hcandidate⟩ := List.mem_filter.1 (List.mem_of_find?_eq_some hfind)
    exact ⟨hmem, hcandidate, fun _ _ _ _ => List.find?_some hfind⟩
  | none =>
    rw [hfind, Option.none_or] at h
    obtain ⟨hmem, hcandidate⟩ := List.mem_filter.1 (List.mem_of_head? h)
    refine ⟨hmem, hcandidate, fun other hother hcand haddress => ?_⟩
    exact absurd haddress (List.find?_eq_none.1 hfind other (List.mem_filter.2 ⟨hother, hcand⟩))

/-- Candidates behind ports that cover them are not missed. -/
theorem best_append {ports others : List (Port Q)} (h : Covers ports others) :
    r.best (ports ++ others) = r.best ports := by
  have hcovered : ∀ other ∈ others, r.isCandidate other → ∃ port ∈ ports.filter r.isCandidate,
      r.hasAddress other → r.hasAddress port := by
    intro other hother hcandidate
    obtain ⟨htype, hsoap, hname⟩ := of_decide_eq_true hcandidate
    obtain ⟨port, hport, hsoap', hname', htype', haddress⟩ := h other hother hsoap
    have hcand : r.isCandidate port := decide_eq_true ⟨htype' ▸ htype, hsoap', hname' ▸ hname⟩
    refine ⟨port, List.mem_filter.2 ⟨hport, hcand⟩, fun hhas => ?_⟩
    obtain ⟨hne, heq⟩ := of_decide_eq_true hhas
    exact decide_eq_true ⟨hne, heq.trans (haddress (heq ▸ hne)).symm⟩
  unfold best
  rw [List.filter_append, List.find?_append, List.head?_append]
  cases hfind : (ports.filter r.isCandidate).find? r.hasAddress with
  | some port => rfl
  | none =>
    have hnone : (others.filter r.isCandidate).find? r.hasAddress = none := by
      refine List.find?_eq_none.2 fun other hother hhas => ?_
      obtain ⟨hmem, hcandidate⟩ := List.mem_filter.1 hother
      obtain ⟨port, hport, hhas'⟩ := hcovered other hmem hcandidate
      exact List.find?_eq_none.1 hfind port hport (hhas' hhas)
    rw [hnone]
    cases hhead : (ports.filter r.isCandidate).head? with
    | some port => rfl
    | none =>
      have hnil : others.filter r.isCandidate = [] := by
        refine List.filter_eq_nil_iff.2 fun other hother hcandidate => ?_
        obtain ⟨port, hport, -⟩ := hcovered other hother hcandidate
        rw [List.head?_eq_none_iff.1 hhead] at hport
        cases hport
      rw [hnil]
      rfl

end SoapEndpointReference

/-- No reference to a service misses a better port behind those of the first one. -/
theorem covers_iff [DecidableEq Q] (serviceName : Q) (ports others : List (Port Q)) :
    (∀ r : SoapEndpointReference Q, r.serviceName = some serviceName →
        r.best (ports ++ others) = r.best ports) ↔ Covers ports (ports ++ others) := by
  constructor
  · intro h other hother hsoap
    -- the reference to the other port itself
    let r : SoapEndpointReference Q := ⟨some other.binding.portType, some serviceName,
      some other.name, getSoapAddress other, fun _ => rfl⟩
    have hcandidate : r.isCandidate other := decide_eq_true ⟨rfl, hsoap, .inr rfl⟩
    cases hbest : r.best (ports ++ others) with
    | none =>
      exact absurd hcandidate
        (List.filter_eq_nil_iff.1 (r.filter_eq_nil_of_best hbest) other hother)
    | some port =>
      obtain ⟨-, hport, haddress⟩ := r.best_spec hbest
      obtain ⟨htype, hsoap', hname⟩ := of_decide_eq_true hport
      refine ⟨port, (r.best_spec ((h r rfl).symm.trans hbest)).1, hsoap', ?_,
        Option.some.inj htype, fun hne => ?_⟩
      · exact (Option.some.inj (hname.resolve_left (Option.some_ne_none _))).symm
      · have hhas := haddress other hother hcandidate (decide_eq_true ⟨hne, rfl⟩)
        exact (of_decide_eq_true hhas).2.symm
  · exact fun h r _ => r.best_append fun other hother => h other (List.mem_append_right _ hother)

/-- Once the lookup finds the first service, a reference selects among its ports. -/
theorem selects_offered_iff [DecidableEq Q] {catalogs : List (ServiceCatalog Q)} {serviceName : Q}
    (h : CompositeCatalog.lookupService catalogs serviceName =
      catalogs.findSome? (·.lookupService serviceName)) (r : SoapEndpointReference Q)
    (hservice : r.serviceName = some serviceName) :
    r.Selects (r.offered catalogs) (r.selectPort (compositeCatalog catalogs)) ↔
      r.best ((catalogs.filterMap (·.lookupService serviceName)).flatMap (·.ports)) =
        r.best (((catalogs.findSome? (·.lookupService serviceName)).map (·.ports)).getD []) := by
  unfold SoapEndpointReference.offered SoapEndpointReference.selectPort
  rw [hservice]
  dsimp only [compositeCatalog]
  rw [h]
  exact r.selects_congr (r.selects_ofService _)

/-- **Searches.**  The composite catalog is searched completely for exactly the names that no
    catalog has, or that all have, the last one as the first, and the first one with all ports
    that another one could add. -/
theorem searched_iff [DecidableEq Q] (catalogs : List (ServiceCatalog Q)) (serviceName : Q) :
    Searched catalogs serviceName ↔
      (∀ catalog ∈ catalogs, catalog.lookupService serviceName = none) ∨
        ((∀ catalog ∈ catalogs, (catalog.lookupService serviceName).isSome) ∧
          catalogs.getLast?.bind (·.lookupService serviceName) =
            catalogs.head?.bind (·.lookupService serviceName) ∧
          ∀ service, catalogs.head?.bind (·.lookupService serviceName) = some service →
            Covers service.ports
              ((catalogs.filterMap (·.lookupService serviceName)).flatMap (·.ports))) := by
  have hsearched : Searched catalogs serviceName ↔
      CompositeCatalog.lookupService catalogs serviceName =
          catalogs.findSome? (·.lookupService serviceName) ∧
        ∀ r : SoapEndpointReference Q, r.serviceName = some serviceName →
          r.best ((catalogs.filterMap (·.lookupService serviceName)).flatMap (·.ports)) =
            r.best (((catalogs.findSome? (·.lookupService serviceName)).map (·.ports)).getD []) := by
    refine and_congr_right fun h => ⟨fun hr r hservice => ?_, fun hr r hservice => ?_⟩
    · refine (selects_offered_iff h r hservice).1 (hr r fun n hn => ?_)
      exact Option.some.inj (hn.symm.trans hservice)
    · cases hname : r.serviceName with
      | none => exact r.selects_of_none hname catalogs
      | some n =>
        have hn : r.serviceName = some serviceName := by rw [hname, hservice n hname]
        exact (selects_offered_iff h r hn).2 (hr r hn)
  rw [hsearched, lookupService_eq_iff]
  by_cases hnone : ∀ catalog ∈ catalogs, catalog.lookupService serviceName = none
  · refine iff_of_true ⟨.inl hnone, fun r _ => ?_⟩ (.inl hnone)
    rw [List.findSome?_eq_none_iff.2 hnone, List.filterMap_eq_nil_iff.2 hnone]
    rfl
  · rw [or_iff_right hnone, or_iff_right hnone, and_assoc]
    refine and_congr_right fun hall => and_congr_right fun _ => ?_
    cases catalogs with
    | nil => exact absurd (fun _ h => nomatch h) hnone
    | cons catalog catalogs =>
      obtain ⟨service, hservice⟩ := Option.isSome_iff_exists.1 (hall catalog List.mem_cons_self)
      have hhead : ∀ found, (catalog :: catalogs).head?.bind (·.lookupService serviceName) =
          some found ↔ found = service := by
        intro found
        rw [List.head?_cons, Option.bind_some, hservice, Option.some.injEq]
        exact eq_comm
      simp only [hhead, forall_eq]
      rw [List.findSome?_cons, List.filterMap_cons, hservice]
      exact covers_iff serviceName service.ports _

/-! ## A service of the second catalog -/

/-- A service with one port, and the catalog that has only that service. -/
def translatorService : Service String where
  name := "translatorService"
  ports := [⟨"textTranslatorPort", ⟨"textTranslator", [.soapBinding]⟩,
    [.soapAddress (some "http://example.com/translator/text")]⟩]
  distinct := by simp

def catalogOf (service : Service String) : ServiceCatalog String where
  lookupServices portTypeName :=
    if service.ports.any fun port => some port.binding.portType = portTypeName then [service]
    else []
  lookupService serviceName := if serviceName = service.name then some service else none

def atmService : Service String := ⟨"atmService", [], by simp⟩

theorem second_catalog_missed :
    ¬ Searched [catalogOf atmService, catalogOf translatorService] "translatorService" := by
  intro h
  have hfound := congrArg Option.isSome h.1
  revert hfound
  decide

end Integration.Catalog

end Jbpm
