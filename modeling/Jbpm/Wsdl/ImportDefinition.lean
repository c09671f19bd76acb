/-
  The documents that a process imports, with what has been looked up in them.

  * `ImportDefinition`, `lookup`: the lookups, which keep what they find;
  * `addMessage`, `addPortType`, `addPartnerLinkType`: what comes with a partner link type;
  * `Resolved`: what elements refer to is declared;
  * `returns_iff`: when a lookup returns as it is to;
  * `Keeps`, `Keeps.call`: after any lookups, what is kept is declared in the documents.
-/
import Jbpm.Wsdl.WsdlUtil
import Mathlib.Logic.Function.Basic

namespace Jbpm

open Lib

namespace Wsdl

/-- A document that a process imports. -/
inductive Import (D : Type)
  | wsdl (document : D)
  | xmlSchema

/-- A message type has its message. -/
structure ImportDefinition (D : Type) where
  imports : List (Import D)
  partnerLinkTypes : QName → Option PartnerLinkType
  portTypes : QName → Option PortType
  properties : QName → Option Property
  messages : QName → Option Message
  messageTypes : QName → Option Message

namespace ImportDefinition

variable {D E : Type} (W : Definitions D) (s : ImportDefinition D)

/-- A new definition. -/
def ofImports (imports : List (Import D)) : ImportDefinition D where
  imports := imports
  partnerLinkTypes := fun _ => none
  portTypes := fun _ => none
  properties := fun _ => none
  messages := fun _ => none
  messageTypes := fun _ => none

/-- Imports that are not WSDL documents are skipped. -/
def documents : List D :=
  s.imports.filterMap fun
    | .wsdl document => some document
    | .xmlSchema => none

/-! ## What is added -/

def addProperty (property : Property) : ImportDefinition D :=
  { s with properties := Function.update s.properties property.qName (some property) }

def addMessageType (message : Message) : ImportDefinition D :=
  { s with messageTypes := Function.update s.messageTypes message.qName (some message) }

/-- A message is not added if one of its name is there. -/
def addMessage (message : Message) : ImportDefinition D :=
  match s.messages message.qName with
  | some _ => s
  | none => { s with messages := Function.update s.messages message.qName (some message)
            }.addMessageType message

/-- A port type is added with its messages. -/
def addPortType (portType : PortType) : ImportDefinition D :=
  match s.portTypes portType.qName with
  | some _ => s
  | none =>
    let s := portType.messages.foldl addMessage s
    { s with portTypes := Function.update s.portTypes portType.qName (some portType) }

/-- A partner link type is added with the port types of its roles. -/
def addPartnerLinkType (partnerLinkType : PartnerLinkType) : ImportDefinition D :=
  let s := s.addPortType partnerLinkType.firstRole
  let s := partnerLinkType.secondRole.elim s s.addPortType
  { s with partnerLinkTypes :=
      Function.update s.partnerLinkTypes partnerLinkType.qName (some partnerLinkType) }

/-! ## Lookups -/

/-- A lookup in what is kept and then in the documents.  What is found there is added. -/
def lookup (kept : QName → Option E) (getLocalElement : D → QName → Option E)
    (add : E → ImportDefinition D) (n : ℕ) (name : QName) :
    Option (Option E × ImportDefinition D) :=
  match kept name with
  | some element => some (some element, s)
  | none => (W.getElementOf getLocalElement name n s.documents).map fun found =>
      (found, found.elim s add)

def getMessage (n : ℕ) (name : QName) : Option (Option Message × ImportDefinition D) :=
  s.lookup W s.messages W.messages
    (fun message => { s with messages := Function.update s.messages name (some message) }) n name

def getPortType (n : ℕ) (name : QName) : Option (Option PortType × ImportDefinition D) :=
  s.lookup W s.portTypes W.portTypes
    (fun portType => { s with portTypes := Function.update s.portTypes name (some portType) }) n
    name

def getProperty (n : ℕ) (name : QName) : Option (Option Property × ImportDefinition D) :=
  s.lookup W s.properties W.localProperty
    (fun property => { s with properties := Function.update s.properties name (some property) }) n
    name

def getPartnerLinkType (n : ℕ) (name : QName) :
    Option (Option PartnerLinkType × ImportDefinition D) :=
  s.lookup W s.partnerLinkTypes W.localPartnerLinkType s.addPartnerLinkType n name

def getMessageType (n : ℕ) (name : QName) : Option (Option Message × ImportDefinition D) :=
  match s.messageTypes name with
  | some message => some (some message, s)
  | none => (s.getMessage W n name).map fun (found, s) => (found, found.elim s s.addMessageType)

/-- The definition itself, if it declares the port type. -/
def declaring (d : D) (portTypeName : QName) : Option D :=
  if (W.portTypes d portTypeName).isSome then some d else none

def getDeclaringDefinition (n : ℕ) (portTypeName : QName) : Option (Option D) :=
  W.getElementOf (declaring W) portTypeName n s.documents

/-! ## What lookups return -/

end ImportDefinition

/-- The element is declared in one of the documents, or in what they import. -/
def Definitions.Declared {D E : Type} (W : Definitions D) (documents : List D)
    (getLocalElement : D → QName → Option E) (name : QName) (element : E) : Prop :=
  ∃ document ∈ documents, ∃ d, W.Reaches document d ∧ getLocalElement d name = some element

/-- What the elements of the definitions refer to is declared, as the reader of the definitions
    looks it up, and adds an undefined one if there is none. -/
structure Definitions.Resolved {D : Type} (W : Definitions D) : Prop where
  role : ∀ d partnerLinkType, partnerLinkType ∈ W.partnerLinkTypes d →
    ∀ portType, portType = partnerLinkType.firstRole ∨ partnerLinkType.secondRole = some portType →
      W.Declared [d] W.portTypes portType.qName portType
  operation : ∀ d name portType, W.portTypes d name = some portType →
    ∀ message ∈ portType.messages, W.Declared [d] W.messages message.qName message
  messageName : ∀ d name message, W.messages d name = some message → message.qName = name

namespace ImportDefinition

variable {D E : Type} (W : Definitions D) (s : ImportDefinition D)

/-- A lookup ends, with an element that is declared, or with none if none is. -/
def Returns (getLocalElement : D → QName → Option E) (name : QName)
    (lookup : ℕ → Option (Option E × ImportDefinition D)) : Prop :=
  ∃ n found s', lookup n = some (found, s') ∧
    (∀ element, found = some element → W.Declared s.documents getLocalElement name element) ∧
    (found = none → ∀ element, ¬ W.Declared s.documents getLocalElement name element)

/-- What is kept is declared. -/
structure Keeps (documents : List D) : Prop where
  messages : ∀ name message, s.messages name = some message →
    W.Declared documents W.messages name message
  messageTypes : ∀ name message, s.messageTypes name = some message →
    W.Declared documents W.messages name message
  portTypes : ∀ name portType, s.portTypes name = some portType →
    W.Declared documents W.portTypes name portType
  properties : ∀ name property, s.properties name = some property →
    W.Declared documents W.localProperty name property
  partnerLinkTypes : ∀ name partnerLinkType, s.partnerLinkTypes name = some partnerLinkType →
    W.Declared documents W.localPartnerLinkType name partnerLinkType

variable {W s} {getLocalElement : D → QName → Option E} {kept : QName → Option E}
  {add : E → ImportDefinition D} {name : QName} {n : ℕ} {found : Option E}
  {s' : ImportDefinition D} {documents : List D}

theorem not_declared_iff : (∀ element, ¬ W.Declared documents getLocalElement name element) ↔
    ∀ document ∈ documents, ∀ d, W.Reaches document d → getLocalElement d name = none := by
  constructor
  · intro h document hdocument d hd
    by_contra hne
    obtain ⟨element, he⟩ := Option.ne_none_iff_exists'.1 hne
    exact h element ⟨document, hdocument, d, hd, he⟩
  · rintro h element ⟨document, hdocument, d, hd, he⟩
    rw [h document hdocument d hd] at he
    cases he

/-- **Lookups that keep what they find.**  They return what they are to iff it is there already,
    or the documents allow for it. -/
theorem returns_iff [Finite D] (hkept : ∀ element, kept name = some element →
      W.Declared s.documents getLocalElement name element) :
    s.Returns W getLocalElement name (fun n => s.lookup W kept getLocalElement add n name) ↔
      kept name ≠ none ∨ W.Findable getLocalElement name s.documents := by
  rw [← Definitions.found_iff]
  unfold Returns lookup
  cases hname : kept name with
  | some element =>
    refine iff_of_true ⟨0, some element, s, rfl, fun e he => ?_, fun hnone => nomatch hnone⟩
      (.inl (Option.some_ne_none element))
    exact hkept e (hname.trans he)
  | none =>
    rw [or_iff_right (not_not.2 rfl)]
    constructor
    · rintro ⟨n, found, s', hfound, hsome, hnone⟩
      obtain ⟨found', hfound', heq⟩ := Option.map_eq_some_iff.1 hfound
      obtain ⟨rfl, -⟩ := Prod.mk.inj heq
      exact ⟨n, found', hfound', hsome, fun h => not_declared_iff.1 (hnone h)⟩
    · rintro ⟨n, found, hfound, hsome, hnone⟩
      refine ⟨n, found, found.elim s add, ?_, hsome, fun h => not_declared_iff.2 (hnone h)⟩
      dsimp only
      rw [hfound]
      rfl

/-! ## Lookups keep what is declared -/

theorem keeps_ofImports (imports : List (Import D)) : (ofImports imports).Keeps W documents where
  messages _ _ h := nomatch h
  messageTypes _ _ h := nomatch h
  portTypes _ _ h := nomatch h
  properties _ _ h := nomatch h
  partnerLinkTypes _ _ h := nomatch h

/-- Something declared is kept under its name. -/
theorem declared_update {element : E} (h : ∀ name e, kept name = some e →
    W.Declared documents getLocalElement name e)
    (he : W.Declared documents getLocalElement name element) (name' : QName) (e : E)
    (hkept : Function.update kept name (some element) name' = some e) :
    W.Declared documents getLocalElement name' e := by
  rw [Function.update_apply] at hkept
  split at hkept
  · rename_i hname
    cases hkept
    exact hname ▸ he
  · exact h name' e hkept

theorem Keeps.keepMessage (h : s.Keeps W documents) {message : Message}
    (hm : W.Declared documents W.messages name message) :
    Keeps W { s with messages := Function.update s.messages name (some message) } documents :=
  { h with messages := declared_update h.messages hm }

theorem Keeps.keepPortType (h : s.Keeps W documents) {portType : PortType}
    (hp : W.Declared documents W.portTypes name portType) :
    Keeps W { s with portTypes := Function.update s.portTypes name (some portType) } documents :=
  { h with portTypes := declared_update h.portTypes hp }

theorem Keeps.keepProperty (h : s.Keeps W documents) {property : Property}
    (hp : W.Declared documents W.localProperty name property) :
    Keeps W { s with properties := Function.update s.properties name (some property) } documents :=
  { h with properties := declared_update h.properties hp }

theorem Keeps.addMessageType (h : s.Keeps W documents) {message : Message}
    (hm : W.Declared documents W.messages message.qName message) :
    (s.addMessageType message).Keeps W documents :=
  { h with messageTypes := declared_update h.messageTypes hm }

theorem Keeps.addMessage (h : s.Keeps W documents) {message : Message}
    (hm : W.Declared documents W.messages message.qName message) :
    (s.addMessage message).Keeps W documents := by
  unfold ImportDefinition.addMessage
  split
  · exact h
  · exact (h.keepMessage hm).addMessageType hm

theorem Keeps.addMessages (h : s.Keeps W documents) (messages : List Message)
    (hm : ∀ message ∈ messages, W.Declared documents W.messages message.qName message) :
    (messages.foldl ImportDefinition.addMessage s).Keeps W documents := by
  induction messages generalizing s with
  | nil => exact h
  | cons message messages ih =>
    exact ih (h.addMessage (hm message List.mem_cons_self)) fun m hmem =>
      hm m (List.mem_cons_of_mem message hmem)

/-- What a definition that can be reached refers to can be reached. -/
theorem declared_trans {document d : D} {element : E} (hdocument : document ∈ documents)
    (hd : W.Reaches document d) (h : W.Declared [d] getLocalElement name element) :
    W.Declared documents getLocalElement name element := by
  obtain ⟨d', hd', c, hc, he⟩ := h
  cases List.mem_singleton.1 hd'
  exact ⟨document, hdocument, c, hd.trans hc, he⟩

theorem Keeps.addPortType (h : s.Keeps W documents) (hW : W.Resolved) {portType : PortType}
    (hp : W.Declared documents W.portTypes portType.qName portType) :
    (s.addPortType portType).Keeps W documents := by
  unfold ImportDefinition.addPortType
  split
  · exact h
  · have hmessages := h.addMessages portType.messages fun message hmem => by
      obtain ⟨document, hdocument, d, hd, he⟩ := hp
      exact declared_trans hdocument hd (hW.operation d _ portType he message hmem)
    exact hmessages.keepPortType hp

theorem Keeps.addPartnerLinkType (h : s.Keeps W documents) (hW : W.Resolved)
    {partnerLinkType : PartnerLinkType}
    (hp : W.Declared documents W.localPartnerLinkType name partnerLinkType) :
    (s.addPartnerLinkType partnerLinkType).Keeps W documents := by
  obtain ⟨document, hdocument, d, hd, he⟩ := hp
  have hmem : partnerLinkType ∈ W.partnerLinkTypes d := List.mem_of_find?_eq_some he
  have hname : partnerLinkType.qName = name := by
    simpa using List.find?_some he
  have hrole (portType) (hor : portType = partnerLinkType.firstRole ∨
      partnerLinkType.secondRole = some portType) :=
    declared_trans hdocument hd (hW.role d partnerLinkType hmem portType hor)
  have hfirst := h.addPortType hW (hrole _ (.inl rfl))
  have hsecond : (partnerLinkType.secondRole.elim (s.addPortType partnerLinkType.firstRole)
      (s.addPortType partnerLinkType.firstRole).addPortType).Keeps W documents := by
    cases hrole₂ : partnerLinkType.secondRole with
    | none => exact hfirst
    | some portType => exact hfirst.addPortType hW (hrole _ (.inr hrole₂))
  exact { hsecond with
    partnerLinkTypes := declared_update hsecond.partnerLinkTypes
      ⟨document, hdocument, d, hd, by rw [hname]; exact he⟩ }

/-! ## The imports stay -/

theorem documents_congr (h : s'.imports = s.imports) : s'.documents = s.documents := by
  unfold documents
  rw [h]

@[simp] theorem addMessageType_imports (message : Message) :
    (s.addMessageType message).imports = s.imports := rfl

@[simp] theorem addMessage_imports (message : Message) :
    (s.addMessage message).imports = s.imports := by
  unfold addMessage
  split <;> rfl

@[simp] theorem addMessages_imports (messages : List Message) :
    (messages.foldl addMessage s).imports = s.imports := by
  induction messages generalizing s with
  | nil => rfl
  | cons message messages ih => rw [List.foldl_cons, ih, addMessage_imports]

@[simp] theorem addPortType_imports (portType : PortType) :
    (s.addPortType portType).imports = s.imports := by
  unfold addPortType
  split
  · rfl
  · exact addMessages_imports portType.messages

@[simp] theorem addPartnerLinkType_imports (partnerLinkType : PartnerLinkType) :
    (s.addPartnerLinkType partnerLinkType).imports = s.imports := by
  unfold addPartnerLinkType
  cases partnerLinkType.secondRole <;> simp

/-- What a lookup finds is declared, and it is kept if adding it is. -/
theorem Keeps.lookup (h : s.Keeps W s.documents)
    (hs : s.lookup W kept getLocalElement add n name = some (found, s'))
    (hkept : ∀ element, kept name = some element →
      W.Declared s.documents getLocalElement name element)
    (hadd : ∀ element, W.Declared s.documents getLocalElement name element →
      (add element).Keeps W s.documents ∧ (add element).imports = s.imports) :
    (s'.Keeps W s.documents ∧ s'.imports = s.imports) ∧
      ∀ element, found = some element → W.Declared s.documents getLocalElement name element := by
  unfold ImportDefinition.lookup at hs
  cases hname : kept name with
  | some element =>
    rw [hname] at hs
    cases hs
    exact ⟨⟨h, rfl⟩, fun e he => hkept e (hname.trans he)⟩
  | none =>
    rw [hname] at hs
    obtain ⟨found', hfound, heq⟩ := Option.map_eq_some_iff.1 hs
    obtain ⟨rfl, rfl⟩ := Prod.mk.inj heq
    have hdeclared : ∀ element, found' = some element →
        W.Declared s.documents getLocalElement name element := by
      rintro element rfl
      obtain ⟨document, hdocument, he⟩ := firstSome_sound hfound
      exact ⟨document, hdocument, (Definitions.declared_of_getElement he).2⟩
    cases found' with
    | none => exact ⟨⟨h, rfl⟩, hdeclared⟩
    | some element => exact ⟨hadd element (hdeclared element rfl), hdeclared⟩

/-- A lookup. -/
inductive Call
  | getMessage (name : QName)
  | getPortType (name : QName)
  | getProperty (name : QName)
  | getPartnerLinkType (name : QName)
  | getMessageType (name : QName)

variable (W) in
/-- What is kept after a lookup, if that returns. -/
def call (n : ℕ) (s : ImportDefinition D) : Call → Option (ImportDefinition D)
  | .getMessage name => (s.getMessage W n name).map Prod.snd
  | .getPortType name => (s.getPortType W n name).map Prod.snd
  | .getProperty name => (s.getProperty W n name).map Prod.snd
  | .getPartnerLinkType name => (s.getPartnerLinkType W n name).map Prod.snd
  | .getMessageType name => (s.getMessageType W n name).map Prod.snd

theorem Keeps.getMessage (h : s.Keeps W s.documents) {found : Option Message}
    (hs : s.getMessage W n name = some (found, s')) :
    (s'.Keeps W s.documents ∧ s'.imports = s.imports) ∧
      ∀ message, found = some message → W.Declared s.documents W.messages name message :=
  h.lookup hs (h.messages name) fun _ hm => ⟨h.keepMessage hm, rfl⟩

theorem Keeps.getMessageType (h : s.Keeps W s.documents) (hW : W.Resolved)
    {found : Option Message} (hs : s.getMessageType W n name = some (found, s')) :
    s'.Keeps W s.documents ∧ s'.imports = s.imports := by
  unfold ImportDefinition.getMessageType at hs
  split at hs
  · cases hs
    exact ⟨h, rfl⟩
  · obtain ⟨⟨found', s₁⟩, hs₁, heq⟩ := Option.map_eq_some_iff.1 hs
    obtain ⟨rfl, rfl⟩ := Prod.mk.inj heq
    obtain ⟨⟨hkeeps, himports⟩, hdeclared⟩ := h.getMessage hs₁
    cases found' with
    | none => exact ⟨hkeeps, himports⟩
    | some message =>
      have hm := hdeclared message rfl
      obtain ⟨document, hdocument, d, hd, he⟩ := hm
      rw [← hW.messageName d name message he] at he
      exact ⟨hkeeps.addMessageType ⟨document, hdocument, d, hd, he⟩, himports⟩

/-- What is kept after a lookup is declared. -/
theorem Keeps.call (h : s.Keeps W s.documents) (hW : W.Resolved) {c : Call}
    (hs : call W n s c = some s') : s'.Keeps W s'.documents ∧ s'.imports = s.imports := by
  have himports : s'.Keeps W s.documents ∧ s'.imports = s.imports := by
    cases c <;> obtain ⟨⟨found, s₁⟩, hs₁, rfl⟩ := Option.map_eq_some_iff.1 hs
    case getMessage name => exact (h.getMessage hs₁).1
    case getPortType name =>
      exact (h.lookup hs₁ (h.portTypes name) fun _ hp => ⟨h.keepPortType hp, rfl⟩).1
    case getProperty name =>
      exact (h.lookup hs₁ (h.properties name) fun _ hp => ⟨h.keepProperty hp, rfl⟩).1
    case getPartnerLinkType name =>
      exact (h.lookup hs₁ (h.partnerLinkTypes name) fun partnerLinkType hp =>
        ⟨h.addPartnerLinkType hW hp, addPartnerLinkType_imports partnerLinkType⟩).1
    case getMessageType name => exact h.getMessageType hW hs₁
  have hdocuments : s'.documents = s.documents := documents_congr himports.2
  exact ⟨hdocuments ▸ himports.1, himports.2⟩

/-- The lookups that have returned. -/
theorem Keeps.calls (h : s.Keeps W s.documents) (hW : W.Resolved) (calls : List (ℕ × Call))
    (hs : calls.foldlM (fun s c => ImportDefinition.call W c.1 s c.2) s = some s') :
    s'.Keeps W s'.documents ∧ s'.imports = s.imports := by
  induction calls generalizing s with
  | nil =>
    cases hs
    exact ⟨h, rfl⟩
  | cons c calls ih =>
    rw [List.foldlM_cons, Option.bind_eq_bind, Option.bind_eq_some_iff] at hs
    obtain ⟨s₁, hs₁, hs⟩ := hs
    obtain ⟨h₁, himports⟩ := h.call hW hs₁
    obtain ⟨h', himports'⟩ := ih h₁ hs
    exact ⟨h', himports'.trans himports⟩

end ImportDefinition

end Wsdl

end Jbpm
