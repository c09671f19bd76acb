/-
  WSDL definitions that import each other, and the lookup of what they declare.

  * `Definitions`: the definitions, with their imports by namespace;
  * `getElement`, `getImportedElement`: the lookup of an element, for each kind of it;
  * `Found`: a lookup ends, with an element that a definition declares, or with none if there
    is none;
  * `found_iff`: when it does.
-/
import Jbpm.Lib.Search

namespace Jbpm

open Lib

namespace Wsdl

structure QName where
  namespaceURI : String
  localPart : String
  deriving DecidableEq

/-- `toString` of `javax.xml.namespace.QName` -/
def QName.text (name : QName) : String :=
  if name.namespaceURI = "" then name.localPart
  else "\x7b" ++ name.namespaceURI ++ "\x7d" ++ name.localPart

/-- A message, which is undefined if something refers to it and nothing else is known of it. -/
structure Message where
  qName : QName
  isUndefined : Bool
  deriving DecidableEq

/-- A port type, with the messages of the inputs, outputs and faults of its operations. -/
structure PortType where
  qName : QName
  messages : List Message

structure Property where
  qName : QName
  isUndefined : Bool
  deriving DecidableEq

/-- A partner link type, with the port types of its roles. -/
structure PartnerLinkType where
  qName : QName
  firstRole : PortType
  secondRole : Option PortType

structure PropertyQuery where
  text : String
  language : Option String
  deriving DecidableEq

/-- A property alias, which its number tells from others. -/
structure PropertyAlias where
  id : ℕ
  property : Property
  message : Option Message
  element : Option QName
  type : Option QName
  query : Option PropertyQuery
  deriving DecidableEq

/-- WSDL definitions.  The imports are those of a map from namespaces, in the order in which it
    gives them. -/
structure Definitions (D : Type) where
  imports : D → List (String × List D)
  messages : D → QName → Option Message
  portTypes : D → QName → Option PortType
  partnerLinkTypes : D → List PartnerLinkType
  properties : D → List Property
  propertyAliases : D → List PropertyAlias
  documentBaseURI : D → Option String

namespace Definitions

variable {D E : Type} (W : Definitions D) (getLocalElement : D → QName → Option E) (name : QName)

/-- The definitions that one imports. -/
def imported (d : D) : List D := (W.imports d).flatMap Prod.snd

/-- The imports of a namespace. -/
def getImports (d : D) (namespaceURI : String) : List D :=
  ((W.imports d).lookup namespaceURI).getD []

/-- The element in an import with a matching namespace. -/
def getMatchingElement (d : D) : Option E :=
  (W.getImports d name.namespaceURI).findSome? fun c => getLocalElement c name

/-- `getImportedElement`, which looks in the imports with a matching namespace first, and then
    behind all imports.  Nothing is returned before the depth is that of the calls. -/
def getImportedElement : ℕ → D → Option (Option E)
  | 0, _ => none
  | n + 1, d =>
    match W.getMatchingElement getLocalElement name d with
    | some element => some (some element)
    | none => firstSome (getImportedElement n) (W.imported d)

def getElement (n : ℕ) (d : D) : Option (Option E) :=
  match getLocalElement d name with
  | some element => some (some element)
  | none => W.getImportedElement getLocalElement name n d

/-- The lookup in one document after the other. -/
def getElementOf (n : ℕ) (documents : List D) : Option (Option E) :=
  firstSome (W.getElement getLocalElement name n) documents

/-! ## Kinds of elements -/

def getMessage (n : ℕ) (d : D) (name : QName) : Option (Option Message) :=
  W.getElement W.messages name n d

def getPortType (n : ℕ) (d : D) (name : QName) : Option (Option PortType) :=
  W.getElement W.portTypes name n d

def localPartnerLinkType (d : D) (name : QName) : Option PartnerLinkType :=
  (W.partnerLinkTypes d).find? fun partnerLinkType => partnerLinkType.qName = name

def getPartnerLinkType (n : ℕ) (d : D) (name : QName) : Option (Option PartnerLinkType) :=
  W.getElement W.localPartnerLinkType name n d

def localProperty (d : D) (name : QName) : Option Property :=
  (W.properties d).find? fun property => property.qName = name

def getProperty (n : ℕ) (d : D) (name : QName) : Option (Option Property) :=
  W.getElement W.localProperty name n d

/-! ## Lookups -/

/-- A definition can be reached through the imports. -/
def Reaches : D → D → Prop := Lib.Reaches W.imported

/-- A lookup in the documents ends, with what a definition declares that can be reached, or with
    nothing if none declares it. -/
def Found (documents : List D) : Prop :=
  ∃ n found, W.getElementOf getLocalElement name n documents = some found ∧
    (∀ element, found = some element →
      ∃ document ∈ documents, ∃ d, W.Reaches document d ∧ getLocalElement d name = some element) ∧
    (found = none → ∀ document ∈ documents, ∀ d, W.Reaches document d →
      getLocalElement d name = none)

/-- Neither the document declares the name, nor does a definition that is imported with its
    namespace anywhere behind. -/
def Hidden (document : D) : Prop :=
  getLocalElement document name = none ∧
    ∀ d, W.Reaches document d → W.getMatchingElement getLocalElement name d = none

/-- A lookup that comes to a definition comes to this import of it too: none of its imports with
    the namespace of the name declares it, nor does any behind the imports before this one. -/
def LooksIn (d c : D) : Prop :=
  Searched W.imported (W.getMatchingElement getLocalElement name) d c

/-- A lookup does not come to a cycle of imports, and what is declared is imported with its
    namespace. -/
structure Findable (documents : List D) : Prop where
  ends : ∀ front document rest, documents = front ++ document :: rest →
    (∀ b ∈ front, W.Hidden getLocalElement name b) → getLocalElement document name = none →
      ∀ d, Relation.ReflTransGen (W.LooksIn getLocalElement name) document d →
        ¬ Relation.TransGen (W.LooksIn getLocalElement name) d d
  visible : ∀ document ∈ documents, ∀ d, W.Reaches document d → getLocalElement d name ≠ none →
    ∃ document ∈ documents, ¬ W.Hidden getLocalElement name document

variable {W getLocalElement name} {n m : ℕ} {d : D} {documents : List D} {found : Option E}

theorem getImportedElement_eq (n : ℕ) (d : D) :
    W.getImportedElement getLocalElement name n d =
      search W.imported (W.getMatchingElement getLocalElement name) n d := by
  induction n generalizing d with
  | zero => rfl
  | succ n ih =>
    rw [getImportedElement, search, funext ih]
    rfl

theorem getElement_mono (hnm : n ≤ m) (h : W.getElement getLocalElement name n d = some found) :
    W.getElement getLocalElement name m d = some found := by
  unfold getElement at h ⊢
  cases hd : getLocalElement d name with
  | some element =>
    rw [hd] at h
    exact h
  | none =>
    rw [hd] at h
    dsimp only at h ⊢
    rw [getImportedElement_eq] at h ⊢
    exact search_mono hnm h

theorem hidden_of_getElement (h : W.getElement getLocalElement name n d = some none) :
    W.Hidden getLocalElement name d := by
  unfold getElement at h
  cases hd : getLocalElement d name with
  | some element =>
    rw [hd] at h
    cases h
  | none =>
    rw [hd] at h
    dsimp only at h
    rw [getImportedElement_eq] at h
    exact ⟨hd, search_none h⟩

/-- What is found is declared by a definition, and it is not hidden. -/
theorem declared_of_getElement {element : E}
    (h : W.getElement getLocalElement name n d = some (some element)) :
    ¬ W.Hidden getLocalElement name d ∧ ∃ c, W.Reaches d c ∧ getLocalElement c name = some element := by
  unfold getElement at h
  cases hd : getLocalElement d name with
  | some element' =>
    rw [hd] at h
    cases h
    refine ⟨fun hidden => ?_, d, .refl, hd⟩
    rw [hidden.1] at hd
    cases hd
  | none =>
    rw [hd] at h
    dsimp only at h
    rw [getImportedElement_eq] at h
    obtain ⟨c, hc, hhit⟩ := search_sound h
    refine ⟨fun hidden => ?_, ?_⟩
    · rw [hidden.2 c hc] at hhit
      cases hhit
    · obtain ⟨b, hb, hlocal⟩ := List.exists_of_findSome?_eq_some hhit
      refine ⟨b, Relation.ReflTransGen.tail hc ?_, hlocal⟩
      unfold getImports at hb
      cases hlookup : (W.imports c).lookup name.namespaceURI with
      | none =>
        rw [hlookup] at hb
        cases hb
      | some definitions =>
        rw [hlookup] at hb
        obtain ⟨front, rest, hsplit, -⟩ := List.lookup_eq_some_iff.1 hlookup
        refine List.mem_flatMap.2 ⟨(name.namespaceURI, definitions), ?_, hb⟩
        rw [hsplit]
        exact List.mem_append_right _ List.mem_cons_self

/-- **Lookups.** -/
theorem found_iff [Finite D] (documents : List D) :
    W.Found getLocalElement name documents ↔ W.Findable getLocalElement name documents := by
  constructor
  · rintro ⟨n, found, hfound, hsome, hnone⟩
    refine ⟨fun front document rest hsplit hhidden hlocal => ?_,
      fun document hdocument d hd hdeclared => ?_⟩
    · have hfront : ∀ b ∈ front, ∀ e, W.getElement getLocalElement name n b ≠ some (some e) :=
        fun b hb e he => (declared_of_getElement he).1 (hhidden b hb)
      rw [getElementOf, hsplit] at hfound
      obtain ⟨r, hr⟩ := firstSome_append hfound hfront
      unfold getElement at hr
      rw [hlocal] at hr
      dsimp only at hr
      rw [getImportedElement_eq] at hr
      exact (acc_iff_acyclic _ document).1 (acc_of_search hr)
    · cases found with
      | none => exact absurd (hnone rfl document hdocument d hd) hdeclared
      | some element =>
        obtain ⟨b, hb, he⟩ := firstSome_sound hfound
        exact ⟨b, hb, (declared_of_getElement he).1⟩
  · rintro ⟨hends, hvisible⟩
    obtain ⟨n, found, hfound⟩ := firstSome_terminates
      (f := fun n d => W.getElement getLocalElement name n d)
      (P := W.Hidden getLocalElement name) documents getElement_mono hidden_of_getElement
      fun front document rest hsplit hhidden => by
        cases hd : getLocalElement document name with
        | some element => exact ⟨0, some element, by rw [getElement, hd]⟩
        | none =>
          obtain ⟨n, r, hr⟩ := search_of_acc
            ((acc_iff_acyclic _ document).2 (hends front document rest hsplit hhidden hd))
          refine ⟨n, r, ?_⟩
          rw [getElement, hd]
          exact (getImportedElement_eq n document).trans hr
    refine ⟨n, found, hfound, fun element he => ?_, fun hnone document hdocument d hd => ?_⟩
    · rw [he] at hfound
      obtain ⟨document, hdocument, helement⟩ := firstSome_sound hfound
      exact ⟨document, hdocument, (declared_of_getElement helement).2⟩
    · by_contra hdeclared
      obtain ⟨b, hb, hidden⟩ := hvisible document hdocument d hd hdeclared
      rw [hnone] at hfound
      exact hidden (hidden_of_getElement (firstSome_none hfound b hb))

end Definitions

end Wsdl

end Jbpm
