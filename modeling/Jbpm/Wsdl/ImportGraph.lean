/-
  Lookups and registrations over definitions that import each other.

  * `lookups_iff`: when the lookups and the registration of a process end as they are to;
  * `mutual_import`: two definitions that import each other.
-/
import Jbpm.Wsdl.PropertyAliases

namespace Jbpm

open Lib

namespace Wsdl

open Definitions ImportDefinition

/-- **Import graphs.**  A lookup ends, with an element that is declared or with none if none is,
    iff it is kept already or the imports allow for it, and the registration of aliases ends, with
    each of them once, iff the imports do. -/
theorem lookups_iff {D : Type} [Finite D] {W : Definitions D} (hW : W.Resolved)
    (parse : PropertyQuery → Bool) (queryLanguage : Option String) (imports : List (Import D))
    (calls : List (ℕ × Call)) {s : ImportDefinition D}
    (hs : calls.foldlM (fun s c => call W c.1 s c.2) (ofImports imports) = some s) :
    (∀ d name,
      (W.Found W.messages name [d] ↔ W.Findable W.messages name [d]) ∧
      (W.Found W.portTypes name [d] ↔ W.Findable W.portTypes name [d]) ∧
      (W.Found W.localPartnerLinkType name [d] ↔ W.Findable W.localPartnerLinkType name [d]) ∧
      (W.Found W.localProperty name [d] ↔ W.Findable W.localProperty name [d])) ∧
    (∀ name,
      (s.Returns W W.messages name (fun n => s.getMessage W n name) ↔
        s.messages name ≠ none ∨ W.Findable W.messages name s.documents) ∧
      (s.Returns W W.portTypes name (fun n => s.getPortType W n name) ↔
        s.portTypes name ≠ none ∨ W.Findable W.portTypes name s.documents) ∧
      (s.Returns W W.localPartnerLinkType name (fun n => s.getPartnerLinkType W n name) ↔
        s.partnerLinkTypes name ≠ none ∨ W.Findable W.localPartnerLinkType name s.documents) ∧
      (s.Returns W W.localProperty name (fun n => s.getProperty W n name) ↔
        s.properties name ≠ none ∨ W.Findable W.localProperty name s.documents) ∧
      (W.Found (declaring W) name s.documents ↔ W.Findable (declaring W) name s.documents)) ∧
    (Registration.Registers W parse queryLanguage imports ↔
      Registration.Registrable W (ofImports imports).documents) := by
  obtain ⟨hkeeps, -⟩ := (keeps_ofImports (W := W) imports).calls hW calls hs
  refine ⟨fun d name => ⟨found_iff [d], found_iff [d], found_iff [d], found_iff [d]⟩,
    fun name => ⟨?_, ?_, ?_, ?_, found_iff s.documents⟩, Registration.registers_iff hW imports⟩
  · exact returns_iff (hkeeps.messages name)
  · exact returns_iff (hkeeps.portTypes name)
  · exact returns_iff (hkeeps.partnerLinkTypes name)
  · exact returns_iff (hkeeps.properties name)

/-- The definitions of a process, which import those of its messages. -/
def orders : Definitions Bool where
  imports d := if d then [] else [("urn:messages", [true])]
  messages d name :=
    if d = true ∧ name = ⟨"urn:messages", "order"⟩ then some ⟨name, false⟩ else none
  portTypes d name :=
    if d = false ∧ name = ⟨"urn:orders", "buyer"⟩ then
      some ⟨name, [⟨⟨"urn:messages", "order"⟩, false⟩]⟩
    else none
  partnerLinkTypes d := if d then [] else
    [⟨⟨"urn:orders", "buying"⟩,
      ⟨⟨"urn:orders", "buyer"⟩, [⟨⟨"urn:messages", "order"⟩, false⟩]⟩, none⟩]
  properties _ := []
  propertyAliases _ := []
  documentBaseURI _ := none

theorem resolved_orders : orders.Resolved where
  role d partnerLinkType hmem portType hor := by
    cases d
    · cases List.mem_singleton.1 hmem
      rcases hor with rfl | hor
      · exact ⟨false, List.mem_cons_self, false, .refl, rfl⟩
      · cases hor
    · cases hmem
  operation d name portType h message hmem := by
    unfold orders at h
    dsimp only at h
    split at h
    · rename_i hd
      cases h
      cases List.mem_singleton.1 hmem
      exact ⟨d, List.mem_cons_self, true, .single (by rw [hd.1]; exact List.mem_cons_self), rfl⟩
    · cases h
  messageName d name message h := by
    unfold orders at h
    dsimp only at h
    split at h
    · cases h
      rfl
    · cases h

/-- The message of another document and the partner link type are looked up. -/
theorem lookups_iff_orders :
    ∃ s, [(2, Call.getMessage ⟨"urn:messages", "order"⟩),
        (1, .getPartnerLinkType ⟨"urn:orders", "buying"⟩)].foldlM (fun s c => call orders c.1 s c.2)
        (ofImports [.wsdl false, .xmlSchema]) = some s ∧
      (s.Returns orders orders.messages ⟨"urn:orders", "buyer"⟩
          (fun n => s.getMessage orders n ⟨"urn:orders", "buyer"⟩) ↔
        s.messages ⟨"urn:orders", "buyer"⟩ ≠ none ∨
          orders.Findable orders.messages ⟨"urn:orders", "buyer"⟩ s.documents) := by
  refine ⟨_, rfl, ?_⟩
  exact ((lookups_iff resolved_orders (fun _ => true) none [.wsdl false, .xmlSchema]
    [(2, .getMessage ⟨"urn:messages", "order"⟩),
      (1, .getPartnerLinkType ⟨"urn:orders", "buying"⟩)] rfl).2.1 ⟨"urn:orders", "buyer"⟩).1

/-- Two definitions that import each other and declare nothing. -/
def mutualImports : Definitions Bool where
  imports d := [("urn:other", [!d])]
  messages _ _ := none
  portTypes _ _ := none
  partnerLinkTypes _ := []
  properties _ := []
  propertyAliases _ := []
  documentBaseURI _ := none

/-- A lookup in definitions that import each other does not end, nor does the registration of their
    aliases. -/
theorem mutual_import :
    ¬ mutualImports.Found mutualImports.messages ⟨"urn:order", "order"⟩ [false] ∧
      ¬ mutualImports.Found mutualImports.portTypes ⟨"urn:order", "order"⟩ [false] ∧
      ¬ Registration.Registers mutualImports (fun _ => true) none [.wsdl false] := by
  have hlookup {E : Type} : ¬ mutualImports.Found (fun _ _ => (none : Option E))
      ⟨"urn:order", "order"⟩ [false] := by
    have hstep (d : Bool) : mutualImports.LooksIn (fun _ _ => (none : Option E))
        ⟨"urn:order", "order"⟩ d !d := ⟨rfl, [], [], rfl, fun _ h => absurd h List.not_mem_nil⟩
    rw [found_iff]
    intro h
    exact h.ends [] false [] rfl (fun _ h => absurd h List.not_mem_nil) rfl false .refl
      (.tail (.single (hstep false)) (hstep true))
  refine ⟨hlookup, hlookup, fun ⟨n, s, hok, _⟩ => ?_⟩
  obtain ⟨hshallow, -⟩ := (Registration.registerPropertyAliases_iff n _ _ s).1 hok
  have hacc := acc_iff_shallow.2 ⟨n, hshallow false List.mem_cons_self⟩
  have hstep (d : Bool) : (!d) ∈ mutualImports.imported d := List.mem_cons_self
  exact (acc_iff_acyclic (fun d c => c ∈ mutualImports.imported d) false).1 hacc false .refl
    (.tail (.single (hstep false)) (hstep true))

end Wsdl

end Jbpm
