/-
  Deployment descriptors.

  * `ScopeDescriptor`, `DeploymentDescriptor`: descriptors, over names `Q`, endpoint references
    `R` and catalogs `C`;
  * `Sound`: what descriptors have;
  * `ScopeDescriptor.map_eq_map_iff`: when two ways to change names and references agree.
-/
import Mathlib.Data.List.Basic
import Jbpm.Java.Integer

namespace Jbpm

namespace Deploy

structure MyRoleDescriptor (Q : Type) where
  handle : Option String
  service : Option Q
  port : Option String

inductive InitiateMode
  | static
  | push
  | pull
  deriving DecidableEq

structure PartnerRoleDescriptor (R : Type) where
  initiateMode : Option InitiateMode
  endpointReference : Option R

structure PartnerLinkDescriptor (Q R : Type) where
  name : String
  partnerRole : Option (PartnerRoleDescriptor R)
  myRole : Option (MyRoleDescriptor Q)

/-- The partner links are the values of a map, in the order in which it is iterated. -/
inductive ScopeDescriptor (Q R : Type)
  | mk (name : Option String) (partnerLinks : List (PartnerLinkDescriptor Q R))
    (scopes : List (ScopeDescriptor Q R))

/-- A catalog with a reader and a writer of its own, or one that is composed of them. -/
inductive ServiceCatalog (C : Type)
  | leaf (c : C)
  | composite (catalogs : List C)

structure DeploymentDescriptor (Q R C : Type) where
  scope : ScopeDescriptor Q R
  targetNamespace : Option String
  version : Option ℤ
  serviceCatalog : Option (ServiceCatalog C)

variable {Q R Q' R' C : Type}

/-! ## Soundness -/

/-- There is a port only with a service. -/
def MyRoleDescriptor.Sound (r : MyRoleDescriptor Q) : Prop := r.port ≠ none → r.service ≠ none

/-- There is an endpoint reference exactly when the role is static. -/
def PartnerRoleDescriptor.Sound (r : PartnerRoleDescriptor R) : Prop :=
  r.initiateMode ≠ none ∧ (r.endpointReference ≠ none ↔ r.initiateMode = some .static)

def PartnerLinkDescriptor.Sound (l : PartnerLinkDescriptor Q R) : Prop :=
  (∀ r ∈ l.partnerRole, r.Sound) ∧ ∀ r ∈ l.myRole, r.Sound

/-- The keys of the map are the names of the links. -/
def SoundLinks (links : List (PartnerLinkDescriptor Q R)) : Prop :=
  (links.map (·.name)).Nodup ∧ ∀ l ∈ links, l.Sound

mutual

def ScopeDescriptor.Sound : ScopeDescriptor Q R → Prop
  | .mk _ links scopes => SoundLinks links ∧ SoundScopes scopes

def SoundScopes : List (ScopeDescriptor Q R) → Prop
  | [] => True
  | s :: ss => s.Sound ∧ SoundScopes ss

end

structure DeploymentDescriptor.Sound (d : DeploymentDescriptor Q R C) : Prop where
  scope : d.scope.Sound
  version : ∀ n ∈ d.version, Java.IsInt n

/-! ## Other names and references -/

def MyRoleDescriptor.map (f : Q → Q') (r : MyRoleDescriptor Q) : MyRoleDescriptor Q' :=
  { r with service := r.service.map f }

def PartnerRoleDescriptor.map (g : R → R') (r : PartnerRoleDescriptor R) :
    PartnerRoleDescriptor R' :=
  { r with endpointReference := r.endpointReference.map g }

def PartnerLinkDescriptor.map (f : Q → Q') (g : R → R') (l : PartnerLinkDescriptor Q R) :
    PartnerLinkDescriptor Q' R' :=
  { l with partnerRole := l.partnerRole.map (·.map g), myRole := l.myRole.map (·.map f) }

mutual

def ScopeDescriptor.map (f : Q → Q') (g : R → R') : ScopeDescriptor Q R → ScopeDescriptor Q' R'
  | .mk name links scopes => .mk name (links.map (·.map f g)) (mapScopes f g scopes)

def mapScopes (f : Q → Q') (g : R → R') : List (ScopeDescriptor Q R) → List (ScopeDescriptor Q' R')
  | [] => []
  | s :: ss => s.map f g :: mapScopes f g ss

end

mutual

/-- The partner links of a scope and of all scopes in it. -/
def ScopeDescriptor.links : ScopeDescriptor Q R → List (PartnerLinkDescriptor Q R)
  | .mk _ links scopes => links ++ linksOfScopes scopes

def linksOfScopes : List (ScopeDescriptor Q R) → List (PartnerLinkDescriptor Q R)
  | [] => []
  | s :: ss => s.links ++ linksOfScopes ss

end

/-- The services and the endpoint references that a link names. -/
def PartnerLinkDescriptor.Forall (p : Q → Prop) (q : R → Prop) (l : PartnerLinkDescriptor Q R) :
    Prop :=
  (∀ r ∈ l.myRole, ∀ service ∈ r.service, p service) ∧
    ∀ r ∈ l.partnerRole, ∀ reference ∈ r.endpointReference, q reference

theorem PartnerLinkDescriptor.map_eq_map_iff {f f' : Q → Q'} {g g' : R → R'}
    (l : PartnerLinkDescriptor Q R) :
    l.map f g = l.map f' g' ↔ l.Forall (fun n => f n = f' n) fun r => g r = g' r := by
  obtain ⟨name, partnerRole, myRole⟩ := l
  simp only [PartnerLinkDescriptor.map, PartnerLinkDescriptor.Forall,
    PartnerLinkDescriptor.mk.injEq, true_and]
  rw [and_comm]
  refine and_congr ?_ ?_
  · cases myRole with
    | none => simp
    | some r => cases hs : r.service <;> simp [MyRoleDescriptor.map, hs]
  · cases partnerRole with
    | none => simp
    | some r => cases hr : r.endpointReference <;> simp [PartnerRoleDescriptor.map, hr]

mutual

theorem ScopeDescriptor.map_eq_map_iff {f f' : Q → Q'} {g g' : R → R'} :
    ∀ s : ScopeDescriptor Q R, s.map f g = s.map f' g' ↔
      ∀ l ∈ s.links, l.Forall (fun n => f n = f' n) fun r => g r = g' r
  | .mk name links scopes => by
    simp only [ScopeDescriptor.map, ScopeDescriptor.mk.injEq, true_and, ScopeDescriptor.links,
      List.forall_mem_append, List.map_inj_left, PartnerLinkDescriptor.map_eq_map_iff,
      mapScopes_eq_mapScopes_iff scopes]

theorem mapScopes_eq_mapScopes_iff {f f' : Q → Q'} {g g' : R → R'} :
    ∀ ss : List (ScopeDescriptor Q R), mapScopes f g ss = mapScopes f' g' ss ↔
      ∀ l ∈ linksOfScopes ss, l.Forall (fun n => f n = f' n) fun r => g r = g' r
  | [] => by simp [mapScopes, linksOfScopes]
  | s :: ss => by
    simp only [mapScopes, List.cons.injEq, linksOfScopes, List.forall_mem_append,
      ScopeDescriptor.map_eq_map_iff s, mapScopes_eq_mapScopes_iff ss]

end

end Deploy

end Jbpm
