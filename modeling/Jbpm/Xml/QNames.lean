/-
  Qualified names as the text of an element: a name is written with a prefix of its namespace,
  and read again by the declaration of the prefix.

  * `getPrefix`: the search for a prefix, by the namespaces that are declared;
  * `setQNameValue`, `getQNameValue`: writing and reading;
  * `survives_iff`: when a name survives both, and the prefixes of the element too;
  * `parseQName_formatted`: when it is read again below a default namespace.
-/
import Mathlib.Algebra.Group.Nat.Defs
import Mathlib.Data.List.TakeWhile
import Jbpm.Lib.Declarations

namespace Jbpm

open Lib Declarations

namespace Xml

/-- A name without a colon. -/
def NCName : Type := { s : String // s ≠ "" ∧ ':' ∉ s.toList }

instance : DecidableEq NCName := inferInstanceAs (DecidableEq { _s : String // _ })

/-- The local name of a default namespace declaration. -/
def xmlns : NCName := ⟨"xmlns", by decide⟩

/-- `javax.xml.namespace.QName`, which compares namespaces and local parts.  The prefix may be
    empty. -/
structure QName where
  namespaceURI : String
  localPart : NCName
  prefix_ : Option NCName

/-- An element with its namespace declarations, those around it, and its text. -/
structure Element where
  own : List (NCName × String)
  above : Scopes NCName String
  text : String

/-- The declarations from the element outwards. -/
def Element.scopes (e : Element) : Scopes NCName String := e.own :: e.above

/-! ## Prefixes -/

/-- `getPrefix`: the empty string is for the default namespace. -/
def getPrefix (namespaceURI : String) : Scopes NCName String → Option String
  | [] => none
  | attributes :: parents =>
    match attributes.find? fun attr => decide (attr.2 = namespaceURI) with
    | some attr => some (if attr.1 = xmlns then "" else attr.1.1)
    | none => getPrefix namespaceURI parents

theorem not_mem_digits (i : ℕ) : ':' ∉ (toString i).toList := by
  intro h
  rw [Nat.toString_eq_ofList_toDigits, String.toList_ofList] at h
  have hdigit := Nat.isDigit_of_mem_toDigits (by omega) (by omega) h
  revert hdigit
  decide

/-- `prefixBuffer.append(i)` -/
def numbered (base : NCName) (i : ℕ) : NCName :=
  ⟨base.1 ++ toString i, by
    refine ⟨fun h => base.2.1 (String.append_eq_empty_iff.1 h).1, ?_⟩
    rw [String.toList_append, List.mem_append]
    exact fun h => h.elim base.2.2 (not_mem_digits i)⟩

/-- `generatePrefix`: the numbers end before the greatest integer, and with an error. -/
def generatePrefix (base : NCName) (own : List (NCName × String)) : Option NCName :=
  if own.all fun attr => decide (attr.1 ≠ base) then some base
  else ((List.range' 1 (2 ^ 31 - 2)).find? fun i =>
    own.all fun attr => decide (attr.1 ≠ numbered base i)).map (numbered base)

/-- `QUALIFIED_VALUE_PREFIX` -/
def qualifiedValuePrefix : NCName := ⟨"valueNS", by decide⟩

/-! ## Values -/

/-- `formatQName`, with the element that a prefix may be declared in. -/
def formatQName (value : QName) (e : Element) : Option (String × Element) :=
  if value.namespaceURI = "" then some (value.localPart.1, e)
  else
    match getPrefix value.namespaceURI e.scopes with
    | some found => some (found ++ ":" ++ value.localPart.1, e)
    | none =>
      match generatePrefix (value.prefix_.getD qualifiedValuePrefix) e.own with
      | none => none
      | some generated => some (generated.1 ++ ":" ++ value.localPart.1,
          { e with own := e.own ++ [(generated, value.namespaceURI)] })

/-- `setQNameValue`, unless it ends with an error. -/
def setQNameValue (e : Element) (value : QName) : Option Element :=
  (formatQName value e).map fun r => { r.2 with text := r.1 }

/-- `parseQName`, to a namespace and a local part, with what looks up the namespace of a
    prefix. -/
def parseQName (getNamespaceURI : Scopes NCName String → String → Option String)
    (prefixedName : String) (s : Scopes NCName String) : String × String :=
  let chars := prefixedName.toList
  if ':' ∈ chars then
    ((getNamespaceURI s (String.ofList (chars.takeWhile (· ≠ ':')))).getD "",
      String.ofList (chars.dropWhile (· ≠ ':')).tail)
  else ("", prefixedName)

/-- `getQNameValue` -/
def getQNameValue (getNamespaceURI : Scopes NCName String → String → Option String) (e : Element) :
    String × String :=
  parseQName getNamespaceURI e.text e.scopes

/-- What looks up the namespace of a prefix finds the innermost attribute with that local name
    among the declarations, and no attribute has an empty one. -/
structure LooksUp (getNamespaceURI : Scopes NCName String → String → Option String) : Prop where
  declared : ∀ s (p : NCName), getNamespaceURI s p.1 = binding s p
  empty : ∀ s, getNamespaceURI s "" = none

/-! ## Names that survive -/

/-- A prefix, or the empty string for the default namespace, is bound to a namespace. -/
def BoundTo (s : Scopes NCName String) (found namespaceURI : String) : Prop :=
  ∃ p, found = (if p = xmlns then "" else p.1) ∧ binding s p = some namespaceURI

/-- The name that was written is read again, prefixes that were bound are bound to the same
    namespace, and the prefix of the namespace is one that is bound to it, if any is. -/
def Survives (getNamespaceURI : Scopes NCName String → String → Option String) (e : Element)
    (value : QName) : Prop :=
  (∃ e', setQNameValue e value = some e' ∧
    getQNameValue getNamespaceURI e' = (value.namespaceURI, value.localPart.1) ∧
    ∀ p u, binding e.scopes p = some u → binding e'.scopes p = some u) ∧
  (∀ found, getPrefix value.namespaceURI e.scopes = some found →
    BoundTo e.scopes found value.namespaceURI) ∧
  (getPrefix value.namespaceURI e.scopes = none →
    ∀ found, ¬ BoundTo e.scopes found value.namespaceURI)

/-- The first declaration of the namespace, from the element outwards, is of a prefix that is not
    declared again closer in; it is a default declaration only for no namespace.  If there is
    none, the prefix that is generated is not declared further out. -/
def Unshadowed (e : Element) (value : QName) : Prop :=
  match keyOf e.scopes value.namespaceURI with
  | some p => binding e.scopes p = some value.namespaceURI ∧ (p = xmlns → value.namespaceURI = "")
  | none => value.namespaceURI = "" ∨ ∃ p,
      generatePrefix (value.prefix_.getD qualifiedValuePrefix) e.own = some p ∧
        binding e.above p = none

variable {s : Scopes NCName String} {e : Element} {value : QName} {p : NCName}

theorem getPrefix_eq (namespaceURI : String) (s : Scopes NCName String) :
    getPrefix namespaceURI s =
      (keyOf s namespaceURI).map fun p => if p = xmlns then "" else p.1 := by
  induction s with
  | nil => rfl
  | cons attributes parents ih =>
    rw [getPrefix, keyOf_cons, ih]
    cases attributes.find? fun attr => decide (attr.2 = namespaceURI) <;> rfl

/-- A prefix that is generated is not declared by the element. -/
theorem generatePrefix_fresh {base : NCName} {own : List (NCName × String)}
    (h : generatePrefix base own = some p) : ∀ attr ∈ own, attr.1 ≠ p := by
  rw [generatePrefix] at h
  split at h
  case isTrue hbase =>
    cases h
    simpa using hbase
  case isFalse =>
    obtain ⟨i, hi, rfl⟩ := Option.map_eq_some_iff.1 h
    simpa using List.find?_some hi

theorem parseQName_local (getNamespaceURI : Scopes NCName String → String → Option String)
    (localPart : NCName) (s : Scopes NCName String) :
    parseQName getNamespaceURI localPart.1 s = ("", localPart.1) :=
  if_neg localPart.2.2

/-- A colon separates the prefix, which may be empty, from the local part. -/
theorem parseQName_prefixed (getNamespaceURI : Scopes NCName String → String → Option String)
    {found : String} (hfound : ':' ∉ found.toList) (localPart : NCName)
    (s : Scopes NCName String) :
    parseQName getNamespaceURI (found ++ ":" ++ localPart.1) s =
      ((getNamespaceURI s found).getD "", localPart.1) := by
  have hchars : (found ++ ":" ++ localPart.1).toList =
      found.toList ++ ':' :: localPart.1.toList := by
    simp [String.toList_append]
  have hne : ∀ c ∈ found.toList, decide (c ≠ ':') = true := by
    intro c hc
    simpa using fun h : c = ':' => hfound (h ▸ hc)
  rw [parseQName, hchars, if_pos (by simp)]
  rw [List.takeWhile_append_of_pos hne, List.dropWhile_append_of_pos hne]
  simp [String.ofList_toList]

theorem boundTo_iff (s : Scopes NCName String) (p : NCName) (u : String) :
    BoundTo s (if p = xmlns then "" else p.1) u ↔ binding s p = some u := by
  constructor
  · rintro ⟨p', hp, hb⟩
    have hp' : p = p' := by
      split at hp <;> split at hp
      case isTrue.isTrue h h' => rw [h, h']
      case isTrue.isFalse h' => exact absurd hp.symm p'.2.1
      case isFalse.isTrue h _ => exact absurd hp p.2.1
      case isFalse.isFalse => exact Subtype.ext hp
    rwa [hp']
  · exact fun hb => ⟨p, rfl, hb⟩

/-- The second and third part of `Survives`. -/
theorem getPrefix_usable (s : Scopes NCName String) (u : String) :
    ((∀ found, getPrefix u s = some found → BoundTo s found u) ∧
      (getPrefix u s = none → ∀ found, ¬ BoundTo s found u)) ↔
    ∀ p, keyOf s u = some p → binding s p = some u := by
  rw [getPrefix_eq]
  constructor
  · intro h p hp
    exact (boundTo_iff s p u).1 (h.1 _ (by rw [hp]; rfl))
  · intro h
    refine ⟨fun found hfound => ?_, fun hnone found hbound => ?_⟩
    · obtain ⟨p, hp, rfl⟩ := Option.map_eq_some_iff.1 hfound
      exact (boundTo_iff s p u).2 (h p hp)
    · obtain ⟨p, -, hb⟩ := hbound
      exact binding_ne_of_keyOf (Option.map_eq_none_iff.1 hnone) p hb

section
variable {getNamespaceURI : Scopes NCName String → String → Option String}

/-- A name without namespace is read again, and no declaration is added. -/
theorem roundTrip_local (e : Element) (hns : value.namespaceURI = "") :
    ∃ e', setQNameValue e value = some e' ∧
      getQNameValue getNamespaceURI e' = (value.namespaceURI, value.localPart.1) ∧
      ∀ p u, binding e.scopes p = some u → binding e'.scopes p = some u := by
  refine ⟨{ e with text := value.localPart.1 }, ?_, ?_, fun p u hp => hp⟩
  · rw [setQNameValue, formatQName, if_pos hns]
    rfl
  · rw [hns]
    exact parseQName_local getNamespaceURI value.localPart _

/-- A prefix that is declared is read as what it is bound to. -/
theorem roundTrip_declared (h : LooksUp getNamespaceURI) (hns : value.namespaceURI ≠ "")
    (hp : keyOf e.scopes value.namespaceURI = some p) :
    (∃ e', setQNameValue e value = some e' ∧
      getQNameValue getNamespaceURI e' = (value.namespaceURI, value.localPart.1) ∧
      ∀ p u, binding e.scopes p = some u → binding e'.scopes p = some u) ↔
    binding e.scopes p = some value.namespaceURI ∧ p ≠ xmlns := by
  have hset : setQNameValue e value = some { e with
      text := (if p = xmlns then "" else p.1) ++ ":" ++ value.localPart.1 } := by
    rw [setQNameValue, formatQName, if_neg hns, getPrefix_eq, hp]
    rfl
  have hcolon : ':' ∉ (if p = xmlns then "" else p.1).toList := by
    split
    · decide
    · exact p.2.2
  have hget : getQNameValue getNamespaceURI
      { e with text := (if p = xmlns then "" else p.1) ++ ":" ++ value.localPart.1 } =
      ((getNamespaceURI e.scopes (if p = xmlns then "" else p.1)).getD "", value.localPart.1) :=
    parseQName_prefixed getNamespaceURI hcolon value.localPart _
  constructor
  · rintro ⟨e', he', hread, -⟩
    obtain rfl := Option.some.inj (hset.symm.trans he')
    have huri := congrArg Prod.fst (hget.symm.trans hread)
    dsimp only at huri
    split at huri
    case isTrue =>
      rw [h.empty] at huri
      exact absurd huri.symm hns
    case isFalse hx =>
      rw [h.declared] at huri
      refine ⟨?_, hx⟩
      cases hb : binding e.scopes p with
      | none =>
        rw [hb] at huri
        exact absurd huri.symm hns
      | some u =>
        rw [hb] at huri
        exact congrArg some huri
  · rintro ⟨hb, hx⟩
    refine ⟨_, hset, ?_, fun p u hp => hp⟩
    rw [hget, if_neg hx, h.declared, hb]
    rfl

/-- A prefix that is generated is read as the namespace it is declared for. -/
theorem roundTrip_generated (h : LooksUp getNamespaceURI) (hns : value.namespaceURI ≠ "")
    (hnone : keyOf e.scopes value.namespaceURI = none) :
    (∃ e', setQNameValue e value = some e' ∧
      getQNameValue getNamespaceURI e' = (value.namespaceURI, value.localPart.1) ∧
      ∀ p u, binding e.scopes p = some u → binding e'.scopes p = some u) ↔
    ∃ p, generatePrefix (value.prefix_.getD qualifiedValuePrefix) e.own = some p ∧
      binding e.above p = none := by
  have hformat : formatQName value e =
      match generatePrefix (value.prefix_.getD qualifiedValuePrefix) e.own with
      | none => none
      | some generated => some (generated.1 ++ ":" ++ value.localPart.1,
          { e with own := e.own ++ [(generated, value.namespaceURI)] }) := by
    rw [formatQName, if_neg hns, getPrefix_eq, hnone]
    rfl
  rw [setQNameValue, hformat]
  cases hgen : generatePrefix (value.prefix_.getD qualifiedValuePrefix) e.own with
  | none => simp
  | some p =>
    have hfresh := generatePrefix_fresh hgen
    have hbinding : ∀ k, binding ((e.own ++ [(p, value.namespaceURI)]) :: e.above) k =
        if k = p then some value.namespaceURI else binding (e.own :: e.above) k :=
      binding_append hfresh
    have hread : getQNameValue getNamespaceURI
        { e with own := e.own ++ [(p, value.namespaceURI)],
                 text := p.1 ++ ":" ++ value.localPart.1 } =
        (value.namespaceURI, value.localPart.1) := by
      refine (parseQName_prefixed getNamespaceURI p.2.2 value.localPart _).trans ?_
      rw [h.declared, Element.scopes, hbinding, if_pos rfl]
      rfl
    constructor
    · rintro ⟨e', he', -, hkept⟩
      obtain rfl := Option.some.inj he'
      refine ⟨p, rfl, ?_⟩
      rw [← binding_of_not_own hfresh]
      by_contra hb
      obtain ⟨u, hu⟩ := Option.ne_none_iff_exists'.1 hb
      have hu' := hkept p u hu
      rw [Element.scopes, hbinding, if_pos rfl] at hu'
      rw [← Option.some.inj hu'] at hu
      exact binding_ne_of_keyOf hnone p hu
    · rintro ⟨p', hp', habove⟩
      obtain rfl := Option.some.inj hp'
      refine ⟨_, rfl, hread, fun p' u hu => ?_⟩
      rw [Element.scopes, hbinding, if_neg, ← hu]
      · rfl
      · rintro rfl
        rw [Element.scopes, binding_of_not_own hfresh, habove] at hu
        exact absurd hu (by simp)

/-- A name survives where the declarations agree: see `Unshadowed`. -/
theorem survives_iff (h : LooksUp getNamespaceURI) (e : Element) (value : QName) :
    Survives getNamespaceURI e value ↔ Unshadowed e value := by
  rw [Survives, getPrefix_usable, Unshadowed]
  by_cases hns : value.namespaceURI = ""
  · rw [and_iff_right (roundTrip_local e hns)]
    cases hk : keyOf e.scopes value.namespaceURI with
    | none => simp [hns]
    | some p => simp [hns]
  · cases hk : keyOf e.scopes value.namespaceURI with
    | none =>
      rw [roundTrip_generated h hns hk]
      simp [hns]
    | some p =>
      rw [roundTrip_declared h hns hk]
      simp [hns]
      tauto

end

/-! ## Names below a default namespace -/

/-- The text of a name, and the declaration that it needs, where nothing but a default namespace is
    declared. -/
def formatted (defaultURI : String) (value : QName) : String × List (NCName × String) :=
  if value.namespaceURI = "" then (value.localPart.1, [])
  else if value.namespaceURI = defaultURI then ("" ++ ":" ++ value.localPart.1, [])
  else
    let p := value.prefix_.getD qualifiedValuePrefix
    (p.1 ++ ":" ++ value.localPart.1, [(p, value.namespaceURI)])

theorem formatQName_default {above : Scopes NCName String} {defaultURI : String}
    (habove : above.flatten = [(xmlns, defaultURI)]) (value : QName) (text : String) :
    formatQName value ⟨[], above, text⟩ =
      some ((formatted defaultURI value).1, ⟨(formatted defaultURI value).2, above, text⟩) := by
  have hkey : keyOf ([] :: above) value.namespaceURI =
      if value.namespaceURI = defaultURI then some xmlns else none := by
    rw [keyOf, List.flatten_cons, List.nil_append, habove, List.find?_singleton]
    by_cases hdefault : value.namespaceURI = defaultURI
    · simp [hdefault]
    · simp [hdefault, Ne.symm hdefault]
  unfold formatQName formatted
  rw [getPrefix_eq, Element.scopes, hkey]
  by_cases hns : value.namespaceURI = ""
  · rw [if_pos hns, if_pos hns]
  · by_cases hdefault : value.namespaceURI = defaultURI
    · simp only [if_neg hns, if_pos hdefault, Option.map_some, if_true]
    · simp [hns, hdefault, generatePrefix]

/-- What is read again: names in the default namespace are written with an empty prefix, which is
    not declared. -/
def reread (defaultURI : String) (value : QName) : String × String :=
  (if value.namespaceURI = defaultURI then "" else value.namespaceURI, value.localPart.1)

theorem parseQName_formatted {getNamespaceURI : Scopes NCName String → String → Option String}
    (h : LooksUp getNamespaceURI) (defaultURI : String) (value : QName)
    (above : Scopes NCName String) :
    parseQName getNamespaceURI (formatted defaultURI value).1
        ((formatted defaultURI value).2 :: above) = reread defaultURI value := by
  rw [formatted, reread]
  split
  next hns =>
    rw [parseQName_local, hns]
    simp
  next hns =>
  split
  next huri =>
    rw [parseQName_prefixed _ (by decide), h.empty]
    rfl
  next huri =>
    rw [parseQName_prefixed _ (value.prefix_.getD qualifiedValuePrefix).2.2, h.declared]
    simp [binding]

theorem reread_eq_iff {defaultURI : String} (hdefault : defaultURI ≠ "") (value : QName) :
    reread defaultURI value = (value.namespaceURI, value.localPart.1) ↔
      value.namespaceURI ≠ defaultURI := by
  rw [reread, Prod.mk.injEq, and_iff_left rfl]
  split
  next huri => simpa [huri] using hdefault.symm
  next huri => simpa using huri

/-- The innermost declaration, and none for the empty prefix. -/
def declaredURI (s : Scopes NCName String) (found : String) : Option String :=
  (s.flatten.find? fun attr => decide (attr.1.1 = found)).map Prod.snd

theorem declaredURI_looksUp : LooksUp declaredURI where
  declared s p := by
    rw [declaredURI, binding]
    congr 2
    ext attr
    simpa using (Iff.intro (fun h => Subtype.ext h) fun h => congrArg Subtype.val h :
      attr.1.1 = p.1 ↔ attr.1 = p)
  empty s := by
    rw [declaredURI, Option.map_eq_none_iff, List.find?_eq_none]
    exact fun attr _ => by simpa using attr.1.2.1

/-- The prefix of the outer element is declared again by the inner one. -/
def redeclared : Element where
  own := [(⟨"p", by decide⟩, "urn:inner")]
  above := [[(⟨"p", by decide⟩, "urn:outer")]]
  text := ""

/-- A name in the namespace of the outer element. -/
def outerName : QName where
  namespaceURI := "urn:outer"
  localPart := ⟨"name", by decide⟩
  prefix_ := none

/-- The outer prefix is written, and read in the inner namespace. -/
theorem outerName_lost : ¬ Survives declaredURI redeclared outerName := by
  rintro ⟨-, hbound, -⟩
  obtain ⟨p, hp, hb⟩ := hbound "p" (by decide)
  have hp' : p = ⟨"p", by decide⟩ := by
    split at hp
    · exact absurd hp (by decide)
    · exact Subtype.ext hp.symm
  subst hp'
  exact absurd hb (by decide)

/-- The inner namespace is found with its prefix. -/
theorem innerName_survives :
    LooksUp declaredURI ∧
      Survives declaredURI redeclared { outerName with namespaceURI := "urn:inner" } :=
  ⟨declaredURI_looksUp, (survives_iff declaredURI_looksUp redeclared _).2 (by
    rw [Unshadowed]
    exact ⟨by decide, by decide⟩)⟩

end Xml

end Jbpm
