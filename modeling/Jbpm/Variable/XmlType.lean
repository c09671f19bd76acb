/-
  Variables of an XML type.  A new value carries the mark `jbpm:initialized="false"`, and counts as
  uninitialized as long as it has nothing but the mark and one declaration.

  * `createValue`, `isInitialized`, `getValue`: the mark;
  * `State.next`: assignments to a variable, of which some fail, and reads;
  * `Tracked`: the variable is initialized just if an assignment to it has succeeded;
  * `tracked_of_run`: the runs in which it is tracked.
-/
import Jbpm.Lib.Run
import Jbpm.Sublang.XPathCreation

namespace Jbpm

open Lib Branch Declarations Xml XPath

namespace Variable

inductive XmlType
  | schema (name : Xml.QName)
  | element (name : Xml.QName)

/-- The prefix of the mark. -/
def jbpm : NCName := ⟨"jbpm", by decide⟩

/-! ## The mark -/

/-- `createElement(QName)`: a name without namespace loses its prefix. -/
def createElement (name : Xml.QName) : Elem :=
  if h : name.namespaceURI = "" then
    ⟨⟨⟨"", none, name.localPart, ElementName.ne_of_no_prefix⟩, [], ∅⟩, []⟩
  else
    addNamespaceDeclaration name.namespaceURI (name.prefix_.getD xmlns)
      ⟨⟨⟨name.namespaceURI, name.prefix_, name.localPart, fun _ => h⟩, [], ∅⟩, []⟩

/-- `createElement` of a type: a schema type takes the name of the variable. -/
def XmlType.createElement (variableName : NCName) : XmlType → Elem
  | .schema _ => ⟨⟨⟨"", none, variableName, ElementName.ne_of_no_prefix⟩, [], ∅⟩, []⟩
  | .element name => Variable.createElement name

/-- `jbpm:initialized="false"` -/
def mark : AttributeValue initialized := (jbpm, "false")

/-- `createValue` -/
def XmlType.createValue (type : XmlType) (variableName : NCName) : Elem :=
  addNamespaceDeclaration vendor jbpm
    (setAttribute initialized mark (type.createElement variableName))

/-- `hasAttributeNS(NS_XMLNS, getPrefix(NS_VENDOR, elem))` -/
def declaresVendor (e : Elem) : Bool :=
  match getPrefix vendor [e.label.decls] with
  | some found => e.label.decls.any fun d => d.1.1 = found
  | none => false

/-- `hasAttributesOtherThanInitialized`: the declarations are attributes too. -/
def hasAttributesOtherThanInitialized (e : Elem) : Bool :=
  match e.label.attributes.entries.length + e.label.decls.length with
  | 1 => false
  | 2 => ! declaresVendor e
  | _ => true

/-- `isInitialized`, with the element after it: a bogus mark is removed. -/
def isInitialized (e : Elem) : Bool × Elem :=
  match e.label.attributes.lookup initialized with
  | some value =>
    if parseBoolean value.text = some false ∧ e.children = [] ∧
        ! hasAttributesOtherThanInitialized e then
      (false, e)
    else (true, removeAttribute initialized e)
  | none => (true, e)

/-- `VariableDefinition.getValue` -/
def getValue (e : Elem) : Except Thrown Elem :=
  if (isInitialized e).1 then .ok (isInitialized e).2 else .error .uninitializedVariable

/-! ## Assignments -/

/-- What happens to a variable. -/
inductive Event (P E : Type)
  /-- the variable is assigned -/
  | assign (value : Value)
  /-- a location in the variable is assigned -/
  | query (query : Query P E) (contextNode : Ref) (value : Value)
  /-- a node that another expression has selected is assigned -/
  | node (ref : Ref) (value : Value)
  /-- the variable is read -/
  | read

/-- A variable, and whether an assignment to it has succeeded. -/
structure State where
  value : Elem
  assigned : Bool

def State.next {P E : Type} (J : Jaxen P E) (s : State) : Event P E → State
  | .assign value => ⟨setElementValue [] s.value value, true⟩
  | .query query contextNode value =>
    match XPath.assign J query contextNode value s.value with
    | (root, .ok _) => ⟨root, true⟩
    | (root, .error _) => ⟨root, s.assigned⟩
  | .node ref value =>
    match setObjectValue value s.value ref with
    | .ok root => ⟨root, true⟩
    | .error _ => s
  | .read => ⟨(isInitialized s.value).2, s.assigned⟩

/-- The variable is initialized just if it has been assigned, and what is read of it is without
    the mark. -/
def Tracked (s : State) : Prop :=
  (isInitialized s.value).1 = s.assigned ∧
    ∀ e, getValue s.value = .ok e → initialized ∉ e.label.attributes

/-! ## Where the mark fails -/

/-- The name of the element is in no namespace, or has the prefix of the mark. -/
def XmlType.Plain : XmlType → Prop
  | .schema _ => True
  | .element name => name.namespaceURI = "" ∨ name.prefix_ = some jbpm

/-- A node that is copied with its parent. -/
def isContent : Node → Bool
  | .branch _ _ | .leaf ⟨.text, _⟩ | .leaf ⟨.cdata, _⟩ => true
  | .leaf ⟨.comment, _⟩ | .leaf ⟨.instruction _, _⟩ => false

/-- An element whose copy looks like a new value: it has the mark, no other attribute and no
    content. -/
structure Marked (e : Elem) : Prop where
  mark : ∃ value, e.label.attributes.lookup initialized = some value ∧
    parseBoolean value.text = some false
  only : ∀ n ∈ e.label.attributes, n = initialized
  empty : ∀ c ∈ e.children, isContent c = false

/-- The element that is copied when a value is assigned to a variable. -/
def copiedElement (root : Elem) : Value → Option Elem
  | .element source => source.element? root
  | .document d => some (d.getD root)
  | .endpointReference _ written _ =>
    if isServiceRef root.label.name then none else some written
  | .node _ | .object _ => none

/-- An assignment that brings the mark: of a marked element to the variable, or of `false` to the
    mark itself. -/
def Marks (root : Elem) (value : Value) : Ref → Prop
  | .document | .element [] => ∃ e, copiedElement root value = some e ∧ Marked e
  | .attribute [] n => n = initialized ∧ parseBoolean (value.text root) = some false
  | _ => False

/-- No assignment brings the mark, and while the variable is not assigned, a path of which a node
    is created can be assigned. -/
def Harmless {P E : Type} (J : Jaxen P E) (s : State) : Event P E → Prop
  | .assign value => ¬ Marks s.value value (.element [])
  | .query query contextNode value =>
    IsNode s.value contextNode ∧
    (∀ r, (XPath.assign J query contextNode value s.value).2 = .ok r →
      ¬ Marks (selectForAssign J query contextNode s.value).1 value r) ∧
    ∀ absolute steps, query = .path absolute steps → s.assigned = false →
      creates J steps s.value [start absolute contextNode] →
      ∃ r, (XPath.assign J query contextNode value s.value).2 = .ok r
  | .node ref value => IsNode s.value ref ∧ ¬ Marks s.value value ref
  | .read => True

/-! ## New values -/

variable {P E : Type} {J : Jaxen P E} {s s' : State} {e e' root : Elem}

/-- The mark is the only attribute, and there is no declaration but one of its prefix. -/
theorem not_isInitialized_iff (e : Elem) : (isInitialized e).1 = false ↔
    ∃ value, e.label.attributes.lookup initialized = some value ∧
      parseBoolean value.text = some false ∧ e.children = [] ∧
      hasAttributesOtherThanInitialized e = false := by
  unfold isInitialized
  cases e.label.attributes.lookup initialized with
  | none => simp
  | some value =>
    dsimp only
    split
    case isTrue h => simpa using h
    case isFalse h => simpa using h

theorem length_of_not_isInitialized (h : (isInitialized e).1 = false) :
    e.label.attributes.entries.length = 1 := by
  obtain ⟨value, hvalue, -, -, hother⟩ := (not_isInitialized_iff e).1 h
  have hpos : 0 < e.label.attributes.entries.length := by
    have hmem := List.mem_map_of_mem (f := Sigma.fst) (List.of_mem_dlookup hvalue)
    exact List.length_map (f := Sigma.fst) ▸ List.length_pos_of_mem hmem
  unfold hasAttributesOtherThanInitialized at hother
  split at hother
  case h_1 htotal => omega
  case h_3 => cases hother
  case h_2 htotal =>
    by_contra hne
    have hdecls : e.label.decls = [] := List.length_eq_zero_iff.1 (by omega)
    rw [declaresVendor, hdecls] at hother
    cases hother

theorem eq_of_not_isInitialized (h : (isInitialized e).1 = false) :
    ∀ n ∈ e.label.attributes, n = initialized := by
  obtain ⟨value, hvalue, -⟩ := (not_isInitialized_iff e).1 h
  obtain ⟨a, ha⟩ := List.length_eq_one_iff.1 (length_of_not_isInitialized h)
  have hkey : ∀ n ∈ e.label.attributes, n = a.1 := by
    intro n hn
    obtain ⟨v, hv⟩ := Option.isSome_iff_exists.1 (AList.lookup_isSome.2 hn)
    have hmem := List.of_mem_dlookup hv
    rw [ha, List.mem_singleton] at hmem
    exact congrArg Sigma.fst hmem
  intro n hn
  exact (hkey n hn).trans (hkey initialized (AList.lookup_isSome.1 (by rw [hvalue]; rfl))).symm

theorem isInitialized_of_notMem (h : initialized ∉ e.label.attributes) :
    isInitialized e = (true, e) := by
  rw [isInitialized, AList.lookup_eq_none.2 h]

/-- What is read has lost the mark. -/
theorem notMem_read (h : (isInitialized e).1 = true) :
    initialized ∉ (isInitialized e).2.label.attributes := by
  revert h
  unfold isInitialized
  cases hmark : e.label.attributes.lookup initialized with
  | none => exact fun _ => AList.lookup_eq_none.1 hmark
  | some value =>
    dsimp only
    split
    · exact fun h => by cases h
    · exact fun _ => AList.lookup_eq_none.1 (AList.lookup_erase _ _)

theorem isInitialized_read (e : Elem) :
    (isInitialized (isInitialized e).2).1 = (isInitialized e).1 := by
  cases h : (isInitialized e).1 with
  | true => rw [isInitialized_of_notMem (notMem_read h)]
  | false =>
    obtain ⟨value, hvalue, hfalse, hchildren, hother⟩ := (not_isInitialized_iff e).1 h
    have hsame : isInitialized e = (false, e) := by
      rw [isInitialized, hvalue]
      exact if_pos ⟨hfalse, hchildren, by rw [hother]; rfl⟩
    rw [hsame, h]

theorem getValue_notMem (h : getValue e = .ok e') : initialized ∉ e'.label.attributes := by
  unfold getValue at h
  split at h
  case isTrue hinit =>
    cases h
    exact notMem_read hinit
  case isFalse => cases h

theorem getPrefix_vendor : getPrefix vendor [[(jbpm, vendor)]] = some "jbpm" := by decide

/-- A new value has the mark and the declaration of its prefix, unless its name needs another. -/
theorem createValue_not_initialized {type : XmlType} (h : type.Plain) (variableName : NCName) :
    (isInitialized (type.createValue variableName)).1 = false := by
  have hcreate : (type.createValue variableName).label.decls = [(jbpm, vendor)] ∧
      (type.createValue variableName).label.attributes =
        (∅ : AList AttributeValue).insert initialized mark ∧
      (type.createValue variableName).children = [] := by
    cases type with
    | schema name => exact ⟨rfl, rfl, rfl⟩
    | element name =>
      unfold XmlType.createValue XmlType.createElement createElement
      dsimp only
      split
      case isTrue => exact ⟨rfl, rfl, rfl⟩
      case isFalse hns =>
        have hprefix := h.resolve_left hns
        refine ⟨?_, rfl, rfl⟩
        simp [addNamespaceDeclaration, setAttribute, hprefix, declare]
  obtain ⟨hdecls, hattributes, hchildren⟩ := hcreate
  refine (not_isInitialized_iff _).2 ⟨mark, ?_, rfl, hchildren, ?_⟩
  · rw [hattributes, AList.lookup_insert]
  · rw [hasAttributesOtherThanInitialized, declaresVendor, hattributes, hdecls]
    rw [getPrefix_vendor]
    rfl

/-- An element that looks like a new value is one with nothing added. -/
theorem not_isInitialized_of_extends (h : XPath.Extends e e') (he' : (isInitialized e').1 = false) :
    (isInitialized e).1 = false := by
  obtain ⟨value, hvalue, hfalse, hchildren, hother⟩ := (not_isInitialized_iff e').1 he'
  have hmark : e.label.attributes.lookup initialized = some value := by
    refine (h.added _ _ hvalue).resolve_right fun hempty => ?_
    rw [hempty] at hfalse
    cases hfalse
  have hle : e.label.attributes.entries.length ≤ e'.label.attributes.entries.length := by
    have hsub : e.label.attributes.keys ⊆ e'.label.attributes.keys := by
      intro n hn
      obtain ⟨v, hv⟩ := Option.isSome_iff_exists.1 (AList.lookup_isSome.2 (AList.mem_keys.2 hn))
      exact AList.mem_keys.1 (AList.lookup_isSome.1 (by rw [h.kept n v hv]; rfl))
    have := (List.subperm_of_subset e.label.attributes.keys_nodup hsub).length_le
    simpa [AList.keys, List.keys] using this
  have hpos : 0 < e.label.attributes.entries.length :=
    List.length_pos_of_mem (List.of_mem_dlookup hmark)
  have hlength := length_of_not_isInitialized he'
  refine (not_isInitialized_iff e).2 ⟨value, hmark, hfalse, ?_, ?_⟩
  · exact List.length_eq_zero_iff.1 (Nat.le_zero.1 (h.length.trans (by rw [hchildren]; rfl)))
  · have heq : e.label.attributes.entries.length = e'.label.attributes.entries.length := by omega
    rw [hasAttributesOtherThanInitialized, declaresVendor, heq, ← h.decls]
    exact hother

/-! ## Assigned values -/

theorem isContent_of_copied {above : Scopes NCName String} {c : Node} (h : copied above c = none) :
    isContent c = false := by
  cases c with
  | branch label children => cases h
  | leaf l =>
    obtain ⟨kind, data⟩ := l
    cases kind with
    | text | cdata => cases h
    | comment | instruction => rfl

/-- A copy looks like a new value only if the source does. -/
theorem marked_of_copy {source : Source} (h : (isInitialized (copy [] source root)).1 = false) :
    ∃ e, source.element? root = some e ∧ Marked e := by
  obtain ⟨value, hvalue, hfalse, hchildren, -⟩ := (not_isInitialized_iff _).1 h
  have honly := eq_of_not_isInitialized h
  obtain ⟨e, he, hlookup⟩ := lookup_copy (at?_nil root) source
  obtain rfl := Option.some.inj he
  -- the attributes are those of an element that is read without the attributes of the target
  obtain ⟨s, hs⟩ : ∃ s, source.element? (removeAttributes root) = some s := by
    refine Option.isSome_iff_exists.1 ?_
    by_contra hnone
    rw [Option.not_isSome_iff_eq_none] at hnone
    have hempty := (hlookup initialized).symm.trans hvalue
    rw [Source.attributes, Source.tag?, modify_nil, hnone] at hempty
    cases hempty
  have hattributes : source.attributes (modify removeAttributes [] root) = s.label.attributes := by
    rw [Source.attributes, Source.tag?, modify_nil, hs]
    rfl
  rw [hattributes] at hlookup
  have hmark : s.label.attributes.lookup initialized = some value :=
    (hlookup initialized).symm.trans hvalue
  have hsame : source.element? root = some s ∧ Outside [] source := by
    obtain ⟨document, address⟩ := source
    cases document with
    | some d => exact ⟨hs, fun hd => by cases hd⟩
    | none =>
      cases address with
      | nil =>
        obtain rfl := Option.some.inj hs
        cases hmark
      | cons i r => exact ⟨hs, fun _ => .inr ⟨i, r, rfl⟩⟩
  obtain ⟨e, he, hcontent⟩ := children_copy (at?_nil root) hsame.1 hsame.2
  obtain rfl := Option.some.inj he
  rw [hchildren] at hcontent
  refine ⟨s, hsame.1, ⟨value, hmark, hfalse⟩, fun n hn => ?_, fun c hc => ?_⟩
  · refine honly n (AList.lookup_isSome.1 ?_)
    rw [hlookup]
    exact AList.lookup_isSome.2 hn
  · exact isContent_of_copied (List.filterMap_eq_nil_iff.1 hcontent.symm c hc)

theorem isInitialized_of_children (h : e.children ≠ []) : (isInitialized e).1 = true := by
  by_contra hfalse
  obtain ⟨_, -, -, hchildren, -⟩ := (not_isInitialized_iff e).1 (by simpa using hfalse)
  exact h hchildren

/-- The assignment of a value to the variable. -/
theorem isInitialized_setElementValue {value : Value}
    (h : ¬ Marks root value (.element [])) :
    (isInitialized (setElementValue [] root value)).1 = true := by
  have hcopy : ∀ source, (∀ e, source.element? root = some e → ¬ Marked e) →
      (isInitialized (copy [] source root)).1 = true := by
    intro source hsource
    by_contra hfalse
    obtain ⟨e, he, hmarked⟩ := marked_of_copy (by simpa using hfalse)
    exact hsource e he hmarked
  have htext : ∀ text, (isInitialized (setStringValue text root)).1 = true := by
    intro text
    exact isInitialized_of_children (List.cons_ne_nil _ _)
  cases value with
  | element source => exact hcopy source fun e he hm => h ⟨e, he, hm⟩
  | document d =>
    refine hcopy ⟨d, []⟩ fun e he hm => h ⟨e, ?_, hm⟩
    rw [copiedElement, ← he]
    rfl
  | node data => exact htext data
  | object text => exact htext text
  | endpointReference scheme written text =>
    rw [setElementValue, writeServiceRef]
    split
    case isTrue =>
      exact isInitialized_of_children (List.append_ne_nil_of_right_ne_nil _ (List.cons_ne_nil _ _))
    case isFalse hname =>
      refine hcopy ⟨some written, []⟩ fun e he hm => h ⟨e, ?_, hm⟩
      rw [copiedElement, if_neg (by simpa using hname), ← he]
      rfl

theorem children_ne_nil_of_at {i : ℕ} {p : List ℕ} (h : root.at? (i :: p) = some e) :
    root.children ≠ [] := by
  rintro hnil
  rw [at?, child?, hnil] at h
  cases h

/-- An assigned node is not the mark, and the others leave the variable with a child or another
    attribute, or are the variable itself. -/
theorem isInitialized_setObjectValue {value : Value} {r : Ref} (hr : IsNode root r)
    (h : ¬ Marks root value r) (hset : setObjectValue value root r = .ok e) :
    (isInitialized e).1 = true := by
  have hbelow : ∀ (i : ℕ) (p : List ℕ) (d : Elem), root.at? (i :: p) = some d →
      e.children.length = root.children.length → (isInitialized e).1 = true := by
    intro i p d hd hlength
    refine isInitialized_of_children fun hnil => children_ne_nil_of_at hd ?_
    rw [hnil] at hlength
    exact List.length_eq_zero_iff.1 hlength.symm
  cases r with
  | document =>
    cases hset
    exact isInitialized_setElementValue h
  | element p =>
    cases hset
    cases p with
    | nil => exact isInitialized_setElementValue h
    | cons i p =>
      obtain ⟨d, hd⟩ := hr
      refine hbelow i p d hd ?_
      have hmodify : ∀ f, (modify f (i :: p) root).children.length = root.children.length :=
        fun f => length_children_modify_cons f i p root
      have hcopy : ∀ source, (copy (i :: p) source root).children.length = root.children.length :=
        fun source => copy_keeps (m := fun e : Elem => e.children.length)
          (fun f q root _ => length_children_modify_cons f i (p ++ q) root) source root
      cases value with
      | element source => exact hcopy source
      | document d => exact hcopy ⟨d, []⟩
      | node data | object data => exact hmodify _
      | endpointReference scheme written text =>
        rw [setElementValue, writeServiceRef]
        split
        · exact hmodify _
        · exact hcopy _
  | leaf p i =>
    obtain ⟨d, l, hd, hl⟩ := hr
    rw [setObjectValue] at hset
    split at hset
    case isTrue => cases hset
    case isFalse =>
      cases hset
      cases p with
      | nil =>
        obtain rfl := Option.some.inj hd
        refine isInitialized_of_children fun hnil => ?_
        have hlength := congrArg List.length hnil
        rw [modify_nil, setLeafData, List.length_modify] at hlength
        rw [List.length_eq_zero_iff.1 hlength] at hl
        cases hl
      | cons j p => exact hbelow j p d hd (length_children_modify_cons ..)
  | «attribute» p n =>
    obtain ⟨d, hd, hn⟩ := hr
    rw [setObjectValue] at hset
    split at hset
    case isTrue => cases hset
    case isFalse =>
      cases hset
      cases p with
      | cons j p => exact hbelow j p d hd (length_children_modify_cons ..)
      | nil =>
        obtain rfl := Option.some.inj hd
        obtain ⟨v, hv⟩ := Option.isSome_iff_exists.1 (AList.lookup_isSome.2 hn)
        have heq : modify (setAttributeText n (value.text root)) [] root =
            setAttribute n (v.setText (value.text root)) root := by
          rw [modify_nil, setAttributeText, hv]
        rw [heq]
        by_contra hfalse
        have hinit : (isInitialized (setAttribute n (v.setText (value.text root)) root)).1 =
          false := by simpa using hfalse
        obtain rfl := eq_of_not_isInitialized hinit n ((AList.mem_insert _).2 (.inl rfl))
        obtain ⟨w, hw, htext, -⟩ := (not_isInitialized_iff _).1 hinit
        obtain rfl := Option.some.inj ((AList.lookup_insert _).symm.trans hw)
        rw [AttributeValue.text_setText] at htext
        exact h ⟨rfl, htext⟩

/-! ## Runs -/

/-- One step. -/
theorem Tracked.next (hJ : J.Selects) (h : Tracked s) (event : Event P E)
    (hevent : Harmless J s event) : Tracked (s.next J event) := by
  refine ⟨?_, fun e he => getValue_notMem he⟩
  cases event with
  | assign value => exact isInitialized_setElementValue hevent
  | read => exact (isInitialized_read s.value).trans h.1
  | node r value =>
    rw [State.next]
    split
    case h_1 hset => exact isInitialized_setObjectValue hevent.1 hevent.2 hset
    case h_2 => exact h.1
  | query query context value =>
    obtain ⟨hcontext, hmarks, hcreates⟩ := hevent
    rcases assign_cases hJ query value hcontext with
      ⟨e, he⟩ | ⟨r, root', hr, -, hnode, hset⟩
    · -- the assignment fails, and maybe nodes have been created
      rw [State.next, he]
      dsimp only
      have hgrow := (selectForAssign_grows hJ query hcontext).1
      obtain ⟨root', hroot', hext⟩ := hgrow [] s.value rfl
      obtain rfl := Option.some.inj hroot'
      cases hassigned : s.assigned with
      | true =>
        by_contra hfalse
        have := not_isInitialized_of_extends hext (by simpa using hfalse)
        rw [h.1, hassigned] at this
        cases this
      | false =>
        have hsame : (selectForAssign J query context s.value).1 = s.value := by
          cases query with
          | expr e => rfl
          | path absolute steps =>
            refine selectOrCreateNodes_eq steps _ ?_
            by_contra hnew
            obtain ⟨r, hr⟩ := hcreates absolute steps rfl hassigned (by simpa using hnew)
            rw [he] at hr
            cases hr
        rw [hsame, h.1, hassigned]
    · rw [State.next, hr]
      exact isInitialized_setObjectValue hnode (hmarks r (by rw [hr])) hset

/-- A variable with a plain name is tracked in all runs whose steps are harmless. -/
theorem tracked_of_run (hJ : J.Selects) {type : XmlType} (htype : type.Plain)
    (variableName : NCName) {events : List (Event P E)}
    (h : Run (Lib.guard (Harmless J) fun s event s' => s' = s.next J event)
      ⟨type.createValue variableName, false⟩ events s) : Tracked s := by
  refine h.inv ⟨createValue_not_initialized htype variableName, fun e he => getValue_notMem he⟩ ?_
  rintro s event s' htracked ⟨hevent, rfl⟩
  exact htracked.next hJ event hevent

/-- A variable of an element type with a name in a namespace counts as initialized when it is
    created: its own declaration is an attribute too many. -/
theorem qualified_not_tracked :
    ¬ Tracked ⟨(XmlType.element ⟨"urn:a", ⟨"b", by decide⟩, none⟩).createValue
      ⟨"v", by decide⟩, false⟩ := by
  rintro ⟨h, -⟩
  exact absurd h (by decide)

/-- Evaluation of name tests for attributes without namespace. -/
def attributesOnly : Jaxen Empty Empty where
  select step root nodes :=
    match step.axis, step.test, nodes with
    | .attribute, .name none (some n), [.element p] =>
      match root.at? p with
      | some e =>
        if AttributeName.unqualified n ∈ e.label.attributes then
          .ok [.attribute p (.unqualified n)]
        else .ok []
      | none => .error .exception
    | _, _, _ => .error .subLanguageExecutionFault
  predicate p := nomatch p
  selectNodes e := nomatch e
  namespaceURI _ := none

theorem attributesOnly_selects : attributesOnly.Selects where
  step step root nodes found hnodes h := by
    unfold attributesOnly at h
    dsimp only at h
    split at h
    case h_2 => cases h
    case h_1 n p _ _ =>
      split at h
      case h_2 => cases h
      case h_1 e he =>
        split at h
        case isTrue hn =>
          cases h
          intro r hr
          rw [List.mem_singleton.1 hr]
          exact ⟨e, he, hn⟩
        case isFalse =>
          cases h
          exact fun r hr => absurd hr (List.not_mem_nil)
  expr e := nomatch e
  noAttribute prefix_ localName root p e he h := by
    cases prefix_ with
    | some q => cases h
    | none =>
      change (match root.at? p with
        | some e =>
          if AttributeName.unqualified localName ∈ e.label.attributes then
            Except.ok [Ref.attribute p (.unqualified localName)]
          else .ok []
        | none => .error Thrown.exception) = Except.ok [] at h
      rw [he] at h
      dsimp only at h
      split at h
      case isTrue => cases h
      case isFalse hn => exact hn

/-- An attribute of the variable is created and assigned, and the variable read. -/
def attributeEvents : List (Event Empty Empty) :=
  [.query (.path false [⟨.attribute, .name none (some ⟨"id", by decide⟩), []⟩]) (.element [])
    (.object "1"), .read]

/-- The variable of the events. -/
theorem isNCName_t : "t" ≠ "" ∧ ':' ∉ "t".toList := by decide

def attributeVariable : XmlType := .schema ⟨"urn:a", ⟨"t", isNCName_t⟩, none⟩

theorem attribute_tracked :
    Tracked (attributeEvents.foldl (State.next attributesOnly)
      ⟨attributeVariable.createValue ⟨"v", by decide⟩, false⟩) := by
  have hplain : attributeVariable.Plain := trivial
  refine tracked_of_run attributesOnly_selects hplain _ (Run.of_allowed
    ⟨⟨⟨_, rfl⟩, fun r hr => ?_, fun _ _ _ _ _ => ?_⟩, trivial, trivial⟩)
  · obtain rfl : Ref.attribute [] (.unqualified ⟨"id", by decide⟩) = r := Except.ok.inj hr
    exact fun h => absurd h.1 (by decide)
  · exact ⟨.attribute [] (.unqualified ⟨"id", by decide⟩), rfl⟩

end Variable

end Jbpm
