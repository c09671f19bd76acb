/-
  Copies that succeed.

  * `Binds`: the prefixes of a source at the element that it has been copied to;
  * `Puts`: the node that the to-spec locates holds what was extracted, and nothing else has changed
    but by reads and by the creation of the target;
  * `copy_puts`: what a copy puts, unless it is of a message to itself.
-/
import Jbpm.Xml.CopiedElement
import Jbpm.Bpel.AssignFault

namespace Jbpm

open Lib Branch Declarations Xml XPath Variable

namespace Bpel.Assign

/-- The element that is copied. -/
def source? : Value → Option Source
  | .element source => some source
  | .document d => some ⟨d, []⟩
  | .node _ | .endpointReference _ _ _ | .object _ => none

/-- The element that a node is, or that a document has. -/
def elementOf : Ref → Option (List ℕ)
  | .document => some []
  | .element p => some p
  | .leaf _ _ | .attribute _ _ => none

/-- The prefixes of a source that does not overlap the target are bound as there, those that are
    declared with one namespace and not used for another one. -/
def Binds (value : Value) (root : Elem) (p : List ℕ) (e : Elem) : Prop :=
  ∀ source s, source? value = some source → source.element? root = some s →
    (source.document = none → Apart p source.address) → ∀ k u,
      binding (source.scopes root) k = some u →
      (∀ u', (k, u') ∈ (source.scopes root).flatten → u' = u) →
      Unclaimed s.label.attributes e.label.name (scopes p root).tail k u →
      binding (e.label.decls :: (scopes p root).tail) k = some u

variable {V L M P E X : Type} {messages : Messages M} (G : Engine V L P E X messages)

section
variable [DecidableEq V]

/-- What is extracted has been put to the node that the to-spec locates in a document, or the parts
    of a message to another one. -/
inductive Puts (t : To V L P E X) (o : Object V) (s s' : State V L messages) : Prop
  | node {l s₁ root₁ root₂ root' r} : G.Locates s s₁ l root₁ root₂ (some [some r]) t →
    Grows root₁ root₂ → IsNode root₂ r → Assigned (s₁.toValue l o) root₂ root' r →
    (∀ p e, elementOf r = some p → root'.at? p = some e → Binds (s₁.toValue l o) root₂ p e) →
    s' = s₁.setRoot root' l → Puts t o s s'
  | parts {v w type} {parts parts' : AList fun _ : PartName messages type => Elem} :
    o = .message w → t = .variable v none none → s.values w = .message type parts →
    s' = s.setValue v (.message type parts') →
    (∀ n, n ∈ parts' ↔ n ∈ parts) →
    (∀ n part, parts.lookup n = some part → ∃ root e, parts'.lookup n = some e ∧
      HoldsElement root e part [] ∧ Binds (.element ⟨some part, []⟩) root [] e) →
    Puts t o s s'

end

variable {G} {s s' s₀ s₁ : State V L messages} {v : V} {l : Location V} {root root' : Elem}
  {o : Object V} {t : To V L P E X}

/-! ## Prefixes -/

theorem binds_copy {p : List ℕ} {source : Source} {e target : Elem}
    (ht : root.at? p = some target) (he : (copy p source root).at? p = some e) :
    Binds (.element source) root p e := by
  have hforeign : ∀ d q s k u, d.at? q = some s → (copy p ⟨some d, q⟩ root).at? p = some e →
      binding (scopes q d) k = some u → (∀ u', (k, u') ∈ (scopes q d).flatten → u' = u) →
      Unclaimed s.label.attributes e.label.name (scopes p root).tail k u →
      binding (e.label.decls :: (scopes p root).tail) k = some u := by
    intro d q s k u hs he hbound honce hfree
    obtain ⟨e₁, hcopy, hname, hmeans⟩ := means_copy ht hs
    rw [hcopy, at?_modify_self, ht] at he
    obtain rfl : e₁ = e := Option.some.inj he
    exact hmeans.bindings k u ⟨hbound, honce, hname ▸ hfree⟩
  intro source' s hsource hs hapart k u
  obtain rfl := Option.some.inj hsource
  obtain ⟨document, address⟩ := source
  cases document with
  | some d => exact hforeign d address s k u hs he
  | none =>
    rw [copy_own_eq (hapart rfl)] at he
    exact hforeign root address s k u hs he

theorem binds_setObjectValue {value : Value} {r : Ref} (hr : IsNode root r)
    (h : setObjectValue value root r = .ok root') :
    ∀ p e, elementOf r = some p → root'.at? p = some e → Binds value root p e := by
  have helement : ∀ p e, IsNode root (.element p) →
      (setElementValue p root value).at? p = some e → Binds value root p e := by
    intro p e ⟨target, ht⟩ he
    cases value with
    | element source => exact binds_copy ht he
    | document d =>
      intro source s hsource
      exact binds_copy ht he source s hsource
    | node | endpointReference | object =>
      intro source s hsource
      cases hsource
  cases r with
  | document =>
    cases h
    intro p e hp he
    obtain rfl := Option.some.inj hp
    exact helement [] e ⟨root, rfl⟩ he
  | element q =>
    cases h
    intro p e hp he
    obtain rfl := Option.some.inj hp
    exact helement q e hr he
  | leaf | «attribute» =>
    intro p e hp
    cases hp

/-! ## Parts of a message -/

theorem lookup_foldl_setPart {type : M} (parts : AList fun _ : PartName messages type => Elem)
    (n : PartName messages type) :
    (parts.entries.foldl setPart ∅).lookup n = (parts.lookup n).map fun part =>
      copy [] ⟨some part, []⟩ (createPart messages type n.1) := by
  have h : ∀ (l : List (Σ _ : PartName messages type, Elem))
      (acc : AList fun _ : PartName messages type => Elem), l.NodupKeys →
      (∀ a ∈ l, a.1 ∉ acc) → (l.foldl setPart acc).lookup n =
        ((l.dlookup n).map fun part =>
          copy [] ⟨some part, []⟩ (createPart messages type n.1)).or
            (acc.lookup n) := by
    intro l
    induction l with
    | nil => exact fun acc _ _ => rfl
    | cons a l ih =>
      intro acc hl hacc
      obtain ⟨hal, hl⟩ := List.nodupKeys_cons.1 hl
      rw [List.foldl_cons, ih _ hl]
      · by_cases hn : a.1 = n
        · subst hn
          have hnone : acc.lookup a.1 = none :=
            AList.lookup_eq_none.2 (hacc a (List.mem_cons_self ..))
          rw [List.dlookup_cons_eq, List.dlookup_eq_none.2 hal, setPart, AList.lookup_insert, hnone]
          rfl
        · rw [List.dlookup_cons_ne _ _ (Ne.symm hn), setPart, AList.lookup_insert_ne (Ne.symm hn)]
      · intro b hb hmem
        rcases (AList.mem_insert _).1 hmem with heq | hmem
        · exact hal (heq ▸ List.mem_keys_of_mem hb)
        · exact hacc b (List.mem_cons_of_mem _ hb) hmem
  rw [h parts.entries ∅ parts.nodupKeys (fun a _ => AList.notMem_empty a.1)]
  rw [AList.lookup_empty, Option.or_none]
  rfl

section
variable [DecidableEq V]

/-- The parts of another message. -/
theorem puts_setMessage [DecidableEq M] {w : V} {type : M} (hw : w ≠ v)
    (h : s.setMessage v type (.message w) = (s', .ok ())) :
    Puts G (.variable v none none) (.message w) s s' := by
  unfold State.setMessage at h
  dsimp only at h
  split at h
  case h_1 => cases h
  case h_2 type' parts hvalue =>
    split at h
    case isFalse => cases h
    case isTrue htype =>
      subst htype
      have hkept : (s.setValue v (.message type' ∅)).values w = .message type' parts :=
        (Function.update_of_ne hw _ _).trans hvalue
      rw [hkept] at h
      obtain ⟨rfl, -⟩ := Prod.mk.inj h
      have hset : (s.setValue v (.message type' ∅)).setValue v
          (.message type' (parts.entries.foldl setPart ∅)) =
            s.setValue v (.message type' (parts.entries.foldl setPart ∅)) := by
        unfold State.setValue
        rw [Function.update_idem]
      refine .parts rfl rfl hvalue hset (fun n => ?_) fun n part hpart => ?_
      · rw [← AList.lookup_isSome, ← AList.lookup_isSome, lookup_foldl_setPart, Option.isSome_map]
      · let created := createPart messages type' n.1
        obtain ⟨e, he, -, -⟩ := copy_replaces (at?_nil created) ⟨some part, []⟩
        refine ⟨created, e, ?_, holdsElement_copy (at?_nil created) rfl (fun h => by cases h) he,
          binds_copy (at?_nil created) he⟩
        rw [lookup_foldl_setPart, hpart]
        exact he

section
variable (hG : G.Lawful)
include hG

theorem puts_assignAt {query : Option (Snippet P E)} (ht : G.Targets t l query)
    (hreads : Reads s₀ s₁) (hcreated : Created l s₁ s)
    (h : G.assignAt s l query o = (s', .ok ())) : Puts G t o s₀ s' := by
  unfold Engine.assignAt at h
  cases query with
  | none =>
    dsimp only [Option.elim_none] at h
    split at h
    case h_1 => cases h
    case h_2 root hroot =>
      obtain ⟨rfl, -⟩ := Prod.mk.inj h
      have hnode : IsNode root (.element []) := ⟨root, rfl⟩
      exact .node (.whole ht ⟨s₁, s, hreads, hcreated, Reads.refl s⟩ hroot rfl rfl)
        (Grows.refl root) hnode (assigned_setObjectValue hnode rfl).1
        (binds_setObjectValue hnode rfl) rfl
  | some snippet =>
    have hquery := hG.reads snippet s
    dsimp only [Option.elim_some] at h
    split at h
    case h_1 => cases h
    case h_2 root hroot =>
      obtain ⟨rfl, hok⟩ := Prod.mk.inj h
      have hJ := hG.selects snippet.namespaces (G.reads snippet s)
      have hcontext : IsNode root (.element []) := ⟨root, rfl⟩
      rcases assign_cases hJ snippet.query ((G.reads snippet s).toValue l o) hcontext with
        ⟨e, he⟩ | ⟨r, root', hr, hselected, hnode, hset⟩
      · rw [he] at hok
        cases hok
      · rw [hr]
        have hlocates := locates_selectForAssign hJ snippet.query hcontext
        rw [hselected] at hlocates
        exact .node (.query ht ⟨s₁, s, hreads, hcreated, hquery⟩ hroot hlocates)
          (selectForAssign_grows hJ snippet.query hcontext).1 hnode
          (assigned_setObjectValue hnode hset).1 (binds_setObjectValue hnode hset) rfl

theorem puts_assignVariable [DecidableEq M] {part : Option NCName}
    {query : Option (Snippet P E)} (ht : G.Targets t ⟨v, part⟩ query) (hreads : Reads s₀ s)
    (hmessage : part = none → query = none →
      t = .variable v none none ∧ s₀ = s ∧ o ≠ .message v ∨ ∃ root, s.values v = .xml root)
    (h : G.assignVariable s v part query o = (s', .ok ())) : Puts G t o s₀ s' := by
  unfold Engine.assignVariable at h
  split at h
  case h_1 n =>
    split at h
    case h_1 => cases h
    case h_2 s₁ hs₁ => exact puts_assignAt hG ht hreads (created_partForAssign hs₁) h
  case h_2 =>
    split at h
    case h_1 => exact puts_assignAt hG ht hreads (.inl rfl) h
    case h_2 => cases h
    case h_3 type parts hvalue =>
      rcases hmessage rfl rfl with ⟨rfl, rfl, hother⟩ | ⟨root, hroot⟩
      · cases o with
        | message w =>
          have hw : w ≠ v := by
            rintro rfl
            exact hother rfl
          exact puts_setMessage hw h
        | node | literal | reference | other => cases h
      · rw [hvalue] at hroot
        cases hroot

theorem puts_assignExpression [DecidableEq M] {namespaces : Namespaces} {x : Lhs V P X}
    (h : G.assignExpression namespaces s o x = (s', .ok ())) :
    Puts G (.expression namespaces x) o s s' := by
  have hrefl := Reads.refl s
  cases x with
  | «variable» v part =>
    unfold Engine.assignExpression at h
    dsimp only at h
    split at h
    case h_1 => cases h
    case h_2 hnot =>
      refine puts_assignVariable hG ⟨rfl, rfl⟩ hrefl (fun hpart _ => .inr ?_) h
      cases hvalue : s.values v with
      | xml root => exact ⟨root, rfl⟩
      | message type parts => exact absurd hpart (hnot type parts hvalue)
  | path v part steps =>
    unfold Engine.assignExpression at h
    dsimp only at h
    split at h
    case h_1 => cases h
    case h_2 =>
      exact puts_assignVariable hG ⟨rfl, rfl⟩ hrefl (fun _ hquery => by cases hquery) h
  | call x steps =>
    unfold Engine.assignExpression at h
    dsimp only at h
    have hreads := hG.call x steps s
    split at h
    case h_1 => cases h
    case h_2 => cases h
    case h_3 s₁ l n ns hcall =>
      rw [hcall] at hreads
      obtain ⟨root, hroot, hnodes⟩ := hG.nodes _ _ _ _ _ _ hcall
      rw [hroot] at h
      obtain ⟨rfl, hok⟩ := Prod.mk.inj h
      have hJ := hG.selects namespaces s₁
      obtain ⟨hgrow, hfound⟩ := selectOrCreateNodes_grows hJ steps root (n :: ns) hnodes
      have hadds := adds_selectOrCreateNodes hJ steps root (n :: ns) hnodes
      generalize selectOrCreateNodes (G.jaxen namespaces s₁) steps root (n :: ns) = selected
        at hok hgrow hfound hadds ⊢
      have hselected : ∀ found, selected.2.map (List.map some) = .ok found →
          ∀ r, some r ∈ found → IsNode selected.1 r := by
        intro found hmap r hr
        cases hsel : selected.2 with
        | error e =>
          rw [hsel] at hmap
          cases hmap
        | ok nodes =>
          rw [hsel] at hmap
          cases hmap
          exact hfound nodes hsel r (by simpa using hr)
      rcases @assignSelected_cases (s₁.toValue l o)
        (selected.1, selected.2.map (List.map some)) hselected with
        ⟨e, he⟩ | ⟨r, root', hr, hone, hnode, hset⟩
      · rw [he] at hok
        cases hok
      · rw [hr]
        have hlast : some [some r] = selected.2.toOption.map (List.map some) := by
          have htoOption := congrArg Except.toOption hone
          revert htoOption
          cases selected.2 <;> exact Eq.symm
        exact .node (.call hcall hreads hroot hadds hlast) hgrow hnode
          (assigned_setObjectValue hnode hset).1 (binds_setObjectValue hnode hset) rfl

/-- A to-spec that succeeds, other than for a partner link or a message to itself. -/
theorem puts_assign [DecidableEq L] [DecidableEq M] (hlink : ∀ l, t ≠ .partnerLink l)
    (hself : ∀ v, o = .message v → t ≠ .variable v none none)
    (h : G.assign s o t = (s', .ok ())) : Puts G t o s s' := by
  cases t with
  | «variable» v part query =>
    refine puts_assignVariable hG ⟨rfl, rfl⟩ (Reads.refl s) (fun hpart hquery => .inl ?_) h
    subst hpart hquery
    exact ⟨rfl, rfl, fun ho => hself v ho rfl⟩
  | property v name =>
    have hreads := reads_getValue s v
    rw [Engine.assign] at h
    split at h
    case h_1 => cases h
    case h_2 s₁ hv =>
      rw [hv] at hreads
      unfold Engine.assignProperty at h
      split at h
      case h_1 => cases h
      case h_2 a ha =>
        split at h
        case h_1 => exact puts_assignAt hG ⟨a, ha, .inl rfl, rfl⟩ hreads (.inl rfl) h
        case h_2 n _ hpart =>
          exact puts_assignVariable hG ⟨a, ha, .inr (by rw [hpart]), rfl⟩ hreads
            (fun hnone => by cases hnone) h
        case h_3 => cases h
  | expression namespaces x => exact puts_assignExpression hG h
  | partnerLink l => exact absurd rfl (hlink l)

/-- A copy that succeeds puts what it extracts. -/
theorem copy_puts [DecidableEq L] [DecidableEq M] {c : Copy V L P E X}
    (hlink : ∀ l, c.target ≠ .partnerLink l) (h : G.copy s c = (s', .ok ())) :
    ∃ s₁ o, G.extract s c.source = (s₁, .ok o) ∧ Reads s s₁ ∧
      ((∀ v, o = .message v → c.target ≠ .variable v none none) → Puts G c.target o s₁ s') := by
  have hreads := reads_extract hG s c.source
  unfold Engine.copy at h
  split at h
  case h_1 => cases h
  case h_2 s₁ o hextract =>
    rw [hextract] at hreads
    exact ⟨s₁, o, hextract, hreads, fun hself => puts_assign hG hlink hself h⟩

end

end

/-- A variable with a processing instruction, and one without content. -/
def instructionVariable : State Bool Empty (M := Empty) nofun where
  values
    | false => .xml { emptyElement with children := [.leaf ⟨.instruction ⟨"i", by decide⟩, ""⟩] }
    | true => .xml emptyElement
  links l := nomatch l

def variableCopy : Copy Bool Empty Empty Empty Empty :=
  ⟨.variable false none none, .variable true none none⟩

/-- Processing instructions are not copied. -/
theorem instruction_dropped : ∃ s' root root',
    structuralEngine.copy instructionVariable variableCopy = (s', .ok ()) ∧
    instructionVariable.values false = .xml root ∧ s'.values true = .xml root' ∧
    root'.children ≠ root.children :=
  ⟨_, _, _, rfl, rfl, rfl, nofun⟩

theorem variableCopy_puts : ∃ s₁ o s',
    structuralEngine.extract instructionVariable variableCopy.source = (s₁, .ok o) ∧
    Puts structuralEngine variableCopy.target o s₁ s' := by
  obtain ⟨s₁, o, hextract, -, hputs⟩ := copy_puts (c := variableCopy) structuralEngine_lawful nofun
    (rfl : structuralEngine.copy instructionVariable variableCopy = _)
  refine ⟨s₁, o, _, hextract, hputs fun v ho => ?_⟩
  subst ho
  obtain ⟨-, ho⟩ := Prod.mk.inj hextract
  cases ho

end Bpel.Assign

end Jbpm
