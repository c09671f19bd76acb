/-
  Assign activities that end with a fault.  Copies are not undone: those before the one that faults
  have been executed, and the faulting copy may have created the location of its to-spec.

  * `Reads`: variables have lost bogus marks;
  * `Engine.Locates`: the nodes of a to-spec, and what has been created for them;
  * `Engine.Leaves`: nothing else has changed;
  * `execute_error`: what an assign activity leaves.
-/
import Jbpm.Bpel.Assign

namespace Jbpm

open Lib Branch Xml XPath Variable

namespace Bpel.Assign

variable {V L M P E X : Type} {messages : Messages M}

/-- Variables have been read: they may have lost bogus marks. -/
structure Reads (s s' : State V L messages) : Prop where
  links : s'.links = s.links
  values : ∀ v, s'.values v = s.values v ∨
    ∃ root, s.values v = .xml root ∧ s'.values v = .xml (isInitialized root).2

variable (G : Engine V L P E X messages)

/-- The document of a to-spec, and its query; a function call has none. -/
def Engine.Targets : To V L P E X → Location V → Option (Snippet P E) → Prop
  | .variable v part query, l, query' => l = ⟨v, part⟩ ∧ query' = query
  | .property v name, l, query' => ∃ a, G.propertyAlias v name = some a ∧
    (l = ⟨v, none⟩ ∨ l = ⟨v, a.part⟩) ∧ query' = a.query
  | .expression _ (.variable v part), l, query' => l = ⟨v, part⟩ ∧ query' = none
  | .expression namespaces (.path v part steps), l, query' =>
    l = ⟨v, part⟩ ∧ query' = some ⟨namespaces, .path false steps⟩
  | .expression _ (.call _ _), _, _ | .partnerLink _, _, _ => False

/-- Queries and expressions only read the variables, and what they select is in their documents. -/
structure Engine.Lawful : Prop where
  selects : ∀ namespaces s, (G.jaxen namespaces s).Selects
  reads : ∀ snippet s, Reads s (G.reads snippet s)
  evaluate : ∀ x s, Reads s (G.evaluate x s).1
  call : ∀ x steps s, Reads s (G.call x steps s).1
  nodes : ∀ x steps s s' l nodes, G.call x steps s = (s', .ok (l, nodes)) →
    ∃ root, s'.root l = some root ∧ ∀ n ∈ nodes, IsNode root n

section
variable [DecidableEq V]

/-- A part that was not there may have been created, as an element without content. -/
def Created (l : Location V) (s s' : State V L messages) : Prop :=
  s' = s ∨ s.root l = none ∧ ∃ type parts n, s.values l.owner = .message type parts ∧
    l.part = some n ∧ n ∈ (messages type).map Prod.fst ∧
    s' = s.setRoot (createPart messages type n) l

/-- Variables have been read, before and after a part is created. -/
def Prepares (l : Location V) (s s' : State V L messages) : Prop :=
  ∃ s₁ s₂, Reads s s₁ ∧ Created l s₁ s₂ ∧ Reads s₂ s'

/-- What a to-spec locates in a document: its element, the nodes of a query or of a path from the
    nodes of a function call.  The missing steps of paths have been added; after a fault there are
    no nodes. -/
inductive Engine.Locates (s s' : State V L messages) (l : Location V) (root root' : Elem)
    (found : Option (List (Option Ref))) : To V L P E X → Prop
  | whole {t} : G.Targets t l none → Prepares l s s' → s'.root l = some root → root' = root →
    found = some [some (.element [])] → Locates s s' l root root' found t
  | query {t snippet} : G.Targets t l (some snippet) → Prepares l s s' → s'.root l = some root →
    snippet.query.Locates (G.jaxen snippet.namespaces s') (.element []) root root' found →
    Locates s s' l root root' found t
  | call {namespaces x steps nodes last} : G.call x steps s = (s', .ok (l, nodes)) →
    Reads s s' → s'.root l = some root →
    Adds (G.jaxen namespaces s') steps root nodes root' last →
    found = last.map (List.map some) →
    Locates s s' l root root' found (.expression namespaces (.call x steps))

/-- A to-spec that faults has read variables, and it may have created its part and missing steps
    of its path. -/
inductive Engine.Leaves (t : To V L P E X) (s s' : State V L messages) : Prop
  | read : Reads s s' → Leaves t s s'
  | located {l s₁ root root' found} : G.Locates s s₁ l root root' found t → Grows root root' →
    s' = s₁.setRoot root' l → Leaves t s s'

end

variable {G} {s s' s₀ s₁ : State V L messages} {v : V} {n : NCName} {l l' : Location V}
  {root root' : Elem} {o : Object V} {t : To V L P E X} {e : Thrown}

/-! ## Reads -/

theorem isInitialized_read_snd (e : Elem) :
    (isInitialized (isInitialized e).2).2 = (isInitialized e).2 := by
  cases h : (isInitialized e).1 with
  | true => rw [isInitialized_of_notMem (notMem_read h)]
  | false =>
    have hsame : (isInitialized e).2 = e := by
      obtain ⟨value, hvalue, hfalse, hchildren, hother⟩ := (not_isInitialized_iff e).1 h
      rw [isInitialized, hvalue]
      dsimp only
      rw [if_pos ⟨hfalse, hchildren, by rw [hother]; rfl⟩]
    rw [hsame, hsame]

theorem Reads.refl (s : State V L messages) : Reads s s := ⟨rfl, fun _ => .inl rfl⟩

theorem Reads.trans (h : Reads s s₁) (h' : Reads s₁ s') : Reads s s' := by
  refine ⟨h'.links.trans h.links, fun v => ?_⟩
  rcases h.values v with hv | ⟨root, hroot, hv⟩
  · rw [← hv]
    exact h'.values v
  · refine .inr ⟨root, hroot, ?_⟩
    rcases h'.values v with hv' | ⟨root', hroot', hv'⟩
    · rw [hv', hv]
    · obtain rfl : (isInitialized root).2 = root' := by
        rw [hv] at hroot'
        exact VariableValue.xml.inj hroot'
      rw [hv', isInitialized_read_snd]

/-- A document is still there once it has been read. -/
theorem Reads.isSome_root (h : Reads s s') (l : Location V) :
    (s'.root l).isSome = (s.root l).isSome := by
  unfold State.root
  rcases h.values l.owner with hv | ⟨root, hroot, hv⟩
  · rw [hv]
  · rw [hv, hroot]
    cases l.part <;> rfl

variable [DecidableEq V]

/-! ## Documents of the variables -/

@[simp] theorem values_setRoot (s : State V L messages) (root : Elem) (l : Location V) (v : V) :
    (s.setRoot root l).values v =
      if v = l.owner then (s.values v).setRoot root l.part else s.values v := by
  refine (Function.update_apply ..).trans ?_
  split
  case isTrue h => rw [h]
  case isFalse => rfl

/-- A part that a message defines is there once it has been set. -/
theorem root_setRoot_part {type : M} {parts : AList fun _ : PartName messages type => Elem}
    (h : s.values v = .message type parts) (hn : n ∈ (messages type).map Prod.fst) (root : Elem) :
    (s.setRoot root ⟨v, some n⟩).root ⟨v, some n⟩ = some root := by
  rw [State.root, values_setRoot, if_pos rfl, h]
  simp [VariableValue.setRoot, VariableValue.root, hn]

theorem Created.isSome_root (h : Created l s s₁) : s₁ = s ∨ (s₁.root l).isSome := by
  rcases h with rfl | ⟨-, type, parts, n, hvalue, hpart, hn, rfl⟩
  · exact .inl rfl
  · obtain ⟨v, part⟩ := l
    cases hpart
    rw [root_setRoot_part hvalue hn]
    exact .inr rfl

/-! ## From-specs -/

theorem reads_getValue (s : State V L messages) (v : V) : Reads s (s.getValue v).1 := by
  unfold State.getValue
  split
  case h_1 root hroot =>
    split
    case isFalse => exact Reads.refl s
    case isTrue =>
      refine ⟨rfl, fun w => ?_⟩
      rw [values_setRoot]
      split
      case isFalse => exact .inl rfl
      case isTrue hw =>
        obtain rfl : w = v := hw
        rw [hroot]
        exact .inr ⟨root, rfl, rfl⟩
  case h_2 => split <;> exact Reads.refl s

section
variable (hG : G.Lawful)
include hG

omit [DecidableEq V] in
theorem reads_query (s : State V L messages) (snippet : Snippet P E) (l : Location V) (r : Ref) :
    Reads s (G.query s snippet l r).1 := by
  have h := hG.reads snippet s
  unfold Engine.query
  dsimp only
  split
  · exact h
  · split <;> exact h

omit [DecidableEq V] in
theorem reads_extractVariable (s : State V L messages) (v : V) (part : Option NCName)
    (query : Option (Snippet P E)) : Reads s (G.extractVariable s v part query).1 := by
  unfold Engine.extractVariable
  split
  case h_1 => exact reads_query hG ..
  case h_2 | h_3 | h_4 => exact Reads.refl s

omit [DecidableEq V] in
theorem reads_extractProperty (s : State V L messages) (v : V) (name : Xml.QName) :
    Reads s (G.extractProperty s v name).1 := by
  unfold Engine.extractProperty
  split
  case h_1 => exact Reads.refl s
  case h_2 a _ =>
    dsimp only
    split
    case h_1 | h_2 => exact reads_extractVariable hG ..
    case h_3 => exact Reads.refl s

/-- A from-spec only reads. -/
theorem reads_extract (s : State V L messages) (f : From V L P E X) :
    Reads s (G.extract s f).1 := by
  have hvalue : ∀ v s₁ r, s.getValue v = (s₁, r) → Reads s s₁ := by
    intro v s₁ r hv
    have h := reads_getValue s v
    rw [hv] at h
    exact h
  cases f with
  | «variable» v part query =>
    rw [Engine.extract]
    split
    case h_1 hv => exact hvalue v _ _ hv
    case h_2 hv => exact (hvalue v _ _ hv).trans (reads_extractVariable hG ..)
  | property v name =>
    rw [Engine.extract]
    split
    case h_1 hv => exact hvalue v _ _ hv
    case h_2 hv => exact (hvalue v _ _ hv).trans (reads_extractProperty hG ..)
  | expression x => exact hG.evaluate x s
  | text | element | myRole | partnerRole => exact Reads.refl s

end

/-! ## To-specs -/

theorem assignSelected_error {value : Value} {selected : Elem × Except Thrown (List (Option Ref))}
    (h : (assignSelected value selected).2 = .error e) :
    (assignSelected value selected).1 = selected.1 := by
  revert h
  unfold assignSelected
  split
  case h_1 => exact fun _ => rfl
  case h_2 nodes _ =>
    split
    case h_1 => exact fun _ => rfl
    case h_2 r _ =>
      split
      case h_1 => exact fun _ => rfl
      case h_2 => exact fun h => by cases h

theorem map_error {α β : Type} {f : α → β} {x : Except Thrown α} (h : x.map f = .error e) :
    x = .error e := by
  cases x with
  | error e' =>
    cases h
    rfl
  | ok a => cases h

theorem setMessage_error {type : M} [DecidableEq M]
    (h : s.setMessage v type o = (s', .error e)) : s' = s := by
  unfold State.setMessage at h
  split at h
  case h_2 =>
    cases h
    rfl
  case h_1 source =>
    split at h
    case h_1 =>
      cases h
      rfl
    case h_2 =>
      split at h
      case isFalse =>
        cases h
        rfl
      case isTrue =>
        dsimp only at h
        split at h <;> cases h

/-- A part that is not there is created. -/
theorem created_partForAssign (h : s.partForAssign v n = .ok s₁) :
    Created ⟨v, some n⟩ s s₁ := by
  unfold State.partForAssign at h
  split at h
  case h_1 => cases h
  case h_2 type parts hvalue =>
    split at h
    case h_1 =>
      cases h
      exact .inl rfl
    case h_2 hnone =>
      split at h
      case isTrue hn =>
        cases h
        exact .inr ⟨hnone, type, parts, n, hvalue, rfl, hn, rfl⟩
      case isFalse => cases h

section
variable (hG : G.Lawful)
include hG

theorem leaves_assignAt {query : Option (Snippet P E)} (ht : G.Targets t l query)
    (hreads : Reads s₀ s₁) (hcreated : Created l s₁ s)
    (h : G.assignAt s l query o = (s', .error e)) : G.Leaves t s₀ s' := by
  unfold Engine.assignAt at h
  cases query with
  | none =>
    dsimp only [Option.elim_none] at h
    split at h
    case h_1 hnone =>
      cases h
      rcases hcreated.isSome_root with rfl | hsome
      · exact .read hreads
      · rw [hnone] at hsome
        cases hsome
    case h_2 => cases h
  | some snippet =>
    have hquery := hG.reads snippet s
    dsimp only [Option.elim_some] at h
    split at h
    case h_1 hnone =>
      cases h
      rcases hcreated.isSome_root with rfl | hsome
      · exact .read (hreads.trans hquery)
      · rw [← hquery.isSome_root, hnone] at hsome
        cases hsome
    case h_2 root hroot =>
      obtain ⟨rfl, herror⟩ := Prod.mk.inj h
      have hJ := hG.selects snippet.namespaces (G.reads snippet s)
      have hnode : IsNode root (.element []) := ⟨root, rfl⟩
      rw [XPath.assign, assignSelected_error (map_error herror)]
      exact .located (.query ht ⟨s₁, s, hreads, hcreated, hquery⟩ hroot
        (locates_selectForAssign hJ snippet.query hnode))
        (selectForAssign_grows hJ snippet.query hnode).1 rfl

theorem leaves_assignVariable [DecidableEq M] {part : Option NCName}
    {query : Option (Snippet P E)} (ht : G.Targets t ⟨v, part⟩ query) (hreads : Reads s₀ s)
    (h : G.assignVariable s v part query o = (s', .error e)) : G.Leaves t s₀ s' := by
  unfold Engine.assignVariable at h
  split at h
  case h_1 n =>
    split at h
    case h_1 =>
      cases h
      exact .read hreads
    case h_2 s₂ hs₂ => exact leaves_assignAt hG ht hreads (created_partForAssign hs₂) h
  case h_2 =>
    split at h
    case h_1 => exact leaves_assignAt hG ht hreads (.inl rfl) h
    case h_2 =>
      cases h
      exact .read hreads
    case h_3 =>
      rw [setMessage_error h]
      exact .read hreads

theorem leaves_assignProperty [DecidableEq M] {name : Xml.QName} (hreads : Reads s₀ s)
    (h : G.assignProperty s v name o = (s', .error e)) :
    G.Leaves (.property v name) s₀ s' := by
  unfold Engine.assignProperty at h
  split at h
  case h_1 =>
    cases h
    exact .read hreads
  case h_2 a ha =>
    split at h
    case h_1 => exact leaves_assignAt hG ⟨a, ha, .inl rfl, rfl⟩ hreads (.inl rfl) h
    case h_2 n _ hpart =>
      exact leaves_assignVariable hG ⟨a, ha, .inr (by rw [hpart]), rfl⟩ hreads h
    case h_3 =>
      cases h
      exact .read hreads

theorem leaves_assignExpression [DecidableEq M] {namespaces : Namespaces} {x : Lhs V P X}
    (h : G.assignExpression namespaces s o x = (s', .error e)) :
    G.Leaves (.expression namespaces x) s s' := by
  have hrefl := Reads.refl s
  cases x with
  | «variable» v part =>
    unfold Engine.assignExpression at h
    dsimp only at h
    split at h
    case h_1 =>
      cases h
      exact .read hrefl
    case h_2 => exact leaves_assignVariable hG ⟨rfl, rfl⟩ hrefl h
  | path v part steps =>
    unfold Engine.assignExpression at h
    dsimp only at h
    split at h
    case h_1 =>
      cases h
      exact .read hrefl
    case h_2 => exact leaves_assignVariable hG ⟨rfl, rfl⟩ hrefl h
  | call x steps =>
    unfold Engine.assignExpression at h
    dsimp only at h
    have hreads := hG.call x steps s
    split at h
    case h_1 s₁ e' hcall =>
      rw [hcall] at hreads
      cases h
      exact .read hreads
    case h_2 s₁ l hcall =>
      rw [hcall] at hreads
      cases h
      exact .read hreads
    case h_3 s₁ l n ns hcall =>
      rw [hcall] at hreads
      obtain ⟨root, hroot, hnodes⟩ := hG.nodes _ _ _ _ _ _ hcall
      rw [hroot] at h
      obtain ⟨rfl, herror⟩ := Prod.mk.inj h
      have hJ := hG.selects namespaces s₁
      rw [assignSelected_error (map_error herror)]
      exact .located (.call hcall hreads hroot
        (adds_selectOrCreateNodes hJ steps root (n :: ns) hnodes) rfl)
        (selectOrCreateNodes_grows hJ steps root (n :: ns) hnodes).1 rfl

/-- A to-spec that faults clears nothing. -/
theorem leaves_assign [DecidableEq L] [DecidableEq M]
    (h : G.assign s o t = (s', .error e)) : G.Leaves t s s' := by
  cases t with
  | «variable» v part query => exact leaves_assignVariable hG ⟨rfl, rfl⟩ (Reads.refl s) h
  | property v name =>
    have hreads := reads_getValue s v
    rw [Engine.assign] at h
    split at h
    case h_1 hv =>
      rw [hv] at hreads
      cases h
      exact .read hreads
    case h_2 hv =>
      rw [hv] at hreads
      exact leaves_assignProperty hG hreads h
  | expression namespaces x => exact leaves_assignExpression hG h
  | partnerLink l =>
    rw [Engine.assign, Engine.assignPartnerLink] at h
    split at h
    case h_1 =>
      cases h
      exact .read (Reads.refl s)
    case h_2 => cases h

/-- The from-spec of a copy that faults has read, and its to-spec may have created something. -/
theorem leaves_copy [DecidableEq L] [DecidableEq M] {c : Copy V L P E X}
    (h : G.copy s c = (s', .error e)) : ∃ s₁, Reads s s₁ ∧ G.Leaves c.target s₁ s' := by
  have hreads := reads_extract hG s c.source
  unfold Engine.copy at h
  split at h
  case h_1 hextract =>
    rw [hextract] at hreads
    cases h
    exact ⟨_, hreads, .read (Reads.refl _)⟩
  case h_2 hextract =>
    rw [hextract] at hreads
    exact ⟨_, hreads, leaves_assign hG h⟩

/-- The copies before the one that faults stand. -/
theorem execute_error [DecidableEq L] [DecidableEq M] {cs : List (Copy V L P E X)}
    (h : G.execute cs s = (s', .error e)) :
    ∃ done c rest s₀ s₁, cs = done ++ c :: rest ∧ G.execute done s = (s₀, .ok ()) ∧
      G.copy s₀ c = (s', .error e) ∧ Reads s₀ s₁ ∧ G.Leaves c.target s₁ s' := by
  induction cs generalizing s with
  | nil => cases h
  | cons c cs ih =>
    unfold Engine.execute at h
    split at h
    case h_1 s₁ e' hcopy =>
      cases h
      obtain ⟨s₂, hreads, hleaves⟩ := leaves_copy hG hcopy
      exact ⟨[], c, cs, s, s₂, rfl, rfl, hcopy, hreads, hleaves⟩
    case h_2 s₁ hcopy =>
      obtain ⟨done, c', rest, s₀, s₂, rfl, hdone, hfault, hleaves⟩ := ih h
      refine ⟨c :: done, c', rest, s₀, s₂, rfl, ?_, hfault, hleaves⟩
      rw [Engine.execute, hcopy]
      exact hdone

end

/-- Queries are evaluated as structural steps, and there is nothing else. -/
def structuralEngine : Engine Bool Empty Empty Empty Empty (M := Empty) nofun where
  jaxen _ _ := structuralSteps
  reads _ s := s
  evaluate x := nomatch x
  call x := nomatch x
  noNode _ := .exception
  propertyAlias _ _ := none
  myReference l := nomatch l
  readServiceRef _ := .error .exception

theorem structuralEngine_lawful : structuralEngine.Lawful where
  selects _ _ := structuralSteps_selects
  reads _ s := Reads.refl s
  evaluate x := nomatch x
  call x := nomatch x
  nodes x := nomatch x

/-- One variable has been read, and the other one is new. -/
def twoVariables : State Bool Empty (M := Empty) nofun where
  values
    | false => .xml emptyElement
    | true => .xml ((XmlType.schema ⟨"urn:a", ⟨"t", isNCName_t⟩, none⟩).createValue
        ⟨"v", by decide⟩)
  links l := nomatch l

/-- A text is copied to the first variable, and then the second variable to it. -/
def twoCopies : List (Copy Bool Empty Empty Empty Empty) :=
  [⟨.text "1", .variable false none none⟩,
    ⟨.variable true none none, .variable false none none⟩]

/-- The first copy is not undone. -/
theorem first_copy_stands : ∃ root root',
    (structuralEngine.execute twoCopies twoVariables).2 = .error .uninitializedVariable ∧
    twoVariables.values false = .xml root ∧
    (structuralEngine.execute twoCopies twoVariables).1.values false = .xml root' ∧
    root'.children ≠ root.children :=
  ⟨_, _, rfl, rfl, rfl, List.cons_ne_nil _ _⟩

theorem second_copy_faults : ∃ done c rest s₀ s₁, twoCopies = done ++ c :: rest ∧
    structuralEngine.execute done twoVariables = (s₀, .ok ()) ∧
    structuralEngine.copy s₀ c =
      ((structuralEngine.execute twoCopies twoVariables).1, .error .uninitializedVariable) ∧
    Reads s₀ s₁ ∧ structuralEngine.Leaves c.target s₁
      (structuralEngine.execute twoCopies twoVariables).1 :=
  execute_error structuralEngine_lawful rfl

end Bpel.Assign

end Jbpm
