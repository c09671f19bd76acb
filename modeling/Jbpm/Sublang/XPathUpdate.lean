/-
  Assignments to a location as updates of the document: what is added, what is changed, and what
  the location then selects.

  * `Step.Structural`, `Jaxen.Evaluates`: steps to children and attributes by their names, kinds and
    positions, and what they select;
  * `Adds`: a document has gained the missing steps of a path, each where the path is then;
  * `Assigned`: the node has the value, and nothing outside it has changed;
  * `assign_path`: an assignment, and its evaluation afterwards.
-/
import Mathlib.Data.List.Dedup
import Jbpm.Sublang.XPathCreation

namespace Jbpm

open Lib Branch Xml

namespace XPath

variable {P E : Type} (J : Jaxen P E)

/-! ## Structural steps -/

/-- What a test sees of a node. -/
inductive Head
  | element (name : ElementName)
  | leaf (kind : LeafKind)

def head : Node → Head
  | .branch label _ => .element label.name
  | .leaf l => .leaf l.kind

/-- The nodes a test is for; prefixes of elements do not count. -/
def NodeTest.accepts : NodeTest → Head → Bool
  | .name none none, .element _ => true
  | .name (some p) none, .element m => (J.namespaceURI p).any fun u => u.1 = m.namespaceURI
  | .name prefix_ (some n), .element m =>
    m.namespaceURI = (elementName J prefix_ n).namespaceURI ∧ m.localName = n
  | .text, .leaf kind => kind = .text ∨ kind = .cdata
  | .instruction none, .leaf (.instruction _) => true
  | .instruction (some target), .leaf kind => kind = .instruction target
  | .comment, .leaf kind => kind = .comment
  | .any, _ => true
  | _, _ => false

/-- The position predicates of a step, one after the other. -/
def narrow (positions : List ℕ) (nodes : List Ref) : List Ref :=
  positions.foldl (fun nodes n => if n = 0 then [] else (nodes[n - 1]?).toList) nodes

def childRef (p : List ℕ) (heads : List Head) (i : ℕ) : Ref :=
  match heads[i]? with
  | some (.element _) => .element (p ++ [i])
  | _ => .leaf p i

/-- The children that a test accepts. -/
def childRefs (accepts : Head → Bool) (p : List ℕ) (heads : List Head) : List Ref :=
  ((List.range heads.length).filter fun i => (heads[i]?).any accepts).map (childRef p heads)

/-- A step to children, or to an attribute with a name, with numbers as predicates. -/
structure Step.Structural (step : Step P) (positions : List ℕ) : Prop where
  predicates : step.predicates = positions.map .position
  axis : step.axis = .child ∨
    step.axis = .attribute ∧ ∃ prefix_ n, step.test = .name prefix_ (some n)
  bound : ∀ p n, step.test = .name (some p) n → (J.namespaceURI p).isSome

/-- What a structural step selects from an element. -/
def Step.below (step : Step P) (positions : List ℕ) (p : List ℕ) (e : Elem) : List Ref :=
  match step.axis, step.test with
  | .child, test => narrow positions (childRefs (test.accepts J) p (e.children.map head))
  | .attribute, .name prefix_ (some n) =>
    if (attributeName J prefix_ n).1 ∈ e.label.attributes then
      narrow positions [.attribute p (attributeName J prefix_ n).1]
    else []
  | _, _ => []

/-- What a structural step selects from a node. -/
def Step.selected (step : Step P) (positions : List ℕ) (root : Elem) : Ref → List Ref
  | .document =>
    if step.axis = .child ∧ step.test.accepts J (.element root.label.name) then
      narrow positions [.element []]
    else []
  | .element p => (root.at? p).elim [] (step.below J positions p)
  | .leaf _ _ | .attribute _ _ => []

/-- The evaluation of structural steps: every node once, from all context nodes. -/
def Jaxen.Evaluates : Prop := ∀ step positions root contextNodes,
  step.Structural J positions →
    J.select step root contextNodes =
      .ok ((contextNodes.flatMap (step.selected J positions root)).dedup)

/-- `selectNodes` of a location path -/
def evaluate : List (Step P) → Elem → List Ref → Except Thrown (List Ref)
  | [], _, contextNodes => .ok contextNodes
  | step :: steps, root, contextNodes =>
    match J.select step root contextNodes with
    | .error e => .error e
    | .ok found => evaluate steps root found

/-! ## Added nodes -/

/-- A step without predicates, or with one: that an element is the next of its name. -/
def Step.NextPosition (step : Step P) (p : List ℕ) (root : Elem) : Prop :=
  step.predicates = [] ∨ ∃ predicate prefix_ n, step.predicates = [predicate] ∧
    step.test = .name prefix_ (some n) ∧
    J.number predicate root (getElements p root (elementName J prefix_ n)) =
      .ok (some ((getElements p root (elementName J prefix_ n)).length + 1))

/-- A node without content. -/
def Blank : Node → Prop
  | .branch label children => label.decls = [] ∧ label.attributes = ∅ ∧ children = []
  | .leaf l => l.data = ""

/-- A missing step has become the last child of an element, or an attribute of it. -/
inductive AddsOne (step : Step P) (root : Elem) (p : List ℕ) : Elem → Ref → Prop
  | attribute {e prefix_ n} : step.axis = .attribute → step.test = .name prefix_ (some n) →
    step.predicates = [] → root.at? p = some e →
    (attributeName J prefix_ n).1 ∉ e.label.attributes →
    AddsOne step root p
      (modify (setAttribute (attributeName J prefix_ n).1 (attributeName J prefix_ n).2) p root)
      (.attribute p (attributeName J prefix_ n).1)
  | child {e c} : step.axis = .child → step.test.accepts J (head c) → Blank c →
    root.at? p = some e → step.NextPosition J p root →
    AddsOne step root p (modify (appendChild c) p root) (appended p e.children.length c)

/-- The steps of a path lead from the context nodes to the nodes it selects at last.  A step that
    selects none starts from one element, where it is added; after a fault nothing is. -/
inductive Adds : List (Step P) → Elem → List Ref → Elem → Option (List Ref) → Prop
  | done {root nodes} : Adds [] root nodes root (some nodes)
  | faulted {steps root nodes} : Adds steps root nodes root none
  | selected {step steps root nodes n ns root' found} :
    J.select step root nodes = .ok (n :: ns) → Adds steps root (n :: ns) root' found →
    Adds (step :: steps) root nodes root' found
  | added {step steps root p root₁ r root' found} : J.select step root [.element p] = .ok [] →
    AddsOne J step root p root₁ r → Adds steps root₁ [r] root' found →
    Adds (step :: steps) root [.element p] root' found

/-- The nodes of a query that is assigned: a path adds its missing steps. -/
def Query.Locates (query : Query P E) (contextNode : Ref) (root root' : Elem)
    (found : Option (List (Option Ref))) : Prop :=
  match query with
  | .path absolute steps => ∃ nodes,
    Adds J steps root [start absolute contextNode] root' nodes ∧
      found = nodes.map (List.map some)
  | .expr e => root' = root ∧ found = (J.selectNodes e root contextNode).toOption

/-! ## Assigned nodes -/

/-- The attributes and children of an element are those of another one. -/
def HoldsElement (root e s : Elem) (p : List ℕ) : Prop :=
  (∀ n, e.label.attributes.lookup n = s.label.attributes.lookup n) ∧
    e.children = s.children.filterMap (copied (e.label.decls :: (scopes p root).tail))

/-- An element holds a value, in place of an element `t`, unless the value is copied from that
    element itself or from one around it. -/
def Holds (p : List ℕ) (root t e : Elem) : Value → Prop
  | .element source =>
    ∀ s, source.element? root = some s → Outside p source → HoldsElement root e s p
  | .document d => ∀ s, d = some s → HoldsElement root e s p
  | .node data | .object data => e.label = (removeAttribute initialized t).label ∧
    ∃ kind, (kind = .text ∨ kind = .cdata) ∧ e.children = [.leaf ⟨kind, data⟩]
  | .endpointReference _ written _ =>
    if isServiceRef t.label.name then
      e.label.decls = [] ∧ e.children = [written.toTree] ∧
        ∀ n ∈ e.label.attributes, n = .unqualified schemeAttribute
    else HoldsElement root e written p

/-- The node holds the value, and nothing else has changed. -/
def Assigned (value : Value) (root root' : Elem) : Ref → Prop
  | .document => ∃ e, e.label.name = root.label.name ∧ root' = e ∧ Holds [] root root e value
  | .element p => ∃ t e, root.at? p = some t ∧ e.label.name = t.label.name ∧
    root' = modify (fun _ => e) p root ∧ Holds p root t e value
  | .leaf p i => root' = modify (setLeafData i (value.text root)) p root ∧
    ∃ e l, root'.at? p = some e ∧ e.children[i]? = some (.leaf l) ∧ l.data = value.text root
  | .attribute p n => root' = modify (setAttributeText n (value.text root)) p root ∧
    ∃ e v, root'.at? p = some e ∧ e.label.attributes.lookup n = some v ∧ v.text = value.text root

variable {J} {step : Step P} {steps : List (Step P)} {positions : List ℕ} {root root' : Elem}
  {nodes : List Ref} {r : Ref} {p : List ℕ}

theorem localName_elementName (prefix_ : Option NCName) (n : NCName) :
    (elementName J prefix_ n).localName = n := by
  cases prefix_ with
  | none => rfl
  | some p =>
    rw [elementName]
    cases J.namespaceURI p <;> rfl

theorem nextPosition_eq {predicates : List (Predicate P)} {found : List Ref}
    (h : nextPosition J predicates root found = .ok ()) :
    predicates = [] ∨ ∃ predicate, predicates = [predicate] ∧
      J.number predicate root found = .ok (some (found.length + 1)) := by
  unfold nextPosition at h
  split at h
  case h_1 => exact .inl rfl
  case h_3 => cases h
  case h_2 predicate =>
    split at h
    case h_1 => cases h
    case h_2 => cases h
    case h_3 position hnumber =>
      split at h
      case isTrue hpos => exact .inr ⟨predicate, rfl, hpos ▸ hnumber⟩
      case isFalse => cases h

/-- A created child is one the step asks for, without content. -/
theorem createChild_eq {c : Node} (h : createChild J step p root = .ok c) :
    step.test.accepts J (head c) ∧ Blank c ∧ step.NextPosition J p root := by
  unfold createChild at h
  split at h
  case h_1 prefix_ localName htest =>
    obtain ⟨n, rfl, rfl, hpos⟩ := createElement_eq h
    refine ⟨?_, ⟨rfl, rfl, rfl⟩, ?_⟩
    · rw [htest]
      have hname : (elementName J prefix_ n).localName = n := localName_elementName prefix_ n
      cases prefix_ <;> simp [NodeTest.accepts, head, hname]
    · exact (nextPosition_eq hpos).imp_right fun ⟨predicate, hp, hn⟩ =>
        ⟨predicate, prefix_, n, hp, htest, hn⟩
  case h_2 =>
    unfold createNonElementChild at h
    split at h
    case h_1 hpred htest =>
      cases h
      exact ⟨by rw [htest]; rfl, rfl, .inl hpred⟩
    case h_2 target hpred htest =>
      cases h
      exact ⟨by rw [htest]; simp [NodeTest.accepts, head], rfl, .inl hpred⟩
    case h_3 => cases h
    case h_4 hpred htest =>
      cases h
      exact ⟨by rw [htest]; rfl, rfl, .inl hpred⟩
    case h_5 => cases h

theorem addsOne_of_createNode (hJ : J.Selects) (hnodes : ∀ n ∈ nodes, IsNode root n)
    (hnone : J.select step root nodes = .ok [])
    (h : createNode J step root nodes = .ok (root', r)) :
    ∃ p, nodes = [.element p] ∧ AddsOne J step root p root' r := by
  obtain ⟨p, rfl, hattr | hchild⟩ := createNode_eq h
  · refine ⟨p, rfl, ?_⟩
    obtain ⟨haxis, hpred, prefix_, n, htest, rfl, rfl⟩ := hattr
    obtain ⟨e, he⟩ := hnodes _ (List.mem_singleton_self _)
    refine .attribute haxis htest hpred he (hJ.noAttribute prefix_ n root p e he ?_)
    cases step
    cases haxis
    cases hpred
    cases htest
    exact hnone
  · refine ⟨p, rfl, ?_⟩
    obtain ⟨haxis, c, hc, rfl, rfl⟩ := hchild
    obtain ⟨e, he⟩ := hnodes _ (List.mem_singleton_self _)
    obtain ⟨haccepts, hblank, hnext⟩ := createChild_eq hc
    rw [he]
    exact .child haxis haccepts hblank he hnext

/-- A path adds missing steps, also where it ends with a fault. -/
theorem adds_selectOrCreateNodes (hJ : J.Selects) (steps : List (Step P)) (root : Elem)
    (nodes : List Ref) (hnodes : ∀ n ∈ nodes, IsNode root n) :
    Adds J steps root nodes (selectOrCreateNodes J steps root nodes).1
      (selectOrCreateNodes J steps root nodes).2.toOption := by
  induction steps generalizing root nodes with
  | nil => exact .done
  | cons step steps ih =>
    unfold selectOrCreateNodes
    split
    case h_1 => exact .faulted
    case h_2 hnone =>
      split
      case h_1 => exact .faulted
      case h_2 root' new hnew =>
        have hnode := (createNode_grows hJ hnodes hnone hnew).2
        obtain ⟨p, rfl, hadds⟩ := addsOne_of_createNode hJ hnodes hnone hnew
        exact .added hnone hadds (ih root' [new] (by simpa using hnode))
    case h_3 n ns hsel =>
      exact .selected hsel (ih root (n :: ns) (hJ.step _ _ _ _ hnodes hsel))

theorem locates_selectForAssign (hJ : J.Selects) (query : Query P E) {context : Ref}
    (hcontext : IsNode root context) :
    query.Locates J context root (selectForAssign J query context root).1
      (selectForAssign J query context root).2.toOption := by
  cases query with
  | expr e => exact ⟨rfl, rfl⟩
  | path absolute steps =>
    have hstart := isNode_start absolute hcontext
    refine ⟨_, adds_selectOrCreateNodes hJ steps root [start absolute context]
      (by simpa using hstart), ?_⟩
    unfold selectForAssign
    dsimp only
    cases (selectOrCreateNodes J steps root [start absolute context]).2 <;> rfl

/-! ## Evaluation afterwards -/

/-- Two elements are the same to a structural step. -/
structure Looks (e e' : Elem) : Prop where
  name : e'.label.name = e.label.name
  heads : e'.children.map head = e.children.map head
  keys : ∀ n, n ∈ e'.label.attributes ↔ n ∈ e.label.attributes

theorem Looks.refl (e : Elem) : Looks e e := ⟨rfl, rfl, fun _ => Iff.rfl⟩

theorem Looks.trans {e e' e'' : Elem} (h : Looks e e') (h' : Looks e' e'') : Looks e e'' :=
  ⟨h'.name.trans h.name, h'.heads.trans h.heads, fun n => (h'.keys n).trans (h.keys n)⟩

/-- How many steps lead from the document to a node. -/
def level : Ref → ℕ
  | .document => 0
  | .element p => p.length + 1
  | .leaf p _ | .attribute p _ => p.length + 2

/-- Above a level, two documents are the same to structural steps. -/
structure Same (k : ℕ) (root root' : Elem) : Prop where
  name : root'.label.name = root.label.name
  at_ : ∀ p e, p.length + 1 < k → root.at? p = some e → ∃ e', root'.at? p = some e' ∧ Looks e e'

variable {e e' root'' : Elem} {k l : ℕ} {f : Elem → Elem}

theorem Same.refl (k : ℕ) (root : Elem) : Same k root root :=
  ⟨rfl, fun _ e _ he => ⟨e, he, Looks.refl e⟩⟩

theorem Same.trans (h : Same k root root') (h' : Same k root' root'') : Same k root root'' := by
  refine ⟨h'.name.trans h.name, fun p e hp he => ?_⟩
  obtain ⟨e', he', hlooks⟩ := h.at_ p e hp he
  obtain ⟨e'', he'', hlooks'⟩ := h'.at_ p e' hp he'
  exact ⟨e'', he'', hlooks.trans hlooks'⟩

theorem Same.mono (h : Same l root root') (hk : k ≤ l) : Same k root root' :=
  ⟨h.name, fun p e hp he => h.at_ p e (by omega) he⟩

theorem label_modify_name (hf : KeepsName f) (p : List ℕ) (e : Elem) :
    (modify f p e).label.name = e.label.name := by
  cases p with
  | nil => exact hf e
  | cons i p => rfl

theorem looks_modify_cons (hf : KeepsName f) (i : ℕ) (p : List ℕ) (e : Elem) :
    Looks e (modify f (i :: p) e) := by
  refine ⟨rfl, ?_, fun n => Iff.rfl⟩
  refine List.ext_getElem? fun j => ?_
  change ((e.children.modify i (Tree.mapBranch (modify f p))).map head)[j]? = _
  rw [List.getElem?_map, List.getElem?_map]
  by_cases hj : i = j
  · subst hj
    rw [List.getElem?_modify_eq]
    cases e.children[i]? with
    | none => rfl
    | some t =>
      cases t with
      | leaf => rfl
      | branch label children =>
        exact congrArg (fun name => some (Head.element name))
          (label_modify_name hf p ⟨label, children⟩)
  · rw [List.getElem?_modify_ne _ _ hj]

/-- A change at an address does not show above it. -/
theorem same_modify (hf : KeepsName f) (p : List ℕ) (root : Elem) :
    Same (p.length + 1) root (modify f p root) := by
  refine ⟨label_modify_name hf p root, fun q e hq he => ?_⟩
  have hq : q.length < p.length := by omega
  clear * - hf hq he
  induction p generalizing q root with
  | nil => cases hq
  | cons i p ih =>
    cases q with
    | nil =>
      obtain rfl := Option.some.inj he
      exact ⟨_, rfl, looks_modify_cons hf i p root⟩
    | cons j q =>
      rw [at?, child?_modify_cons]
      rw [at?] at he
      obtain ⟨c, hc, hce⟩ := Option.bind_eq_some_iff.1 he
      split
      case isTrue =>
        rw [hc]
        exact ih c q hce (by simpa using hq)
      case isFalse =>
        rw [hc]
        exact ⟨e, hce, Looks.refl e⟩

theorem same_modify_of_looks (hf : ∀ e, Looks e (f e)) (p : List ℕ) (root : Elem) :
    Same (p.length + 2) root (modify f p root) := by
  have hsame := same_modify (fun e => (hf e).name) p root
  refine ⟨hsame.name, fun q e hq he => ?_⟩
  by_cases hlt : q.length < p.length
  · exact hsame.at_ q e (by omega) he
  · by_cases hpq : p = q
    · subst hpq
      exact ⟨f e, (at?_modify_self ..).trans (congrArg _ he), hf e⟩
    · have hlen : p.length = q.length := by
        have : q.length + 1 < p.length + 2 := hq
        omega
      have hapart : Apart p q :=
        ⟨fun h => hpq (h.eq_of_length hlen), fun h => hpq (h.eq_of_length hlen.symm).symm⟩
      exact ⟨e, (at?_modify_apart f hapart root).trans he, Looks.refl e⟩

theorem mem_narrow (h : r ∈ narrow positions nodes) : r ∈ nodes := by
  unfold narrow at h
  induction positions generalizing nodes with
  | nil => exact h
  | cons n positions ih =>
    have hmem := ih h
    dsimp only at hmem
    split at hmem
    case isTrue => cases hmem
    case isFalse => exact List.mem_of_getElem? (Option.mem_toList.1 hmem)

theorem level_childRef (p : List ℕ) (heads : List Head) (i : ℕ) :
    level (childRef p heads i) = p.length + 2 := by
  unfold childRef
  split
  · simp [level]
  · rfl

/-- A structural step goes one level down. -/
theorem level_selected {c : Ref} (h : r ∈ step.selected J positions root c) :
    level r = level c + 1 := by
  cases c with
  | leaf | «attribute» => cases h
  | document =>
    rw [Step.selected] at h
    split at h
    case isTrue => rw [List.mem_singleton.1 (mem_narrow h)]; rfl
    case isFalse => cases h
  | element p =>
    rw [Step.selected] at h
    cases he : root.at? p with
    | none =>
      rw [he] at h
      cases h
    | some e =>
      rw [he, Option.elim_some, Step.below] at h
      split at h
      case h_1 =>
        obtain ⟨i, -, rfl⟩ := List.mem_map.1 (mem_narrow h)
        exact level_childRef ..
      case h_2 =>
        split at h
        case isTrue => rw [List.mem_singleton.1 (mem_narrow h)]; rfl
        case isFalse => cases h
      case h_3 => cases h

theorem below_congr (h : Looks e e') :
    step.below J positions p e' = step.below J positions p e := by
  unfold Step.below
  rw [h.heads]
  simp only [h.keys]

/-- A structural step selects the same nodes in documents that are the same to it. -/
theorem selected_congr {c : Ref} (h : Same k root root') (hc : level c < k)
    (hnode : IsNode root c) :
    step.selected J positions root' c = step.selected J positions root c := by
  cases c with
  | leaf | «attribute» => rfl
  | document => rw [Step.selected, Step.selected, h.name]
  | element p =>
    obtain ⟨e, he⟩ := hnode
    obtain ⟨e', he', hlooks⟩ := h.at_ p e hc he
    rw [Step.selected, Step.selected, he, he']
    exact below_congr hlooks

theorem childRefs_append (accepts : Head → Bool) (p : List ℕ) (heads : List Head) (h : Head)
    (haccepts : accepts h) :
    childRefs accepts p (heads ++ [h]) =
      childRefs accepts p heads ++ [childRef p (heads ++ [h]) heads.length] := by
  have hleft : ∀ i ∈ List.range heads.length, (heads ++ [h])[i]? = heads[i]? :=
    fun i hi => List.getElem?_append_left (List.mem_range.1 hi)
  unfold childRefs
  rw [List.length_append, List.length_singleton, List.range_succ, List.filter_append,
    List.map_append]
  congr 1
  · rw [List.filter_congr fun i hi => by rw [hleft i hi]]
    refine List.map_congr_left fun i hi => ?_
    rw [childRef, childRef, hleft i (List.mem_filter.1 hi).1]
  · rw [List.filter_singleton, List.getElem?_concat_length]
    simp [haccepts]

/-- A name test accepts the elements that count for the next position. -/
theorem length_getElements {prefix_ : Option NCName} {n : NCName} (he : root.at? p = some e) :
    (getElements p root (elementName J prefix_ n)).length =
      (childRefs ((NodeTest.name prefix_ (some n)).accepts J) p (e.children.map head)).length := by
  unfold getElements childRefs
  rw [he]
  dsimp only
  rw [List.length_map, List.length_map, List.length_map]
  congr 1
  refine List.filter_congr fun i _ => ?_
  rw [child?, List.getElem?_map]
  cases e.children[i]? with
  | none => rfl
  | some t =>
    cases t with
    | leaf l => cases prefix_ <;> rfl
    | branch label children =>
      have hname := localName_elementName (J := J) prefix_ n
      cases prefix_ <;> simp [Tree.toBranch?, nodeNameEquals, NodeTest.accepts, head, hname]

/-- A step that has been added selects what was added. -/
theorem selected_added {root₁ : Elem} (hstep : step.Structural J positions)
    (hadds : AddsOne J step root p root₁ r)
    (hnone : step.selected J positions root (.element p) = []) :
    step.selected J positions root₁ (.element p) = [r] ∧ level r = p.length + 2 := by
  have hpositions : step.predicates = [] → positions = [] := by
    intro h
    simpa [hstep.predicates] using h
  cases hadds with
  | @«attribute» e prefix_ n haxis htest hpred he hn =>
    refine ⟨?_, rfl⟩
    rw [Step.selected, at?_modify_self, he, Option.map_some, Option.elim_some, Step.below, haxis,
      htest, hpositions hpred]
    exact if_pos ((AList.mem_insert _).2 (.inl rfl))
  | @child e c haxis haccepts _ he hnext =>
    have hheads : (appendChild c e).children.map head = e.children.map head ++ [head c] :=
      List.map_append
    have hnew : childRef p (e.children.map head ++ [head c]) (e.children.map head).length =
        appended p e.children.length c := by
      rw [childRef, List.getElem?_concat_length, List.length_map]
      cases c <;> rfl
    have hlevel : level (appended p e.children.length c) = p.length + 2 := by
      rw [← hnew]
      exact level_childRef ..
    refine ⟨?_, hlevel⟩
    rw [Step.selected, he, Option.elim_some, Step.below, haxis] at hnone
    rw [Step.selected, at?_modify_self, he, Option.map_some, Option.elim_some, Step.below, haxis]
    dsimp only at hnone ⊢
    rw [hheads, childRefs_append _ p _ _ haccepts, hnew]
    rcases hnext with hpred | ⟨predicate, prefix_, n, hpred, htest, hnumber⟩
    · rw [hpositions hpred] at hnone ⊢
      exact congrArg (· ++ _) hnone
    · obtain ⟨m, rfl, rfl⟩ : ∃ m, positions = [m] ∧ predicate = .position m := by
        have hmap := hstep.predicates.symm.trans hpred
        obtain ⟨m, l, rfl, rfl, hl⟩ := List.map_eq_cons_iff.1 hmap
        obtain rfl := List.map_eq_nil_iff.1 hl
        exact ⟨m, rfl, rfl⟩
      rw [Jaxen.number, length_getElements he, ← htest] at hnumber
      have hm : m = (childRefs (step.test.accepts J) p (e.children.map head)).length + 1 := by
        have := Option.some.inj (Except.ok.inj hnumber)
        omega
      rw [narrow, hm]
      simp

theorem addsOne_same {root₁ : Elem} (h : AddsOne J step root p root₁ r) :
    Same (p.length + 1) root root₁ := by
  cases h with
  | «attribute» => exact same_modify (keepsName_setAttribute _ _) p root
  | child => exact same_modify (keepsName_appendChild _) p root

/-- The steps of a path lead from the context nodes to the nodes that were selected, also in a
    document that is the same above them. -/
theorem evaluate_of_same (hJ : J.Selects) (hE : J.Evaluates) (steps : List (Step P)) (root : Elem)
    (nodes : List Ref) (k : ℕ) (hsteps : ∀ step ∈ steps, ∃ positions, step.Structural J positions)
    (hnodes : ∀ n ∈ nodes, level n = k ∧ IsNode root n) {found : List Ref}
    (hfound : (selectOrCreateNodes J steps root nodes).2 = .ok found) :
    Same k root (selectOrCreateNodes J steps root nodes).1 ∧
      (∀ n ∈ found, level n = k + steps.length) ∧
      ∀ root', Same (k + steps.length) (selectOrCreateNodes J steps root nodes).1 root' →
        evaluate J steps root' nodes = .ok found := by
  induction steps generalizing root nodes k with
  | nil =>
    cases hfound
    exact ⟨Same.refl k root, fun n hn => (hnodes n hn).1, fun _ _ => rfl⟩
  | cons step steps ih =>
    obtain ⟨positions, hstep⟩ := hsteps step (List.mem_cons_self ..)
    have hsteps' := fun s hs => hsteps s (List.mem_cons_of_mem step hs)
    have hselect := hE step positions root nodes hstep
    have hagain : ∀ root₁ root', Same (k + 1) root root₁ → Same (k + 1) root₁ root' →
        J.select step root' nodes = J.select step root nodes := by
      intro root₁ root' h₁ h'
      rw [hselect, hE step positions root' nodes hstep]
      congr 2
      refine List.flatMap_congr fun c hc => ?_
      exact selected_congr (h₁.trans h') (by have := (hnodes c hc).1; omega) (hnodes c hc).2
    unfold selectOrCreateNodes at hfound ⊢
    unfold evaluate
    cases hsel : J.select step root nodes with
    | error e =>
      rw [hsel] at hfound
      cases hfound
    | ok selected =>
      have hlevel : ∀ n ∈ selected, level n = k + 1 := by
        intro n hn
        obtain rfl := Except.ok.inj (hselect.symm.trans hsel)
        obtain ⟨c, hc, hnc⟩ := List.mem_flatMap.1 (List.mem_dedup.1 hn)
        rw [level_selected hnc, (hnodes c hc).1]
      cases selected with
      | cons n ns =>
        rw [hsel] at hfound
        have hnodes' := hJ.step step root nodes _ (fun c hc => (hnodes c hc).2) hsel
        obtain ⟨hsame, hlevels, hev⟩ := ih root (n :: ns) (k + 1) hsteps'
          (fun m hm => ⟨hlevel m hm, hnodes' m hm⟩) hfound
        refine ⟨hsame.mono (by omega), fun m hm => ?_, fun root' hroot' => ?_⟩
        · rw [hlevels m hm, List.length_cons]
          omega
        · rw [List.length_cons] at hroot'
          rw [hagain _ root' hsame (hroot'.mono (by omega)), hsel]
          exact hev root' (hroot'.mono (by omega))
      | nil =>
        rw [hsel] at hfound
        dsimp only at hfound ⊢
        cases hnew : createNode J step root nodes with
        | error e =>
          rw [hnew] at hfound
          cases hfound
        | ok created =>
          obtain ⟨root₁, new⟩ := created
          rw [hnew] at hfound
          dsimp only at hfound ⊢
          obtain ⟨p, rfl, hadds⟩ := addsOne_of_createNode hJ (fun c hc => (hnodes c hc).2) hsel hnew
          obtain ⟨hk, hnode⟩ := hnodes _ (List.mem_singleton_self _)
          have hp : p.length + 1 = k := hk
          have hnone : step.selected J positions root (.element p) = [] := by
            have hnil := Except.ok.inj (hselect.symm.trans hsel)
            rw [List.flatMap_singleton] at hnil
            exact (List.dedup_eq_nil _).1 hnil
          obtain ⟨hselected, hlevel'⟩ := selected_added hstep hadds hnone
          have hcreated := createNode_grows hJ (fun c hc => (hnodes c hc).2) hsel hnew
          obtain ⟨hsame, hlevels, hev⟩ := ih root₁ [new] (k + 1) hsteps'
            (fun m hm => by rw [List.mem_singleton.1 hm]; exact ⟨by omega, hcreated.2⟩) hfound
          refine ⟨?_, fun m hm => ?_, fun root' hroot' => ?_⟩
          · exact (hp ▸ addsOne_same hadds).trans (hsame.mono (by omega))
          · rw [hlevels m hm, List.length_cons]
            omega
          · rw [List.length_cons] at hroot'
            have hshape : step.selected J positions root' (.element p) = [new] := by
              rw [← hselected]
              refine selected_congr (hsame.trans (hroot'.mono (by omega)))
                (Nat.lt_succ_of_le hk.le) ?_
              exact IsNode.grows hnode hcreated.1
            rw [hE step positions root' _ hstep, List.flatMap_singleton, hshape,
              (List.nodup_singleton new).dedup]
            exact hev root' (hroot'.mono (by omega))

/-! ## Assigned values -/

/-- The attributes of a source outside the target are still there once those of the target have
    been removed. -/
theorem attributes_outside {source : Source} {s : Elem} (hs : source.element? root = some s)
    (h : Outside p source) :
    source.attributes (modify removeAttributes p root) = s.label.attributes := by
  have hsame : source.element? (modify removeAttributes p root) = some s := by
    obtain ⟨document, address⟩ := source
    cases document with
    | some d => exact hs
    | none =>
      rcases h rfl with hapart | ⟨i, q, rfl⟩
      · exact (at?_modify_apart _ hapart root).trans hs
      · exact (at?_modify_tag (f := removeAttributes) (fun _ => rfl) i q root).trans hs
  rw [Source.attributes, Source.tag?, hsame]
  rfl

theorem holdsElement_copy {t s : Elem} {source : Source} (ht : root.at? p = some t)
    (hs : source.element? root = some s) (h : Outside p source)
    (he : (copy p source root).at? p = some e) : HoldsElement root e s p := by
  obtain ⟨e₁, he₁, hattributes⟩ := lookup_copy ht source
  obtain rfl := Option.some.inj (he.symm.trans he₁)
  obtain ⟨e₂, he₂, hchildren⟩ := children_copy ht hs h
  obtain rfl := Option.some.inj (he.symm.trans he₂)
  refine ⟨fun n => ?_, hchildren⟩
  rw [hattributes, attributes_outside hs h]

theorem name_setServiceRef (scheme : Option String) (written e : Elem) :
    (setServiceRef scheme written e).label.name = e.label.name := by
  unfold setServiceRef
  dsimp only
  split <;> rfl

theorem setServiceRef_holds (scheme : Option String) (written e : Elem) :
    (setServiceRef scheme written e).label.decls = [] ∧
      (setServiceRef scheme written e).children = [written.toTree] ∧
      ∀ n ∈ (setServiceRef scheme written e).label.attributes,
        n = .unqualified schemeAttribute := by
  unfold setServiceRef
  dsimp only
  split
  case isTrue =>
    refine ⟨rfl, rfl, fun n hn => ?_⟩
    exact ((AList.mem_insert _).1 hn).resolve_right (AList.notMem_empty n)
  case isFalse => exact ⟨rfl, rfl, fun n hn => absurd hn (AList.notMem_empty n)⟩

/-- The target is replaced by an element of the same name that holds the value. -/
theorem setElementValue_eq {t : Elem} (ht : root.at? p = some t) (value : Value) :
    ∃ e, e.label.name = t.label.name ∧
      setElementValue p root value = modify (fun _ => e) p root ∧ Holds p root t e value := by
  have hcopy : ∀ source, ∃ e, (copy p source root).at? p = some e ∧
      e.label.name = t.label.name ∧ copy p source root = modify (fun _ => e) p root :=
    copy_replaces ht
  have htext : ∀ text, (setStringValue text t).label = (removeAttribute initialized t).label ∧
      ∃ kind, (kind = LeafKind.text ∨ kind = .cdata) ∧
        (setStringValue text t).children = [.leaf ⟨kind, text⟩] := by
    intro text
    refine ⟨rfl, (textChild text t.children).kind, ?_, ?_⟩
    · unfold textChild
      split
      · exact .inr rfl
      · exact .inl rfl
    · unfold setStringValue textChild
      dsimp only
      split <;> rfl
  cases value with
  | element source =>
    obtain ⟨e, he, hname, heq⟩ := hcopy source
    exact ⟨e, hname, heq, fun s hs hout => holdsElement_copy ht hs hout he⟩
  | document d =>
    obtain ⟨e, he, hname, heq⟩ := hcopy ⟨d, []⟩
    refine ⟨e, hname, heq, ?_⟩
    rintro s rfl
    exact holdsElement_copy ht rfl (fun h => by cases h) he
  | node data => exact ⟨setStringValue data t, rfl, modify_congr ht rfl, htext data⟩
  | object text => exact ⟨setStringValue text t, rfl, modify_congr ht rfl, htext text⟩
  | endpointReference scheme written text =>
    rw [setElementValue, writeServiceRef, ht, Option.any_some]
    split
    case isTrue href =>
      exact ⟨setServiceRef scheme written t, name_setServiceRef scheme written t,
        modify_congr ht rfl, (if_pos href).mpr (setServiceRef_holds scheme written t)⟩
    case isFalse href =>
      obtain ⟨e, he, hname, heq⟩ := hcopy ⟨some written, []⟩
      exact ⟨e, hname, heq,
        (if_neg href).mpr (holdsElement_copy ht rfl (fun h => by cases h) he)⟩

theorem same_replaced {t : Elem} (ht : root.at? p = some t) (hname : e.label.name = t.label.name) :
    Same (p.length + 1) root (modify (fun _ => e) p root) := by
  let f : Elem → Elem := fun d => ⟨{ e.label with name := d.label.name }, e.children⟩
  have heq : modify (fun _ => e) p root = modify f p root := by
    refine modify_congr ht ?_
    change e = ⟨{ e.label with name := t.label.name }, e.children⟩
    rw [← hname]
  rw [heq]
  exact same_modify (f := f) (fun _ => rfl) p root

theorem looks_setLeafData (i : ℕ) (text : String) (e : Elem) : Looks e (setLeafData i text e) := by
  refine ⟨rfl, List.ext_getElem? fun j => ?_, fun _ => Iff.rfl⟩
  rw [setLeafData, List.getElem?_map, List.getElem?_map]
  by_cases hj : i = j
  · subst hj
    rw [List.getElem?_modify_eq]
    cases e.children[i]? with
    | none => rfl
    | some c => cases c <;> rfl
  · rw [List.getElem?_modify_ne _ _ hj]

theorem looks_setAttributeText (n : AttributeName) (text : String) (e : Elem) :
    Looks e (setAttributeText n text e) := by
  unfold setAttributeText
  split
  case h_2 => exact Looks.refl e
  case h_1 value hvalue =>
    refine ⟨rfl, rfl, fun m => ⟨fun hm => ?_, fun hm => (AList.mem_insert _).2 (.inr hm)⟩⟩
    rcases (AList.mem_insert _).1 hm with rfl | hm
    · exact AList.lookup_isSome.1 (by rw [hvalue]; rfl)
    · exact hm

/-- What is set at a node is there, and shows neither above it nor beside it. -/
theorem assigned_setObjectValue {value : Value} (hr : IsNode root r)
    (h : setObjectValue value root r = .ok root') :
    Assigned value root root' r ∧ Same (level r) root root' := by
  cases r with
  | document =>
    cases h
    obtain ⟨e, hname, heq, hholds⟩ := setElementValue_eq (p := []) (at?_nil root) value
    refine ⟨⟨e, hname, heq, hholds⟩, heq ▸ hname, fun p d hp => absurd hp (Nat.not_lt_zero _)⟩
  | element p =>
    cases h
    obtain ⟨t, ht⟩ := hr
    obtain ⟨e, hname, heq, hholds⟩ := setElementValue_eq ht value
    exact ⟨⟨t, e, ht, hname, heq, hholds⟩, heq ▸ same_replaced ht hname⟩
  | leaf p i =>
    rw [setObjectValue] at h
    split at h
    case isTrue => cases h
    case isFalse =>
      cases h
      obtain ⟨e, l, he, hl⟩ := hr
      refine ⟨⟨rfl, setLeafData i (value.text root) e, { l with data := value.text root }, ?_, ?_,
        rfl⟩, same_modify_of_looks (looks_setLeafData i _) p root⟩
      · rw [at?_modify_self, he, Option.map_some]
      · rw [setLeafData, List.getElem?_modify_eq, hl]
        rfl
  | «attribute» p n =>
    rw [setObjectValue] at h
    split at h
    case isTrue => cases h
    case isFalse =>
      cases h
      obtain ⟨e, he, hn⟩ := hr
      obtain ⟨v, hv⟩ := Option.isSome_iff_exists.1 (AList.lookup_isSome.2 hn)
      refine ⟨⟨rfl, setAttributeText n (value.text root) e, v.setText (value.text root), ?_, ?_,
        AttributeValue.text_setText ..⟩, same_modify_of_looks (looks_setAttributeText n _) p root⟩
      · rw [at?_modify_self, he, Option.map_some]
      · rw [setAttributeText, hv]
        exact AList.lookup_insert _

/-- **Assignments.**  The document gains missing steps of the path and keeps what it has.  A
    fault leaves it so; otherwise the one node that the path has selected or created is assigned,
    and if all steps are structural, they select this node again. -/
theorem assign_path (hJ : J.Selects) (hE : J.Evaluates) (absolute : Bool) (steps : List (Step P))
    {context : Ref} (hcontext : IsNode root context) (value : Value) :
    ∃ root₁ found, Adds J steps root [start absolute context] root₁ found ∧ Grows root root₁ ∧
      (creates J steps root [start absolute context] = false → root₁ = root) ∧
      ((∃ e, assign J (.path absolute steps) context value root = (root₁, .error e)) ∨
        ∃ r root', assign J (.path absolute steps) context value root = (root', .ok r) ∧
          found = some [r] ∧ IsNode root₁ r ∧ Assigned value root₁ root' r ∧
          ((∀ step ∈ steps, ∃ positions, step.Structural J positions) →
            evaluate J steps root' [start absolute context] = .ok [r])) := by
  have hstart : ∀ n ∈ [start absolute context], IsNode root n := by
    simpa using isNode_start absolute hcontext
  refine ⟨(selectOrCreateNodes J steps root [start absolute context]).1, _,
    adds_selectOrCreateNodes hJ steps root _ hstart,
    (selectOrCreateNodes_grows hJ steps root _ hstart).1,
    selectOrCreateNodes_eq steps _, ?_⟩
  rcases assign_cases hJ (.path absolute steps) value hcontext with
    ⟨e, he⟩ | ⟨r, root', hr, hselected, hnode, hset⟩
  · exact .inl ⟨e, he⟩
  · obtain ⟨hassigned, hsame⟩ := assigned_setObjectValue hnode hset
    have hfound : (selectOrCreateNodes J steps root [start absolute context]).2 = .ok [r] := by
      rw [selectForAssign] at hselected
      cases hsel : (selectOrCreateNodes J steps root [start absolute context]).2 with
      | error e =>
        rw [hsel] at hselected
        cases hselected
      | ok found =>
        rw [hsel] at hselected
        obtain ⟨n, l, rfl, hn, hl⟩ := List.map_eq_cons_iff.1 (Except.ok.inj hselected)
        rw [List.map_eq_nil_iff.1 hl, Option.some.inj hn]
    refine .inr ⟨r, root', hr, by rw [hfound]; rfl, hnode, hassigned, fun hsteps => ?_⟩
    obtain ⟨-, hlevel, hev⟩ := evaluate_of_same hJ hE steps root _ (level (start absolute context))
      hsteps (fun n hn => ⟨by rw [List.mem_singleton.1 hn], hstart n hn⟩) hfound
    refine hev root' ?_
    rw [← hlevel r (List.mem_singleton_self r)]
    exact hsame

/-! ## Paths without predicates but positions -/

/-- Names have no prefixes here. -/
def isStructural (step : Step Empty) : Bool :=
  match step.axis, step.test with
  | .child, .name (some _) _ => false
  | .child, _ => true
  | .attribute, .name none (some _) => true
  | _, _ => false

def position : Predicate Empty → ℕ
  | .position n => n
  | .expr p => nomatch p

/-- Evaluates no steps, and no prefixes. -/
def noSteps : Jaxen Empty Empty where
  select _ _ _ := .error .subLanguageExecutionFault
  predicate p := nomatch p
  selectNodes e := nomatch e
  namespaceURI _ := none

def parentOf : Ref → List Ref
  | .document => []
  | .element [] => [.document]
  | .element (i :: p) => [.element (i :: p).dropLast]
  | .leaf p _ | .attribute p _ => [.element p]

/-- Evaluates structural steps, and steps to any parent. -/
def structuralSteps : Jaxen Empty Empty :=
  { noSteps with
    select step root nodes :=
      if isStructural step then
        .ok ((nodes.flatMap
          (step.selected noSteps (step.predicates.map position) root)).dedup)
      else if step.axis = .parent ∧ step.test = .any then .ok (nodes.flatMap parentOf).dedup
      else .error .subLanguageExecutionFault }

theorem structuralSteps_evaluates : structuralSteps.Evaluates := by
  intro step positions root nodes h
  have hpositions : step.predicates.map position = positions := by
    rw [h.predicates, List.map_map]
    exact List.map_id positions
  have hstructural : isStructural step = true := by
    obtain ⟨-, haxis, hbound⟩ := h
    unfold isStructural
    have hunbound : ∀ p n, step.test ≠ .name (some p) n :=
      fun p n htest => absurd (hbound p n htest) (by simp [structuralSteps, noSteps])
    rcases haxis with haxis | ⟨haxis, prefix_, n, htest⟩
    · rw [haxis]
      cases htest : step.test with
      | name prefix_ n =>
        cases prefix_ with
        | none => rfl
        | some p => exact absurd htest (hunbound p n)
      | text | instruction | comment | any => rfl
    · rw [haxis, htest]
      cases prefix_ with
      | none => rfl
      | some p => exact absurd htest (hunbound p _)
  change (if isStructural step then _ else _) = _
  rw [if_pos hstructural, hpositions]
  rfl

theorem isNode_selected {c : Ref} (hc : IsNode root c)
    (h : r ∈ step.selected J positions root c) : IsNode root r := by
  cases c with
  | leaf | «attribute» => cases h
  | document =>
    rw [Step.selected] at h
    split at h
    case isTrue =>
      rw [List.mem_singleton.1 (mem_narrow h)]
      exact ⟨root, rfl⟩
    case isFalse => cases h
  | element p =>
    obtain ⟨e, he⟩ := hc
    rw [Step.selected, he, Option.elim_some, Step.below] at h
    split at h
    case h_1 =>
      obtain ⟨i, hi, rfl⟩ := List.mem_map.1 (mem_narrow h)
      have hlt := List.mem_range.1 (List.mem_filter.1 hi).1
      rw [List.length_map] at hlt
      obtain ⟨c, hc⟩ : ∃ c, e.children[i]? = some c := ⟨_, List.getElem?_eq_getElem hlt⟩
      rw [childRef, List.getElem?_map, hc]
      cases c with
      | leaf l => exact ⟨e, l, he, hc⟩
      | branch label children =>
        refine ⟨⟨label, children⟩, ?_⟩
        rw [at?_append, he, Option.bind_some, at?, child?, hc]
        rfl
    case h_2 =>
      split at h
      case isTrue hn =>
        rw [List.mem_singleton.1 (mem_narrow h)]
        exact ⟨e, he, hn⟩
      case isFalse => cases h
    case h_3 => cases h

theorem isNode_parentOf {c : Ref} (hc : IsNode root c) (h : r ∈ parentOf c) : IsNode root r := by
  cases c with
  | document => cases h
  | element p =>
    cases p with
    | nil =>
      rw [List.mem_singleton.1 h]
      trivial
    | cons i p =>
      obtain ⟨e, he⟩ := hc
      rw [List.mem_singleton.1 h]
      rw [← List.dropLast_append_getLast (List.cons_ne_nil i p), at?_append] at he
      obtain ⟨e', he', -⟩ := Option.bind_eq_some_iff.1 he
      exact ⟨e', he'⟩
  | leaf p i =>
    obtain ⟨e, -, he, -⟩ := hc
    rw [List.mem_singleton.1 h]
    exact ⟨e, he⟩
  | «attribute» p n =>
    obtain ⟨e, he, -⟩ := hc
    rw [List.mem_singleton.1 h]
    exact ⟨e, he⟩

theorem structuralSteps_selects : structuralSteps.Selects where
  step step root nodes found hnodes h := by
    change (if isStructural step then _ else if _ then _ else _) = _ at h
    split at h
    case isTrue =>
      cases h
      intro r hr
      obtain ⟨c, hc, hrc⟩ := List.mem_flatMap.1 (List.mem_dedup.1 hr)
      exact isNode_selected (hnodes c hc) hrc
    case isFalse =>
      split at h
      case isTrue =>
        cases h
        intro r hr
        obtain ⟨c, hc, hrc⟩ := List.mem_flatMap.1 (List.mem_dedup.1 hr)
        exact isNode_parentOf (hnodes c hc) hrc
      case isFalse => cases h
  expr e := nomatch e
  noAttribute prefix_ n root p e he h := by
    cases prefix_ with
    | some q => cases h
    | none =>
      have hnil : (Step.selected noSteps ⟨.attribute, .name none (some n), []⟩ [] root
          (.element p)) = [] := by
        have hdedup := Except.ok.inj h
        rw [List.flatMap_singleton] at hdedup
        exact (List.dedup_eq_nil _).1 hdedup
      intro hn
      rw [Step.selected, he, Option.elim_some, Step.below] at hnil
      exact absurd ((if_pos hn).symm.trans hnil) (List.cons_ne_nil _ _)

def emptyElement : Elem :=
  ⟨⟨⟨"", none, ⟨"r", by decide⟩, ElementName.ne_of_no_prefix⟩, [], ∅⟩, []⟩

def childStep (n : NCName) (predicates : List (Predicate Empty)) : Step Empty :=
  ⟨.child, .name none (some n), predicates⟩

/-- `a/b[2]`, of which only the first step can be added. -/
def tooFar : List (Step Empty) :=
  [childStep ⟨"a", by decide⟩ [], childStep ⟨"b", by decide⟩ [.position 2]]

/-- `a/..` -/
def andBack : List (Step Empty) :=
  [childStep ⟨"a", by decide⟩ [], ⟨.parent, .any, []⟩]

/-- A path fails at its second step, and the node of the first one stays; and the element of
    another path loses the child that leads back to it. -/
theorem tooFar_adds : structuralSteps.Selects ∧ structuralSteps.Evaluates ∧
    ((assign structuralSteps (.path false tooFar) (.element []) (.object "x") emptyElement).2 =
      .error .selectionFailure ∧
    (assign structuralSteps (.path false tooFar) (.element []) (.object "x") emptyElement).1 ≠
      emptyElement) ∧
    ∃ root', assign structuralSteps (.path false andBack) (.element []) (.object "x")
      emptyElement = (root', .ok (.element [])) ∧
      evaluate structuralSteps andBack root' [.element []] ≠ .ok [.element []] := by
  refine ⟨structuralSteps_selects, structuralSteps_evaluates, ⟨rfl, fun h => ?_⟩, _, rfl,
    fun h => ?_⟩
  · have hchildren := congrArg (fun e : Elem => e.children.length) h
    exact absurd hchildren (by decide)
  · have hnone : ([] : List Ref) = [.element []] := Except.ok.inj h
    cases hnone

/-- `a[1]` is added, and selected afterwards. -/
theorem firstChild_assigned : ∃ r root', assign structuralSteps
    (.path false [childStep ⟨"a", by decide⟩ [.position 1]]) (.element []) (.object "x")
      emptyElement = (root', .ok r) ∧
    evaluate structuralSteps [childStep ⟨"a", by decide⟩ [.position 1]] root' [.element []] =
      .ok [r] := by
  obtain ⟨root₁, found, -, -, -, ⟨e, he⟩ | ⟨r, root', hr, -, -, -, hev⟩⟩ :=
    assign_path structuralSteps_selects structuralSteps_evaluates false
      [childStep ⟨"a", by decide⟩ [.position 1]]
      (show IsNode emptyElement (.element []) from ⟨emptyElement, rfl⟩) (.object "x")
  · have hok : true = false := congrArg (fun s : Elem × Except Thrown Ref => s.2.toBool) he
    cases hok
  · refine ⟨r, root', hr, hev fun step hstep => ⟨[1], ?_⟩⟩
    rw [List.mem_singleton.1 hstep]
    exact ⟨rfl, .inl rfl, fun p n h => by cases h⟩

end XPath

end Jbpm
