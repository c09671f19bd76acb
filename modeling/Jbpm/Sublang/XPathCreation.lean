/-
  What the creation of missing nodes leaves: every element that was there has its name, its
  declarations, its attributes and its children, and maybe more attributes and children.
-/
import Jbpm.Sublang.XPathEvaluator

namespace Jbpm

open Lib Branch Xml

namespace XPath

/-- An element has gained children, and attributes without text. -/
structure Extends (e e' : Elem) : Prop where
  name : e'.label.name = e.label.name
  decls : e'.label.decls = e.label.decls
  kept : ∀ n v, e.label.attributes.lookup n = some v → e'.label.attributes.lookup n = some v
  added : ∀ n v, e'.label.attributes.lookup n = some v →
    e.label.attributes.lookup n = some v ∨ v.text = ""
  length : e.children.length ≤ e'.children.length
  leaf : ∀ (i : ℕ) (l : Leaf), e.children[i]? = some (.leaf l) → e'.children[i]? = some (.leaf l)

/-- Every element of a document has at most gained children and attributes. -/
def Grows (root root' : Elem) : Prop :=
  ∀ q e, root.at? q = some e → ∃ e', root'.at? q = some e' ∧ Extends e e'

theorem Extends.refl (e : Elem) : Extends e e where
  name := rfl
  decls := rfl
  kept _ _ h := h
  added _ _ h := .inl h
  length := le_refl _
  leaf _ _ h := h

theorem Extends.trans {e e' e'' : Elem} (h : Extends e e') (h' : Extends e' e'') :
    Extends e e'' where
  name := h'.name.trans h.name
  decls := h'.decls.trans h.decls
  kept n v hv := h'.kept n v (h.kept n v hv)
  added n v hv := (h'.added n v hv).elim (h.added n v) .inr
  length := h.length.trans h'.length
  leaf i l hl := h'.leaf i l (h.leaf i l hl)

theorem Grows.refl (root : Elem) : Grows root root := fun _ e h => ⟨e, h, Extends.refl e⟩

theorem Grows.trans {root root' root'' : Elem} (h : Grows root root') (h' : Grows root' root'') :
    Grows root root'' := by
  intro q e he
  obtain ⟨e', he', hext⟩ := h q e he
  obtain ⟨e'', he'', hext'⟩ := h' q e' he'
  exact ⟨e'', he'', hext.trans hext'⟩

theorem Extends.modify_cons (f : Elem → Elem) (i : ℕ) (p : List ℕ) (e : Elem) :
    Extends e (modify f (i :: p) e) where
  name := rfl
  decls := rfl
  kept _ _ h := h
  added _ _ h := .inl h
  length := (length_children_modify_cons f i p e).ge
  leaf j l hl := by
    change (e.children.modify i (Tree.mapBranch (Branch.modify f p)))[j]? = _
    by_cases hj : i = j
    · subst hj
      rw [List.getElem?_modify_eq, hl]
      rfl
    · rw [List.getElem?_modify_ne _ _ hj, hl]

/-- What grows inside an element grows in the document. -/
theorem Grows.modify {f : Elem → Elem} {p : List ℕ} {root : Elem}
    (hf : ∀ e, root.at? p = some e → Grows e (f e)) : Grows root (modify f p root) := by
  induction p generalizing root with
  | nil => exact hf root rfl
  | cons i p ih =>
    intro q e he
    cases q with
    | nil =>
      obtain rfl := Option.some.inj he
      exact ⟨_, rfl, Extends.modify_cons f i p root⟩
    | cons j q =>
      rw [at?, child?_modify_cons]
      rw [at?] at he
      obtain ⟨c, hc, hce⟩ := Option.bind_eq_some_iff.1 he
      split
      case isTrue hj =>
        subst hj
        rw [hc]
        refine ih (fun d hd => hf d ?_) q e hce
        rw [at?, hc]
        exact hd
      case isFalse =>
        rw [hc]
        exact Grows.refl c q e hce

theorem getElem?_appendChild {e : Elem} {i : ℕ} {t : Node} (child : Node)
    (h : e.children[i]? = some t) : (appendChild child e).children[i]? = some t := by
  obtain ⟨hi, -⟩ := List.getElem?_eq_some_iff.1 h
  rw [appendChild, List.getElem?_append_left hi, h]

theorem Grows.appendChild (child : Node) (e : Elem) : Grows e (appendChild child e) := by
  intro q d hd
  cases q with
  | nil =>
    obtain rfl := Option.some.inj hd
    refine ⟨_, rfl, rfl, rfl, fun _ _ h => h, fun _ _ h => .inl h, ?_,
      fun i l hl => getElem?_appendChild child hl⟩
    simp [Xml.appendChild]
  | cons i q =>
    rw [at?, child?] at hd ⊢
    obtain ⟨c, hc, hcd⟩ := Option.bind_eq_some_iff.1 hd
    obtain ⟨t, ht, htc⟩ := Option.bind_eq_some_iff.1 hc
    refine ⟨d, ?_, Extends.refl d⟩
    rw [getElem?_appendChild child ht]
    exact Option.bind_eq_some_iff.2 ⟨c, htc, hcd⟩

theorem Grows.setAttribute {n : AttributeName} {v : AttributeValue n} {e : Elem}
    (hn : n ∉ e.label.attributes) (hv : v.text = "") : Grows e (setAttribute n v e) := by
  intro q d hd
  cases q with
  | nil =>
    obtain rfl := Option.some.inj hd
    refine ⟨_, rfl, rfl, rfl, fun m w hw => ?_, fun m w hw => ?_, le_refl _, fun _ _ h => h⟩
    · have hm : m ≠ n := by
        rintro rfl
        exact hn (AList.lookup_isSome.1 (by rw [hw]; rfl))
      exact (AList.lookup_insert_ne hm).trans hw
    · by_cases hm : m = n
      · subst hm
        rw [Xml.setAttribute, AList.lookup_insert] at hw
        obtain rfl := Option.some.inj hw
        exact .inr hv
      · exact .inl ((AList.lookup_insert_ne hm).symm.trans hw)
  | cons i q => exact ⟨d, hd, Extends.refl d⟩

variable {P E : Type} {J : Jaxen P E}

/-! ## Nodes of a document -/

def IsNode (root : Elem) : Ref → Prop
  | .document => True
  | .element p => ∃ e, root.at? p = some e
  | .leaf p i => ∃ e l, root.at? p = some e ∧ e.children[i]? = some (.leaf l)
  | .attribute p n => ∃ e, root.at? p = some e ∧ n ∈ e.label.attributes

theorem IsNode.grows {root root' : Elem} {r : Ref} (h : IsNode root r) (hg : Grows root root') :
    IsNode root' r := by
  cases r with
  | document => trivial
  | element p =>
    obtain ⟨e, he⟩ := h
    obtain ⟨e', he', -⟩ := hg p e he
    exact ⟨e', he'⟩
  | leaf p i =>
    obtain ⟨e, l, he, hl⟩ := h
    obtain ⟨e', he', hext⟩ := hg p e he
    exact ⟨e', l, he', hext.leaf i l hl⟩
  | «attribute» p n =>
    obtain ⟨e, he, hn⟩ := h
    obtain ⟨e', he', hext⟩ := hg p e he
    obtain ⟨v, hv⟩ := Option.isSome_iff_exists.1 (AList.lookup_isSome.2 hn)
    exact ⟨e', he', AList.lookup_isSome.1 (by rw [hext.kept n v hv]; rfl)⟩

/-- Steps and expressions select nodes of the document, and a step that selects no attribute by
    its name has none to select. -/
structure Jaxen.Selects (J : Jaxen P E) : Prop where
  step : ∀ step root nodes found, (∀ n ∈ nodes, IsNode root n) →
    J.select step root nodes = .ok found → ∀ n ∈ found, IsNode root n
  expr : ∀ e root context found, IsNode root context →
    J.selectNodes e root context = .ok found → ∀ n, some n ∈ found → IsNode root n
  noAttribute : ∀ prefix_ localName root p e, root.at? p = some e →
    J.select ⟨.attribute, .name prefix_ (some localName), []⟩ root [.element p] = .ok [] →
    (attributeName J prefix_ localName).1 ∉ e.label.attributes

@[simp] theorem text_attributeName (J : Jaxen P E) (prefix_ : Option NCName) (localName : NCName) :
    (attributeName J prefix_ localName).2.text = "" := by
  cases prefix_ with
  | none => rfl
  | some p =>
    rw [attributeName]
    cases J.namespaceURI p <;> rfl

theorem createElement_eq {prefix_ localName : Option NCName} {predicates : List (Predicate P)}
    {p : List ℕ} {root : Elem} {child : Node}
    (h : createElement J prefix_ localName predicates p root = .ok child) :
    ∃ n, localName = some n ∧ child = .branch ⟨elementName J prefix_ n, [], ∅⟩ [] ∧
      nextPosition J predicates root (getElements p root (elementName J prefix_ n)) = .ok () := by
  unfold createElement at h
  split at h
  case h_1 => cases h
  case h_2 n =>
    dsimp only at h
    split at h
    case h_1 => cases h
    case h_2 hpos =>
      cases h
      exact ⟨n, rfl, rfl, hpos⟩

/-- An attribute or an empty child has been created. -/
theorem createNode_eq {step : Step P} {root root' : Elem} {nodes : List Ref} {r : Ref}
    (h : createNode J step root nodes = .ok (root', r)) :
    ∃ p, nodes = [.element p] ∧
      ((step.axis = .attribute ∧ step.predicates = [] ∧ ∃ prefix_ localName,
          step.test = .name prefix_ (some localName) ∧
          root' = modify (setAttribute (attributeName J prefix_ localName).1
            (attributeName J prefix_ localName).2) p root ∧
          r = .attribute p (attributeName J prefix_ localName).1) ∨
        (step.axis = .child ∧ ∃ child, createChild J step p root = .ok child ∧
          root' = modify (appendChild child) p root ∧
          r = appended p ((root.at? p).elim [] Branch.children).length child)) := by
  unfold createNode at h
  split at h
  case h_2 => cases h
  case h_1 p =>
    refine ⟨p, rfl, ?_⟩
    split at h
    case h_1 haxis =>
      unfold createAttribute at h
      split at h
      case h_2 => cases h
      case h_1 prefix_ localName hpred htest =>
        cases h
        exact .inl ⟨haxis, hpred, prefix_, localName, htest, rfl, rfl⟩
    case h_2 haxis =>
      split at h
      case h_1 => cases h
      case h_2 child hchild =>
        cases h
        exact .inr ⟨haxis, child, hchild, rfl, rfl⟩
    case h_3 => cases h

theorem isNode_appended {root e : Elem} {p : List ℕ} (he : root.at? p = some e) (child : Node) :
    IsNode (modify (appendChild child) p root)
      (appended p ((root.at? p).elim [] Branch.children).length child) := by
  have hlast : (appendChild child e).children[e.children.length]? = some child :=
    List.getElem?_concat_length
  rw [he]
  cases child with
  | branch label children =>
    refine ⟨⟨label, children⟩, ?_⟩
    rw [at?_modify_inside, he]
    rw [Option.bind_some, at?, child?]
    dsimp only [Option.elim_some]
    rw [hlast]
    rfl
  | leaf l =>
    refine ⟨appendChild (.leaf l) e, l, ?_, hlast⟩
    rw [at?_modify_self, he]
    rfl

/-- The document grows by the node that is created. -/
theorem createNode_grows (hJ : J.Selects) {step : Step P} {root root' : Elem} {nodes : List Ref}
    {r : Ref} (hnodes : ∀ n ∈ nodes, IsNode root n) (hnone : J.select step root nodes = .ok [])
    (h : createNode J step root nodes = .ok (root', r)) : Grows root root' ∧ IsNode root' r := by
  obtain ⟨p, rfl, hattr | hchild⟩ := createNode_eq h
  · obtain ⟨haxis, hpred, prefix_, localName, htest, rfl, rfl⟩ := hattr
    obtain ⟨e, he⟩ := hnodes _ (List.mem_singleton_self _)
    have hstep : step = ⟨.attribute, .name prefix_ (some localName), []⟩ := by
      cases step
      cases haxis
      cases hpred
      cases htest
      rfl
    have hfree := hJ.noAttribute prefix_ localName root p e he (hstep ▸ hnone)
    let created := attributeName J prefix_ localName
    refine ⟨Grows.modify fun d hd => ?_, setAttribute created.1 created.2 e, ?_, ?_⟩
    · obtain rfl := Option.some.inj (he.symm.trans hd)
      exact Grows.setAttribute hfree (text_attributeName J prefix_ localName)
    · rw [at?_modify_self, he]
      rfl
    · exact (AList.mem_insert _).2 (.inl rfl)
  · obtain ⟨-, child, -, rfl, rfl⟩ := hchild
    obtain ⟨e, he⟩ := hnodes _ (List.mem_singleton_self _)
    exact ⟨Grows.modify fun d _ => Grows.appendChild child d, isNode_appended he child⟩

/-- Selected or created, the nodes are in the document, which has grown. -/
theorem selectOrCreateNodes_grows (hJ : J.Selects) (steps : List (Step P)) (root : Elem)
    (nodes : List Ref) (hnodes : ∀ n ∈ nodes, IsNode root n) :
    Grows root (selectOrCreateNodes J steps root nodes).1 ∧
      ∀ found, (selectOrCreateNodes J steps root nodes).2 = .ok found →
        ∀ n ∈ found, IsNode (selectOrCreateNodes J steps root nodes).1 n := by
  induction steps generalizing root nodes with
  | nil =>
    refine ⟨Grows.refl root, fun found hfound => ?_⟩
    cases hfound
    exact hnodes
  | cons step steps ih =>
    unfold selectOrCreateNodes
    split
    case h_1 => exact ⟨Grows.refl root, fun _ h => by cases h⟩
    case h_2 hnone =>
      split
      case h_1 => exact ⟨Grows.refl root, fun _ h => by cases h⟩
      case h_2 root' new hnew =>
        obtain ⟨hgrow, hnode⟩ := createNode_grows hJ hnodes hnone hnew
        obtain ⟨hgrow', hfound⟩ := ih root' [new] (by simpa using hnode)
        exact ⟨hgrow.trans hgrow', hfound⟩
    case h_3 n ns hsel => exact ih root (n :: ns) (hJ.step _ _ _ _ hnodes hsel)

theorem isNode_start (absolute : Bool) {context : Ref} {root : Elem}
    (hcontext : IsNode root context) :
    IsNode root (start absolute context) := by
  unfold start
  split
  · trivial
  · exact hcontext

theorem selectForAssign_grows (hJ : J.Selects) (query : Query P E) {context : Ref} {root : Elem}
    (hcontext : IsNode root context) :
    Grows root (selectForAssign J query context root).1 ∧
      ∀ found, (selectForAssign J query context root).2 = .ok found →
        ∀ n, some n ∈ found → IsNode (selectForAssign J query context root).1 n := by
  cases query with
  | path absolute steps =>
    have hstart := isNode_start absolute hcontext
    obtain ⟨hgrow, hfound⟩ :=
      selectOrCreateNodes_grows hJ steps root [start absolute context] (by simpa using hstart)
    refine ⟨hgrow, fun found h n hn => ?_⟩
    rw [selectForAssign] at h
    dsimp only at h
    cases hsel : (selectOrCreateNodes J steps root [start absolute context]).2 with
    | error e =>
      rw [hsel] at h
      cases h
    | ok nodes =>
      rw [hsel] at h
      cases h
      exact hfound nodes hsel n (by simpa using hn)
  | expr e =>
    exact ⟨Grows.refl root, fun found h n hn => hJ.expr e root context found hcontext h n hn⟩

/-- A step of the path creates a node. -/
def creates (J : Jaxen P E) : List (Step P) → Elem → List Ref → Bool
  | [], _, _ => false
  | step :: steps, root, contextNodes =>
    match J.select step root contextNodes with
    | .error _ => false
    | .ok [] => (createNode J step root contextNodes).toBool
    | .ok (n :: ns) => creates J steps root (n :: ns)

/-- Nothing is added by a path that creates no node. -/
theorem selectOrCreateNodes_eq {root : Elem} (steps : List (Step P)) (nodes : List Ref)
    (h : creates J steps root nodes = false) :
    (selectOrCreateNodes J steps root nodes).1 = root := by
  induction steps generalizing nodes with
  | nil => rfl
  | cons step steps ih =>
    unfold creates at h
    cases hsel : J.select step root nodes with
    | error => simp only [selectOrCreateNodes, hsel]
    | ok found =>
      rw [hsel] at h
      cases found with
      | nil =>
        simp only [selectOrCreateNodes, hsel]
        cases hnew : createNode J step root nodes with
        | error => rfl
        | ok new =>
          simp only [hnew] at h
          cases h
      | cons n ns =>
        simp only [selectOrCreateNodes, hsel]
        exact ih (n :: ns) h

/-- Selected nodes are assigned, or there is a fault. -/
theorem assignSelected_cases (value : Value)
    {selected : Elem × Except Thrown (List (Option Ref))}
    (hfound : ∀ found, selected.2 = .ok found → ∀ n, some n ∈ found → IsNode selected.1 n) :
    (∃ e, assignSelected value selected = (selected.1, .error e)) ∨
    (∃ r root', assignSelected value selected = (root', .ok r) ∧ selected.2 = .ok [some r] ∧
      IsNode selected.1 r ∧ setObjectValue value selected.1 r = .ok root') := by
  unfold assignSelected
  split
  case h_1 e _ => exact .inl ⟨e, rfl⟩
  case h_2 nodes hnodes =>
    unfold narrowToSingleNode
    split
    case h_1 e he => exact .inl ⟨e, rfl⟩
    case h_2 r hr =>
      split at hr
      case h_2 => cases hr
      case h_1 =>
        cases hr
        split
        case h_1 e _ => exact .inl ⟨e, rfl⟩
        case h_2 root' hroot' =>
          exact .inr ⟨r, root', rfl, hnodes, hfound _ hnodes r (by simp), hroot'⟩

/-- An update ends with the value set at a node of the document, or with a fault. -/
theorem assign_cases (hJ : J.Selects) (query : Query P E) {context : Ref} (value : Value)
    {root : Elem} (hcontext : IsNode root context) :
    (∃ e, assign J query context value root =
      ((selectForAssign J query context root).1, .error e)) ∨
    (∃ r root', assign J query context value root = (root', .ok r) ∧
      (selectForAssign J query context root).2 = .ok [some r] ∧
      IsNode (selectForAssign J query context root).1 r ∧
      setObjectValue value (selectForAssign J query context root).1 r = .ok root') :=
  assignSelected_cases value (selectForAssign_grows hJ query hcontext).2

end XPath

end Jbpm
