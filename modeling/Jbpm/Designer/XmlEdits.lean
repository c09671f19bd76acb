/-
  Runs of changes of a document by an adapter, and the text of an element.

  * `step_iff`, `run_iff`: the changes that keep to the order and leave everything else as it is;
  * `mem_removeTextChildren`: the texts that the loop over the live list passes over;
  * `text_iff`: the contents in which a text can be set;
  * `xmlEdits_iff`: the two together.
-/
import Mathlib.Algebra.Group.Nat.Even
import Jbpm.Designer.XmlAdapter

namespace Jbpm

open Lib

namespace XmlAdapter

/-! ## Runs -/

inductive Op
  | add (e : Elem)
  | remove (e : Elem)

def Op.elem : Op → Elem
  | .add e | .remove e => e

variable (s : Schema) (level : ℕ)

def exec : Op → List Child → Except Exn (List Child)
  | .add e => addElement s level e
  | .remove e => removeElement s e

/-- All children but an element and white space. -/
def others (e : Elem) (l : List Child) : List Child :=
  l.filter fun c => c ≠ .element e && !c.isBlank

/-- What a change must do, and must not do. -/
structure Edited (op : Op) (l l' : List Child) : Prop where
  ordered : WellOrdered s l'
  others_eq : others op.elem l' = others op.elem l
  added : ∀ e, op = .add e → l'.count (.element e) = 1 ∧ (.element e ∉ l →
    ∃ u v, l' = u ++ .element e :: v ∧ ∀ x ∈ elements v, rank s e < rank s x)
  removed : ∀ e, op = .remove e → .element e ∉ l'

def EditedThroughout : List Op → List Child → Prop
  | [], _ => True
  | op :: ops, l => ∃ l', exec s level op l = .ok l' ∧ Edited s op l l' ∧ EditedThroughout ops l'

/-- The table gives a type for the element that is in the order. -/
def Declared (e : Elem) : Prop := ∃ type ∈ s.childElements, s.nodeTypes e.nodeName = some type

/-- The child behind which the element goes is not of a later type, and all behind it are. -/
def Anchored (e : Elem) (l : List Child) : Prop :=
  ∃ type, s.nodeTypes e.nodeName = some type ∧ ∀ u x v, l = u ++ .element x :: v →
    anchor s type l = some u.length → rank s x ≤ rank s e ∧ ∀ y ∈ elements v, rank s e < rank s y

/-- A new child is of a type that the table gives, or the only element, or comes to its place.  A
    removed one has a type, and no text goes with the last child that is not a text. -/
def Keeps : Op → List Child → Prop
  | .add e, l => .element e ∈ l ∨ Declared s e ∨ elements l = [] ∨ Anchored s e l
  | .remove e, l => (s.nodeTypes e.nodeName = none → elements l = []) ∧
      (.element e ∈ l → (∀ c ∈ l, c ≠ .element e → c.isText) →
        ∀ c ∈ l, c ≠ .element e → c.isBlank)

def KeepsThroughout : List Op → List Child → Prop
  | [], _ => True
  | op :: ops, l => Keeps s op l ∧ ∀ l', exec s level op l = .ok l' → KeepsThroughout ops l'

variable {s level} {e : Elem} {l l' rest : List Child}

theorem others_append (u v : List Child) : others e (u ++ v) = others e u ++ others e v :=
  List.filter_append ..

theorem Blank.others {w : List Child} (h : Blank w) : others e w = [] :=
  List.filter_eq_nil_iff.2 fun c hc => by simp [h c hc]

theorem others_around {u v w₁ w₂ : List Child} (h₁ : Blank w₁) (h₂ : Blank w₂) :
    others e (u ++ (w₁ ++ .element e :: w₂) ++ v) = others e (u ++ v) := by
  simp only [others_append, h₁.others, List.nil_append]
  rw [show others e (.element e :: w₂) = others e w₂ by simp [others], h₂.others, List.append_nil]

theorem elements_around {u v w₁ w₂ : List Child} (h₁ : Blank w₁) (h₂ : Blank w₂) :
    elements (u ++ (w₁ ++ .element e :: w₂) ++ v) = elements u ++ e :: elements v := by
  simp only [elements_append, h₁.elements, List.nil_append]
  rw [show elements (.element e :: w₂) = e :: elements w₂ from rfl, h₂.elements,
    List.append_assoc, List.singleton_append]

theorem WellOrdered.sublist (h : WellOrdered s l) (hsub : (elements l').Sublist (elements l)) :
    WellOrdered s l' :=
  ⟨h.nodup.sublist hsub, fun x hx => h.known x (hsub.subset hx), h.sorted.sublist hsub⟩

theorem wellOrdered_nil : WellOrdered s [] :=
  ⟨List.nodup_nil, (fun _ hx => nomatch hx), List.Pairwise.nil⟩

/-! ### Adding -/

theorem InsertedAt.elements_eq {u v : List Child} (h : InsertedAt e u v l') :
    elements l' = elements u ++ e :: elements v := by
  obtain ⟨w₁, w₂, rfl, h₁, h₂⟩ := h
  exact elements_around h₁ h₂

theorem InsertedAt.wellOrdered {u v : List Child} (h : InsertedAt e u v l')
    (hl : WellOrdered s (u ++ v)) (he : Known s e) (hnew : .element e ∉ u ++ v)
    (hplace : Place s e u v) : WellOrdered s l' := by
  obtain ⟨hnodup, hknown, hsorted⟩ := hl
  rw [← mem_elements] at hnew
  rw [elements_append] at hnodup hknown hsorted hnew
  refine ⟨?_, fun x hx => ?_, ?_⟩
  · rw [h.elements_eq, List.nodup_middle, List.nodup_cons]
    exact ⟨hnew, hnodup⟩
  · rw [h.elements_eq, List.mem_append, List.mem_cons] at hx
    rcases hx with hx | rfl | hx
    · exact hknown x (List.mem_append_left _ hx)
    · exact he
    · exact hknown x (List.mem_append_right _ hx)
  · rw [h.elements_eq, List.pairwise_append, List.pairwise_cons]
    rw [List.pairwise_append] at hsorted
    refine ⟨hsorted.1, ⟨fun x hx => (hplace.later x hx).le, hsorted.2.1⟩, fun x hx y hy => ?_⟩
    rcases List.mem_cons.1 hy with rfl | hy
    · exact hplace.upTo x hx
    · exact hsorted.2.2 x hx y hy

/-- An element is a child once. -/
theorem count_eq_one (h : WellOrdered s l) (he : .element e ∈ l) : l.count (.element e) = 1 := by
  have hcount : (elements l).count e = l.count (.element e) := by
    rw [elements, List.count_filterMap, List.count]
    refine List.countP_congr fun c _ => ?_
    cases c <;> simp
  rw [← hcount]
  exact List.count_eq_one_of_mem h.nodup (mem_elements.2 he)

/-- A new child is added as it is to iff it is in its place. -/
theorem InsertedAt.edited_iff {u v : List Child} (h : InsertedAt e u v l')
    (hl : WellOrdered s (u ++ v)) (he : Known s e) (hnew : .element e ∉ u ++ v) :
    Edited s (.add e) (u ++ v) l' ↔ Place s e u v := by
  constructor
  · intro hedited
    have hsorted := hedited.ordered.sorted
    rw [h.elements_eq, List.pairwise_append] at hsorted
    refine ⟨fun x hx => hsorted.2.2 x hx e List.mem_cons_self, ?_⟩
    obtain ⟨u', v', rfl, hlater⟩ := (hedited.added e rfl).2 hnew
    have heq := h.elements_eq
    rw [elements_append, show elements (Child.element e :: v') = e :: elements v' from rfl] at heq
    rw [← mem_elements, elements_append, List.mem_append, not_or] at hnew
    -- the new child is not there before, so that there is one way to split the elements around it
    obtain ⟨-, -, hv⟩ := (List.append_cons_inj_of_notMem hnew.1 hnew.2).1 heq.symm
    rwa [hv]
  · intro hplace
    have hordered := h.wellOrdered hl he hnew hplace
    obtain ⟨w₁, w₂, rfl, h₁, h₂⟩ := h
    refine ⟨hordered, others_around h₁ h₂, fun _ h => ?_, fun _ h => nomatch h⟩
    obtain rfl := Op.add.inj h
    refine ⟨count_eq_one hordered (by simp), fun _ =>
      ⟨u ++ w₁, w₂ ++ v, by simp, fun x hx => hplace.later x ?_⟩⟩
    rw [elements_append, h₂.elements] at hx
    exact hx

theorem wellOrdered_append_nil (h : WellOrdered s l) : WellOrdered s (l ++ []) := by
  rwa [List.append_nil]

/-- The child behind which the new one goes has the elements up to it before it. -/
theorem place_iff_anchored {u v : List Child} {x : Elem} {type : String}
    (hl : WellOrdered s (u ++ .element x :: v)) (hn : s.nodeTypes e.nodeName = some type)
    (hanchor : anchor s type (u ++ .element x :: v) = some u.length) :
    Place s e (u ++ [.element x]) v ↔ Anchored s e (u ++ .element x :: v) := by
  constructor
  · intro hplace
    refine ⟨type, hn, fun u' x' v' heq hanchor' => ?_⟩
    obtain ⟨rfl, htail⟩ := List.append_inj heq
      (Option.some_inj.1 (hanchor.symm.trans (heq ▸ hanchor')))
    cases htail
    exact ⟨hplace.upTo x (mem_elements.2 (by simp)), hplace.later⟩
  · rintro ⟨type', hn', h⟩
    obtain rfl : type = type' := Option.some_inj.1 (hn.symm.trans hn')
    obtain ⟨hx, hv⟩ := h u x v rfl hanchor
    refine ⟨fun y hy => ?_, hv⟩
    rw [elements_append, List.mem_append] at hy
    rcases hy with hy | hy
    · exact (hl.le.1 hy).trans hx
    · rwa [List.mem_singleton.1 hy]

theorem add_iff (level : ℕ) (hl : WellOrdered s l) (he : Known s e) :
    (∃ l', exec s level (.add e) l = .ok l' ∧ Edited s (.add e) l l') ↔ Keeps s (.add e) l := by
  by_cases hmem : .element e ∈ l
  · refine iff_of_true ⟨l, if_pos hmem, hl, rfl, fun _ h => ?_, fun _ h => nomatch h⟩ (.inl hmem)
    obtain rfl := Op.add.inj h
    exact ⟨count_eq_one hl hmem, fun hnew => absurd hmem hnew⟩
  have hexec {l₁ : List Child} (hl₁ : addElement s level e l = .ok l₁) :
      (∃ l', exec s level (.add e) l = .ok l' ∧ Edited s (.add e) l l') ↔
        Edited s (.add e) l l₁ := by
    constructor
    · rintro ⟨l', hl', hedited⟩
      obtain rfl := Except.ok.inj (hl₁.symm.trans hl')
      exact hedited
    · exact fun hedited => ⟨l₁, hl₁, hedited⟩
  rw [Keeps, or_iff_right hmem]
  by_cases helements : elements l = []
  · obtain ⟨l₁, hl₁, hins⟩ := addElement_no_elements (s := s) level hmem helements
    have hedited := (hins.edited_iff (wellOrdered_append_nil hl) he (by simpa using hmem)).2
      ⟨fun x hx => absurd hx (helements ▸ List.not_mem_nil), fun x hx => nomatch hx⟩
    rw [List.append_nil] at hedited
    exact iff_of_true ((hexec hl₁).2 hedited) (.inr (.inl helements))
  cases hn : s.nodeTypes e.nodeName with
  | none =>
    have herror := addElement_error level hn hmem helements
    refine iff_of_false ?_ ?_
    · rintro ⟨l', hl', -⟩
      cases herror.symm.trans hl'
    · rintro (⟨type, -, hsome⟩ | hempty | ⟨type, hsome, -⟩)
      · cases hn.symm.trans hsome
      · exact helements hempty
      · cases hn.symm.trans hsome
  | some type =>
    by_cases htype : type ∈ s.childElements
    · obtain ⟨l₁, hl₁, u, v, rfl, hins, hplace⟩ := addElement_spec level hl hn htype hmem
      exact iff_of_true ((hexec hl₁).2 ((hins.edited_iff hl he hmem).2 hplace))
        (.inl ⟨type, htype, hn⟩)
    · obtain ⟨u, x, v, l₁, rfl, hanchor, hl₁, hins⟩ :=
        addElement_undeclared level hl hn htype hmem helements
      have hsplit : u ++ .element x :: v = u ++ [.element x] ++ v := List.append_cons u _ v
      have hedited := hins.edited_iff (hsplit ▸ hl) he (hsplit ▸ hmem)
      rw [← hsplit] at hedited
      have hnot : ¬ Declared s e := by
        rintro ⟨type', htype', hn'⟩
        cases hn.symm.trans hn'
        exact htype htype'
      rw [hexec hl₁, hedited, or_iff_right hnot, or_iff_right helements]
      exact place_iff_anchored hl hn hanchor

/-! ### Removing -/

theorem hasOnlyTextChildren_iff : hasOnlyTextChildren l ↔ ∀ c ∈ l, c.isText := by
  rw [hasOnlyTextChildren, List.all_eq_true]

theorem others_eq_nil_iff (h : .element e ∉ l) : others e l = [] ↔ Blank l := by
  rw [others, List.filter_eq_nil_iff]
  refine forall₂_congr fun c hc => ?_
  have hne : c ≠ .element e := fun heq => h (heq ▸ hc)
  simp [hne]

theorem Blank.isText {w : List Child} (h : Blank w) {c : Child} (hc : c ∈ w) : c.isText := by
  have hb := h c hc
  cases c <;> first | rfl | cases hb

theorem keeps_text_iff (h : Taken e l rest) (hrest : .element e ∉ rest) :
    ((∀ c ∈ l, c ≠ .element e → c.isText) → ∀ c ∈ l, c ≠ .element e → c.isBlank) ↔
      (hasOnlyTextChildren rest → Blank rest) := by
  obtain ⟨u, v, w₁, w₂, rfl, rfl, h₁, h₂⟩ := h
  have hsplit : ∀ c ∈ u ++ (w₁ ++ .element e :: w₂) ++ v, c ≠ .element e →
      c ∈ u ++ v ∨ c ∈ w₁ ∨ c ∈ w₂ := by
    intro c hc hne
    simp only [List.mem_append, List.mem_cons, hne, false_or] at hc ⊢
    tauto
  rw [hasOnlyTextChildren_iff]
  constructor
  · intro hk htext c hc
    refine hk (fun d hd hne => ?_) c (by simp at hc ⊢; tauto) fun heq => hrest (heq ▸ hc)
    rcases hsplit d hd hne with hd | hd | hd
    · exact htext d hd
    · exact h₁.isText hd
    · exact h₂.isText hd
  · intro hk htext c hc hne
    have hall : ∀ d ∈ u ++ v, d.isText := fun d hd =>
      htext d (by simp at hd ⊢; tauto) fun heq => hrest (heq ▸ hd)
    rcases hsplit c hc hne with hc | hc | hc
    · exact hk hall c hc
    · exact h₁ c hc
    · exact h₂ c hc

theorem Taken.wellOrdered (h : Taken e l rest) (hl : WellOrdered s l) :
    WellOrdered s rest ∧ .element e ∉ rest := by
  obtain ⟨u, v, w₁, w₂, rfl, rfl, h₁, h₂⟩ := h
  have heq := elements_around (e := e) (u := u) (v := v) h₁ h₂
  have hnodup := hl.nodup
  rw [heq, List.nodup_middle, List.nodup_cons, ← elements_append, mem_elements] at hnodup
  refine ⟨hl.sublist ?_, hnodup.1⟩
  rw [heq, elements_append]
  exact List.Sublist.append_left (List.sublist_cons_self _ _) _

theorem remove_iff (level : ℕ) (hl : WellOrdered s l) :
    (∃ l', exec s level (.remove e) l = .ok l' ∧ Edited s (.remove e) l l') ↔
      Keeps s (.remove e) l := by
  have hexec {l₁ : List Child} (hl₁ : removeElement s e l = .ok l₁) :
      (∃ l', exec s level (.remove e) l = .ok l' ∧ Edited s (.remove e) l l') ↔
        Edited s (.remove e) l l₁ := by
    constructor
    · rintro ⟨l', hl', hedited⟩
      obtain rfl := Except.ok.inj (hl₁.symm.trans hl')
      exact hedited
    · exact fun hedited => ⟨l₁, hl₁, hedited⟩
  by_cases hnone : s.nodeTypes e.nodeName = none → elements l = []
  · rw [Keeps, and_iff_right hnone]
    by_cases hmem : .element e ∈ l
    · rw [forall_prop_of_true hmem]
      have htype : s.nodeTypes e.nodeName ≠ none := by
        intro hn
        rw [← mem_elements, hnone hn] at hmem
        cases hmem
      obtain ⟨type, hn⟩ := Option.ne_none_iff_exists'.1 htype
      obtain ⟨rest, hrest, htaken⟩ := removeElement_spec hn hmem
      obtain ⟨hordered, hgone⟩ := htaken.wellOrdered hl
      have hothers : others e rest = others e l := by
        obtain ⟨u, v, w₁, w₂, rfl, rfl, h₁, h₂⟩ := htaken
        exact (others_around h₁ h₂).symm
      rw [hexec hrest, keeps_text_iff htaken hgone]
      split
      · next htext =>
        constructor
        · intro h _
          rw [← others_eq_nil_iff hgone, hothers]
          exact h.others_eq.symm
        · intro h
          refine ⟨wellOrdered_nil, ?_, (fun _ h => nomatch h), fun _ _ h => nomatch h⟩
          exact (((others_eq_nil_iff hgone).2 (h htext)).symm.trans hothers)
      · next htext =>
        refine iff_of_true ⟨hordered, hothers, (fun _ h => nomatch h), fun _ h => ?_⟩
          fun h => absurd h htext
        exact Op.remove.inj h ▸ hgone
    · refine iff_of_true ((hexec (removeElement_of_notMem hnone hmem)).2 ?_)
        fun h => absurd h hmem
      refine ⟨hl, rfl, (fun _ h => nomatch h), fun _ h => ?_⟩
      rwa [← Op.remove.inj h]
  · refine iff_of_false ?_ fun h => hnone h.1
    rw [Classical.not_imp] at hnone
    rintro ⟨l', hl', -⟩
    cases (removeElement_error hnone.1 hnone.2).symm.trans hl'

/-! ### Whole runs -/

theorem step_iff {op : Op} (level : ℕ) (hl : WellOrdered s l) (he : Known s op.elem) :
    (∃ l', exec s level op l = .ok l' ∧ Edited s op l l') ↔ Keeps s op l := by
  cases op with
  | add e => exact add_iff level hl he
  | remove e => exact remove_iff level hl

theorem run_iff {ops : List Op} (hl : WellOrdered s l) (he : ∀ op ∈ ops, Known s op.elem) :
    EditedThroughout s level ops l ↔ KeepsThroughout s level ops l := by
  induction ops generalizing l with
  | nil => exact Iff.rfl
  | cons op ops ih =>
    rw [List.forall_mem_cons] at he
    rw [EditedThroughout, KeepsThroughout, ← step_iff level hl he.1]
    constructor
    · rintro ⟨l', hexec, hedited, hops⟩
      refine ⟨⟨l', hexec, hedited⟩, fun l'' hexec'' => ?_⟩
      obtain rfl := Except.ok.inj (hexec.symm.trans hexec'')
      exact (ih hedited.ordered he.2).1 hops
    · rintro ⟨⟨l', hexec, hedited⟩, hops⟩
      exact ⟨l', hexec, hedited, (ih hedited.ordered he.2).2 (hops l' hexec)⟩

/-! ## The text of an element -/

section
variable (s level)

/-- The loop of `removeTextChildren` from an index on, over the live list. -/
def removeTextChildrenFrom (i : ℕ) (l : List Child) : List Child :=
  if h : i < l.length then
    if l[i].isText then removeTextChildrenFrom (i + 1) (l.eraseIdx i)
    else removeTextChildrenFrom (i + 1) l
  else l
termination_by l.length - i
decreasing_by
  · rw [List.length_eraseIdx_of_lt h]
    omega
  · omega

def removeTextChildren (l : List Child) : List Child := removeTextChildrenFrom 0 l

/-- The values of the children, one behind the other. -/
def values (l : List Child) : List Char := l.flatMap fun c => c.value.getD []

def getTextContent (l : List Child) : List Char := trim (values l)

def replaceTextChild (content : List Char) (l : List Child) : List Child :=
  l ++ [.text (s.interNodeTypeSpacing ++ getPaddingString level ++ content ++
    (s.interNodeTypeSpacing ++ getPaddingString (level - 1)))]

/-- The old contents are never null. -/
def setTextContent (content : Option (List Char)) (l : List Child) : List Child :=
  if some (getTextContent l) = content then l
  else
    match content with
    | none => removeTextChildren l
    | some content => replaceTextChild s level content (removeTextChildren l)

end

/-- How many texts stand at the end. -/
def textsAtEnd (l : List Child) : ℕ := (l.rtakeWhile Child.isText).length

/-- Apart from white space, there are only texts, and of texts next to each other every second one
    is blank. -/
def Clearable (l : List Child) : Prop :=
  ∀ u c v, l = u ++ c :: v → (∃ x ∈ c.value.getD [], ¬ x ≤ ' ') → c.isText ∧ Even (textsAtEnd u)

/-- What stays of the children when those behind a removed one are passed over. -/
def remaining : Bool → List Child → List Child
  | _, [] => []
  | passing, c :: l =>
    if c.isText ∧ passing = false then remaining true l else c :: remaining false l

theorem removeTextChildrenFrom_append :
    ∀ u v : List Child, removeTextChildrenFrom u.length (u ++ v) = u ++ remaining false v
  | u, [] => by
    rw [removeTextChildrenFrom, dif_neg (by simp)]
    rfl
  | u, c :: v => by
    rw [removeTextChildrenFrom, dif_pos (by simp), remaining]
    by_cases hc : c.isText
    · rw [if_pos (by simpa using hc), if_pos ⟨hc, rfl⟩,
        List.eraseIdx_append_of_length_le (Nat.le_refl _), Nat.sub_self, List.eraseIdx_cons_zero]
      match v with
      | [] =>
        rw [removeTextChildrenFrom, dif_neg (by simp)]
        rfl
      | d :: v =>
        have h := removeTextChildrenFrom_append (u ++ [d]) v
        rw [List.length_append, List.length_singleton, List.append_assoc, List.append_assoc] at h
        rw [remaining, if_neg (by simp)]
        exact h
    · have h := removeTextChildrenFrom_append (u ++ [c]) v
      rw [List.length_append, List.length_singleton, List.append_assoc, List.append_assoc] at h
      rw [if_neg (by simpa using hc), if_neg fun hand => hc hand.1]
      exact h

theorem removeTextChildren_eq (l : List Child) : removeTextChildren l = remaining false l :=
  removeTextChildrenFrom_append [] l

theorem textsAtEnd_append_singleton (l : List Child) (c : Child) :
    textsAtEnd (l ++ [c]) = if c.isText then textsAtEnd l + 1 else 0 := by
  rw [textsAtEnd, textsAtEnd]
  split
  · next h => rw [List.rtakeWhile_concat_pos _ _ _ h, List.length_append, List.length_singleton]
  · next h => rw [List.rtakeWhile_concat_neg _ _ _ h]; rfl

theorem exists_append_cons_iff {α : Type} {a b : α} {l : List α} {P : List α → Prop} :
    (∃ u v, b :: l = u ++ a :: v ∧ P u) ↔
      (b = a ∧ P []) ∨ ∃ u v, l = u ++ a :: v ∧ P (b :: u) := by
  constructor
  · rintro ⟨_ | ⟨d, u⟩, v, h, hP⟩
    · exact .inl ⟨(List.cons.inj h).1, hP⟩
    · obtain ⟨rfl, hl⟩ := List.cons.inj h
      exact .inr ⟨u, v, hl, hP⟩
  · rintro (⟨rfl, hP⟩ | ⟨u, v, rfl, hP⟩)
    · exact ⟨[], l, rfl, hP⟩
    · exact ⟨b :: u, v, rfl, hP⟩

/-- A child stays unless it is the first text, the third one and so on of texts in a row. -/
theorem mem_remaining {c : Child} (p : List Child) :
    c ∈ remaining (decide (¬ Even (textsAtEnd p))) l ↔
      ∃ u v, l = u ++ c :: v ∧ ¬ (c.isText ∧ Even (textsAtEnd (p ++ u))) := by
  induction l generalizing p with
  | nil => simp [remaining]
  | cons d l ih =>
    have hrest := ih (p ++ [d])
    simp only [List.append_assoc, List.singleton_append] at hrest
    rw [exists_append_cons_iff, ← hrest, remaining, textsAtEnd_append_singleton, List.append_nil]
    by_cases hd : d.isText ∧ Even (textsAtEnd p)
    · have hodd : ¬ Even (textsAtEnd p + 1) := fun h => Nat.even_add_one.1 h hd.2
      rw [if_pos ⟨hd.1, by simpa using hd.2⟩, if_pos hd.1, decide_eq_true hodd]
      refine (or_iff_right ?_).symm
      rintro ⟨rfl, hnot⟩
      exact hnot hd
    · have heven : Even (if d.isText then textsAtEnd p + 1 else 0) := by
        split
        · next htext => exact Nat.even_add_one.2 fun h => hd ⟨htext, h⟩
        · exact Even.zero
      rw [if_neg (by simpa using hd), decide_eq_false (not_not.2 heven), List.mem_cons]
      refine or_congr ⟨?_, fun h => h.1.symm⟩ Iff.rfl
      rintro rfl
      exact ⟨rfl, hd⟩

theorem values_blank_iff :
    (∀ x ∈ values (removeTextChildren l), x ≤ ' ') ↔ Clearable l := by
  have hmem (c : Child) : c ∈ removeTextChildren l ↔
      ∃ u v, l = u ++ c :: v ∧ ¬ (c.isText ∧ Even (textsAtEnd u)) := by
    rw [removeTextChildren_eq]
    exact mem_remaining []
  constructor
  · intro h u c v hl hc
    by_contra hnot
    obtain ⟨x, hx, hblank⟩ := hc
    exact hblank (h x (List.mem_flatMap.2 ⟨c, (hmem c).2 ⟨u, v, hl, hnot⟩, hx⟩))
  · intro h x hx
    obtain ⟨c, hc, hxc⟩ := List.mem_flatMap.1 hx
    obtain ⟨u, v, hl, hnot⟩ := (hmem c).1 hc
    by_contra hblank
    exact hnot (h u c v hl ⟨x, hxc, hblank⟩)

/-! ### What is trimmed -/

section
variable {text w w' : List Char}

theorem trim_between (h : ∀ x ∈ w, x ≤ ' ') (h' : ∀ x ∈ w', x ≤ ' ') :
    trim (w ++ text ++ w') = trim text := by
  rw [trim, List.append_assoc, Path.ltrim_append_of_blank h, Path.rtrim_ltrim,
    Path.rtrim_append_of_blank h', ← Path.rtrim_ltrim, trim]

theorem trim_trim : trim (trim text) = trim text := by
  rw [trim, trim, Path.rtrim_ltrim, Path.rtrim_rtrim, Path.rtrim_ltrim, Path.ltrim_ltrim]

theorem trim_ne_nil (h : ∃ x ∈ text, ¬ x ≤ ' ') : trim text ≠ [] := by
  obtain ⟨x, hx, hblank⟩ := h
  exact fun heq => hblank (trim_eq_nil_iff.1 heq x hx)

/-- What is before a text makes it longer, if it is not white space. -/
theorem length_trim_lt (h : ∃ x ∈ w, ¬ x ≤ ' ') :
    (trim text).length < (trim (w ++ text)).length := by
  by_cases htext : ∃ x ∈ text, ¬ x ≤ ' '
  · have hpos : Path.ltrim w ≠ [] := by
      rw [Path.ltrim, Ne, List.dropWhile_eq_nil_iff]
      obtain ⟨x, hx, hblank⟩ := h
      exact fun hall => hblank (of_decide_eq_true (hall x hx))
    have hle : (trim text).length ≤ (Path.rtrim text).length := by
      rw [trim, Path.rtrim_ltrim]
      exact (List.dropWhile_sublist _).length_le
    have heq : trim (w ++ text) = Path.ltrim w ++ Path.rtrim text := by
      rw [trim, Path.ltrim_append_of_not_blank h, Path.rtrim_append_of_not_blank htext]
    rw [heq, List.length_append]
    have := List.length_pos_iff.2 hpos
    omega
  · have hnil : trim text = [] := trim_eq_nil_iff.2 fun x hx => by
      by_contra hblank
      exact htext ⟨x, hx, hblank⟩
    obtain ⟨x, hx, hblank⟩ := h
    rw [hnil]
    exact List.length_pos_iff.2 (trim_ne_nil ⟨x, List.mem_append_left _ hx, hblank⟩)

end

/-- A text can be set if it is there already, or if all other text is cleared away. -/
theorem text_iff (text : List Char) :
    getTextContent (setTextContent s level (some text) l) = trim text ↔
      text = getTextContent l ∨ Clearable l := by
  rw [setTextContent, ← values_blank_iff]
  split
  · next h =>
    obtain rfl := Option.some_inj.1 h
    exact iff_of_true trim_trim.symm (.inl rfl)
  · next h =>
    have hne : text ≠ getTextContent l := fun heq => h (heq ▸ rfl)
    have hspace (n : ℕ) : ∀ x ∈ s.interNodeTypeSpacing ++ getPaddingString n, x ≤ ' ' := by
      intro x hx
      rcases List.mem_append.1 hx with hx | hx
      · exact s.interNodeTypeSpacing_blank x hx
      · rw [List.eq_of_mem_replicate hx]
        decide
    let between := s.interNodeTypeSpacing ++ getPaddingString level ++ text ++
      (s.interNodeTypeSpacing ++ getPaddingString (level - 1))
    have hbetween : trim between = trim text := trim_between (hspace level) (hspace (level - 1))
    have hvalues : values (replaceTextChild s level text (removeTextChildren l)) =
        values (removeTextChildren l) ++ between := by
      simp [values, replaceTextChild, Child.value, between]
    rw [or_iff_right hne, getTextContent, hvalues]
    constructor
    · intro heq
      by_contra hall
      obtain ⟨x, hx, hblank⟩ : ∃ x ∈ values (removeTextChildren l), ¬ x ≤ ' ' := by
        simpa using hall
      have hlt : (trim between).length < _ := length_trim_lt ⟨x, hx, hblank⟩
      rw [heq, hbetween] at hlt
      exact absurd hlt (Nat.lt_irrefl _)
    · intro hall
      rw [trim, Path.ltrim_append_of_blank hall, ← trim, hbetween]

/-- Changes keep to the order and leave everything else as it is, unless the table gives no type in
    the order for a new child and it comes to a wrong place, or text goes with the last child that
    is not a text; a text can be set unless the loop over the live list leaves some. -/
theorem xmlEdits_iff (s : Schema) (level : ℕ) {ops : List Op} {l : List Child}
    (hl : WellOrdered s l) (he : ∀ op ∈ ops, Known s op.elem) (content : List Child)
    (text : List Char) :
    (EditedThroughout s level ops l ↔ KeepsThroughout s level ops l) ∧
      (getTextContent (setTextContent s level (some text) content) = trim text ↔
        text = getTextContent content ∨ Clearable content) :=
  ⟨run_iff hl he, text_iff text⟩

section
open Op Child

def stateElements : List String :=
  ["description", "event", "exception-handler", "timer", "transition"]

/-- `StateDomAdapter` -/
def stateSchema : Schema where
  childElements := stateElements
  nodeTypes name := if name ∈ stateElements then some name else none
  interNodeTypeSpacing := ['\n']
  interChildSpacing := ['\n']
  nodup := by decide
  type_eq name type h _ _ := (Option.ite_some_none_eq_some.1 h).2
  interNodeTypeSpacing_blank := by simp
  interChildSpacing_blank := by simp

/-- `PageFlowDefinitionDomAdapter`: the nodes are of a type that is not in the order. -/
def pageFlowSchema : Schema where
  childElements := ["start-page", "decision", "page", "process-state"]
  nodeTypes name :=
    if name = "start-page" then some "start-page"
    else if name ∈ ["decision", "page", "process-state"] then some "node-element"
    else none
  interNodeTypeSpacing := ['\n']
  interChildSpacing := ['\n']
  nodup := by decide
  type_eq name type h htype _ := by
    split at h
    · next hname => exact hname.trans (Option.some_inj.1 h)
    · obtain ⟨-, rfl⟩ := Option.ite_some_none_eq_some.1 h
      exact absurd htype (by decide)
  interNodeTypeSpacing_blank := by simp
  interChildSpacing_blank := by simp

theorem known_transition (id : ℕ) : Known stateSchema ⟨id, "transition"⟩ :=
  ⟨"transition", by decide, rfl⟩

theorem wellOrdered_transition (id : ℕ) (note : List Char) :
    WellOrdered stateSchema [.text note, .element ⟨id, "transition"⟩] :=
  ⟨List.nodup_singleton _, fun x hx => ⟨"transition", by decide, by
    rw [List.mem_singleton.1 hx]
    rfl⟩, List.pairwise_singleton _ _⟩

/-- A note goes with the only transition, a decision is put behind a page, and of two texts the
    second one stays. -/
theorem not_xmlEdits :
    ¬ EditedThroughout stateSchema 2 [.remove ⟨0, "transition"⟩]
        [.text ['n'], .element ⟨0, "transition"⟩] ∧
      (exec pageFlowSchema 1 (.add ⟨1, "decision"⟩) [.element ⟨0, "page"⟩] =
          .ok [.element ⟨0, "page"⟩, .text ['\n', '\t'], .element ⟨1, "decision"⟩, .text ['\n']] ∧
        ¬ EditedThroughout pageFlowSchema 1 [.add ⟨1, "decision"⟩] [.element ⟨0, "page"⟩]) ∧
      getTextContent (setTextContent stateSchema 2 (some ['b']) [.text ['a'], .text ['c']]) ≠
        trim ['b'] := by
  refine ⟨?_, ⟨by decide, ?_⟩, ?_⟩
  · rw [run_iff (wellOrdered_transition 0 _) (by simp [Op.elem, known_transition])]
    intro h
    have hblank := h.1.2 (by simp) (by simp [Child.isText]) (.text ['n']) (by simp) (by simp)
    exact absurd hblank (by decide)
  · rintro ⟨l', hexec, hedited, -⟩
    obtain rfl := Except.ok.inj hexec
    exact absurd hedited.ordered.sorted (by decide)
  · rw [Ne, text_iff]
    rintro (h | h)
    · exact absurd h (by decide)
    · exact absurd (h [.text ['a']] (.text ['c']) [] rfl (by simp [Child.value])).2 (by decide)

theorem xmlEdits_transition :
    (EditedThroughout stateSchema 2 [.remove ⟨0, "transition"⟩]
        [.text ['\n'], .element ⟨0, "transition"⟩] ↔
      KeepsThroughout stateSchema 2 [.remove ⟨0, "transition"⟩]
        [.text ['\n'], .element ⟨0, "transition"⟩]) ∧
      (getTextContent (setTextContent stateSchema 2 (some ['b']) [.text ['a']]) = trim ['b'] ↔
        ['b'] = getTextContent [.text ['a']] ∨ Clearable [.text ['a']]) :=
  xmlEdits_iff stateSchema 2 (wellOrdered_transition 0 _) (by simp [Op.elem, known_transition])
    [.text ['a']] ['b']

end

end XmlAdapter

end Jbpm
