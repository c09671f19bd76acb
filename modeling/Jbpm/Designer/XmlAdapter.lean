/-
  The adapters that write a changed model back into its document.

  * `Schema`: the tables of an adapter class;
  * `addElement`, `removeElement`: a child with the white space around it;
  * `addElement_spec`, `removeElement_spec`: where the child goes, and what goes with it.
-/
import Mathlib.Data.List.Basic
import Mathlib.Data.List.Nodup
import Jbpm.Lib.Lists
import Jbpm.Lib.PathComponents

namespace Jbpm

open Lib

namespace XmlAdapter

/-- The node of an adapter; another node may have the same name. -/
structure Elem where
  id : ℕ
  nodeName : String
  deriving DecidableEq

/-- A child of the node of an adapter. -/
inductive Child
  | element (e : Elem)
  | text (value : List Char)
  | cdata (value : List Char)
  | comment (value : List Char)
  | instruction (target : String) (value : List Char)
  deriving DecidableEq

/-- `String.trim` -/
def trim (text : List Char) : List Char := Path.rtrim (Path.ltrim text)

namespace Child

/-- `getNodeValue` -/
def value : Child → Option (List Char)
  | element _ => none
  | text v | cdata v | comment v | instruction _ v => some v

def isElement : Child → Bool
  | element _ => true
  | _ => false

def isText : Child → Bool
  | text _ => true
  | _ => false

/-- A text with nothing but white space. -/
def isBlank : Child → Bool
  | text v => trim v = []
  | _ => false

end Child

/-- What an adapter class says of its children: the order of their types, the types of the elements
    by their names, and the line breaks between them. -/
structure Schema where
  childElements : List String
  nodeTypes : String → Option String
  interNodeTypeSpacing : List Char
  interChildSpacing : List Char
  nodup : childElements.Nodup
  /-- An element with the name of a type is not of another type. -/
  type_eq : ∀ name type, nodeTypes name = some type → type ∈ childElements →
    name ∈ childElements → name = type
  interNodeTypeSpacing_blank : ∀ c ∈ interNodeTypeSpacing, c ≤ ' '
  interChildSpacing_blank : ∀ c ∈ interChildSpacing, c ≤ ' '

/-- `NullPointerException` -/
inductive Exn
  | nullPointer
  deriving DecidableEq

variable (s : Schema) (level : ℕ) (e : Elem) (l : List Child)

def getPaddingString (level : ℕ) : List Char := List.replicate level '\t'

def isNodeOfType (e : Elem) (type : String) : Bool :=
  e.nodeName = type || s.nodeTypes e.nodeName = some type

def ofType (type : String) : Child → Bool
  | .element e => isNodeOfType s e type
  | _ => false

/-- The index of the first child of a type. -/
def getFirstNode (type : String) (l : List Child) : Option ℕ := l.findIdx? (ofType s type)

/-- The index of the last child of a type. -/
def getLastNode (type : String) (l : List Child) : Option ℕ := lastIdx? (ofType s type) l

def isEmpty : Bool := l.all Child.isBlank

def hasOnlyTextChildren : Bool := l.all Child.isText

/-- What the loop of `prepareInsertionPoint` has found. -/
structure Found where
  before : Bool
  insertAfter : Option ℕ
  insertBefore : Option ℕ

def Found.next (nodeType : Option String) (f : Found) (type : String) : Found :=
  if some type = nodeType then { f with before := true }
  else if f.before then
    if f.insertBefore.isNone then { f with insertBefore := getFirstNode s type l } else f
  else { f with insertAfter := (getLastNode s type l).or f.insertAfter }

def found (nodeType : Option String) : Found :=
  s.childElements.foldl (Found.next s l nodeType) ⟨false, none, none⟩

/-- The children with a text for the new child, and where the child goes. -/
def prepareInsertionPoint (nodeType : Option String) : List Child × ℕ :=
  match (found s l nodeType).before, (found s l nodeType).insertBefore,
    (found s l nodeType).insertAfter with
  | true, some i, _ =>
    (l.insertIdx i (.text (s.interNodeTypeSpacing ++ getPaddingString level)), i)
  | _, _, some i =>
    if i + 1 < l.length then
      (l.insertIdx (i + 1) (.text (s.interNodeTypeSpacing ++ getPaddingString level)), i + 2)
    else (l ++ [.text s.interNodeTypeSpacing], l.length)
  | _, _, none => (l ++ [.text s.interNodeTypeSpacing], l.length)

def addElement : Except Exn (List Child) :=
  if .element e ∈ l then .ok l
  else if isEmpty l then
    .ok (l ++ [.text (s.interNodeTypeSpacing ++ getPaddingString level), .element e,
      .text (s.interNodeTypeSpacing ++ getPaddingString (level - 1))])
  -- `isNodeOfType` with the type null
  else if s.nodeTypes e.nodeName = none ∧ l.any Child.isElement then .error .nullPointer
  else match (s.nodeTypes e.nodeName).bind (getLastNode s · l) with
    | some i =>
      let l' := if i + 1 < l.length then l else l ++ [.text s.interNodeTypeSpacing]
      .ok ((l'.insertIdx (i + 1) (.element e)).insertIdx (i + 1)
        (.text (s.interChildSpacing ++ getPaddingString level)))
    | none =>
      let p := prepareInsertionPoint s level l (s.nodeTypes e.nodeName)
      .ok (p.1.insertIdx p.2 (.element e))

/-- Removes a child if it is a blank text. -/
def removeTextChild (i : ℕ) (l : List Child) : List Child :=
  if l[i]?.any Child.isBlank then l.eraseIdx i else l

def removePreviousText : ℕ → List Child → List Child
  | 0, l => l
  | i + 1, l => removeTextChild i l

def removeElement : Except Exn (List Child) :=
  -- `getLastNode(null)`
  if s.nodeTypes e.nodeName = none ∧ l.any Child.isElement then .error .nullPointer
  else match l.idxOf? (.element e) with
    | none => .ok l
    | some i =>
      let l' := if (s.nodeTypes e.nodeName).bind (getLastNode s · l) = some i then
          removePreviousText i l
        else removeTextChild (i + 1) l
      let rest := l'.erase (.element e)
      .ok (if hasOnlyTextChildren rest then [] else rest)

/-! ## The order of the children -/

/-- The elements among the children. -/
def elements (l : List Child) : List Elem :=
  l.filterMap fun
    | .element e => some e
    | _ => none

variable {s l e} {level : ℕ} {type : String} {x : Elem}

theorem mem_elements : x ∈ elements l ↔ .element x ∈ l := by
  rw [elements, List.mem_filterMap]
  constructor
  · rintro ⟨c, hc, h⟩
    cases c with
    | element y => exact Option.some_inj.1 h ▸ hc
    | _ => cases h
  · exact fun h => ⟨_, h, rfl⟩

theorem elements_append (u v : List Child) : elements (u ++ v) = elements u ++ elements v :=
  List.filterMap_append ..

theorem elements_eq_nil (h : ∀ c ∈ l, c.isElement = false) : elements l = [] := by
  refine List.eq_nil_iff_forall_not_mem.2 fun x hx => ?_
  cases h _ (mem_elements.1 hx)

/-- Where the type of an element stands in the order. -/
def rank (s : Schema) (e : Elem) : ℕ := s.childElements.findIdx (isNodeOfType s e)

/-- The element has one of the types. -/
def Known (s : Schema) (e : Elem) : Prop := ∃ type ∈ s.childElements, isNodeOfType s e type

/-- The element children are of the types of the schema, and in its order. -/
structure WellOrdered (s : Schema) (l : List Child) : Prop where
  nodup : (elements l).Nodup
  known : ∀ x ∈ elements l, Known s x
  sorted : (elements l).Pairwise (rank s · ≤ rank s ·)

/-- An element has one type only. -/
theorem isNodeOfType_iff (htype : type ∈ s.childElements) (h : isNodeOfType s x type)
    {type' : String} (htype' : type' ∈ s.childElements) :
    isNodeOfType s x type' ↔ type' = type := by
  constructor
  · intro h'
    simp only [isNodeOfType, Bool.or_eq_true, decide_eq_true_eq] at h h'
    rcases h with rfl | h <;> rcases h' with rfl | h'
    · rfl
    · exact (s.type_eq _ _ h' htype' htype).symm
    · exact s.type_eq _ _ h htype htype'
    · exact Option.some_inj.1 (h'.symm.trans h)
  · rintro rfl
    exact h

theorem rank_lt_iff {before after : List String} (h : s.childElements = before ++ after) :
    rank s x < before.length ↔ ∃ d ∈ before, isNodeOfType s x d := by
  rw [rank, h, List.findIdx_append]
  split
  · exact List.findIdx_lt_length
  · next hlt =>
    rw [List.findIdx_lt_length] at hlt
    exact ⟨fun hle => by omega, fun hex => absurd hex hlt⟩

theorem rank_eq_iff {before after : List String} (h : s.childElements = before ++ type :: after) :
    rank s x = before.length ↔ isNodeOfType s x type := by
  have hle : rank s x < (before ++ [type]).length ↔ ∃ d ∈ before ++ [type], isNodeOfType s x d :=
    rank_lt_iff (by rw [h, List.append_assoc, List.singleton_append])
  rw [List.length_append, List.length_singleton] at hle
  have hlt : rank s x < before.length ↔ ∃ d ∈ before, isNodeOfType s x d := rank_lt_iff h
  constructor
  · intro heq
    obtain ⟨d, hd, hxd⟩ := hle.1 (by omega)
    rcases List.mem_append.1 hd with hd | hd
    · have := hlt.2 ⟨d, hd, hxd⟩
      omega
    · exact List.mem_singleton.1 hd ▸ hxd
  · intro hx
    have hnot : ¬ rank s x < before.length := by
      rw [hlt]
      rintro ⟨d, hd, hxd⟩
      have hdt := (isNodeOfType_iff (by simp [h]) hx (by simp [h, hd])).1 hxd
      have hnodup := s.nodup
      rw [h, hdt.symm, List.nodup_middle, List.nodup_cons] at hnodup
      exact hnodup.1 (List.mem_append_left _ hd)
    have := hle.2 ⟨type, by simp, hx⟩
    omega

/-! ## White space -/

theorem trim_eq_nil_iff {text : List Char} : trim text = [] ↔ ∀ c ∈ text, c ≤ ' ' := by
  rw [trim, Path.rtrim, List.rdropWhile_eq_nil_iff, Path.ltrim]
  constructor
  · intro h c hc
    rw [← List.takeWhile_append_dropWhile (p := (· ≤ ' ')) (l := text), List.mem_append] at hc
    rcases hc with hc | hc
    · exact of_decide_eq_true (List.mem_takeWhile_imp (p := (· ≤ ' ')) hc)
    · exact of_decide_eq_true (h c hc)
  · intro h c hc
    exact decide_eq_true (h c (List.dropWhile_subset _ hc))

/-- Nothing but blank texts. -/
def Blank (w : List Child) : Prop := ∀ c ∈ w, c.isBlank

theorem Blank.elements {w : List Child} (h : Blank w) : elements w = [] :=
  elements_eq_nil fun c hc => by
    have hb := h c hc
    cases c <;> first | rfl | cases hb

theorem isBlank_spacing (n : ℕ) {spacing : List Char} (h : ∀ c ∈ spacing, c ≤ ' ') :
    (Child.text (spacing ++ getPaddingString n)).isBlank := by
  refine decide_eq_true (trim_eq_nil_iff.2 fun c hc => ?_)
  rcases List.mem_append.1 hc with hc | hc
  · exact h c hc
  · rw [List.eq_of_mem_replicate hc]
    decide

/-! ## What the loop finds -/

theorem getFirstNode_eq_some {i : ℕ} (h : getFirstNode s type l = some i) :
    ∃ u x v, l = u ++ .element x :: v ∧ u.length = i ∧ isNodeOfType s x type ∧
      ∀ y ∈ elements u, ¬ isNodeOfType s y type := by
  obtain ⟨u, a, v, rfl, rfl, ha, hu⟩ := findIdx?_eq_some h
  cases a with
  | element x => exact ⟨u, x, v, rfl, rfl, ha, fun y hy => hu _ (mem_elements.1 hy)⟩
  | _ => cases ha

theorem getLastNode_eq_some {i : ℕ} (h : getLastNode s type l = some i) :
    ∃ u x v, l = u ++ .element x :: v ∧ u.length = i ∧ isNodeOfType s x type ∧
      ∀ y ∈ elements v, ¬ isNodeOfType s y type := by
  obtain ⟨u, a, v, rfl, rfl, ha, hv⟩ := lastIdx?_eq_some h
  cases a with
  | element x => exact ⟨u, x, v, rfl, rfl, ha, fun y hy => hv _ (mem_elements.1 hy)⟩
  | _ => cases ha

theorem getFirstNode_eq_none (h : getFirstNode s type l = none) :
    ∀ y ∈ elements l, ¬ isNodeOfType s y type := fun y hy => by
  simpa [ofType] using List.findIdx?_eq_none_iff.1 h _ (mem_elements.1 hy)

theorem getLastNode_eq_none (h : getLastNode s type l = none) :
    ∀ y ∈ elements l, ¬ isNodeOfType s y type := fun _ hy =>
  lastIdx?_eq_none_iff.1 h _ (mem_elements.1 hy)

/-- Up to the type of the new child the loop keeps the last node of the last type that has one. -/
theorem foldl_before {before : List String} {nodeType : Option String}
    (h : ∀ d ∈ before, some d ≠ nodeType) :
    before.foldl (Found.next s l nodeType) ⟨false, none, none⟩ =
      ⟨false, before.reverse.findSome? (getLastNode s · l), none⟩ := by
  induction before using List.reverseRecOn with
  | nil => rfl
  | append_singleton before d ih =>
    have hd : some d ≠ nodeType := h d (List.mem_append_right _ List.mem_cons_self)
    rw [List.foldl_append, ih fun c hc => h c (List.mem_append_left _ hc), List.foldl_cons,
      List.foldl_nil, Found.next, if_neg hd, List.reverse_append, List.reverse_singleton,
      List.singleton_append, List.findSome?_cons]
    cases getLastNode s d l <;> rfl

/-- Behind it the loop keeps the first node of the first type that has one. -/
theorem foldl_after {after : List String} (h : type ∉ after) (a : Option ℕ) :
    after.foldl (Found.next s l (some type)) ⟨true, a, none⟩ =
      ⟨true, a, after.findSome? (getFirstNode s · l)⟩ := by
  induction after using List.reverseRecOn with
  | nil => rfl
  | append_singleton after d ih =>
    rw [List.mem_append, List.mem_singleton, not_or] at h
    rw [List.foldl_append, ih h.1, List.foldl_cons, List.foldl_nil, Found.next,
      if_neg (fun heq => h.2 (Option.some_inj.1 heq).symm), if_pos rfl, List.findSome?_append]
    cases after.findSome? (getFirstNode s · l) <;> simp

theorem found_eq {before after : List String} (h : s.childElements = before ++ type :: after) :
    found s l (some type) = ⟨true, before.reverse.findSome? (getLastNode s · l),
      after.findSome? (getFirstNode s · l)⟩ := by
  have hnodup := s.nodup
  rw [h, List.nodup_middle, List.nodup_cons, List.mem_append, not_or] at hnodup
  have hbefore : ∀ d ∈ before, some d ≠ some type := fun d hd heq =>
    hnodup.1.1 (Option.some_inj.1 heq ▸ hd)
  rw [found, h, List.foldl_append, foldl_before hbefore, List.foldl_cons, Found.next, if_pos rfl,
    foldl_after hnodup.1.2]

/-- Where there are no elements, nothing is found. -/
theorem found_no_elements (h : elements l = []) (nodeType : Option String) :
    ∃ before, found s l nodeType = ⟨before, none, none⟩ := by
  have hnone (y : Elem) : y ∉ elements l := by
    rw [h]
    exact List.not_mem_nil
  have hfirst (d : String) : getFirstNode s d l = none := by
    by_contra hne
    obtain ⟨i, hi⟩ := Option.ne_none_iff_exists'.1 hne
    obtain ⟨u, x, v, rfl, -⟩ := getFirstNode_eq_some hi
    exact hnone x (mem_elements.2 (by simp))
  have hlast (d : String) : getLastNode s d l = none := by
    by_contra hne
    obtain ⟨i, hi⟩ := Option.ne_none_iff_exists'.1 hne
    obtain ⟨u, x, v, rfl, -⟩ := getLastNode_eq_some hi
    exact hnone x (mem_elements.2 (by simp))
  have hloop (types : List String) (before : Bool) :
      ∃ before', types.foldl (Found.next s l nodeType) ⟨before, none, none⟩ =
        ⟨before', none, none⟩ := by
    induction types generalizing before with
    | nil => exact ⟨before, rfl⟩
    | cons d types ih =>
      rw [List.foldl_cons, Found.next, hfirst, hlast]
      split
      · exact ih true
      · split <;> exact ih before
  exact hloop s.childElements false

/-! ## Adding -/

/-- The place of a new child: behind the elements up to its type, before those of later types. -/
structure Place (s : Schema) (e : Elem) (u v : List Child) : Prop where
  upTo : ∀ x ∈ elements u, rank s x ≤ rank s e
  later : ∀ x ∈ elements v, rank s e < rank s x

section
variable {u v : List Child}

theorem WellOrdered.le (h : WellOrdered s (u ++ .element x :: v)) {y : Elem} :
    (y ∈ elements u → rank s y ≤ rank s x) ∧ (y ∈ elements v → rank s x ≤ rank s y) := by
  have hsorted := h.sorted
  rw [elements_append, show elements (Child.element x :: v) = x :: elements v from rfl,
    List.pairwise_append, List.pairwise_cons] at hsorted
  exact ⟨fun hy => hsorted.2.2 y hy x List.mem_cons_self, fun hy => hsorted.2.1.1 y hy⟩

/-- Behind the last element of the type of the new child. -/
theorem place_behind_last (h : WellOrdered s (u ++ .element x :: v))
    (htype : type ∈ s.childElements) (hx : isNodeOfType s x type) (he : isNodeOfType s e type)
    (hv : ∀ y ∈ elements v, ¬ isNodeOfType s y type) : Place s e (u ++ [.element x]) v := by
  obtain ⟨before, after, hs⟩ := List.append_of_mem htype
  have hrank := (rank_eq_iff hs).2 hx
  have hrank' := (rank_eq_iff hs).2 he
  constructor
  · intro y hy
    rw [elements_append, List.mem_append] at hy
    rcases hy with hy | hy
    · have := h.le.1 hy
      omega
    · rw [List.mem_singleton.1 hy]
      omega
  · intro y hy
    have hne : rank s y ≠ before.length := fun heq => hv y hy ((rank_eq_iff hs).1 heq)
    have := (h.le (y := y)).2 hy
    omega

/-- Before the first element of the first later type that there is. -/
theorem place_before_first (h : WellOrdered s (u ++ .element x :: v))
    {before after after' : List String} {d : String}
    (hs : s.childElements = before ++ type :: (after ++ d :: after'))
    (he : isNodeOfType s e type) (hx : isNodeOfType s x d)
    (hnone : ∀ y ∈ elements u, ∀ c ∈ type :: (after ++ [d]), ¬ isNodeOfType s y c) :
    Place s e u (.element x :: v) := by
  have hs' : s.childElements = (before ++ type :: after) ++ d :: after' := by simp [hs]
  have hrank := (rank_eq_iff hs).2 he
  have hrankx := (rank_eq_iff hs').2 hx
  rw [List.length_append, List.length_cons] at hrankx
  constructor
  · intro y hy
    have hle := (h.le (y := y)).1 hy
    by_contra hlt
    have hlt' : rank s y < (before ++ type :: (after ++ [d])).length := by
      simp only [List.length_append, List.length_cons, List.length_nil]
      omega
    have hsplit : s.childElements = (before ++ type :: (after ++ [d])) ++ after' := by simp [hs]
    obtain ⟨c, hc, hyc⟩ := (rank_lt_iff hsplit).1 hlt'
    rcases List.mem_append.1 hc with hc | hc
    · have : rank s y < before.length := (rank_lt_iff hs).2 ⟨c, hc, hyc⟩
      omega
    · exact hnone y hy c hc hyc
  · intro y hy
    rcases List.mem_cons.1 (show y ∈ x :: elements v from hy) with rfl | hy
    · omega
    · have := (h.le (y := y)).2 hy
      omega

/-- Behind the last element of the last earlier type that there is. -/
theorem place_behind_earlier (h : WellOrdered s (u ++ .element x :: v))
    {before before' after : List String} {d : String}
    (hs : s.childElements = before ++ d :: (before' ++ type :: after))
    (he : isNodeOfType s e type) (hx : isNodeOfType s x d)
    (hnone : ∀ y ∈ elements v, ∀ c ∈ d :: (before' ++ type :: after), ¬ isNodeOfType s y c) :
    Place s e (u ++ [.element x]) v := by
  have hs' : s.childElements = (before ++ d :: before') ++ type :: after := by simp [hs]
  have hrank := (rank_eq_iff hs').2 he
  have hrankx := (rank_eq_iff hs).2 hx
  rw [List.length_append, List.length_cons] at hrank
  constructor
  · intro y hy
    rw [elements_append, List.mem_append] at hy
    rcases hy with hy | hy
    · have := h.le.1 hy
      omega
    · rw [List.mem_singleton.1 hy]
      omega
  · intro y hy
    have hle := (h.le (y := y)).2 hy
    obtain ⟨c, hc, hyc⟩ := h.known y (mem_elements.2 (by simp [mem_elements.1 hy]))
    rw [hs] at hc
    rcases List.mem_append.1 hc with hc | hc
    · have : rank s y < before.length := (rank_lt_iff hs).2 ⟨c, hc, hyc⟩
      omega
    · exact absurd hyc (hnone y hy c hc)

end

/-- The new child is between others, with white space around it. -/
def InsertedAt (e : Elem) (u v l' : List Child) : Prop :=
  ∃ w₁ w₂, l' = u ++ (w₁ ++ .element e :: w₂) ++ v ∧ Blank w₁ ∧ Blank w₂

/-- The new child is in its place. -/
def Inserted (s : Schema) (e : Elem) (l l' : List Child) : Prop :=
  ∃ u v, l = u ++ v ∧ InsertedAt e u v l' ∧ Place s e u v

theorem blank_nil : Blank [] := fun _ h => nomatch h

theorem blank_singleton {c : Child} (h : c.isBlank) : Blank [c] := fun _ hd =>
  List.mem_singleton.1 hd ▸ h

theorem isBlank_interNodeTypeSpacing (s : Schema) :
    (Child.text s.interNodeTypeSpacing).isBlank :=
  decide_eq_true (trim_eq_nil_iff.2 s.interNodeTypeSpacing_blank)

/-! ### What the insertion point is -/

section
variable {u v : List Child} {i : ℕ} {before : Bool} {nodeType : Option String}

theorem insertedAt_behind (level : ℕ) (hlen : u.length = i + 1) :
    InsertedAt e u v
      (((if i + 1 < (u ++ v).length then u ++ v
        else u ++ v ++ [.text s.interNodeTypeSpacing]).insertIdx (i + 1) (.element e)).insertIdx
          (i + 1) (.text (s.interChildSpacing ++ getPaddingString level))) := by
  have hblank := isBlank_spacing level s.interChildSpacing_blank
  cases v with
  | nil =>
    rw [List.append_nil, if_neg (by simp [hlen]), insertIdx_of_length hlen,
      insertIdx_of_length hlen]
    exact ⟨[_], [_], by simp, blank_singleton hblank,
      blank_singleton (isBlank_interNodeTypeSpacing s)⟩
  | cons c v =>
    rw [if_pos (by simp [hlen]), insertIdx_of_length hlen, insertIdx_of_length hlen]
    exact ⟨[_], [], by simp, blank_singleton hblank, blank_nil⟩

theorem insertedAt_end (hfound : found s l nodeType = ⟨before, none, none⟩) :
    InsertedAt e l [] ((prepareInsertionPoint s level l nodeType).1.insertIdx
      (prepareInsertionPoint s level l nodeType).2 (.element e)) := by
  have hpoint : prepareInsertionPoint s level l nodeType =
      (l ++ [.text s.interNodeTypeSpacing], l.length) := by
    rw [prepareInsertionPoint, hfound]
    cases before <;> rfl
  rw [hpoint]
  dsimp only
  rw [insertIdx_of_length rfl]
  exact ⟨[], [_], by simp, blank_nil, blank_singleton (isBlank_interNodeTypeSpacing s)⟩

theorem insertedAt_insertAfter (hlen : u.length = i + 1)
    (hfound : found s (u ++ v) nodeType = ⟨before, some i, none⟩) :
    InsertedAt e u v ((prepareInsertionPoint s level (u ++ v) nodeType).1.insertIdx
      (prepareInsertionPoint s level (u ++ v) nodeType).2 (.element e)) := by
  have hblank := isBlank_spacing level s.interNodeTypeSpacing_blank
  have hpoint : prepareInsertionPoint s level (u ++ v) nodeType =
      if i + 1 < (u ++ v).length then
        ((u ++ v).insertIdx (i + 1) (.text (s.interNodeTypeSpacing ++ getPaddingString level)),
          i + 2)
      else (u ++ v ++ [.text s.interNodeTypeSpacing], (u ++ v).length) := by
    rw [prepareInsertionPoint, hfound]
    cases before <;> rfl
  rw [hpoint]
  cases v with
  | nil =>
    rw [List.append_nil, if_neg (by simp [hlen])]
    dsimp only
    rw [insertIdx_of_length rfl]
    exact ⟨[], [_], by simp, blank_nil, blank_singleton (isBlank_interNodeTypeSpacing s)⟩
  | cons c v =>
    rw [if_pos (by simp [hlen]), insertIdx_of_length hlen]
    dsimp only
    rw [List.append_cons u (.text _), insertIdx_of_length (by simp [hlen])]
    exact ⟨[_], [], by simp, blank_singleton hblank, blank_nil⟩

end

section
variable (h : WellOrdered s l) {before after : List String}
  (hs : s.childElements = before ++ type :: after) (he : isNodeOfType s e type)
  (hnone : ∀ y ∈ elements l, ¬ isNodeOfType s y type)
include h hs he hnone

theorem insertBefore_spec {i : ℕ} (hi : after.findSome? (getFirstNode s · l) = some i) :
    ∃ u v, l = u ++ v ∧ u.length = i ∧ Place s e u v := by
  obtain ⟨after₁, d, after₂, rfl, hd, hnone'⟩ := List.findSome?_eq_some_iff.1 hi
  obtain ⟨u, x, v, rfl, rfl, hx, hu⟩ := getFirstNode_eq_some hd
  refine ⟨u, .element x :: v, rfl, rfl, place_before_first h hs he hx fun y hy c hc => ?_⟩
  have hmem : y ∈ elements (u ++ .element x :: v) := by
    rw [elements_append]
    exact List.mem_append_left _ hy
  rcases List.mem_cons.1 hc with rfl | hc
  · exact hnone y hmem
  · rcases List.mem_append.1 hc with hc | hc
    · exact getFirstNode_eq_none (hnone' c hc) y hmem
    · exact List.mem_singleton.1 hc ▸ hu y hy

variable (hlater : ∀ y ∈ elements l, ∀ c ∈ after, ¬ isNodeOfType s y c)
include hlater

theorem insertAfter_spec {i : ℕ} (hi : before.reverse.findSome? (getLastNode s · l) = some i) :
    ∃ u v, l = u ++ v ∧ u.length = i + 1 ∧ Place s e u v := by
  obtain ⟨before₂, d, before₁, hrev, hd, hnone'⟩ := List.findSome?_eq_some_iff.1 hi
  obtain rfl : before = before₁.reverse ++ d :: before₂.reverse := by
    rw [← List.reverse_reverse before, hrev]
    simp
  obtain ⟨u, x, v, rfl, rfl, hx, hv⟩ := getLastNode_eq_some hd
  rw [List.append_assoc, List.cons_append] at hs
  refine ⟨u ++ [.element x], v, by simp, by simp,
    place_behind_earlier h hs he hx fun y hy c hc => ?_⟩
  have hmem : y ∈ elements (u ++ .element x :: v) := mem_elements.2 (by
    simp [mem_elements.1 hy])
  rcases List.mem_cons.1 hc with rfl | hc
  · exact hv y hy
  · rcases List.mem_append.1 hc with hc | hc
    · exact getLastNode_eq_none (hnone' c (List.mem_reverse.1 hc)) y hmem
    · rcases List.mem_cons.1 hc with rfl | hc
      · exact hnone y hmem
      · exact hlater y hmem c hc

omit he in
theorem no_elements (hi : before.reverse.findSome? (getLastNode s · l) = none) (y : Elem) :
    y ∉ elements l := by
  intro hy
  obtain ⟨c, hc, hyc⟩ := h.known y hy
  rw [hs] at hc
  rcases List.mem_append.1 hc with hc | hc
  · exact getLastNode_eq_none (List.findSome?_eq_none_iff.1 hi c (List.mem_reverse.2 hc)) y hy hyc
  · rcases List.mem_cons.1 hc with rfl | hc
    · exact hnone y hy hyc
    · exact hlater y hy c hc hyc

end

theorem prepareInsertionPoint_spec (h : WellOrdered s l) (htype : type ∈ s.childElements)
    (he : isNodeOfType s e type) (hnone : ∀ y ∈ elements l, ¬ isNodeOfType s y type) :
    Inserted s e l ((prepareInsertionPoint s level l (some type)).1.insertIdx
      (prepareInsertionPoint s level l (some type)).2 (.element e)) := by
  obtain ⟨before, after, hs⟩ := List.append_of_mem htype
  have hblank := isBlank_spacing level s.interNodeTypeSpacing_blank
  cases hafter : after.findSome? (getFirstNode s · l) with
  | some i =>
    obtain ⟨u, v, rfl, rfl, hplace⟩ := insertBefore_spec h hs he hnone hafter
    unfold prepareInsertionPoint
    rw [found_eq hs, hafter]
    dsimp only
    rw [insertIdx_of_length rfl, insertIdx_of_length rfl]
    exact ⟨u, v, rfl, ⟨[], [_], by simp, blank_nil, blank_singleton hblank⟩, hplace⟩
  | none =>
    have hlater : ∀ y ∈ elements l, ∀ c ∈ after, ¬ isNodeOfType s y c := fun y hy c hc =>
      getFirstNode_eq_none (List.findSome?_eq_none_iff.1 hafter c hc) y hy
    cases hbefore : before.reverse.findSome? (getLastNode s · l) with
    | none =>
      have hempty := no_elements h hs hnone hlater hbefore
      exact ⟨l, [], (List.append_nil l).symm,
        insertedAt_end (by rw [found_eq hs, hafter, hbefore]),
        ⟨fun y hy => absurd hy (hempty y), fun y hy => absurd hy List.not_mem_nil⟩⟩
    | some i =>
      obtain ⟨u, v, rfl, hlen, hplace⟩ := insertAfter_spec h hs he hnone hlater hbefore
      exact ⟨u, v, rfl, insertedAt_insertAfter hlen (by rw [found_eq hs, hafter, hbefore]), hplace⟩

theorem behindLast_spec (h : WellOrdered s l) (htype : type ∈ s.childElements)
    (he : isNodeOfType s e type) {i : ℕ} (hi : getLastNode s type l = some i) :
    ∃ u v, l = u ++ v ∧ u.length = i + 1 ∧ Place s e u v := by
  obtain ⟨u, x, v, rfl, rfl, hx, hv⟩ := getLastNode_eq_some hi
  exact ⟨u ++ [.element x], v, by simp, by simp, place_behind_last h htype hx he hv⟩

/-- Where there are no elements, a new child goes to the end. -/
theorem addElement_no_elements (level : ℕ) (hnew : .element e ∉ l) (h : elements l = []) :
    ∃ l', addElement s level e l = .ok l' ∧ InsertedAt e l [] l' := by
  have hchild : l.any Child.isElement = false := by
    refine List.any_eq_false.2 fun c hc helement => ?_
    cases c with
    | element x =>
      rw [← mem_elements, h] at hc
      cases hc
    | _ => cases helement
  have hlast (type : String) : getLastNode s type l = none :=
    lastIdx?_eq_none_iff.2 fun c hc hof => by
      cases c with
      | element x =>
        rw [← mem_elements, h] at hc
        cases hc
      | _ => cases hof
  unfold addElement
  rw [if_neg hnew]
  split
  · exact ⟨_, rfl, [_], [_], by simp,
      blank_singleton (isBlank_spacing level s.interNodeTypeSpacing_blank),
      blank_singleton (isBlank_spacing (level - 1) s.interNodeTypeSpacing_blank)⟩
  · obtain ⟨before, hfound⟩ := found_no_elements (s := s) h (s.nodeTypes e.nodeName)
    rw [if_neg (by simp [hchild])]
    cases hn : s.nodeTypes e.nodeName with
    | none => exact ⟨_, rfl, insertedAt_end (hn ▸ hfound)⟩
    | some type =>
      rw [Option.bind_some, hlast]
      exact ⟨_, rfl, insertedAt_end (hn ▸ hfound)⟩

theorem isEmpty_eq_false (h : elements l ≠ []) : isEmpty l = false := by
  refine Bool.eq_false_iff.2 fun hempty => h ?_
  exact Blank.elements fun c hc => List.all_eq_true.1 hempty c hc

/-- Without a type, a new child fails among others. -/
theorem addElement_error (level : ℕ) (hn : s.nodeTypes e.nodeName = none) (hnew : .element e ∉ l)
    (h : elements l ≠ []) : addElement s level e l = .error .nullPointer := by
  obtain ⟨x, hx⟩ := List.exists_mem_of_ne_nil _ h
  unfold addElement
  rw [if_neg hnew, if_neg (by simp [isEmpty_eq_false h]),
    if_pos ⟨hn, List.any_eq_true.2 ⟨_, mem_elements.1 hx, rfl⟩⟩]

/-- A new child of a declared type is put in its place. -/
theorem addElement_spec (level : ℕ) (h : WellOrdered s l) (hn : s.nodeTypes e.nodeName = some type)
    (htype : type ∈ s.childElements) (hnew : .element e ∉ l) :
    ∃ l', addElement s level e l = .ok l' ∧ Inserted s e l l' := by
  have he : isNodeOfType s e type := by simp [isNodeOfType, hn]
  by_cases helements : elements l = []
  · obtain ⟨l', hl', hins⟩ := addElement_no_elements (s := s) level hnew helements
    refine ⟨l', hl', l, [], (List.append_nil l).symm, hins, fun y hy => ?_, fun y hy => ?_⟩
    · rw [helements] at hy
      cases hy
    · cases hy
  · unfold addElement
    rw [if_neg hnew, if_neg (by simp [isEmpty_eq_false helements]), if_neg (by simp [hn]), hn,
      Option.bind_some]
    cases hlast : getLastNode s type l with
    | none => exact ⟨_, rfl, prepareInsertionPoint_spec h htype he (getLastNode_eq_none hlast)⟩
    | some i =>
      obtain ⟨u, v, rfl, hlen, hplace⟩ := behindLast_spec h htype he hlast
      exact ⟨_, rfl, u, v, rfl, insertedAt_behind level hlen, hplace⟩

/-- The child behind which a new one goes if its type is not in the order: the last one of the type,
    or the last one of all. -/
def anchor (s : Schema) (type : String) (l : List Child) : Option ℕ :=
  (getLastNode s type l).or (lastIdx? Child.isElement l)

/-- The last child is the last one of the last type that has one. -/
theorem lastIdx?_isElement (h : WellOrdered s l) :
    lastIdx? Child.isElement l = s.childElements.reverse.findSome? (getLastNode s · l) := by
  cases hlast : lastIdx? Child.isElement l with
  | none =>
    refine (List.findSome?_eq_none_iff.2 fun d _ => lastIdx?_eq_none_iff.2 fun c hc hof => ?_).symm
    refine lastIdx?_eq_none_iff.1 hlast c hc ?_
    cases c with
    | element x => rfl
    | _ => cases hof
  | some i =>
    obtain ⟨u, c, v, rfl, rfl, hc, hv⟩ := lastIdx?_eq_some hlast
    cases c with
    | element x =>
      obtain ⟨d, hd, hx⟩ := h.known x (mem_elements.2 (by simp))
      obtain ⟨before, after, hs⟩ := List.append_of_mem hd
      have hrank := (rank_eq_iff hs).2 hx
      have hnone : ∀ y ∈ elements v, False := fun y hy => hv _ (mem_elements.1 hy) rfl
      -- nothing is of a later type than the last element
      have hafter : after.reverse.findSome? (getLastNode s · (u ++ .element x :: v)) = none := by
        refine List.findSome?_eq_none_iff.2 fun c hc => lastIdx?_eq_none_iff.2 fun b hb hof => ?_
        obtain ⟨before', after', rfl⟩ := List.append_of_mem (List.mem_reverse.1 hc)
        cases b with
        | element y =>
          have hs' : s.childElements = (before ++ d :: before') ++ c :: after' := by simp [hs]
          have hy := (rank_eq_iff hs').2 hof
          have hmem := mem_elements.2 hb
          rw [elements_append, show elements (Child.element x :: v) = x :: elements v from rfl,
            List.mem_append, List.mem_cons] at hmem
          rw [List.length_append, List.length_cons] at hy
          rcases hmem with hmem | rfl | hmem
          · have := h.le.1 hmem
            omega
          · omega
          · exact hnone y hmem
        | _ => cases hof
      have hd : getLastNode s d (u ++ .element x :: v) = some u.length := by
        cases hd : getLastNode s d (u ++ .element x :: v) with
        | none => exact absurd hx (getLastNode_eq_none hd x (mem_elements.2 (by simp)))
        | some i =>
          rw [← hd, getLastNode, lastIdx?_append_cons (show ofType s d (.element x) from hx)]
          intro b hb hof
          cases b with
          | element y => exact hnone y (mem_elements.2 hb)
          | _ => cases hof
      rw [hs, List.reverse_append, List.reverse_cons, List.append_assoc, List.findSome?_append,
        hafter, Option.none_or, List.singleton_append, List.findSome?_cons, hd]
    | _ => cases hc

/-- A new child whose type is not in the order. -/
theorem addElement_undeclared (level : ℕ) (h : WellOrdered s l)
    (hn : s.nodeTypes e.nodeName = some type) (htype : type ∉ s.childElements)
    (hnew : .element e ∉ l) (helements : elements l ≠ []) :
    ∃ u x v l', l = u ++ .element x :: v ∧ anchor s type l = some u.length ∧
      addElement s level e l = .ok l' ∧ InsertedAt e (u ++ [.element x]) v l' := by
  unfold addElement
  rw [if_neg hnew, if_neg (by simp [isEmpty_eq_false helements]), if_neg (by simp [hn]), hn,
    Option.bind_some, anchor]
  cases hlast : getLastNode s type l with
  | some i =>
    obtain ⟨u, x, v, rfl, rfl, -⟩ := getLastNode_eq_some hlast
    refine ⟨u, x, v, _, rfl, rfl, rfl, ?_⟩
    rw [List.append_cons u (.element x) v]
    exact insertedAt_behind level (by rw [List.length_append, List.length_singleton])
  | none =>
    obtain ⟨x, hx⟩ := List.exists_mem_of_ne_nil _ helements
    have hsome : lastIdx? Child.isElement l ≠ none := fun hnone =>
      lastIdx?_eq_none_iff.1 hnone _ (mem_elements.1 hx) rfl
    obtain ⟨i, hi⟩ := Option.ne_none_iff_exists'.1 hsome
    have hother : ∀ d ∈ s.childElements, some d ≠ some type := by
      rintro d hd heq
      cases heq
      exact htype hd
    have hfound : found s l (some type) = ⟨false, some i, none⟩ := by
      rw [found, foldl_before hother, ← lastIdx?_isElement h, hi]
    obtain ⟨u, c, v, rfl, rfl, hc, -⟩ := lastIdx?_eq_some hi
    cases c with
    | element y =>
      refine ⟨u, y, v, _, rfl, hi, rfl, ?_⟩
      rw [List.append_cons u (.element y) v] at hfound ⊢
      exact insertedAt_insertAfter (by simp) hfound
    | _ => cases hc

/-! ## Removing -/

/-- The child is taken out, with white space around it. -/
def Taken (e : Elem) (l rest : List Child) : Prop :=
  ∃ u v w₁ w₂, l = u ++ (w₁ ++ .element e :: w₂) ++ v ∧ rest = u ++ v ∧ Blank w₁ ∧ Blank w₂

theorem removeTextChild_spec (u v : List Child) :
    ∃ w v', v = w ++ v' ∧ Blank w ∧ removeTextChild u.length (u ++ v) = u ++ v' := by
  unfold removeTextChild
  rw [List.getElem?_append_right (Nat.le_refl _), Nat.sub_self]
  cases v with
  | nil => exact ⟨[], [], rfl, blank_nil, by simp⟩
  | cons c v =>
    rw [List.getElem?_cons_zero, Option.any_some]
    split
    · next hc =>
      refine ⟨[c], v, rfl, blank_singleton hc, ?_⟩
      rw [List.eraseIdx_append_of_length_le (Nat.le_refl _), Nat.sub_self]
      rfl
    · exact ⟨[], c :: v, rfl, blank_nil, rfl⟩

section
variable {u v : List Child} (h : .element e ∉ u)
include h

theorem taken_nextText :
    Taken e (u ++ .element e :: v)
      ((removeTextChild (u.length + 1) (u ++ .element e :: v)).erase (.element e)) := by
  obtain ⟨w, v', rfl, hw, heq⟩ := removeTextChild_spec (u ++ [.element e]) v
  rw [List.length_append, List.length_singleton, List.append_assoc, List.singleton_append,
    List.append_assoc, List.singleton_append] at heq
  rw [heq, List.erase_append_right _ h, List.erase_cons_head]
  exact ⟨u, v', [], w, by simp, rfl, blank_nil, hw⟩

theorem taken_previousText :
    Taken e (u ++ .element e :: v)
      ((removePreviousText u.length (u ++ .element e :: v)).erase (.element e)) := by
  rcases List.eq_nil_or_concat u with rfl | ⟨u, c, rfl⟩
  · exact ⟨[], v, [], [], rfl, by simp [removePreviousText], blank_nil, blank_nil⟩
  · rw [List.concat_eq_append] at h ⊢
    have hu : Child.element e ∉ u := fun hmem => h (List.mem_append_left _ hmem)
    rw [List.length_append, List.length_singleton, removePreviousText, List.append_assoc,
      List.singleton_append]
    obtain ⟨w, v', hw, hblank, heq⟩ := removeTextChild_spec u (c :: .element e :: v)
    rw [heq, List.erase_append_right _ hu]
    cases w with
    | nil =>
      obtain rfl : v' = c :: .element e :: v := hw.symm
      have hc : c ≠ .element e := fun hc => h (by simp [hc])
      rw [List.erase_cons_tail (by simpa using hc), List.erase_cons_head]
      exact ⟨u ++ [c], v, [], [], by simp, by simp, blank_nil, blank_nil⟩
    | cons d w =>
      obtain ⟨rfl, hrest⟩ := List.cons.inj hw
      cases w with
      | nil =>
        obtain rfl : v' = .element e :: v := hrest.symm
        rw [List.erase_cons_head]
        exact ⟨u, v, [c], [], by simp, rfl, hblank, blank_nil⟩
      | cons d w =>
        obtain ⟨rfl, -⟩ := List.cons.inj hrest
        exact absurd (hblank _ (List.mem_cons_of_mem _ List.mem_cons_self))
          (by simp [Child.isBlank])

end

/-- Without a type, nothing is removed from among others. -/
theorem removeElement_error (hn : s.nodeTypes e.nodeName = none) (h : elements l ≠ []) :
    removeElement s e l = .error .nullPointer := by
  obtain ⟨x, hx⟩ := List.exists_mem_of_ne_nil _ h
  exact if_pos ⟨hn, List.any_eq_true.2 ⟨_, mem_elements.1 hx, rfl⟩⟩

theorem removeElement_of_notMem (hn : s.nodeTypes e.nodeName = none → elements l = [])
    (h : .element e ∉ l) : removeElement s e l = .ok l := by
  unfold removeElement
  rw [if_neg, List.idxOf?_eq_none_iff.2 h]
  rintro ⟨hnone, hany⟩
  obtain ⟨c, hc, helement⟩ := List.any_eq_true.1 hany
  cases c with
  | element x =>
    rw [← mem_elements, hn hnone] at hc
    cases hc
  | _ => cases helement

/-- When nothing but texts would stay, these go too. -/
theorem removeElement_spec (hn : s.nodeTypes e.nodeName = some type) (h : .element e ∈ l) :
    ∃ rest, removeElement s e l = .ok (if hasOnlyTextChildren rest then [] else rest) ∧
      Taken e l rest := by
  obtain ⟨i, hi⟩ := Option.isSome_iff_exists.1 (List.isSome_idxOf?.2 h)
  obtain ⟨u, c, v, rfl, rfl, hc, hu⟩ := findIdx?_eq_some hi
  obtain rfl : c = .element e := by simpa using hc
  have hnot : Child.element e ∉ u := fun hmem => hu _ hmem (by simp)
  unfold removeElement
  rw [if_neg (by simp [hn]), hi]
  dsimp only
  split
  · exact ⟨_, rfl, taken_previousText hnot⟩
  · exact ⟨_, rfl, taken_nextText hnot⟩

end XmlAdapter

end Jbpm
