/-
  What is left of a process definition that is written and read again.

  * `Writable`: no nodes in super-states, no start state beside the one, and names that are
    found again;
  * `preserved_iff`: just these definitions are read as they were written.
-/
import Mathlib.Data.List.Perm.Basic
import Mathlib.Data.List.Nodup
import Mathlib.Data.List.Range
import Mathlib.Tactic.ByContra
import Jbpm.Jpdl.DefinitionXml

namespace Jbpm

namespace Jpdl

variable {ι κ C : Type} {E : Contents C}

/-! ## Runs that succeed -/

theorem bind_eq_ok {α β : Type} {x : Except Exn α} {f : α → Except Exn β} {b : β} :
    (x >>= f) = .ok b ↔ ∃ a, x = .ok a ∧ f a = .ok b := by
  cases x with
  | error e => simp [bind, Except.bind]
  | ok a => simp [bind, Except.bind]

theorem mapM_eq_ok {α β : Type} {f : α → Except Exn β} {l : List α} {l' : List β} :
    l.mapM f = .ok l' ↔ List.Forall₂ (fun a b => f a = .ok b) l l' := by
  induction l generalizing l' with
  | nil =>
    rw [List.mapM_nil, List.forall₂_nil_left_iff]
    exact ⟨fun h => (Except.ok.inj h).symm, fun h => h ▸ rfl⟩
  | cons a l ih =>
    rw [List.mapM_cons, bind_eq_ok, List.forall₂_cons_left_iff]
    refine exists_congr fun b => ?_
    rw [bind_eq_ok]
    constructor
    · rintro ⟨ha, bs, hl, hbs⟩
      exact ⟨bs, ha, ih.1 hl, (Except.ok.inj hbs).symm⟩
    · rintro ⟨bs, ha, hl, rfl⟩
      exact ⟨ha, bs, ih.2 hl, rfl⟩

theorem exists_of_forall₂ {α β : Type} {R : α → β → Prop} {l : List α} {l' : List β}
    (h : List.Forall₂ R l l') {b : β} (hb : b ∈ l') : ∃ a ∈ l, R a b := by
  induction h with
  | nil => cases hb
  | cons hab _ ih =>
    obtain rfl | hb := List.mem_cons.1 hb
    · exact ⟨_, List.mem_cons_self, hab⟩
    · obtain ⟨a, ha, hR⟩ := ih hb
      exact ⟨a, List.mem_cons_of_mem _ ha, hR⟩

theorem mapM_of_forall {α β : Type} {f : α → Except Exn β} {g : α → β} {l : List α}
    (h : ∀ a ∈ l, f a = .ok (g a)) : l.mapM f = .ok (l.map g) := by
  rw [mapM_eq_ok, List.forall₂_map_right_iff, List.forall₂_same]
  exact h

/-! ## Names -/

/-- A name that is taken for a name where a path is expected. -/
def Plain (name : String) : Prop := isBlank name = false ∧ '/' ∉ name.toList ∧ name ≠ ".."

theorem splitOn_not_mem {α : Type} [DecidableEq α] {a : α} {l p : List α} (hp : p ∈ l.splitOn a) :
    a ∉ p := by
  induction l generalizing p with
  | nil =>
    rw [List.splitOn_nil, List.mem_singleton] at hp
    simp [hp]
  | cons b l ih =>
    rw [List.splitOn_cons_eq_if_modifyHead] at hp
    split at hp
    · obtain rfl | hp := List.mem_cons.1 hp
      · simp
      · exact ih hp
    · rename_i hb
      rcases hl : l.splitOn a with _ | ⟨q, qs⟩
      · exact absurd hl (List.splitOn_ne_nil a l)
      · rw [hl, List.modifyHead_cons] at hp
        rw [hl] at ih
        obtain rfl | hp := List.mem_cons.1 hp
        · have hab : a ≠ b := fun h => hb (by simp [h])
          rw [List.mem_cons, not_or]
          exact ⟨hab, ih List.mem_cons_self⟩
        · exact ih (List.mem_cons_of_mem q hp)

theorem not_mem_of_mem_parts {name part : String} (h : part ∈ parts name) :
    '/' ∉ part.toList := by
  obtain ⟨p, hp, rfl⟩ := List.mem_map.1 h
  rw [String.toList_ofList]
  exact splitOn_not_mem (List.mem_of_mem_filter hp)

theorem parts_of_not_mem {name : String} (hblank : isBlank name = false)
    (h : '/' ∉ name.toList) : parts name = [name] := by
  have hne : name.toList ≠ [] := by
    intro hnil
    rw [isBlank, hnil] at hblank
    cases hblank
  rw [parts, List.splitOn_eq_singleton h]
  simp [hne]

/-- Whatever the way to it, the node that is found has the last name of the path. -/
theorem name_of_findPart {rs : List Record} {collection : Option ℕ} {names : List String} {k : ℕ}
    (h : findPart rs collection names = .ok (some k)) :
    ∃ r part, rs[k]? = some r ∧ r.name = some part ∧ part ∈ names ∧ part ≠ ".." := by
  induction names generalizing collection with
  | nil => cases h
  | cons part rest ih =>
    rw [findPart.eq_def] at h
    dsimp only at h
    split at h
    · rcases collection with _ | c
      · cases h
      · obtain ⟨r, part', hr, hname, hmem, hne⟩ := ih h
        exact ⟨r, part', hr, hname, List.mem_cons_of_mem _ hmem, hne⟩
    · rename_i hdots
      split at h
      · cases h
      · split at h
        · have hget := List.find?_some (Except.ok.inj h)
          obtain ⟨r, hr, hfound⟩ := (Option.any_eq_true _ _).1 hget
          rw [Bool.and_eq_true, decide_eq_true_eq, decide_eq_true_eq] at hfound
          exact ⟨r, part, hr, hfound.2, List.mem_cons_self, hdots⟩
        · rcases hget : getNode rs collection part with _ | c
          · rw [hget] at h
            cases h
          · rw [hget] at h
            dsimp only at h
            split at h
            · obtain ⟨r, part', hr, hname, hmem, hne⟩ := ih h
              exact ⟨r, part', hr, hname, List.mem_cons_of_mem _ hmem, hne⟩
            · cases h

/-- A node that is found under the name of another one. -/
theorem plain_of_findNode {rs : List Record} {collection : Option ℕ} {name : String} {k : ℕ}
    (hslash : '/' ∉ name.toList) (h : findNode rs collection name = .ok (some k)) :
    ∃ r, rs[k]? = some r ∧ r.name = some name ∧ Plain name := by
  rw [findNode] at h
  split at h
  · cases h
  · rename_i hblank
    rw [Bool.not_eq_true] at hblank
    obtain ⟨r, part, hr, hname, hmem, hdots⟩ := name_of_findPart h
    rw [parts_of_not_mem hblank hslash, List.mem_singleton] at hmem
    subst hmem
    exact ⟨r, hr, hname, hblank, hslash, hdots⟩

theorem name_of_findNode {rs : List Record} {collection : Option ℕ} {name : String} {k : ℕ}
    (h : findNode rs collection name = .ok (some k)) :
    ∃ r part, rs[k]? = some r ∧ r.name = some part ∧ part ∈ parts name := by
  rw [findNode] at h
  split at h
  · cases h
  · obtain ⟨r, part, hr, hname, hmem, -⟩ := name_of_findPart h
    exact ⟨r, part, hr, hname, hmem⟩

theorem findNode_of_plain {rs : List Record} {name : String} (h : Plain name) :
    findNode rs none name = .ok (getNode rs none name) := by
  obtain ⟨hblank, hslash, hdots⟩ := h
  rw [findNode, hblank, parts_of_not_mem hblank hslash, ite_self, findPart.eq_def]
  simp [hdots]

/-! ## Writing -/

namespace Graph

variable (D : Graph ι) (content : ι → C)

/-- The nodes that are written, in this order. -/
def written : List ι :=
  D.startState.toList ++ D.getNodes.filter fun i => (D.node i).type ≠ .startState

def element (i : ι) : Element C :=
  .mk (D.node i).type.getNodeName (D.node i).name
    ((D.node i).leavingTransitions.map D.writeTransition) (content i) []

def record (i : ι) : Record :=
  ⟨(D.node i).type, (D.node i).name, none,
    (D.node i).leavingTransitions.map D.writeTransition⟩

variable {D content}

theorem writeNodes_eq_ok {l : List ι} {es : List (Element C)} :
    l.mapM (D.writeNode E content) = .ok es ↔
      (∀ i ∈ l, E.writeThrows (content i) = false) ∧ es = l.map (D.element content) := by
  induction l generalizing es with
  | nil =>
    rw [List.mapM_nil]
    exact ⟨fun h => ⟨nofun, (Except.ok.inj h).symm⟩, fun h => h.2 ▸ rfl⟩
  | cons i l ih =>
    rw [List.mapM_cons, bind_eq_ok, List.forall_mem_cons]
    have hone : ∀ e, D.writeNode E content i = .ok e ↔
        E.writeThrows (content i) = false ∧ e = D.element content i := by
      intro e
      rw [writeNode]
      cases E.writeThrows (content i) with
      | true => simp
      | false => simpa [element] using eq_comm
    constructor
    · rintro ⟨e, he, hrest⟩
      obtain ⟨es', hes', heq⟩ := bind_eq_ok.1 hrest
      obtain ⟨hi, rfl⟩ := (hone e).1 he
      obtain ⟨hl, rfl⟩ := ih.1 hes'
      exact ⟨⟨hi, hl⟩, (Except.ok.inj heq).symm⟩
    · rintro ⟨⟨hi, hl⟩, rfl⟩
      exact ⟨_, (hone _).2 ⟨hi, rfl⟩, bind_eq_ok.2 ⟨_, ih.2 ⟨hl, rfl⟩, rfl⟩⟩

theorem write_eq_ok {c : C} {doc : Document C} :
    D.write E content c = .ok doc ↔
      (∀ i, D.startState = some i → (D.node i).type = .startState) ∧
      (∀ i ∈ D.written, E.writeThrows (content i) = false) ∧ E.writeThrows c = false ∧
      doc = ⟨none, c, D.written.map (D.element content)⟩ := by
  have hstart : ∀ es, D.writeStartNode E content = .ok es ↔
      (∀ i, D.startState = some i → (D.node i).type = .startState) ∧
        D.startState.toList.mapM (D.writeNode E content) = .ok es := by
    intro es
    rw [writeStartNode]
    rcases D.startState with _ | i
    · rw [Option.toList_none, List.mapM_nil]
      exact ⟨fun h => ⟨nofun, h⟩, fun h => h.2⟩
    · by_cases htype : (D.node i).type = .startState
      · simp [htype]
      · simp [htype]
  rw [write, bind_eq_ok, written]
  simp only [hstart, writeNodes_eq_ok, List.forall_mem_append, List.map_append]
  constructor
  · rintro ⟨es, ⟨htype, hs, rfl⟩, hrest⟩
    obtain ⟨es', hes', heq⟩ := bind_eq_ok.1 hrest
    obtain ⟨hn, rfl⟩ := writeNodes_eq_ok.1 hes'
    cases hc : E.writeThrows c with
    | true => simp [hc] at heq
    | false =>
      rw [hc] at heq
      exact ⟨htype, ⟨hs, hn⟩, rfl, (Except.ok.inj heq).symm⟩
  · rintro ⟨htype, ⟨hs, hn⟩, hc, rfl⟩
    refine ⟨_, ⟨htype, hs, rfl⟩, bind_eq_ok.2 ⟨_, writeNodes_eq_ok.2 ⟨hn, rfl⟩, ?_⟩⟩
    rw [hc]
    rfl

/-- The other start states are left out. -/
theorem starts_written (D : Graph ι) :
    (D.written.filter fun i => (D.node i).type = .startState).length ≤ 1 := by
  have hrest : ((D.getNodes.filter fun i => (D.node i).type ≠ .startState).filter
      fun i => (D.node i).type = .startState) = [] := by
    rw [List.filter_eq_nil_iff]
    intro i hi
    simpa using (List.mem_filter.1 hi).2
  rw [written, List.filter_append, hrest, List.append_nil]
  cases D.startState with
  | none => simp
  | some i => exact List.length_filter_le _ [i]

/-! ## Reading -/

theorem readNode_element (i : ι) (s : Reading) :
    readNode E none none none (D.element content i) s =
      if (D.node i).type = .startState ∧ s.startState.isSome then .error .startStates
      else if (D.node i).name.any (s.hasNode none) then .error .duplicateName
      else if E.readFails (content i) then .error .content
      else .ok (s.addNode (D.record i)) := by
  have hinitial : ((D.node i).name.any fun name =>
      (none : Option String) == some (getFullyQualifiedName none name)) = false := by
    cases (D.node i).name <;> rfl
  rw [element, readNode]
  simp only [NodeType.getNodeType_getNodeName, hinitial, Bool.false_eq_true, if_false, readNodes,
    ite_self, record]

theorem hasNode_iff {s : Reading} (hs : ∀ r ∈ s.nodes, r.superState = none) (name : String) :
    s.hasNode none name = true ↔ name ∈ s.nodes.filterMap (·.name) := by
  rw [Reading.hasNode, List.any_eq_true, List.mem_filterMap]
  refine exists_congr fun r => ?_
  rw [Bool.and_eq_true, decide_eq_true_eq, decide_eq_true_eq]
  exact ⟨fun h => ⟨h.1, h.2.2⟩, fun h => ⟨h.1, hs r h.1, h.2⟩⟩

/-- The start states are as many as are read already, and those in a list. -/
def starts (s : Reading) (l : List ι) : ℕ :=
  s.startState.toList.length + (l.filter fun i => (D.node i).type = .startState).length

theorem starts_addNode (i : ι) (l : List ι) (s : Reading)
    (h : ¬((D.node i).type = .startState ∧ s.startState.isSome)) :
    D.starts (s.addNode (D.record i)) l = D.starts s (i :: l) := by
  rw [starts, starts, Reading.addNode, record]
  by_cases htype : (D.node i).type = .startState
  · have hnone : s.startState = none := by simpa [htype] using h
    simp [htype, hnone, Nat.add_comm]
  · simp [htype]

theorem starts_nil (s : Reading) : D.starts s [] ≤ 1 := by
  rw [starts]
  cases s.startState <;> simp

theorem filterMap_name_cons (i : ι) (l : List ι) :
    (i :: l).filterMap (fun i => (D.node i).name) =
      (D.node i).name.toList ++ l.filterMap fun i => (D.node i).name := by
  rw [List.filterMap_cons]
  cases (D.node i).name <;> rfl

theorem readNodes_eq_ok {l : List ι} {s s' : Reading} (hs : ∀ r ∈ s.nodes, r.superState = none)
    (hnames : (s.nodes.filterMap (·.name)).Nodup) :
    readNodes E none none none (l.map (D.element content)) s = .ok s' ↔
      (∀ i ∈ l, E.readFails (content i) = false) ∧ D.starts s l ≤ 1 ∧
      (s.nodes.filterMap (·.name) ++ l.filterMap fun i => (D.node i).name).Nodup ∧
      s' = (l.map D.record).foldl Reading.addNode s := by
  induction l generalizing s with
  | nil =>
    rw [List.map_nil, readNodes, List.filterMap_nil, List.append_nil, List.map_nil,
      List.foldl_nil]
    exact ⟨fun h => ⟨nofun, D.starts_nil s, hnames, (Except.ok.inj h).symm⟩,
      fun h => h.2.2.2 ▸ rfl⟩
  | cons i l ih =>
    rw [List.map_cons, readNodes, bind_eq_ok, readNode_element]
    by_cases hstart : (D.node i).type = .startState ∧ s.startState.isSome
    · rw [if_pos hstart]
      refine ⟨fun ⟨_, h, _⟩ => (nomatch h), fun ⟨_, h, _⟩ => absurd h ?_⟩
      obtain ⟨htype, hsome⟩ := hstart
      obtain ⟨k, hk⟩ := Option.isSome_iff_exists.1 hsome
      simp [starts, htype, hk]
    · rw [if_neg hstart, ← starts_addNode i l s hstart]
      by_cases hdup : (D.node i).name.any (s.hasNode none) = true
      · rw [if_pos hdup]
        refine ⟨fun ⟨_, h, _⟩ => (nomatch h), fun ⟨_, _, h, _⟩ => absurd h ?_⟩
        obtain ⟨name, hname, hmem⟩ := (Option.any_eq_true _ _).1 hdup
        rw [hasNode_iff hs] at hmem
        rw [filterMap_name_cons, hname, List.nodup_append]
        exact fun h => h.2.2 name hmem name List.mem_cons_self rfl
      · rw [if_neg hdup, List.forall_mem_cons]
        cases hread : E.readFails (content i) with
        | true => simp
        | false =>
          have hadded : ∀ r ∈ (s.addNode (D.record i)).nodes, r.superState = none := by
            intro r hr
            obtain hr | hr := List.mem_append.1 hr
            · exact hs r hr
            · rw [List.mem_singleton.1 hr, record]
          have hadded' : (s.addNode (D.record i)).nodes.filterMap (·.name) =
              s.nodes.filterMap (·.name) ++ (D.node i).name.toList := by
            rw [Reading.addNode, List.filterMap_append, record]
            cases (D.node i).name <;> rfl
          have hnodup : (s.nodes.filterMap (·.name) ++ (D.node i).name.toList).Nodup := by
            cases hname : (D.node i).name with
            | none => simpa using hnames
            | some name =>
              rw [hname, Option.any_some, hasNode_iff hs] at hdup
              rw [Option.toList_some, List.nodup_append]
              refine ⟨hnames, List.nodup_singleton name, fun a ha b hb => ?_⟩
              rw [List.mem_singleton.1 hb]
              exact fun hab => hdup (hab ▸ ha)
          have hrest := ih (s := s.addNode (D.record i)) hadded (hadded'.symm ▸ hnodup)
          rw [hadded'] at hrest
          rw [filterMap_name_cons, ← List.append_assoc, List.map_cons, List.foldl_cons]
          simpa using hrest

theorem foldl_addNode (rs : List Record) (s : Reading) :
    (rs.foldl Reading.addNode s).nodes = s.nodes ++ rs := by
  induction rs generalizing s with
  | nil => simp
  | cons r rs ih =>
    rw [List.foldl_cons, ih, Reading.addNode]
    simp

theorem read_eq_ok {l : List ι} {c : C} {D' : Graph ℕ} :
    read E ⟨none, c, l.map (D.element content)⟩ = .ok D' ↔
      E.readFails c = false ∧ (∀ i ∈ l, E.readFails (content i) = false) ∧
      (l.filter fun i => (D.node i).type = .startState).length ≤ 1 ∧
      (l.filterMap fun i => (D.node i).name).Nodup ∧
      ∃ leaving, resolveTransitionDestinations (l.map D.record) = .ok leaving ∧
        D' = ofRecords ((l.map D.record).foldl Reading.addNode ⟨[], none⟩) leaving := by
  have hnodes := foldl_addNode (l.map D.record) ⟨[], none⟩
  have hread : readNodes E none none none (l.map (D.element content)) ⟨[], none⟩ =
      .ok ((l.map D.record).foldl Reading.addNode ⟨[], none⟩) ↔ _ :=
    readNodes_eq_ok nofun List.nodup_nil
  rw [read]
  cases hc : E.readFails c with
  | true => simp
  | false =>
    rw [if_neg Bool.false_ne_true, bind_eq_ok]
    constructor
    · rintro ⟨s, hs, hrest⟩
      obtain ⟨hcontent, hstarts, hnames, rfl⟩ := (readNodes_eq_ok (s := ⟨[], none⟩) nofun
        List.nodup_nil).1 hs
      obtain ⟨leaving, hleaving, hD⟩ := bind_eq_ok.1 hrest
      rw [hnodes, List.nil_append] at hleaving
      exact ⟨rfl, hcontent, by simpa [starts] using hstarts, by simpa using hnames, leaving,
        hleaving, (Except.ok.inj hD).symm⟩
    · rintro ⟨-, hcontent, hstarts, hnames, leaving, hleaving, rfl⟩
      refine ⟨_, hread.2 ⟨hcontent, by simpa [starts] using hstarts, by simpa using hnames, rfl⟩,
        bind_eq_ok.2 ⟨leaving, ?_, rfl⟩⟩
      rw [hnodes, List.nil_append]
      exact hleaving

end Graph

/-! ## The same definition -/

def Transition.map (φ : ι → κ) (t : Transition ι) : Transition κ := ⟨t.name, t.destination.map φ⟩

def Node.map (φ : ι → κ) (N : Node ι) : Node κ :=
  ⟨N.type, N.name, N.superState.map φ, N.leavingTransitions.map (Transition.map φ)⟩

/-- The nodes correspond one to one, with their types, names, nesting and transitions. -/
structure Same (D : Graph ι) (D' : Graph κ) (φ : ι → κ) : Prop where
  nodup : D'.nodes.Nodup
  nodes : (D.nodes.map φ).Perm D'.nodes
  node : ∀ i ∈ D.nodes, D'.node (φ i) = (D.node i).map φ

/-- What is written is read, and is the same definition. -/
def Preserved (E : Contents C) (D : Graph ι) (content : ι → C) (c : C) : Prop :=
  ∃ doc D' φ, D.write E content c = .ok doc ∧ read E doc = .ok D' ∧ Same D D' φ

/-- There are no nodes in super-states, the only start state is the one of the definition, and
    the transitions lead to nodes with names that are found again. -/
structure Writable (D : Graph ι) : Prop where
  superState : ∀ i ∈ D.nodes, (D.node i).superState = none
  startState : ∀ i ∈ D.nodes, (D.node i).type = .startState ↔ D.startState = some i
  names : (D.nodes.filterMap fun i => (D.node i).name).Nodup
  destination : ∀ i ∈ D.nodes, ∀ t ∈ (D.node i).leavingTransitions, ∀ d,
    t.destination = some d → ∃ name, (D.node d).name = some name ∧ Plain name

section Definition

variable {D : Definition ι} {content : ι → C} {c : C}

theorem mem_nodes_of_mem_written {i : ι} (h : i ∈ D.written) : i ∈ D.nodes := by
  obtain h | h := List.mem_append.1 h
  · exact D.startState_mem i (Option.mem_toList.1 h)
  · exact List.mem_of_mem_filter (List.mem_of_mem_filter h)

theorem getNodes_eq (h : ∀ i ∈ D.nodes, (D.node i).superState = none) : D.getNodes = D.nodes := by
  rw [Graph.getNodes, List.filter_eq_self]
  intro i hi
  rw [h i hi]
  rfl

theorem written_perm_of_startState (hsuper : ∀ i ∈ D.nodes, (D.node i).superState = none)
    (htype : ∀ i ∈ D.nodes, (D.node i).type = .startState ↔ D.startState = some i) :
    D.written.Perm D.nodes := by
  classical
  rw [Graph.written, getNodes_eq hsuper]
  rcases hstart : D.startState with _ | s
  · rw [Option.toList_none, List.nil_append, List.filter_eq_self.2]
    intro i hi
    rw [decide_eq_true_eq, ne_eq, htype i hi, hstart]
    nofun
  · have hs : s ∈ D.nodes := D.startState_mem s hstart
    have herase : (D.nodes.filter fun i => (D.node i).type ≠ .startState) = D.nodes.erase s := by
      rw [D.nodup.erase_eq_filter]
      refine List.filter_congr fun i hi => ?_
      rw [Bool.eq_iff_iff, decide_eq_true_eq, bne_iff_ne, ne_eq, htype i hi, hstart,
        Option.some_inj]
      exact not_congr eq_comm
    rw [herase, Option.toList_some]
    exact (List.perm_cons_erase hs).symm

theorem written_perm (h : Writable D.toGraph) : D.written.Perm D.nodes :=
  written_perm_of_startState h.superState h.startState

/-- No start state has been left out. -/
theorem startState_of_length (htype : ∀ i, D.startState = some i → (D.node i).type = .startState)
    (hsuper : ∀ i ∈ D.nodes, (D.node i).superState = none)
    (hlength : D.written.length = D.nodes.length) :
    ∀ i ∈ D.nodes, (D.node i).type = .startState ↔ D.startState = some i := by
  have hsplit := List.length_eq_length_filter_add (l := D.nodes)
    fun i => (D.node i).type = .startState
  rw [Graph.written, getNodes_eq hsuper, List.length_append] at hlength
  have hcount : (D.nodes.filter fun i => (D.node i).type = .startState).length =
      D.startState.toList.length := by
    simp only [decide_not, ne_eq] at hlength hsplit
    omega
  refine fun i hi => ⟨fun h => ?_, htype i⟩
  have hfilter : i ∈ D.nodes.filter fun i => (D.node i).type = .startState :=
    List.mem_filter.2 ⟨hi, decide_eq_true h⟩
  rcases hstart : D.startState with _ | s
  · rw [hstart, Option.toList_none, List.length_nil, List.length_eq_zero_iff] at hcount
    rw [hcount] at hfilter
    cases hfilter
  · have hs : s ∈ D.nodes.filter fun i => (D.node i).type = .startState :=
      List.mem_filter.2 ⟨D.startState_mem s hstart, decide_eq_true (htype s hstart)⟩
    rw [hstart, Option.toList_some, List.length_singleton, List.length_eq_one_iff] at hcount
    obtain ⟨a, ha⟩ := hcount
    rw [ha, List.mem_singleton] at hs hfilter
    rw [hs, hfilter]

theorem getNode_record {l : List ι} (hnames : (l.filterMap fun i => (D.node i).name).Nodup)
    {k : ℕ} {d : ι} {name : String} (hk : l[k]? = some d) (hname : (D.node d).name = some name) :
    getNode (l.map D.record) none name = some k := by
  obtain ⟨hlt, hkd⟩ := List.getElem?_eq_some_iff.1 hk
  rw [getNode, List.find?_range_eq_some]
  refine ⟨?_, ?_, fun j hj => ?_⟩
  · simp [hk, Graph.record, hname]
  · simpa using hlt
  · have hjlt : j < l.length := hj.trans hlt
    have hne := List.pairwise_iff_getElem.1 (List.pairwise_filterMap.1 hnames) j k hjlt hlt hj
    rw [hkd] at hne
    have hother : (D.node l[j]).name ≠ some name := fun h => hne name h name hname rfl
    simp [hjlt, Graph.record, hother]

/-! ## From the condition -/

theorem resolve_of_writable (h : Writable D.toGraph) {φ : ι → ℕ}
    (hφ : ∀ i ∈ D.nodes, D.written[φ i]? = some i) {i : ι} (hi : i ∈ D.nodes) {t : Transition ι}
    (ht : t ∈ (D.node i).leavingTransitions) :
    resolveTransitionDestination (D.written.map D.record) (D.record i) (D.writeTransition t) =
      .ok (t.map φ) := by
  have hperm := written_perm h
  have htype : (D.node i).type ≠ .endState := by
    intro hend
    rw [D.leavingTransitions_endState i hi hend] at ht
    cases ht
  rw [resolveTransitionDestination, Graph.record, if_neg htype, Graph.writeTransition,
    Transition.map]
  rcases hd : t.destination with _ | d
  · rfl
  · obtain ⟨name, hname, hplain⟩ := h.destination i hi t ht d hd
    have hmem : d ∈ D.nodes := D.destination_mem i hi t ht d hd
    have hnames := (hperm.filterMap fun i => (D.node i).name).nodup_iff.2 h.names
    have hfound : findNode (D.written.map D.record) none name = .ok (some (φ d)) := by
      rw [findNode_of_plain hplain, getNode_record hnames (hφ d hmem) hname]
    have hstart : (D.written.map D.record)[φ d]?.any (·.type = .startState) = false := by
      rw [List.getElem?_map, hφ d hmem, Option.map_some, Option.any_some, Graph.record]
      exact decide_eq_false (D.destination_startState i hi t ht d hd)
    simp only [Option.bind_some, hname, hfound, hstart, Bool.false_eq_true, if_false,
      Option.map_some]

theorem preserved_of_writable (h : Writable D.toGraph)
    (hc : E.writeThrows c = false ∧ E.readFails c = false)
    (hcontent : ∀ i ∈ D.nodes, E.writeThrows (content i) = false ∧ E.readFails (content i) = false) :
    Preserved E D.toGraph content c := by
  classical
  have hperm := written_perm h
  have hmem : ∀ {i}, i ∈ D.written → i ∈ D.nodes := mem_nodes_of_mem_written
  have hnodup : D.written.Nodup := hperm.nodup_iff.2 D.nodup
  let φ : ι → ℕ := fun i => D.written.idxOf i
  have hφ : ∀ i ∈ D.nodes, D.written[φ i]? = some i :=
    fun i hi => List.getElem?_idxOf (hperm.mem_iff.2 hi)
  let leaving := D.written.map fun i => (D.node i).leavingTransitions.map (Transition.map φ)
  have hleaving : resolveTransitionDestinations (D.written.map D.record) = .ok leaving := by
    rw [resolveTransitionDestinations, List.mapM_map]
    refine mapM_of_forall fun i hi => ?_
    change ((D.node i).leavingTransitions.map D.writeTransition).mapM _ = _
    rw [List.mapM_map]
    exact mapM_of_forall fun t ht => resolve_of_writable h hφ (hmem hi) ht
  have hwrite := Graph.write_eq_ok.2 ⟨fun i hi => (h.startState i (D.startState_mem i hi)).2 hi,
    fun i hi => (hcontent i (hmem hi)).1, hc.1, rfl⟩
  have hread := Graph.read_eq_ok.2 ⟨hc.2, fun i hi => (hcontent i (hmem hi)).2, D.starts_written,
    (hperm.filterMap fun i => (D.node i).name).nodup_iff.2 h.names, leaving, hleaving, rfl⟩
  have hnodes := Graph.foldl_addNode (D.written.map D.record) ⟨[], none⟩
  refine ⟨_, _, φ, hwrite, hread, ?_, ?_, fun i hi => ?_⟩
  · exact List.nodup_range
  · rw [Graph.ofRecords, hnodes, List.nil_append, List.length_map]
    refine (hperm.symm.map φ).trans (List.Perm.of_eq (List.ext_getElem (by simp) fun k hk _ => ?_))
    simp [φ, hnodup.idxOf_getElem]
  · rw [Graph.ofRecords, hnodes]
    simp only [List.nil_append, List.getElem?_map, hφ i hi, Option.map_some, leaving]
    rw [Graph.record, Node.map, h.superState i hi]
    rfl

/-! ## To the condition -/

theorem findNode_of_resolve {rs : List Record} {r : Record} {te : TransitionElement}
    {t : Transition ℕ} {k : ℕ} (h : resolveTransitionDestination rs r te = .ok t)
    (hk : t.destination = some k) :
    ∃ name, te.toName = some name ∧ findNode rs r.superState name = .ok (some k) := by
  rw [resolveTransitionDestination] at h
  split at h
  · cases h
  · rcases hname : te.toName with _ | name
    · rw [hname] at h
      rw [← Except.ok.inj h] at hk
      cases hk
    · rw [hname] at h
      dsimp only at h
      split at h
      · cases h
      · rw [← Except.ok.inj h] at hk
        cases hk
      · rename_i d hfound
        split at h
        · cases h
        · rw [← Except.ok.inj h] at hk
          exact ⟨name, rfl, hk ▸ hfound⟩

/-- What is read: the nodes that were written, side by side, and transitions to nodes that are
    found under the name of a destination. -/
theorem node_of_read {D' : Graph ℕ}
    (h : read E ⟨none, c, D.written.map (D.element content)⟩ = .ok D') :
    D'.nodes = List.range D.written.length ∧ ∀ k ∈ D'.nodes, (D'.node k).superState = none ∧
      (D.written.map D.record)[k]?.map (·.name) = some (D'.node k).name ∧
      ∀ t' ∈ (D'.node k).leavingTransitions, ∀ k', t'.destination = some k' →
        ∃ i ∈ D.nodes, ∃ t ∈ (D.node i).leavingTransitions, ∃ d name,
          t.destination = some d ∧ (D.node d).name = some name ∧
          findNode (D.written.map D.record) none name = .ok (some k') := by
  obtain ⟨-, -, -, -, leaving, hleaving, rfl⟩ := Graph.read_eq_ok.1 h
  have hnodes := Graph.foldl_addNode (D.written.map D.record) ⟨[], none⟩
  have hrange : (Graph.ofRecords ((D.written.map D.record).foldl Reading.addNode ⟨[], none⟩)
      leaving).nodes = List.range D.written.length := by
    rw [Graph.ofRecords, hnodes, List.nil_append, List.length_map]
  refine ⟨hrange, fun k hk => ?_⟩
  rw [hrange, List.mem_range] at hk
  have hall := mapM_eq_ok.1 hleaving
  have hlen : k < leaving.length := by simpa [← hall.length_eq] using hk
  have hone := hall.get (i := k) (by simpa using hk) hlen
  have hrecord : (D.written.map D.record)[k]? = some (D.record D.written[k]) := by simp [hk]
  have hnode : (Graph.ofRecords ((D.written.map D.record).foldl Reading.addNode ⟨[], none⟩)
      leaving).node k = ⟨(D.node D.written[k]).type, (D.node D.written[k]).name, none,
        leaving[k]⟩ := by
    rw [Graph.ofRecords, hnodes]
    simp [hk, hlen, Graph.record]
  rw [hnode, hrecord]
  refine ⟨rfl, rfl, fun t' ht' k' hk' => ?_⟩
  have htransitions : (D.record D.written[k]).transitions.mapM (resolveTransitionDestination
      (D.written.map D.record) (D.record D.written[k])) = .ok leaving[k] := by simpa using hone
  obtain ⟨te, hte, hresolve⟩ := exists_of_forall₂ (mapM_eq_ok.1 htransitions) ht'
  obtain ⟨t, ht, rfl⟩ := List.mem_map.1 hte
  obtain ⟨name, hname, hfound⟩ := findNode_of_resolve hresolve hk'
  obtain ⟨d, hd, hdname⟩ := Option.bind_eq_some_iff.1 hname
  exact ⟨_, mem_nodes_of_mem_written (List.getElem_mem hk), t, ht, d, name, hd, hdname, hfound⟩

theorem writable_of_preserved (h : Preserved E D.toGraph content c) :
    Writable D.toGraph ∧ (E.writeThrows c = false ∧ E.readFails c = false) ∧
      ∀ i ∈ D.nodes, E.writeThrows (content i) = false ∧ E.readFails (content i) = false := by
  obtain ⟨doc, D', φ, hwrite, hread, hsame⟩ := h
  obtain ⟨htype, hwritten, hc, rfl⟩ := Graph.write_eq_ok.1 hwrite
  obtain ⟨hrange, hnode⟩ := node_of_read hread
  obtain ⟨hc', hcontent, -, hnames, -⟩ := Graph.read_eq_ok.1 hread
  have hmem : ∀ i ∈ D.nodes, φ i ∈ D'.nodes :=
    fun i hi => hsame.nodes.mem_iff.1 (List.mem_map_of_mem hi)
  have hsuper : ∀ i ∈ D.nodes, (D.node i).superState = none := by
    intro i hi
    have hnone := (hnode _ (hmem i hi)).1
    rw [hsame.node i hi] at hnone
    exact Option.map_eq_none_iff.1 hnone
  have hlength : D.written.length = D.nodes.length := by
    have hlen := hsame.nodes.length_eq
    rw [hrange, List.length_map, List.length_range] at hlen
    exact hlen.symm
  have hstart := startState_of_length htype hsuper hlength
  -- a destination is found under a name of its own, which is no path
  have hfound : ∀ i ∈ D.nodes, ∀ t ∈ (D.node i).leavingTransitions, ∀ d, t.destination = some d →
      ∃ i' ∈ D.nodes, ∃ t' ∈ (D.node i').leavingTransitions, ∃ d' name,
        t'.destination = some d' ∧ (D.node d').name = some name ∧
        findNode (D.written.map D.record) none name = .ok (some (φ d)) := by
    intro i hi t ht d hd
    refine (hnode _ (hmem i hi)).2.2 (t.map φ) ?_ (φ d) (by rw [Transition.map, hd]; rfl)
    rw [hsame.node i hi]
    exact List.mem_map_of_mem ht
  have hname : ∀ d ∈ D.nodes, ∀ r, (D.written.map D.record)[φ d]? = some r →
      r.name = (D.node d).name := by
    intro d hd r hr
    have hrecord := (hnode _ (hmem d hd)).2.1
    rw [hr, hsame.node d hd] at hrecord
    exact Option.some.inj hrecord
  have hslash : ∀ i ∈ D.nodes, ∀ t ∈ (D.node i).leavingTransitions, ∀ d, t.destination = some d →
      ∀ name, (D.node d).name = some name → '/' ∉ name.toList := by
    intro i hi t ht d hd name hdname
    obtain ⟨-, -, -, -, -, path, -, -, hpath⟩ := hfound i hi t ht d hd
    obtain ⟨r, part, hr, hrname, hpart⟩ := name_of_findNode hpath
    rw [hname d (D.destination_mem i hi t ht d hd) r hr, hdname] at hrname
    exact Option.some.inj hrname ▸ not_mem_of_mem_parts hpart
  have hdestination : ∀ i ∈ D.nodes, ∀ t ∈ (D.node i).leavingTransitions, ∀ d,
      t.destination = some d → ∃ name, (D.node d).name = some name ∧ Plain name := by
    intro i hi t ht d hd
    obtain ⟨i', hi', t', ht', d', name, hd', hdname', hpath⟩ := hfound i hi t ht d hd
    obtain ⟨r, hr, hrname, hplain⟩ :=
      plain_of_findNode (hslash i' hi' t' ht' d' hd' name hdname') hpath
    exact ⟨name, hname d (D.destination_mem i hi t ht d hd) r hr ▸ hrname, hplain⟩
  have hperm := written_perm_of_startState hsuper hstart
  refine ⟨⟨hsuper, hstart, (hperm.filterMap fun i => (D.node i).name).nodup_iff.1 hnames,
    hdestination⟩, ⟨hc, hc'⟩, fun i hi => ?_⟩
  have hi := hperm.mem_iff.2 hi
  exact ⟨hwritten i hi, hcontent i hi⟩

/-- What is written is read again just as it was, for the definitions that are `Writable` and have
contents that can be written and read. -/
theorem preserved_iff (E : Contents C) (D : Definition ι) (content : ι → C) (c : C) :
    Preserved E D.toGraph content c ↔
      Writable D.toGraph ∧ (E.writeThrows c = false ∧ E.readFails c = false) ∧
        ∀ i ∈ D.nodes, E.writeThrows (content i) = false ∧ E.readFails (content i) = false :=
  ⟨writable_of_preserved, fun ⟨h, hc, hcontent⟩ => preserved_of_writable h hc hcontent⟩

end Definition

/-- A super-state `phase` with a single node `wait`. -/
def Definition.nested : Definition ℕ where
  nodes := [0, 1]
  node
    | 0 => ⟨.superState, some "phase", none, []⟩
    | _ => ⟨.state, some "wait", some 0, []⟩
  startState := none
  nodup := by decide
  startState_mem := nofun
  destination_mem := by simp
  leavingTransitions_endState := by simp
  destination_startState := by simp

/-- The node of the super-state is lost. -/
theorem not_preserved :
    ¬ Preserved ⟨fun _ => false, fun _ => false⟩ Definition.nested.toGraph (fun _ => ()) () := by
  rintro ⟨doc, D', φ, hwrite, hread, hsame⟩
  obtain rfl : ⟨none, (), [.mk "super-state" (some "phase") [] () []]⟩ = doc :=
    Except.ok.inj hwrite
  have hnodes : [0] = D'.nodes := congrArg Graph.nodes (Except.ok.inj hread)
  have hlength := hsame.nodes.length_eq
  rw [← hnodes, List.length_map] at hlength
  exact absurd hlength (by decide)

end Jpdl

end Jbpm
