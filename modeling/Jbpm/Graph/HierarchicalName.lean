/-
  Nodes and their hierarchical names: the names of the super-states around a node and
  its own, with slashes in between.

  * `getFullyQualifiedName`, `findNode`: the name of a node, and the node of a name;
  * `parts_qualified`: the parts of a fully qualified name;
  * `leadsTo_iff`: when a lookup finds what its path leads to, and throws nothing;
  * `findNode_fullyQualifiedName`: when the name of a node leads back to it;
  * `lookup_iff`: both, and lookups from within super-states.
-/
import Jbpm.Jpdl.DefinitionXml
import Jbpm.Lib.Forest
import Mathlib.Data.Fintype.Option
import Mathlib.Data.List.Induction
import Mathlib.Logic.Function.Basic

namespace Jbpm

namespace Graph

open Lib Jpdl

variable {N : Type}

/-- The nodes of a process definition.  The nodes of a collection, the process definition
    (`none`) or a super-state, are a list or null. -/
structure Hierarchy (N : Type) where
  superState : Forest N
  name : N → Option String
  isSuperState : N → Bool
  nodes : Option N → Option (List N)
  mem_nodes : ∀ {c n}, n ∈ (nodes c).getD [] ↔ superState.parent n = c
  distinct : ∀ c, (((nodes c).getD []).map name).Nodup
  isSuperState_of_parent : ∀ {n s}, superState.parent n = some s → isSuperState s = true
  slash_notMem : ∀ {n s}, name n = some s → '/' ∉ s.toList

namespace Hierarchy

inductive Exn where
  | nullPointer
  | classCast
  /-- `couldn't find node .. because of a '..' on the process definition.` -/
  | noParent
  deriving DecidableEq

variable (D : Hierarchy N)

/-- `getNodesMap`, of a list that is not null -/
def nodesMap (nodes : List N) : Option String → Option N :=
  nodes.foldl (fun m n => Function.update m (D.name n) (some n)) fun _ => none

/-- `getNode`: only the process definition checks that it has a list. -/
def getNode (c : Option N) (name : String) : Except Exn (Option N) :=
  match c, D.nodes c with
  | none, none => .ok none
  | some _, none => .error .nullPointer
  | _, some nodes => .ok (D.nodesMap nodes (some name))

/-- The loop of `ProcessDefinition.findNode`.  A collection that is null or no collection
    shows when the next part is looked up in it. -/
def findPart (c : Option N) : List String → Except Exn (Option N)
  | [] => .ok none
  | namePart :: rest =>
    if namePart = ".." then
      match c with
      | none => .error .noParent
      | some k => findPart (D.superState.parent k) rest
    else
      match D.getNode c namePart with
      | .error e => .error e
      | .ok node =>
        if rest = [] then .ok node
        else
          match node with
          | none => .error .nullPointer
          | some k => if D.isSuperState k then findPart (some k) rest else .error .classCast

/-- `findNode`, of the process definition or a super-state -/
def findNode (c : Option N) : Option String → Except Exn (Option N)
  | none => .ok none
  | some hierarchicalName =>
    if isBlank hierarchicalName then .ok none
    else
      D.findPart (if hierarchicalName.toList.head? = some '/' then none else c)
        (parts hierarchicalName)

/-- The name of a node below some super-states, from the inside out; a name that is null
    is written out. -/
def qualified : List N → Option String
  | [] => none
  | [n] => D.name n
  | n :: s :: ss => some ((qualified (s :: ss)).getD "null" ++ "/" ++ (D.name n).getD "null")

def getFullyQualifiedName (n : N) : Option String := D.qualified (D.superState.path n)

/-! ## Where a path leads -/

/-- The node of a name, in a collection. -/
def child (c : Option N) (name : String) : Option N :=
  ((D.nodes c).getD []).find? fun n => decide (D.name n = some name)

/-- The node that a path leads to, if there is one. -/
def leadsTo (c : Option N) : List String → Option N
  | [] => none
  | part :: rest =>
    if part = ".." then c.bind fun k => leadsTo (D.superState.parent k) rest
    else if rest = [] then D.child c part
    else (D.child c part).bind fun k => if D.isSuperState k then leadsTo (some k) rest else none

/-- A path that can be followed: no `..` at the process definition, no name looked up in a
    super-state that never had a node, and every name but the last is the name of a
    super-state. -/
def Followed (c : Option N) : List String → Prop
  | [] => True
  | part :: rest =>
    if part = ".." then ∃ k, c = some k ∧ Followed (D.superState.parent k) rest
    else (c ≠ none → D.nodes c ≠ none) ∧
      (rest = [] ∨ ∃ k, D.child c part = some k ∧ D.isSuperState k = true ∧ Followed (some k) rest)

/-- The parts of a string, and the collection from which they are looked up. -/
def start (c : Option N) : Option String → Option N × List String
  | none => (c, [])
  | some hierarchicalName =>
    if isBlank hierarchicalName then (c, [])
    else (if hierarchicalName.toList.head? = some '/' then none else c, parts hierarchicalName)

variable {D} {c : Option N} {n k : N} {ps : List String} {part : String} {h : Option String}

theorem findNode_eq : D.findNode c h = D.findPart (start c h).1 (start c h).2 := by
  cases h with
  | none => rfl
  | some s =>
    rw [findNode, start]
    split
    · rfl
    · rfl

/-- A map has the last node of a name. -/
theorem nodesMap_apply (nodes : List N) (key : Option String) :
    D.nodesMap nodes key = nodes.reverse.find? fun n => decide (D.name n = key) := by
  induction nodes using List.reverseRecOn with
  | nil => rfl
  | append_singleton nodes n ih =>
    rw [nodesMap, List.foldl_append, List.reverse_append]
    by_cases hn : D.name n = key
    · subst hn
      rw [List.reverse_singleton, List.singleton_append, List.find?_cons_of_pos (by simp)]
      exact Function.update_self ..
    · rw [List.reverse_singleton, List.singleton_append, List.find?_cons_of_neg (by simpa using hn),
        ← ih]
      exact Function.update_of_ne (Ne.symm hn) ..

/-- Where the names are different, the node that is found is the one with the name. -/
theorem find_named {nodes : List N} (h : (nodes.map D.name).Nodup) :
    nodes.find? (fun n => decide (D.name n = some part)) = some n ↔
      n ∈ nodes ∧ D.name n = some part := by
  constructor
  · intro hfind
    exact ⟨List.mem_of_find?_eq_some hfind, by simpa using List.find?_some hfind⟩
  · rintro ⟨hmem, hname⟩
    obtain ⟨m, hm⟩ := Option.isSome_iff_exists.1
      ((List.find?_isSome (p := fun n => decide (D.name n = some part))).2
        ⟨n, hmem, by simpa using hname⟩)
    have heq : m = n := List.inj_on_of_nodup_map h (List.mem_of_find?_eq_some hm) hmem
      (by rw [hname]; simpa using List.find?_some hm)
    rw [hm, heq]

theorem child_eq_some : D.child c part = some n ↔
    D.superState.parent n = c ∧ D.name n = some part := by
  rw [child, find_named (D.distinct c), D.mem_nodes]

/-- Names that are different: it does not matter which node of a name counts. -/
theorem nodesMap_eq_child {nodes : List N} (h : D.nodes c = some nodes) (part : String) :
    D.nodesMap nodes (some part) = D.child c part := by
  have hdistinct := D.distinct c
  rw [h, Option.getD_some] at hdistinct
  have hreverse : (nodes.reverse.map D.name).Nodup := by
    rw [List.map_reverse, List.nodup_reverse]
    exact hdistinct
  refine Option.ext fun n => ?_
  rw [nodesMap_apply, find_named hreverse, child_eq_some, ← D.mem_nodes, h, Option.getD_some,
    List.mem_reverse]

theorem getNode_eq (c : Option N) (part : String) :
    D.getNode c part = .ok (D.child c part) ∧ (c ≠ none → D.nodes c ≠ none) ∨
      D.getNode c part = .error .nullPointer ∧ ¬ (c ≠ none → D.nodes c ≠ none) := by
  cases hnodes : D.nodes c with
  | none =>
    cases c with
    | none =>
      refine .inl ⟨?_, fun h => (h rfl).elim⟩
      simp [getNode, child, hnodes]
    | some k =>
      refine .inr ⟨?_, fun h => h (by simp) rfl⟩
      simp [getNode, hnodes]
  | some nodes =>
    refine .inl ⟨?_, fun _ => by simp⟩
    rw [← nodesMap_eq_child hnodes]
    cases c <;> simp [getNode, hnodes]

/-- A path is followed, to where it leads, or something is thrown. -/
theorem findPart_eq (c : Option N) (ps : List String) :
    D.findPart c ps = .ok (D.leadsTo c ps) ∧ D.Followed c ps ∨
      (∃ e, D.findPart c ps = .error e) ∧ ¬ D.Followed c ps := by
  induction ps generalizing c with
  | nil => exact .inl ⟨rfl, trivial⟩
  | cons part rest ih =>
    unfold findPart leadsTo Followed
    by_cases hdots : part = ".."
    · rw [if_pos hdots, if_pos hdots, if_pos hdots]
      cases c with
      | none => exact .inr ⟨⟨_, rfl⟩, by simp⟩
      | some k => simpa using ih (D.superState.parent k)
    rw [if_neg hdots, if_neg hdots, if_neg hdots]
    rcases getNode_eq c part with ⟨hget, hlist⟩ | ⟨hget, hlist⟩
    · rw [hget]
      dsimp only
      by_cases hrest : rest = []
      · rw [if_pos hrest, if_pos hrest]
        exact .inl ⟨rfl, hlist, .inl hrest⟩
      rw [if_neg hrest, if_neg hrest]
      cases hchild : D.child c part with
      | none => exact .inr ⟨⟨_, rfl⟩, by simp [hrest]⟩
      | some k =>
        rw [Option.bind_some]
        dsimp only
        by_cases hsuper : D.isSuperState k = true
        · rw [if_pos hsuper, if_pos hsuper]
          rcases ih (some k) with ⟨heq, hf⟩ | ⟨he, hf⟩
          · exact .inl ⟨heq, hlist, .inr ⟨k, rfl, hsuper, hf⟩⟩
          · refine .inr ⟨he, ?_⟩
            rintro ⟨-, hnil | ⟨k', hk', -, hf'⟩⟩
            · exact hrest hnil
            · cases hk'
              exact hf hf'
        · rw [if_neg hsuper, if_neg hsuper]
          exact .inr ⟨⟨_, rfl⟩, by simp [hrest, hsuper]⟩
    · rw [hget]
      exact .inr ⟨⟨_, rfl⟩, fun h => hlist h.1⟩

theorem findPart_iff : D.findPart c ps = .ok (D.leadsTo c ps) ↔ D.Followed c ps := by
  rcases D.findPart_eq c ps with ⟨heq, hf⟩ | ⟨⟨e, he⟩, hf⟩
  · exact iff_of_true heq hf
  · exact iff_of_false (by rw [he]; simp) hf

/-! ## The parts of a fully qualified name -/

variable (D) in
/-- A name as it is written into a fully qualified name. -/
def written (n : N) : String := (D.name n).getD "null"

theorem slash_notMem_written (n : N) : '/' ∉ (D.written n).toList := by
  rw [written]
  cases hname : D.name n with
  | none => decide
  | some s => exact D.slash_notMem hname

theorem splitOn_qualified (n : N) (ss : List N) :
    ((D.qualified (n :: ss)).getD "null").toList.splitOn '/' =
      (n :: ss).reverse.map fun m => (D.written m).toList := by
  induction ss generalizing n with
  | nil => exact List.splitOn_eq_singleton (slash_notMem_written n)
  | cons s ss ih =>
    rw [qualified, Option.getD_some, String.toList_append, String.toList_append, List.append_assoc]
    have hslash : "/".toList = ['/'] := rfl
    have hn : ((D.name n).getD "null").toList.splitOn '/' = [(D.written n).toList] :=
      List.splitOn_eq_singleton (slash_notMem_written n)
    rw [hslash, List.singleton_append, List.splitOn_append_cons_self, ih, hn,
      List.reverse_cons (a := n), List.map_append]
    rfl

theorem parts_qualified (n : N) (ss : List N) :
    parts ((D.qualified (n :: ss)).getD "null") =
      ((n :: ss).reverse.map D.written).filter (· ≠ "") := by
  have hmap : (n :: ss).reverse.map (fun m => (D.written m).toList) =
      ((n :: ss).reverse.map D.written).map String.toList := by
    rw [List.map_map]
    rfl
  rw [parts, splitOn_qualified, hmap, List.filter_map, List.map_map]
  have hne : (fun p : List Char => decide (p ≠ [])) ∘ String.toList = fun s => decide (s ≠ "") := by
    funext s
    simp
  rw [hne]
  simp [Function.comp_def]

/-! ## Up and down -/

variable (D) in
/-- A collection and the super-states around it. -/
def above (c : Option N) : List N := c.elim [] D.superState.path

theorem path_of_parent (h : D.superState.parent n = c) : D.superState.path n = n :: D.above c := by
  cases c with
  | none => rw [Forest.path, Forest.ancestors_of_root h]; rfl
  | some k => rw [Forest.path, Forest.ancestors_of_parent h]; rfl

theorem parent_of_path {l : List N} (h : D.superState.path k = l ++ n :: D.above c) :
    D.superState.parent n = c := by
  have hn := Forest.path_of_suffix h
  rw [path_of_parent rfl] at hn
  have habove := (List.cons.inj hn).2
  cases hp : D.superState.parent n with
  | none =>
    rw [hp] at habove
    cases c with
    | none => rfl
    | some k => cases habove
  | some p =>
    rw [hp] at habove
    cases c with
    | none => cases habove
    | some k => rw [(List.cons.inj habove).1]

/-- Every name leads one level down, and every `..` one level up. -/
theorem length_of_leadsTo (h : D.leadsTo c ps = some n) :
    (D.superState.path n).length + 2 * ps.count ".." = (D.above c).length + ps.length := by
  induction ps generalizing c with
  | nil => cases h
  | cons part rest ih =>
    rw [leadsTo] at h
    by_cases hdots : part = ".."
    · subst hdots
      rw [if_pos rfl] at h
      obtain ⟨k, rfl, hk⟩ := Option.bind_eq_some_iff.1 h
      have hlevel : (D.above (some k)).length = (D.above (D.superState.parent k)).length + 1 :=
        congrArg List.length (path_of_parent rfl)
      have hrest := ih hk
      rw [List.count_cons_self, List.length_cons]
      omega
    rw [if_neg hdots] at h
    rw [List.count_cons_of_ne hdots, List.length_cons]
    split at h
    · next hrest =>
      have hn := congrArg List.length (path_of_parent (child_eq_some.1 h).1)
      rw [List.length_cons] at hn
      subst hrest
      rw [List.count_nil, List.length_nil]
      omega
    · obtain ⟨k, hk, hleads⟩ := Option.bind_eq_some_iff.1 h
      split at hleads
      · have hlevel : (D.above (some k)).length = (D.above c).length + 1 :=
          congrArg List.length (path_of_parent (child_eq_some.1 hk).1)
        have hrest := ih hleads
        omega
      · cases hleads

/-- Without a `..`, the names of a path are those on the way to its node. -/
theorem names_of_leadsTo (h : D.leadsTo c ps = some n) (hdots : ".." ∉ ps) :
    (D.superState.path n).reverse.map D.name = (D.above c).reverse.map D.name ++ ps.map some := by
  induction ps generalizing c with
  | nil => cases h
  | cons part rest ih =>
    obtain ⟨hpart, hdots⟩ := not_or.1 (mt List.mem_cons.2 hdots)
    rw [leadsTo, if_neg (Ne.symm hpart)] at h
    split at h
    · next hrest =>
      obtain ⟨hp, hname⟩ := child_eq_some.1 h
      rw [path_of_parent hp, hrest, List.reverse_cons, List.map_append, List.map_singleton, hname]
      rfl
    · obtain ⟨k, hk, hleads⟩ := Option.bind_eq_some_iff.1 h
      split at hleads
      · obtain ⟨hp, hname⟩ := child_eq_some.1 hk
        have habove : D.above (some k) = k :: D.above c := path_of_parent hp
        rw [ih hleads hdots, habove, List.reverse_cons, List.map_append, List.map_singleton, hname,
          List.append_assoc]
        rfl
      · cases hleads

/-- The names on the way to a node lead to it. -/
theorem leadsTo_of_names (ms : List N) (hne : ms ≠ [])
    (hpath : D.superState.path n = ms.reverse ++ D.above c)
    (hname : ∀ m ∈ ms, D.name m = some (D.written m) ∧ D.written m ≠ "..") :
    D.leadsTo c (ms.map D.written) = some n ∧ D.Followed c (ms.map D.written) := by
  induction ms generalizing c with
  | nil => exact (hne rfl).elim
  | cons m ms ih =>
    rw [List.reverse_cons, List.append_assoc, List.singleton_append] at hpath
    have hparent := parent_of_path hpath
    obtain ⟨hm, hdots⟩ := hname m List.mem_cons_self
    have hchild : D.child c (D.written m) = some m := child_eq_some.2 ⟨hparent, hm⟩
    have hlist : D.nodes c ≠ none := by
      intro hnull
      have hmem := D.mem_nodes.2 hparent
      rw [hnull] at hmem
      exact List.not_mem_nil hmem
    rw [List.map_cons, leadsTo, Followed, if_neg hdots, if_neg hdots, hchild, Option.bind_some]
    cases ms with
    | nil =>
      rw [List.map_nil, if_pos rfl, ← (List.cons.inj hpath).1]
      exact ⟨rfl, fun _ => hlist, .inl rfl⟩
    | cons m' ms =>
      have habove : D.above (some m) = m :: D.above c := path_of_parent hparent
      rw [← habove] at hpath
      have hsuper : D.isSuperState m = true := by
        have hm' : D.superState.path n = ms.reverse ++ m' :: D.above (some m) := by
          rw [hpath, List.reverse_cons, List.append_assoc]
          rfl
        exact D.isSuperState_of_parent (parent_of_path hm')
      obtain ⟨hleads, hfollowed⟩ :=
        ih (by simp) hpath fun k hk => hname k (List.mem_cons_of_mem m hk)
      rw [if_neg (by simp), if_pos hsuper]
      exact ⟨hleads, fun _ => hlist, .inr ⟨m, rfl, hsuper, hfollowed⟩⟩

/-! ## Names that lead back to their nodes -/

variable (D) in
/-- A node that its name tells: the names on the way to it are not null, not empty and not
    `..`, and they are not, all together, blank. -/
def Named (n : N) : Prop :=
  (∀ m ∈ D.superState.path n, ∃ s, D.name m = some s ∧ s ≠ "" ∧ s ≠ "..") ∧
    ∀ s, D.getFullyQualifiedName n = some s → isBlank s = false

theorem Named.written (h : D.Named n) {m : N} (hm : m ∈ D.superState.path n) :
    D.name m = some (D.written m) ∧ D.written m ≠ "" ∧ D.written m ≠ ".." := by
  obtain ⟨s, hs, hne, hdots⟩ := h.1 m hm
  rw [Hierarchy.written, hs]
  exact ⟨rfl, hne, hdots⟩

theorem Named.exists_name (h : D.Named n) : ∃ s, D.getFullyQualifiedName n = some s := by
  rw [getFullyQualifiedName, Forest.path]
  cases D.superState.ancestors n with
  | nil =>
    obtain ⟨s, hs, -⟩ := h.1 n (List.mem_cons_self ..)
    exact ⟨s, hs⟩
  | cons p ps => exact ⟨_, rfl⟩

/-- The parts of the name of a node below a collection. -/
theorem parts_of_named (ss : List N) (h : D.Named n) (hs : n :: ss ⊆ D.superState.path n) :
    parts ((D.qualified (n :: ss)).getD "null") = (n :: ss).reverse.map D.written := by
  rw [parts_qualified, List.filter_eq_self]
  intro part hpart
  obtain ⟨m, hm, rfl⟩ := List.mem_map.1 hpart
  simpa using (h.written (hs (List.mem_reverse.1 hm))).2.1

theorem findPart_of_leadsTo (hl : D.leadsTo c ps = some n) (hf : D.Followed c ps) :
    D.findPart c ps = .ok (some n) := by
  rw [findPart_iff.2 hf, hl]

theorem leadsTo_of_findPart (h : D.findPart c ps = .ok (some n)) : D.leadsTo c ps = some n := by
  rcases D.findPart_eq c ps with ⟨heq, -⟩ | ⟨⟨e, he⟩, -⟩
  · exact Except.ok.inj (heq.symm.trans h)
  · rw [he] at h
    cases h

theorem findNode_of_not_blank {s : String} (hblank : isBlank s = false) :
    D.findNode none (some s) = D.findPart none (parts s) := by
  rw [findNode, hblank, if_neg Bool.false_ne_true, ite_self]

theorem Named.findNode (h : D.Named n) :
    D.findNode none (D.getFullyQualifiedName n) = .ok (some n) := by
  obtain ⟨s, hs⟩ := h.exists_name
  have hparts : parts s = (D.superState.path n).reverse.map D.written := by
    have hp := parts_of_named (D.superState.ancestors n) h (List.Subset.refl _)
    rwa [← Forest.path, ← getFullyQualifiedName, hs] at hp
  obtain ⟨hl, hf⟩ := leadsTo_of_names (D := D) (c := none) (n := n)
    (D.superState.path n).reverse (by simp [Forest.path])
    (by rw [List.reverse_reverse]; exact (List.append_nil _).symm)
    fun m hm => ⟨(h.written (List.mem_reverse.1 hm)).1, (h.written (List.mem_reverse.1 hm)).2.2⟩
  rw [hs, findNode_of_not_blank (h.2 s hs), hparts]
  exact findPart_of_leadsTo hl hf

/-- Were one of the names empty or `..`, the lookup would end too far up; were one null,
    it would end at another node. -/
theorem named_of_findNode (h : D.findNode none (D.getFullyQualifiedName n) = .ok (some n)) :
    D.Named n := by
  cases hs : D.getFullyQualifiedName n with
  | none =>
    rw [hs] at h
    cases h
  | some s =>
    rw [hs] at h
    by_cases hblank : isBlank s = true
    · rw [Hierarchy.findNode, if_pos hblank] at h
      cases h
    rw [Bool.not_eq_true] at hblank
    rw [findNode_of_not_blank hblank] at h
    have hl := leadsTo_of_findPart h
    have hparts := parts_qualified (D := D) n (D.superState.ancestors n)
    rw [← Forest.path, ← getFullyQualifiedName, hs, Option.getD_some] at hparts
    have hlevel := length_of_leadsTo hl
    have hle := List.length_filter_le (fun s => decide (s ≠ ""))
      ((D.superState.path n).reverse.map D.written)
    rw [← hparts, List.length_map, List.length_reverse] at hle
    have habove : (D.above none).length = 0 := rfl
    have hdots : ".." ∉ parts s := List.count_eq_zero.1 (by omega)
    have hall : parts s = (D.superState.path n).reverse.map D.written := by
      rw [hparts]
      refine List.filter_sublist.eq_of_length ?_
      rw [← hparts, List.length_map, List.length_reverse]
      omega
    have hnames := names_of_leadsTo hl hdots
    rw [hall, List.map_map] at hnames
    have hname : ∀ m ∈ D.superState.path n, D.name m = some (D.written m) := fun m hm =>
      List.map_inj_left.1 hnames m (List.mem_reverse.2 hm)
    have hmem : ∀ m ∈ D.superState.path n, D.written m ∈ parts s := fun m hm => by
      rw [hall]
      exact List.mem_map_of_mem (List.mem_reverse.2 hm)
    refine ⟨fun m hm => ⟨D.written m, hname m hm, ?_, ?_⟩, fun s' hs' => ?_⟩
    · have hm' := hmem m hm
      rw [hparts] at hm'
      simpa using (List.mem_filter.1 hm').2
    · intro he
      exact hdots (he ▸ hmem m hm)
    · rwa [← Option.some.inj (hs.symm.trans hs')]

/-! ## From within a super-state -/

variable (D) in
/-- The collection some levels up. -/
def up : ℕ → Option N → Option (Option N)
  | 0, c => some c
  | _ + 1, none => none
  | l + 1, some s => up l (D.superState.parent s)

/-- A path that goes up first. -/
def upwards : ℕ → String → String
  | 0, s => s
  | l + 1, s => "../" ++ upwards l s

theorem toList_upwards (l : ℕ) (s : String) :
    (upwards (l + 1) s).toList = '.' :: '.' :: '/' :: (upwards l s).toList := by
  rw [upwards, String.toList_append]
  rfl

theorem parts_upwards (l : ℕ) (s : String) :
    parts (upwards l s) = List.replicate l ".." ++ parts s := by
  induction l with
  | zero => rfl
  | succ l ih =>
    have hsplit : (upwards (l + 1) s).toList.splitOn '/' =
        ['.', '.'] :: (upwards l s).toList.splitOn '/' := by
      rw [toList_upwards]
      exact (List.splitOn_append_cons_self (a := '/') ['.', '.'] _).trans
        (by rw [List.splitOn_eq_singleton (by decide)]; rfl)
    rw [List.replicate_succ, List.cons_append, ← ih, parts, hsplit, parts,
      List.filter_cons_of_pos (by decide), List.map_cons]

theorem follow_up {l : ℕ} {b : Option N} (h : D.up l b = some c) (ps : List String) :
    D.leadsTo b (List.replicate l ".." ++ ps) = D.leadsTo c ps ∧
      (D.Followed b (List.replicate l ".." ++ ps) ↔ D.Followed c ps) := by
  induction l generalizing b with
  | zero =>
    cases h
    exact ⟨rfl, Iff.rfl⟩
  | succ l ih =>
    cases b with
    | none => cases h
    | some k =>
      rw [up] at h
      obtain ⟨hleads, hfollowed⟩ := ih h
      rw [List.replicate_succ, List.cons_append, leadsTo, Followed, if_pos rfl, if_pos rfl,
        Option.bind_some, hleads, ← hfollowed]
      simp

theorem findNode_upwards (l : ℕ) (k : N) (s : String) :
    D.findNode (some k) (some (upwards (l + 1) s)) =
      D.findPart (some k) (List.replicate (l + 1) ".." ++ parts s) := by
  have hblank : isBlank (upwards (l + 1) s) = false := by
    rw [isBlank, toList_upwards]
    rfl
  rw [findNode, hblank, toList_upwards, parts_upwards]
  rfl

/-- A path that goes up to a collection and down to a node in it. -/
theorem Named.findNode_upwards (h : D.Named n) {l : ℕ} {ss : List N}
    (hup : D.up (l + 1) (some k) = some c) (hpath : D.superState.path n = n :: ss ++ D.above c) :
    D.findNode (some k) (some (upwards (l + 1) ((D.qualified (n :: ss)).getD "null"))) =
      .ok (some n) := by
  have hsub : n :: ss ⊆ D.superState.path n := by
    rw [hpath]
    exact List.subset_append_left _ _
  obtain ⟨hleads, hfollowed⟩ := leadsTo_of_names (n :: ss).reverse (by simp)
    (by rw [List.reverse_reverse, hpath]) fun m hm =>
      have hw := h.written (hsub (List.mem_reverse.1 hm))
      ⟨hw.1, hw.2.2⟩
  obtain ⟨hleads', hfollowed'⟩ := follow_up hup ((n :: ss).reverse.map D.written)
  rw [Hierarchy.findNode_upwards, parts_of_named ss h hsub]
  exact findPart_of_leadsTo (hleads'.trans hleads) (hfollowed'.2 hfollowed)

/-- **Lookups by hierarchical names.**  The name of a node leads to it just if the node is
    named; so does a path to it that goes up first, from within a super-state; and any
    string at all is looked up without an exception, with nothing found where it leads
    nowhere, just if it can be followed. -/
theorem lookup_iff (D : Hierarchy N) :
    (∀ n, D.findNode none (D.getFullyQualifiedName n) = .ok (some n) ↔ D.Named n) ∧
    (∀ (l : ℕ) (k : N) (c : Option N) (n : N) (ss : List N), D.up (l + 1) (some k) = some c →
      D.superState.path n = n :: ss ++ D.above c →
        (D.findNode (some k) (some (upwards (l + 1) ((D.qualified (n :: ss)).getD "null"))) =
            .ok (some n) ∧
          D.findNode none (D.getFullyQualifiedName n) = .ok (some n) ↔ D.Named n)) ∧
    ∀ c h, D.findNode c h = .ok (D.leadsTo (start c h).1 (start c h).2) ↔
      D.Followed (start c h).1 (start c h).2 := by
  refine ⟨fun n => ⟨named_of_findNode, Named.findNode⟩, fun l k c n ss hup hpath => ?_,
    fun c h => ?_⟩
  · exact ⟨fun h => named_of_findNode h.2, fun h => ⟨h.findNode_upwards hup hpath, h.findNode⟩⟩
  · rw [findNode_eq]
    exact findPart_iff

/-- A super-state with a node, a state, and a super-state without nodes. -/
def phases : Hierarchy (Fin 4) where
  superState :=
    { parent := fun n => if n = 1 then some 0 else none
      depth := Fin.val
      depth_parent := fun {a p} => by revert a p; decide }
  name n := some (["phase", "a", "b", "empty"].get n)
  isSuperState n := n = 0 || n = 3
  nodes
    | none => some [0, 2, 3]
    | some n => if n = 0 then some [1] else none
  mem_nodes := fun {c n} => by revert c n; decide
  distinct := by decide
  isSuperState_of_parent := fun {n s} => by revert n s; decide
  slash_notMem := fun {n s} h => by
    obtain rfl := Option.some.inj h
    revert n
    decide

theorem named_phases (n : Fin 4) : phases.Named n := by
  have hnames : ∀ m : Fin 4, ["phase", "a", "b", "empty"].get m ≠ "" ∧
      ["phase", "a", "b", "empty"].get m ≠ ".." := by decide
  have hblank : ∀ n, isBlank ((phases.getFullyQualifiedName n).getD "") = false := by decide
  refine ⟨fun m _ => ⟨_, rfl, hnames m⟩, fun s h => ?_⟩
  have hn := hblank n
  rwa [h] at hn

theorem lookup_phases :
    phases.findNode none (phases.getFullyQualifiedName 1) = .ok (some 1) ∧
      phases.findNode (some 0) (some "../b") = .ok (some 2) ∧
      phases.findNode none (some "x") = .ok none :=
  ⟨((lookup_iff phases).1 1).2 (named_phases 1),
    (((lookup_iff phases).2.1 0 0 none 2 [] rfl rfl).2 (named_phases 2)).1,
    ((lookup_iff phases).2.2 none (some "x")).2 ⟨fun h => (h rfl).elim, .inl rfl⟩⟩

/-- Through the state `b` there is no way to another node. -/
theorem lookup_throws : ¬ ∀ (D : Hierarchy (Fin 4)) (c : Option (Fin 4)) (h : Option String),
    ∃ r, D.findNode c h = .ok r := by
  intro h
  obtain ⟨r, hr⟩ := h phases none (some "b/a")
  have hthrows : phases.findNode none (some "b/a") = .error .classCast := by decide
  rw [hthrows] at hr
  cases hr

end Hierarchy

end Graph

end Jbpm
