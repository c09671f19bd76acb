/-
  The paths of transitions in the designer: the `to` of an edge that is drawn, and the node that
  it leads to.

  * `initializeToAttribute`: the `to` of a new edge, up to a common container and down again;
  * `getDestinationNode`, `findDestination`, `findNode`: where the diagram, the file of the
    diagram and the engine look for the target;
  * `drawn_iff`: when all of them find it.
-/
import Mathlib.Data.List.TakeWhile
import Jbpm.Designer.DiagramMirror
import Jbpm.Graph.RelativePath

namespace Jbpm

open Java Lib Jpdl Graph.Hierarchy

namespace Designer

variable {N T : Type}

/-! ## The path of a new edge -/

namespace EdgeCreateCommand

variable (containers : Forest N) (processName : Option String) (name : N → Option String)

/-- `getPathToRootFrom`: a node, the super-states around it, and the root container (`none`). -/
def getPathToRootFrom (n : N) : List (Option N) := (containers.path n).map some ++ [none]

/-- The paths are compared from their ends on. -/
def findFirstCommonElement [DecidableEq N] (sourcePath targetPath : List (Option N)) :
    Option (Option N) :=
  (sourcePath.reverse.zip targetPath.reverse).foldl
    (fun result e => if e.1 = e.2 then some e.1 else result) none

def getPrefix [DecidableEq N] (source target : N) (sourcePath : List (Option N))
    (common : Option (Option N)) : String :=
  if source = target then ""
  else (sourcePath.tail.takeWhile fun e => decide (some e ≠ common)).foldl
    (fun result _ => result ++ "../") ""

/-- A name that is null is written out. -/
def getSemanticElementName (notationElement : Option N) : String :=
  (notationElement.elim processName name).getD "null"

/-- The loop of `getSuffix` -/
def insertNames [DecidableEq N] (common : Option (Option N)) : List (Option N) → String → String
  | [], result => result
  | e :: targetPath, result =>
    if some e = common then result
    else
      let result := getSemanticElementName processName name e ++ result
      insertNames common targetPath
        (if targetPath = [] ∨ targetPath.head? = common then result else "/" ++ result)

/-- The path of a node has an element in common with itself. -/
def getSuffix [DecidableEq N] (source target : N) (common : Option (Option N))
    (targetPath : List (Option N)) : String :=
  if source = target then common.elim "" (getSemanticElementName processName name)
  else insertNames processName name common targetPath ""

def initializeToAttribute [DecidableEq N] (source target : N) : String :=
  let sourcePath := getPathToRootFrom containers source
  let targetPath := getPathToRootFrom containers target
  let common := findFirstCommonElement sourcePath targetPath
  getPrefix source target sourcePath common ++
    getSuffix processName name source target common targetPath

end EdgeCreateCommand

/-! ## The target in the file of the diagram -/

namespace View

variable (kind : N → Kind) (v : View N)

/-- The first loop of `findDestination`.  It leaves a character, and needs a node to go up. -/
def climb : List Char → Option (Option N) → Except Exn (Option (Option N) × List Char)
  | '.' :: '.' :: '/' :: c :: pathCopy, notationElement =>
    match notationElement with
    | none => .ok (none, '.' :: '.' :: '/' :: c :: pathCopy)
    | some none => .error .classCast
    | some (some n) => climb (c :: pathCopy) (v.container n)
  | pathCopy, notationElement => .ok (notationElement, pathCopy)

/-- The second loop of `findDestination` -/
def descend : List String → Option (Option N) → Except Exn (Option (Option N))
  | [], parent => .ok parent
  | _ :: _, none => .ok none
  | nextToken :: rest, some c =>
    if isContainer kind c then
      match v.getNodeElementByName nextToken c with
      | .error e => .error e
      | .ok found => descend rest (found.map some)
    else .ok none

/-- `JpdlContentProvider.findDestination` -/
def findDestination (source : N) : Option String → Except Exn (Option N)
  | none => .error .nullPointer
  | some to_ =>
    match v.climb to_.toList (v.container source) with
    | .error e => .error e
    | .ok (none, _) => .ok none
    | .ok (some c, pathCopy) =>
      match v.descend kind (parts (String.ofList pathCopy)) (some c) with
      | .error e => .error e
      | .ok parent => castNode parent

/-- No node without a name stands before the node in its super-state, where the names are asked
    one after the other. -/
def Unhidden [DecidableEq N] (n : N) : Prop := ∀ p, v.container n = some (some p) →
  ∀ m ∈ (v.nodeElements (some p)).takeWhile fun m => decide (m ≠ n), v.name m ≠ none

end View

/-! ## A diagram of a process definition -/

/-- The diagram shows the nodes of the definition. -/
structure Shows (kind : N → Kind) (D : Graph.Hierarchy N) (v : View N) : Prop where
  name : v.name = D.name
  container : ∀ n, v.container n = some (D.superState.parent n)
  mem_nodeElements : ∀ c n, n ∈ v.nodeElements c ↔ D.superState.parent n = c
  registered : ∀ n, v.registered n = true
  superState : ∀ n, kind n = .superState ↔ D.isSuperState n = true

/-- The `to` leads to the target, wherever it is looked up. -/
structure Resolves [DecidableEq N] (kind : N → Kind) (D : Graph.Hierarchy N) (v : View N)
    (source target : N) (to_ : Option String) : Prop where
  destinationNode : v.getDestinationNode kind source to_ = .ok (some target)
  destination : v.findDestination kind source to_ = .ok (some target)
  node : D.findNode (D.superState.parent source) to_ = .ok (some target)

/-- Neither node is inside the other, the names from the common container on can be looked up,
    and a name that is the whole path is not blank. -/
structure Leads [DecidableEq N] (D : Graph.Hierarchy N) (v : View N) (source target : N) :
    Prop where
  outside : target ∉ D.superState.ancestors source
  inside : source ∉ D.superState.ancestors target
  names : ∀ m ∈ D.superState.path target, m ∉ D.superState.ancestors source →
    D.ProperName m ∧ v.Unhidden m
  notBlank : D.superState.parent target = D.superState.parent source →
    isBlank (D.written target) = false

/-! ## The `to` of a new edge -/

namespace EdgeCreateCommand

variable {D : Graph.Hierarchy N} {processName : Option String} {source target : N} {c : Option N}
  {l r : List N}

theorem foldl_prefix {es : List (Option N)} (w : String) :
    es.foldl (fun result _ => result ++ "../") "" ++ w = upwards es.length w := by
  suffices ∀ result : String, es.foldl (fun result _ => result ++ "../") result ++ w =
      result ++ upwards es.length w by simpa using this ""
  induction es with
  | nil => exact fun _ => rfl
  | cons e es ih =>
    intro result
    rw [List.foldl_cons, ih, List.length_cons, upwards, String.append_assoc]

theorem exists_cons_above (D : Graph.Hierarchy N) (c : Option N) :
    ∃ zs, (D.above c).map some ++ [none] = c :: zs := by
  cases c with
  | none => exact ⟨[], rfl⟩
  | some k => exact ⟨_, rfl⟩

theorem getPathToRootFrom_eq (n : N) : getPathToRootFrom D.superState n =
    some n :: ((D.above (D.superState.parent n)).map some ++ [none]) := by
  rw [getPathToRootFrom, path_of_parent rfl]
  rfl

variable [DecidableEq N]

theorem foldl_unequal {es : List (Option N × Option N)} (h : ∀ e ∈ es, e.1 ≠ e.2)
    (result : Option (Option N)) :
    es.foldl (fun result e => if e.1 = e.2 then some e.1 else result) result = result := by
  induction es with
  | nil => rfl
  | cons e es ih =>
    rw [List.foldl_cons, if_neg (h e List.mem_cons_self)]
    exact ih fun e he => h e (List.mem_cons_of_mem _ he)

/-- Paths that meet at an element, and not before. -/
theorem findFirstCommonElement_append {xs ys zs : List (Option N)} (h : ∀ e ∈ xs, e ∉ ys) :
    findFirstCommonElement (xs ++ c :: zs) (ys ++ c :: zs) = some c := by
  have hrev : ∀ ws : List (Option N), (ws ++ c :: zs).reverse = zs.reverse ++ [c] ++ ws.reverse :=
    fun ws => by rw [List.reverse_append, List.reverse_cons]
  rw [findFirstCommonElement, hrev, hrev, List.zip_append rfl, List.foldl_append,
    List.zip_append rfl, List.foldl_append]
  refine (foldl_unequal (fun e he => ?_) _).trans (if_pos rfl)
  obtain ⟨hx, hy⟩ := List.of_mem_zip he
  rw [List.mem_reverse] at hx hy
  exact fun heq => h e.1 hx (heq ▸ hy)

theorem takeWhile_until {es zs : List (Option N)} (h : c ∉ es) :
    ((es ++ c :: zs).takeWhile fun e => decide (some e ≠ some c)) = es := by
  rw [List.takeWhile_append_of_pos, List.takeWhile_cons_of_neg (by simp), List.append_nil]
  intro e he
  have hne : e ≠ c := fun hc => h (hc ▸ he)
  simpa using hne

theorem getPrefix_append (hne : source ≠ target) {es zs : List (Option N)} (h : c ∉ es)
    (w : String) :
    getPrefix source target (some source :: (es ++ c :: zs)) (some c) ++ w =
      upwards es.length w := by
  rw [getPrefix, if_neg hne, List.tail_cons, takeWhile_until h, foldl_prefix]

theorem insertNames_append {zs : List (Option N)} (hr : r ≠ []) (hc : c ∉ r.map some)
    (result : String) :
    insertNames processName D.name (some c) (r.map some ++ c :: zs) result =
      (D.qualified r).getD "null" ++ result := by
  induction r generalizing result with
  | nil => exact (hr rfl).elim
  | cons n ss ih =>
    rw [List.map_cons, List.mem_cons, not_or] at hc
    rw [List.map_cons, List.cons_append, insertNames, if_neg (by simpa using Ne.symm hc.1)]
    cases ss with
    | nil =>
      have hhead : ([] : List N).map some ++ c :: zs = [] ∨
          (([] : List N).map some ++ c :: zs).head? = some c := .inr rfl
      dsimp only
      rw [if_pos hhead, List.map_nil, List.nil_append, insertNames, if_pos rfl]
      rfl
    | cons k ss =>
      have hhead : ¬ ((k :: ss).map some ++ c :: zs = [] ∨
          ((k :: ss).map some ++ c :: zs).head? = some c) := by
        rintro (hnil | hhead)
        · cases hnil
        · refine hc.2 ?_
          rw [← Option.some.inj hhead]
          exact List.mem_cons_self
      dsimp only
      rw [if_neg hhead, ih (List.cons_ne_nil k ss) hc.2, qualified, Option.getD_some,
        String.append_assoc, String.append_assoc]
      rfl

theorem initializeToAttribute_self : initializeToAttribute D.superState processName D.name
    source source = D.written source := by
  obtain ⟨zs, hzs⟩ := exists_cons_above D (some source)
  have hpath : getPathToRootFrom D.superState source = [] ++ some source :: zs := hzs
  rw [initializeToAttribute, hpath,
    findFirstCommonElement_append fun _ he => (List.not_mem_nil he).elim, getPrefix, if_pos rfl,
    getSuffix, if_pos rfl]
  exact String.empty_append

/-- Apart from each other: up to the common container and down. -/
theorem initializeToAttribute_way (hway : D.Way (D.superState.parent source) target l r c)
    (hr : r ≠ []) (hne : source ≠ target) (hs : source ∉ D.superState.path target) :
    initializeToAttribute D.superState processName D.name source target =
      upwards l.length ((D.qualified r).getD "null") := by
  obtain ⟨zs, hzs⟩ := exists_cons_above D c
  have hsource : getPathToRootFrom D.superState source =
      (source :: l).map some ++ c :: zs := by
    rw [getPathToRootFrom_eq, hway.up, List.map_append, List.append_assoc, hzs]
    rfl
  have htarget : getPathToRootFrom D.superState target = r.map some ++ c :: zs := by
    rw [getPathToRootFrom, hway.down, List.map_append, List.append_assoc, hzs]
  have hcommon : ∀ e ∈ (source :: l).map some, e ∉ r.map some := by
    intro e he her
    obtain ⟨m, hm, rfl⟩ := List.mem_map.1 he
    obtain ⟨m', hmr, hmm⟩ := List.mem_map.1 her
    obtain rfl := Option.some.inj hmm
    have hmt : m' ∈ D.superState.path target := by
      rw [hway.down]
      exact List.mem_append_left _ hmr
    rcases List.mem_cons.1 hm with rfl | hml
    · exact hs hmt
    · exact hway.left m' hml hmt
  have hcl : c ∉ l.map some := by
    intro hc
    obtain ⟨k, hk, rfl⟩ := List.mem_map.1 hc
    refine hway.left k hk ?_
    rw [hway.down]
    exact List.mem_append_right _ (List.mem_cons_self)
  have hcr : c ∉ r.map some := by
    intro hc
    obtain ⟨k, hk, rfl⟩ := List.mem_map.1 hc
    exact hway.right k hk (hway.above_subset List.mem_cons_self)
  rw [initializeToAttribute, hsource, htarget, findFirstCommonElement_append hcommon, getSuffix,
    if_neg hne, insertNames_append hr hcr, List.map_cons, List.cons_append,
    getPrefix_append hne hcl, List.length_map, String.append_empty]

theorem initializeToAttribute_apart (hway : D.Way (D.superState.parent source) target l r c)
    (hout : target ∉ D.superState.ancestors source)
    (hin : source ∉ D.superState.ancestors target) :
    initializeToAttribute D.superState processName D.name source target =
      upwards l.length ((D.qualified r).getD "null") := by
  by_cases hne : source = target
  · subst hne
    obtain ⟨rfl, rfl, -⟩ := hway.eq_singleton rfl
    exact initializeToAttribute_self
  · exact initializeToAttribute_way hway (hway.right_ne_nil (ancestors_eq (D := D) source ▸ hout))
      hne fun hpath => (List.mem_cons.1 hpath).elim hne hin

theorem initializeToAttribute_sibling
    (h : D.superState.parent target = D.superState.parent source) :
    initializeToAttribute D.superState processName D.name source target = D.written target := by
  have hancestors : D.superState.ancestors target = D.superState.ancestors source := by
    rw [ancestors_eq, ancestors_eq, h]
  exact initializeToAttribute_apart (Way.of_parent h)
    (hancestors ▸ Forest.notMem_ancestors_self) (hancestors ▸ Forest.notMem_ancestors_self)

/-- Into a super-state from itself: up past the root container. -/
theorem initializeToAttribute_inside (h : source ∈ D.superState.ancestors target) : ∃ w,
    initializeToAttribute D.superState processName D.name source target =
      upwards ((D.above (D.superState.parent source)).length + 1) w := by
  have hne : source ≠ target := by
    rintro rfl
    exact Forest.notMem_ancestors_self h
  obtain ⟨ys, s, hys⟩ := List.append_of_mem (List.mem_cons_of_mem target h)
  have hpath : D.superState.path target = ys ++ D.superState.path source := by
    rw [Forest.path_of_suffix hys]
    exact hys
  have hmem : source ∉ D.above (D.superState.parent source) := by
    rw [← ancestors_eq]
    exact Forest.notMem_ancestors_self
  have hys' : some source ∉ ys.map some := by
    intro hmem'
    obtain ⟨m, hm, hms⟩ := List.mem_map.1 hmem'
    obtain rfl := Option.some.inj hms
    exact Forest.notMem_path_of_append hpath m hm List.mem_cons_self
  have htarget : getPathToRootFrom D.superState target =
      ys.map some ++ getPathToRootFrom D.superState source := by
    rw [getPathToRootFrom, hpath, List.map_append, List.append_assoc]
    rfl
  have hcommon : findFirstCommonElement (getPathToRootFrom D.superState source)
      (getPathToRootFrom D.superState target) = some (some source) := by
    rw [htarget, getPathToRootFrom_eq, ← List.nil_append (some source :: _)]
    exact findFirstCommonElement_append fun _ he => (List.not_mem_nil he).elim
  have hall : (((D.above (D.superState.parent source)).map some ++ [none]).takeWhile
      fun e => decide (some e ≠ some (some source))) =
        (D.above (D.superState.parent source)).map some ++ [none] := by
    refine List.takeWhile_eq_self_iff.2 fun e he => ?_
    rcases List.mem_append.1 he with he | he
    · obtain ⟨m, hm, rfl⟩ := List.mem_map.1 he
      have hne' : m ≠ source := fun heq => hmem (heq ▸ hm)
      simpa using hne'
    · rw [List.mem_singleton.1 he]
      simp
  refine ⟨getSuffix processName D.name source target (some (some source))
    (getPathToRootFrom D.superState target), ?_⟩
  rw [initializeToAttribute, hcommon, getPrefix, if_neg hne, getPathToRootFrom_eq, List.tail_cons,
    hall, foldl_prefix, List.length_append, List.length_map, List.length_singleton]

/-- Out of a super-state to itself: nothing but the way up. -/
theorem initializeToAttribute_outside (h : target ∈ D.superState.ancestors source) : ∃ k,
    initializeToAttribute D.superState processName D.name source target = upwards k "" := by
  have hne : source ≠ target := by
    rintro rfl
    exact Forest.notMem_ancestors_self h
  obtain ⟨l, s, hl⟩ := List.append_of_mem h
  have hsource : D.superState.path source = source :: l ++ D.superState.path target := by
    have hpath : D.superState.path source = (source :: l) ++ target :: s :=
      congrArg (source :: ·) hl
    rw [hpath, Forest.path_of_suffix hpath]
  have htarget : some target ∉ (source :: l).map some := by
    intro hmem
    obtain ⟨m, hm, hmt⟩ := List.mem_map.1 hmem
    obtain rfl := Option.some.inj hmt
    exact Forest.notMem_path_of_append hsource m hm List.mem_cons_self
  have hroot : getPathToRootFrom D.superState source =
      (source :: l).map some ++ getPathToRootFrom D.superState target := by
    rw [getPathToRootFrom, hsource, List.map_append, List.append_assoc]
    rfl
  have hcommon : findFirstCommonElement (getPathToRootFrom D.superState source)
      (getPathToRootFrom D.superState target) = some (some target) := by
    have hself : getPathToRootFrom D.superState target =
        [] ++ getPathToRootFrom D.superState target := rfl
    rw [hroot, hself, getPathToRootFrom_eq (n := target)]
    exact findFirstCommonElement_append fun _ _ he => List.not_mem_nil he
  rw [List.map_cons, List.mem_cons, not_or] at htarget
  refine ⟨l.length, ?_⟩
  rw [initializeToAttribute, hcommon, getSuffix, if_neg hne, hroot,
    getPathToRootFrom_eq (n := target), insertNames, if_pos rfl, List.map_cons, List.cons_append,
    getPrefix_append hne htarget.2, List.length_map]

end EdgeCreateCommand

/-! ## Looking a path up -/

namespace Shows

variable {kind : N → Kind} {D : Graph.Hierarchy N} {v : View N} {b c : Option N} {n t : N}
  {s : String}

theorem isContainer (h : Shows kind D v) (hp : D.superState.parent n = c) :
    View.isContainer kind c = true := by
  cases c with
  | none => rfl
  | some p => exact decide_eq_true ((h.superState p).2 (D.isSuperState_of_parent hp))

/-- The way up, with the element left alone. -/
theorem follow_upwards (h : Shows kind D v) {k : ℕ} (hup : D.up k b = some c) (ps : List String) :
    v.follow kind (some b) none (List.replicate k ".." ++ ps) = v.follow kind (some c) none ps := by
  induction k generalizing b with
  | zero =>
    rw [Graph.Hierarchy.up, Option.some.injEq] at hup
    rw [hup, List.replicate_zero, List.nil_append]
  | succ k ih =>
    cases b with
    | none => cases hup
    | some j =>
      rw [Graph.Hierarchy.up] at hup
      rw [List.replicate_succ, List.cons_append, View.follow, if_pos rfl, h.container j]
      exact ih hup

/-- The `../` of a path are taken off, as long as something else follows. -/
theorem climb_upwards (h : Shows kind D v) {k : ℕ} (hup : D.up k b = some c) {w : String}
    (hw : w ≠ "") (hdots : ∀ rest, w.toList ≠ '.' :: '.' :: '/' :: rest) :
    v.climb (upwards k w).toList (some b) = .ok (some c, w.toList) := by
  induction k generalizing b with
  | zero =>
    rw [Graph.Hierarchy.up, Option.some.injEq] at hup
    rw [hup, upwards]
    unfold View.climb
    split
    · next hc => exact absurd hc (hdots _)
    · rfl
  | succ k ih =>
    cases b with
    | none => cases hup
    | some j =>
      rw [Graph.Hierarchy.up] at hup
      have hne : (upwards k w).toList ≠ [] := by
        cases k with
        | zero => simpa [upwards] using hw
        | succ k =>
          rw [toList_upwards]
          exact List.cons_ne_nil _ _
      obtain ⟨x, rest, hx⟩ := List.exists_cons_of_ne_nil hne
      rw [toList_upwards, hx, View.climb, h.container j, ← hx]
      exact ih hup

variable [DecidableEq N]

theorem findNamed_eq {l : List N} (hn : n ∈ l) (hname : v.name n = some s)
    (hinj : ∀ m ∈ l, v.name m = some s → m = n) :
    (∀ m ∈ l.takeWhile fun m => decide (m ≠ n), v.name m ≠ none) ∧
        v.findNamed s l = .ok (some n) ∨
      (¬ ∀ m ∈ l.takeWhile fun m => decide (m ≠ n), v.name m ≠ none) ∧
        v.findNamed s l = .error .nullPointer := by
  induction l with
  | nil => exact absurd hn List.not_mem_nil
  | cons m l ih =>
    by_cases hmn : m = n
    · subst hmn
      refine .inl ⟨?_, ?_⟩
      · rw [List.takeWhile_cons_of_neg (by simp)]
        exact fun _ hm => absurd hm List.not_mem_nil
      · rw [View.findNamed, hname]
        exact if_pos rfl
    · have hmem : n ∈ l := (List.mem_cons.1 hn).resolve_left (Ne.symm hmn)
      rw [List.takeWhile_cons_of_pos (by simpa using hmn), View.findNamed]
      cases hm : v.name m with
      | none => exact .inr ⟨fun hall => hall m List.mem_cons_self hm, rfl⟩
      | some s' =>
        have hs : s' ≠ s := fun he => hmn (hinj m List.mem_cons_self (he ▸ hm))
        dsimp only
        rw [if_neg hs, List.forall_mem_cons, hm]
        have hrest := ih hmem fun k hk => hinj k (List.mem_cons_of_mem m hk)
        simpa using hrest

/-- The node of a name is found, if no node without a name is asked before. -/
theorem getNodeElementByName_eq (h : Shows kind D v) (hp : D.superState.parent n = c)
    (hname : D.name n = some s) :
    v.Unhidden n ∧ v.getNodeElementByName s c = .ok (some n) ∨
      ¬ v.Unhidden n ∧ v.getNodeElementByName s c = .error .nullPointer := by
  have hinj : ∀ m ∈ v.nodeElements c, v.name m = some s → m = n := by
    intro m hm hms
    rw [h.name] at hms
    exact name_injective (((h.mem_nodeElements c m).1 hm).trans hp.symm) (hms.trans hname.symm)
  have hmem := (h.mem_nodeElements c n).2 hp
  have hname' : v.name n = some s := by rw [h.name, hname]
  have hcontainer := h.container n
  rw [hp] at hcontainer
  cases c with
  | none =>
    refine .inl ⟨fun p hnp => ?_, ?_⟩
    · rw [hcontainer] at hnp
      cases hnp
    · rw [View.getNodeElementByName]
      obtain ⟨m, hm⟩ := Option.isSome_iff_exists.1
        ((List.find?_isSome (p := fun n => decide (v.name n = some s))).2
          ⟨n, hmem, decide_eq_true hname'⟩)
      have hms : v.name m = some s := by simpa using List.find?_some hm
      rw [hm, hinj m (List.mem_of_find?_eq_some hm) hms]
  | some p =>
    have hiff : v.Unhidden n ↔ ∀ m ∈ (v.nodeElements (some p)).takeWhile fun m => decide (m ≠ n),
        v.name m ≠ none := by
      constructor
      · exact fun hu => hu p hcontainer
      · intro hall q hq
        obtain rfl : p = q := by simpa using hcontainer.symm.trans hq
        exact hall
    rw [hiff, View.getNodeElementByName]
    exact findNamed_eq hmem hname' hinj

/-- Down by names, from the outside in. -/
theorem descend_eq (h : Shows kind D v) {ms : List N}
    (hpath : D.superState.path t = ms.reverse ++ D.above c)
    (hname : ∀ m ∈ ms, D.name m = some (D.written m)) :
    (∀ m ∈ ms, v.Unhidden m) ∧
        v.descend kind (ms.map D.written) (some c) = .ok (some (some t)) ∨
      (¬ ∀ m ∈ ms, v.Unhidden m) ∧
        v.descend kind (ms.map D.written) (some c) = .error .nullPointer := by
  induction ms generalizing c with
  | nil =>
    have ht : some t = c := above_injective hpath
    rw [← ht]
    exact .inl ⟨fun _ hm => absurd hm List.not_mem_nil, rfl⟩
  | cons m ms ih =>
    rw [List.reverse_cons, List.append_assoc, List.singleton_append] at hpath
    have hp := parent_of_path hpath
    have habove : D.above (some m) = m :: D.above c := path_of_parent hp
    rw [← habove] at hpath
    rw [List.map_cons, View.descend, if_pos (h.isContainer hp), List.forall_mem_cons]
    rcases h.getNodeElementByName_eq hp (hname m List.mem_cons_self) with ⟨hu, hget⟩ | ⟨hu, hget⟩
    · rw [hget]
      have hrest := ih hpath fun k hk => hname k (List.mem_cons_of_mem m hk)
      simpa [hu] using hrest
    · rw [hget]
      exact .inr ⟨fun hall => hu hall.1, rfl⟩

theorem follow_eq (h : Shows kind D v) {ms : List N} {element : Option (Option N)}
    (helement : element.or (some c) = some c)
    (hpath : D.superState.path t = ms.reverse ++ D.above c)
    (hname : ∀ m ∈ ms, D.name m = some (D.written m) ∧ D.written m ≠ "..") :
    (∀ m ∈ ms, v.Unhidden m) ∧
        v.follow kind (some c) element (ms.map D.written) = .ok (some (some t)) ∨
      (¬ ∀ m ∈ ms, v.Unhidden m) ∧
        v.follow kind (some c) element (ms.map D.written) = .error .nullPointer := by
  induction ms generalizing c element with
  | nil =>
    have ht : some t = c := above_injective hpath
    rw [← ht]
    exact .inl ⟨fun _ hm => absurd hm List.not_mem_nil, rfl⟩
  | cons m ms ih =>
    rw [List.reverse_cons, List.append_assoc, List.singleton_append] at hpath
    have hp := parent_of_path hpath
    have habove : D.above (some m) = m :: D.above c := path_of_parent hp
    rw [← habove] at hpath
    obtain ⟨hm, hdots⟩ := hname m List.mem_cons_self
    rw [List.map_cons, List.forall_mem_cons]
    unfold View.follow
    rw [if_neg hdots, helement]
    dsimp only
    rw [if_pos (h.isContainer hp)]
    rcases h.getNodeElementByName_eq hp hm with ⟨hu, hget⟩ | ⟨hu, hget⟩
    · rw [hget]
      have hor : (some (some m)).or (some (some m)) = some (some m) := rfl
      have hrest := ih hor hpath fun k hk => hname k (List.mem_cons_of_mem m hk)
      simpa [hu, Option.filter, h.registered m] using hrest
    · rw [hget]
      exact .inr ⟨fun hall => hu hall.1, rfl⟩

variable {l r : List N} {source : N}

/-- The loop of `getDestinationNode` ends at the node, which is not the container. -/
theorem destinationNode_iff (h : Shows kind D v)
    (hway : D.Way (D.superState.parent source) t l r c) (hr : r ≠ [])
    (ht : t ∉ D.superState.ancestors source) (hproper : ∀ m ∈ r, D.ProperName m) :
    v.getDestinationNode kind source (some (upwards l.length ((D.qualified r).getD "null"))) =
        .ok (some t) ↔ ∀ m ∈ r, v.Unhidden m := by
  have hparts := parts_upwards l.length ((D.qualified r).getD "null")
  rw [parts_proper hr hproper] at hparts
  have hpath : D.superState.path t = r.reverse.reverse ++ D.above c := by
    rw [List.reverse_reverse, hway.down]
  have hname : ∀ m ∈ r.reverse, D.name m = some (D.written m) ∧ D.written m ≠ ".." := by
    intro m hm
    have hw := (hproper m (List.mem_reverse.1 hm)).written
    exact ⟨hw.1, hw.2.2⟩
  have hne : D.superState.parent source ≠ some t := fun hp =>
    ht ((Forest.mem_ancestors_of_parent hp).2 (.inl rfl))
  have hfollow := h.follow_upwards (up_of_above hway.up) (r.reverse.map D.written)
  rw [View.getDestinationNode, View.getDestination, hparts, h.container, hfollow]
  rcases h.follow_eq (Option.none_or ..) hpath hname with ⟨hu, hrun⟩ | ⟨hu, hrun⟩
  · rw [hrun]
    simp only [List.mem_reverse] at hu
    simpa [View.castNode, Ne.symm hne] using hu
  · rw [hrun]
    simp only [List.mem_reverse] at hu
    simpa using hu

theorem destination_iff (h : Shows kind D v)
    (hway : D.Way (D.superState.parent source) t l r c) (hr : r ≠ [])
    (hproper : ∀ m ∈ r, D.ProperName m) :
    v.findDestination kind source (some (upwards l.length ((D.qualified r).getD "null"))) =
        .ok (some t) ↔ ∀ m ∈ r, v.Unhidden m := by
  have hw : (D.qualified r).getD "null" ≠ "" := by
    intro hempty
    have hparts := parts_proper hr hproper
    have hnil : parts "" = [] := by decide
    rw [hempty, hnil] at hparts
    exact hr (by simpa using hparts.symm)
  have hdots : ∀ rest, ((D.qualified r).getD "null").toList ≠ '.' :: '.' :: '/' :: rest := by
    intro rest hrest
    obtain ⟨m, hm, hname⟩ := exists_dots_of_upwards hr hrest
    exact (hproper m hm).written.2.2 hname
  have hpath : D.superState.path t = r.reverse.reverse ++ D.above c := by
    rw [List.reverse_reverse, hway.down]
  rw [View.findDestination, h.container, h.climb_upwards (up_of_above hway.up) hw hdots]
  dsimp only
  rw [String.ofList_toList, parts_proper hr hproper]
  rcases h.descend_eq hpath fun m hm => (hproper m (List.mem_reverse.1 hm)).written.1 with
    ⟨hu, hrun⟩ | ⟨hu, hrun⟩
  · rw [hrun]
    simp only [List.mem_reverse] at hu
    simpa [View.castNode] using hu
  · rw [hrun]
    simp only [List.mem_reverse] at hu
    simpa using hu

theorem resolves_iff (h : Shows kind D v)
    (hway : D.Way (D.superState.parent source) t l r c)
    (ht : t ∉ D.superState.ancestors source) :
    Resolves kind D v source t (some (upwards l.length ((D.qualified r).getD "null"))) ↔
      (∀ m ∈ r, D.ProperName m ∧ v.Unhidden m) ∧
        (D.superState.parent t = D.superState.parent source → isBlank (D.written t) = false) := by
  have hr : r ≠ [] := hway.right_ne_nil (ancestors_eq (D := D) source ▸ ht)
  constructor
  · intro hres
    obtain ⟨hproper, hblank⟩ := (hway.findNode_iff hr).1 hres.node
    have hunhidden := (h.destinationNode_iff hway hr ht hproper).1 hres.destinationNode
    exact ⟨fun m hm => ⟨hproper m hm, hunhidden m hm⟩, hblank⟩
  · rintro ⟨hnames, hblank⟩
    have hproper : ∀ m ∈ r, D.ProperName m := fun m hm => (hnames m hm).1
    have hunhidden : ∀ m ∈ r, v.Unhidden m := fun m hm => (hnames m hm).2
    exact ⟨(h.destinationNode_iff hway hr ht hproper).2 hunhidden,
      (h.destination_iff hway hr hproper).2 hunhidden,
      (hway.findNode_iff hr).2 ⟨hproper, hblank⟩⟩

/-- The path of a new edge leads to the target for the diagram, for the file of the diagram and
    for the engine. -/
theorem drawn_iff (h : Shows kind D v) (processName : Option String) (source target : N) :
    Resolves kind D v source target (some (EdgeCreateCommand.initializeToAttribute D.superState
      processName D.name source target)) ↔ Leads D v source target := by
  by_cases hout : target ∈ D.superState.ancestors source
  · refine iff_of_false (fun hres => ?_) fun hleads => hleads.outside hout
    obtain ⟨k, hk⟩ : ∃ k, EdgeCreateCommand.initializeToAttribute D.superState processName D.name
        source target = upwards k "" := EdgeCreateCommand.initializeToAttribute_outside hout
    rw [hk] at hres
    exact findNode_dots_ne k hres.node
  by_cases hin : source ∈ D.superState.ancestors target
  · refine iff_of_false (fun hres => ?_) fun hleads => hleads.inside hin
    obtain ⟨w, hw⟩ : ∃ w, EdgeCreateCommand.initializeToAttribute D.superState processName D.name
        source target = upwards ((D.above (D.superState.parent source)).length + 1) w :=
      EdgeCreateCommand.initializeToAttribute_inside hin
    rw [hw] at hres
    exact findNode_too_far_ne (Nat.lt_succ_self _) w hres.node
  obtain ⟨l, r, c, hway⟩ := D.exists_way (D.superState.parent source) target
  rw [EdgeCreateCommand.initializeToAttribute_apart hway hout hin, h.resolves_iff hway hout]
  have habove := ancestors_eq (D := D) source
  constructor
  · rintro ⟨hnames, hblank⟩
    exact ⟨hout, hin, fun m hm hms => hnames m (hway.mem_right hm (habove ▸ hms)), hblank⟩
  · intro hleads
    refine ⟨fun m hm => hleads.names m ?_ (habove ▸ hway.right m hm), hleads.notBlank⟩
    rw [hway.down]
    exact List.mem_append_left _ hm

/-- The name of the target leads to it from its own container. -/
theorem name_resolves_iff (h : Shows kind D v) {source target : N} :
    Resolves kind D v source target (D.name target) ↔ Leads D v source target ∧
      D.superState.parent target = D.superState.parent source := by
  cases hname : D.name target with
  | none =>
    refine iff_of_false (fun hres => ?_) fun hleads => ?_
    · cases hres.node
    · obtain ⟨s, hs, -⟩ := (hleads.1.names target List.mem_cons_self hleads.1.outside).1
      rw [hname] at hs
      cases hs
  | some w =>
    have hsibling : D.superState.parent target = D.superState.parent source →
        EdgeCreateCommand.initializeToAttribute D.superState none D.name source target = w := by
      intro hparent
      have hwritten : D.written target = w := by
        rw [written, hname]
        rfl
      rw [EdgeCreateCommand.initializeToAttribute_sibling hparent, hwritten]
    have hdrawn := h.drawn_iff none source target
    constructor
    · intro hres
      have hparent := (of_findNode_name (D.slash_notMem hname) hres.node).1
      rw [hsibling hparent] at hdrawn
      exact ⟨hdrawn.1 hres, hparent⟩
    · rintro ⟨hleads, hparent⟩
      rw [hsibling hparent] at hdrawn
      exact hdrawn.2 hleads

/-- A path from before still leads to its target if the names on the way are the same. -/
theorem drawn_before_iff {D' : Graph.Hierarchy N} {v' : View N} (h : Shows kind D' v')
    (hsuper : D'.superState = D.superState) {processName : Option String} {source target : N}
    (hleads : Leads D v source target) :
    Resolves kind D' v' source target (some (EdgeCreateCommand.initializeToAttribute D.superState
      processName D.name source target)) ↔ Leads D' v' source target ∧
        ∀ m ∈ D.superState.path target, m ∉ D.superState.ancestors source →
          D'.name m = D.name m := by
  obtain ⟨l, r, c, hway⟩ := D.exists_way (D.superState.parent source) target
  have hto : EdgeCreateCommand.initializeToAttribute D.superState processName D.name source target =
      upwards l.length ((D.qualified r).getD "null") :=
    EdgeCreateCommand.initializeToAttribute_apart hway hleads.outside hleads.inside
  have habove := ancestors_eq (D := D) source
  have hr : r ≠ [] := hway.right_ne_nil (habove ▸ hleads.outside)
  have hmem : ∀ m ∈ r, m ∈ D.superState.path target ∧ m ∉ D.superState.ancestors source := by
    intro m hm
    refine ⟨?_, habove ▸ hway.right m hm⟩
    rw [hway.down]
    exact List.mem_append_left _ hm
  have hproper : ∀ m ∈ r, D.ProperName m := fun m hm =>
    (hleads.names m (hmem m hm).1 (hmem m hm).2).1
  have hout : target ∉ D'.superState.ancestors source := by
    rw [hsuper]
    exact hleads.outside
  have hin : source ∉ D'.superState.ancestors target := by
    rw [hsuper]
    exact hleads.inside
  have hway' : D'.Way (D'.superState.parent source) target l r c := by
    rw [hsuper]
    exact hway.congr hsuper
  have hsame : (∀ m ∈ r, D'.name m = D.name m) →
      EdgeCreateCommand.initializeToAttribute D.superState processName D.name source target =
        EdgeCreateCommand.initializeToAttribute D'.superState processName D'.name source
          target := by
    intro hnames
    rw [hto, EdgeCreateCommand.initializeToAttribute_apart hway' hout hin, qualified_congr hnames]
  constructor
  · intro hres
    have hnode := hres.node
    rw [hto] at hnode
    have hparts := parts_proper hr hproper
    have hnames := hway'.names_of_findNode hnode
      (fun _ hhead => by
        obtain ⟨m, hm, hempty⟩ := exists_empty_of_slash hr hhead
        exact (hproper m hm).written.2.1 hempty)
      (by
        rw [hparts]
        intro hdots
        obtain ⟨m, hm, hname⟩ := List.mem_map.1 hdots
        exact (hproper m (List.mem_reverse.1 hm)).written.2.2 hname)
    rw [hparts, List.map_map] at hnames
    have hagree : ∀ m ∈ r, D'.name m = D.name m := fun m hm =>
      (List.map_inj_left.1 hnames m (List.mem_reverse.2 hm)).trans (hproper m hm).written.1.symm
    rw [hsame hagree] at hres
    exact ⟨(h.drawn_iff processName source target).1 hres, fun m hm hms =>
      hagree m (hway.mem_right hm (habove ▸ hms))⟩
  · rintro ⟨hleads', hnames⟩
    rw [hsame fun m hm => hnames m (hmem m hm).1 (hmem m hm).2]
    exact (h.drawn_iff processName source target).2 hleads'

end Shows

end Designer

end Jbpm
