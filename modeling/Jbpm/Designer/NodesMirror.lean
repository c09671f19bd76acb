/-
  Nodes that come and go, and the diagram over a run of changes.

  * `Consistent.addNode`, `Consistent.removeNode`: the steps for nodes;
  * `mirrors_of_run`: after changes that are followed the diagram mirrors the definition;
  * `removed_target_kept`: an edge that keeps a target which has been removed.
-/
import Mathlib.Data.Fintype.Option
import Jbpm.Designer.DiagramMirror
import Jbpm.Lib.Run

namespace Jbpm

open Java Lib

namespace Designer

variable {N T : Type} {kind : N → Kind} {s : Diagram N T} {c : Option N} {n : N}

/-! ## A node that comes -/

/-- The dangling edges of a container that a node is looked for by. -/
def named (s : Diagram N T) (c : Option N) (n : N) : List T :=
  (s.danglingEdges c).filter fun t => (s.name n).isSome && decide (s.goesTo t = s.name n)

theorem mem_named {t : T} : t ∈ named s c n ↔
    t ∈ s.danglingEdges c ∧ s.name n ≠ none ∧ s.goesTo t = s.name n := by
  rw [named, List.mem_filter, Bool.and_eq_true, decide_eq_true_iff, Option.ne_none_iff_isSome]

variable [DecidableEq N]

theorem shown_insert {s : Elements N T} {k : N} :
    (s.insert kind c n).Shown k ↔ s.Shown k ∨ k = n := by
  constructor
  · rintro ⟨c', hk⟩
    change k ∈ Function.update s.nodes c (s.nodes c ++ [n]) c' at hk
    by_cases hc : c' = c
    · subst hc
      rw [Function.update_self, List.mem_append, List.mem_singleton] at hk
      exact hk.imp_left fun hk => ⟨c', hk⟩
    · rw [Function.update_of_ne hc] at hk
      exact .inl ⟨c', hk⟩
  · rintro (⟨c', hk⟩ | rfl)
    · refine ⟨c', ?_⟩
      change k ∈ Function.update s.nodes c (s.nodes c ++ [n]) c'
      by_cases hc : c' = c
      · subst hc
        rw [Function.update_self]
        exact List.mem_append_left _ hk
      · rwa [Function.update_of_ne hc]
    · refine ⟨c, ?_⟩
      change k ∈ Function.update s.nodes c (s.nodes c ++ [k]) c
      rw [Function.update_self]
      exact List.mem_append_right _ (List.mem_singleton_self k)

theorem Nodes.insert {s : Elements N T} (h : Nodes kind s)
    (hnew : ∀ c', n ∉ s.nodeElements c') (hlisteners : s.nodeListeners n = 0)
    (hinside : (s.nodes (some n)).Perm (s.nodeElements (some n))) :
    Nodes kind { s.insert kind c n with
      nodeListeners := Function.update s.nodeListeners n (s.nodeListeners n + 1) } := by
  have hout : ∀ c', n ∉ s.nodes c' := fun c' hn => hnew c' (h.mem_nodeElements c' n hn)
  have hmem : ∀ c' k, k ∈ (s.insert kind c n).nodes c' ↔ k ∈ s.nodes c' ∨ c' = c ∧ k = n := by
    intro c' k
    change k ∈ Function.update s.nodes c (s.nodes c ++ [n]) c' ↔ _
    by_cases hcc : c' = c
    · subst hcc
      simp
    · simp [hcc]
  have hne : ∀ c' k, k ∈ s.nodes c' → k ≠ n := fun c' k hk hkn => hout c' (hkn ▸ hk)
  have hperm : ∀ c', (s.nodes c').Perm (s.nodeElements c') →
      ((s.insert kind c n).nodes c').Perm ((s.insert kind c n).nodeElements c') := by
    intro c' hp
    change (Function.update s.nodes c (s.nodes c ++ [n]) c').Perm (Function.update s.nodeElements c
      (if c = none ∧ kind n = .startState then n :: s.nodeElements c
        else s.nodeElements c ++ [n]) c')
    by_cases hcc : c' = c
    · subst hcc
      rw [Function.update_self, Function.update_self]
      split
      · exact (List.perm_append_singleton n _).trans (hp.cons n)
      · exact hp.append_right [n]
    · rwa [Function.update_of_ne hcc, Function.update_of_ne hcc]
  refine ⟨fun c' => ?_, fun c' k hk => ?_, fun c' hshown => ?_, fun c' k hk => ?_,
    fun c' k hk => ?_, fun k hk => ?_, fun k hk => ?_⟩
  · change (Function.update s.nodes c (s.nodes c ++ [n]) c').Nodup
    by_cases hcc : c' = c
    · subst hcc
      rw [Function.update_self, List.nodup_append]
      refine ⟨h.nodup c', List.nodup_singleton n, fun a ha b hb hab => hout c' ?_⟩
      rwa [← List.mem_singleton.1 hb, ← hab]
    · rw [Function.update_of_ne hcc]
      exact h.nodup c'
  · change Function.update s.container n (some c) k = some c'
    obtain hk | ⟨rfl, rfl⟩ := (hmem c' k).1 hk
    · rw [Function.update_of_ne (hne c' k hk)]
      exact h.container c' k hk
    · rw [Function.update_self]
  · refine hperm c' ?_
    by_cases hcn : c' = some n
    · subst hcn
      exact hinside
    · refine h.nodeElements c' fun p hp => ?_
      have hp' : (s.insert kind c n).Shown p := hshown p hp
      refine (shown_insert.1 hp').resolve_right ?_
      rintro rfl
      exact hcn hp
  · change k ∈ Function.update s.nodeElements c _ c'
    obtain hk | ⟨rfl, rfl⟩ := (hmem c' k).1 hk
    · have hk' := h.mem_nodeElements c' k hk
      by_cases hcc : c' = c
      · subst hcc
        rw [Function.update_self]
        split
        · exact List.mem_cons_of_mem n hk'
        · exact List.mem_append_left [n] hk'
      · rwa [Function.update_of_ne hcc]
    · rw [Function.update_self]
      split
      · exact List.mem_cons_self
      · exact List.mem_append_right _ (List.mem_singleton_self k)
  · change Function.update s.registered n true k = true
    obtain hk | ⟨-, rfl⟩ := (hmem c' k).1 hk
    · rw [Function.update_of_ne (hne c' k hk)]
      exact h.registered c' k hk
    · rw [Function.update_self]
  · change Function.update s.nodeListeners n (s.nodeListeners n + 1) k = 1
    have hk' : (s.insert kind c n).Shown k := hk
    obtain ⟨c', hk⟩ | rfl := shown_insert.1 hk'
    · rw [Function.update_of_ne (hne c' k hk)]
      exact h.nodeListeners k ⟨c', hk⟩
    · rw [Function.update_self, hlisteners]
  · change (if c = none ∧ kind n = .startState then some n else s.startState) = some k at hk
    change (Function.update s.nodeElements c
      (if c = none ∧ kind n = .startState then n :: s.nodeElements c
        else s.nodeElements c ++ [n]) none).head? = some k ∧ kind k = .startState
    by_cases hs : c = none ∧ kind n = .startState
    · obtain ⟨rfl, hkind⟩ := hs
      rw [if_pos ⟨rfl, hkind⟩, Option.some.injEq] at hk
      rw [if_pos ⟨rfl, hkind⟩, Function.update_self, ← hk]
      exact ⟨rfl, hkind⟩
    · rw [if_neg hs] at hk ⊢
      obtain ⟨hhead, hkind⟩ := h.startState k hk
      refine ⟨?_, hkind⟩
      by_cases hcc : none = c
      · subst hcc
        rw [Function.update_self, List.head?_append, hhead]
        rfl
      · rwa [Function.update_of_ne hcc]

theorem Nodes.shown_delete {s : Elements N T} (h : Nodes kind s) (hn : n ∈ s.nodes c) {k : N} :
    (s.delete kind c n).Shown k ↔ s.Shown k ∧ k ≠ n := by
  constructor
  · rintro ⟨c', hk⟩
    change k ∈ Function.update s.nodes c ((s.nodes c).erase n) c' at hk
    by_cases hc : c' = c
    · subst hc
      rw [Function.update_self, (h.nodup c').mem_erase_iff] at hk
      exact ⟨⟨c', hk.2⟩, hk.1⟩
    · rw [Function.update_of_ne hc] at hk
      refine ⟨⟨c', hk⟩, ?_⟩
      rintro rfl
      have hcontainer := h.container c' k hk
      rw [h.container c k hn, Option.some_inj] at hcontainer
      exact hc hcontainer.symm
  · rintro ⟨⟨c', hk⟩, hkn⟩
    refine ⟨c', ?_⟩
    change k ∈ Function.update s.nodes c ((s.nodes c).erase n) c'
    by_cases hc : c' = c
    · subst hc
      rw [Function.update_self]
      exact (List.mem_erase_of_ne hkn).2 hk
    · rwa [Function.update_of_ne hc]

theorem Nodes.delete {s : Elements N T} (h : Nodes kind s) (hn : n ∈ s.nodes c) :
    Nodes kind { s.delete kind c n with
      nodeListeners := Function.update s.nodeListeners n (s.nodeListeners n - 1) } := by
  have hmem : ∀ c' k, k ∈ (s.delete kind c n).nodes c' → k ∈ s.nodes c' ∧ k ≠ n := by
    intro c' k hk
    refine ⟨?_, ((h.shown_delete hn).1 ⟨c', hk⟩).2⟩
    change k ∈ Function.update s.nodes c ((s.nodes c).erase n) c' at hk
    by_cases hc : c' = c
    · subst hc
      rw [Function.update_self] at hk
      exact List.mem_of_mem_erase hk
    · rwa [Function.update_of_ne hc] at hk
  refine ⟨fun c' => ?_, fun c' k hk => ?_, fun c' hshown => ?_, fun c' k hk => ?_,
    fun c' k hk => ?_, fun k hk => ?_, fun k hk => ?_⟩
  · change (Function.update s.nodes c ((s.nodes c).erase n) c').Nodup
    by_cases hc : c' = c
    · subst hc
      rw [Function.update_self]
      exact (h.nodup c').erase n
    · rw [Function.update_of_ne hc]
      exact h.nodup c'
  · obtain ⟨hk, hkn⟩ := hmem c' k hk
    change Function.update s.container n none k = some c'
    rw [Function.update_of_ne hkn]
    exact h.container c' k hk
  · have hp := h.nodeElements c' fun p hp => by
      have hshown' : (s.delete kind c n).Shown p := hshown p hp
      exact ((h.shown_delete hn).1 hshown').1
    change (Function.update s.nodes c ((s.nodes c).erase n) c').Perm
      (Function.update s.nodeElements c ((s.nodeElements c).erase n) c')
    by_cases hc : c' = c
    · subst hc
      rw [Function.update_self, Function.update_self]
      exact hp.erase n
    · rwa [Function.update_of_ne hc, Function.update_of_ne hc]
  · obtain ⟨hk, hkn⟩ := hmem c' k hk
    have hk' := h.mem_nodeElements c' k hk
    change k ∈ Function.update s.nodeElements c ((s.nodeElements c).erase n) c'
    by_cases hc : c' = c
    · subst hc
      rw [Function.update_self]
      exact (List.mem_erase_of_ne hkn).2 hk'
    · rwa [Function.update_of_ne hc]
  · exact h.registered c' k (hmem c' k hk).1
  · have hk' : (s.delete kind c n).Shown k := hk
    obtain ⟨hk, hkn⟩ := (h.shown_delete hn).1 hk'
    change Function.update s.nodeListeners n _ k = 1
    rw [Function.update_of_ne hkn]
    exact h.nodeListeners k hk
  · change (if c = none ∧ kind n = .startState then none else s.startState) = some k at hk
    change (Function.update s.nodeElements c ((s.nodeElements c).erase n) none).head? = some k ∧
      kind k = .startState
    split at hk
    case isTrue => cases hk
    case isFalse hs =>
      obtain ⟨hhead, hkind⟩ := h.startState k hk
      refine ⟨?_, hkind⟩
      by_cases hc : none = c
      · -- the first node element is another one
        subst hc
        have hkn : k ≠ n := by
          rintro rfl
          exact hs ⟨rfl, hkind⟩
        obtain ⟨rest, hrest⟩ := List.head?_eq_some_iff.1 hhead
        rw [Function.update_self, hrest, List.erase_cons_tail (by simpa using hkn)]
        rfl
      · rwa [Function.update_of_ne hc]

variable [DecidableEq T]

theorem danglingEdges_foldl (list : List T) (f : Option N → List T) (s : Diagram N T) :
    { list.foldl (fun s t => s.addArrivingEdge n t) s with danglingEdges := f } =
      list.foldl (fun s t => s.addArrivingEdge n t) { s with danglingEdges := f } := by
  induction list generalizing s with
  | nil => rfl
  | cons t list ih => exact ih (s.addArrivingEdge n t)

theorem toElements_foldl (list : List T) (s : Diagram N T) :
    (list.foldl (fun s t => s.addArrivingEdge n t) s).toElements = s.toElements := by
  induction list generalizing s with
  | nil => rfl
  | cons t list ih => exact ih (s.addArrivingEdge n t)

theorem edgeListeners_foldl (list : List T) (s : Diagram N T) :
    (list.foldl (fun s t => s.addArrivingEdge n t) s).edgeListeners = s.edgeListeners := by
  induction list generalizing s with
  | nil => rfl
  | cons t list ih => exact ih (s.addArrivingEdge n t)

theorem target_foldl {list : List T} {u : T} (hu : u ∉ list) (s : Diagram N T) :
    (list.foldl (fun s t => s.addArrivingEdge n t) s).target u = s.target u := by
  induction list generalizing s with
  | nil => rfl
  | cons t list ih =>
    rw [List.mem_cons, not_or] at hu
    obtain ⟨hut, hu⟩ := hu
    exact (ih hu (s.addArrivingEdge n t)).trans (Function.update_of_ne hut _ _)

/-- The edges to the name of the node arrive in it, and dangle no more. -/
theorem addArrivingEdges_run (h : c = none ∨ s.danglingEdges c = [] ∨ s.name n ≠ none) :
    ∃ f : Option N → List T, (∀ c', (f c').Sublist (s.danglingEdges c')) ∧
      (∀ t ∈ named s c n, t ∉ f c) ∧ Diagram.addArrivingEdges c n s =
        (.ok (), (named s c n).foldl (fun s t => s.addArrivingEdge n t)
          { s with danglingEdges := f }) := by
  rcases c with _ | p
  · refine ⟨Function.update s.danglingEdges none
      ((s.danglingEdges none).filter (· ∉ named s none n)), fun c' => ?_, fun t ht => ?_, ?_⟩
    · by_cases hc : c' = none
      · subst hc
        rw [Function.update_self]
        exact List.filter_sublist
      · rw [Function.update_of_ne hc]
    · rw [Function.update_self, List.mem_filter, decide_eq_true_iff]
      exact fun hmem => hmem.2 ht
    · rw [← danglingEdges_foldl]
      rfl
  · refine ⟨Function.update s.danglingEdges (some p) [], fun c' => ?_, fun t _ => ?_, ?_⟩
    · by_cases hc : c' = some p
      · subst hc
        rw [Function.update_self]
        exact List.nil_sublist _
      · rw [Function.update_of_ne hc]
    · rw [Function.update_self]
      exact List.not_mem_nil
    · have hname : ¬(s.danglingEdges (some p) ≠ [] ∧ s.name n = none) :=
        fun ⟨hd, hn⟩ => (h.resolve_left (Option.some_ne_none p)).elim hd fun hname => hname hn
      rw [← danglingEdges_foldl, Diagram.addArrivingEdges]
      dsimp only
      rw [if_neg hname]
      rfl

theorem addLeavingEdges_run {d : T → Option N} (ts : List T) {s : Diagram N T}
    (h : ∀ t ∈ ts, s.getDestinationNode kind n (s.goesTo t) = .ok (d t)) :
    Diagram.addLeavingEdges kind n ts s = (.ok (), ts.foldl
      (fun s t => ((s.addLeavingEdge n t).addEdgeListener t).arriveAt (d t) t) s) := by
  induction ts generalizing s with
  | nil => rfl
  | cons t ts ih =>
    rw [Diagram.addLeavingEdges, Throws.bind_of_ok (transitionAdd_run (h t List.mem_cons_self)),
      List.foldl_cons]
    refine ih fun u hu => ?_
    have hsame : (((s.addLeavingEdge n t).addEdgeListener t).arriveAt (d t) t).toElements =
        s.toElements := toElements_arriveAt _ _ _
    rw [hsame]
    exact h u (List.mem_cons_of_mem t hu)

theorem toElements_addAll {d : T → Option N} (ts : List T) (s : Diagram N T) :
    (ts.foldl (fun s t => ((s.addLeavingEdge n t).addEdgeListener t).arriveAt (d t) t)
      s).toElements = s.toElements := by
  induction ts generalizing s with
  | nil => rfl
  | cons t ts ih =>
    rw [List.foldl_cons, ih]
    exact toElements_arriveAt _ _ _

/-- The edges once the node is shown, at first as if it had no transitions, and those that dangled
    arrive in it. -/
theorem Consistent.edges_named (h : Consistent kind s) (hnew : ∀ c', n ∉ s.nodeElements c')
    (hf : AddFollowed kind s c n) {f : Option N → List T}
    (hsub : ∀ c', (f c').Sublist (s.danglingEdges c')) (hnot : ∀ t ∈ named s c n, t ∉ f c) :
    Edges (s.insert kind c n).Shown (Function.update s.transitions n [])
      ((s.insert kind c n).destination kind)
      ((named s c n).foldl (fun s t => s.addArrivingEdge n t)
        { s with toElements := s.insert kind c n, danglingEdges := f }) := by
  have hne : ∀ k, s.Shown k → k ≠ n := by
    rintro k ⟨c', hk⟩ rfl
    exact hnew c' (h.nodes.mem_nodeElements c' k hk)
  have hmem : ∀ k, (s.insert kind c n).Shown k ↔ s.Shown k ∨ k = n := fun k => shown_insert
  have hreveal : Edges (s.insert kind c n).Shown (Function.update s.transitions n [])
      (s.destination kind) { s with toElements := s.insert kind c n } := by
    rw [show (s.insert kind c n).Shown = fun k => s.Shown k ∨ k = n from
      funext fun k => propext (hmem k)]
    have hsame : ∀ k, s.Shown k → Function.update s.transitions n [] k = s.transitions k :=
      fun k hk => Function.update_of_ne (hne k hk) _ _
    have hedges : Edges s.Shown s.transitions (s.destination kind)
        { s with toElements := s.insert kind c n } := { h.edges with }
    refine (hedges.congr hsame fun _ _ _ _ => rfl).reveal hf.leavingEdges hf.arrivingEdges
      (Function.update_self ..) fun k hk t ht => ?_
    rw [hsame k hk] at ht
    exact hf.destination_ne k hk t ht
  have hall := Edges.attachAll (m := n) (named s c n) ((h.edges.dangling_nodup c).filter _)
    (hreveal.undangle hsub)
    (fun t ht => by
      obtain ⟨k, hk, htk, hd⟩ := h.edges.mem_dangling c t (mem_named.1 ht).1
      exact ⟨k, (hmem k).2 (.inl hk), by rwa [Function.update_of_ne (hne k hk)], hd⟩)
    fun t ht c' hc' => by
      have hcc : c' = c := h.edges.dangling_unique c' c t ((hsub c').mem hc') (mem_named.1 ht).1
      exact hnot t ht (hcc ▸ hc')
  refine hall.congr (fun _ _ => rfl) fun k hk t ht => ?_
  have hkn : k ≠ n := by
    rintro rfl
    rw [Function.update_self] at ht
    cases ht
  rw [Function.update_of_ne hkn] at ht
  exact (hf.destination k (((hmem k).1 hk).resolve_right hkn) t ht).trans
    (if_congr mem_named.symm rfl rfl)

/-- `nodeElementAdd`, after the node element has been added. -/
theorem Consistent.nodeElementAdd (h : Consistent kind s) (hnew : ∀ c', n ∉ s.nodeElements c')
    (hf : AddFollowed kind s c n) {s₀ : Diagram N T}
    (hs₀ : { s₀ with
      registered := Function.update s₀.registered n true
      nodes := Function.update s₀.nodes c (s₀.nodes c ++ [n])
      container := Function.update s₀.container n (some c) } =
        { s with toElements := s.insert kind c n }) :
    Consistent kind (Diagram.nodeElementAdd kind c n s₀).2 := by
  let s₁ : Diagram N T := { s with toElements := s.insert kind c n }
  let dst := (s.insert kind c n).destination kind
  obtain ⟨f, hsub, hnot, hrun⟩ := addArrivingEdges_run (s := s₁) (n := n) hf.name
  have hattach := h.edges_named hnew hf hsub hnot
  have hs₂ := toElements_foldl (n := n) (named s₁ c n) { s₁ with danglingEdges := f }
  -- its own edges are added, if there are any
  let addLeaving : Throws Exn (Diagram N T) Unit := fun s =>
    if c = none then Diagram.addLeavingEdges kind n (s.transitions n) s else (.ok (), s)
  obtain ⟨s₃, hrun₃, hs₃, hedges⟩ : ∃ s₃ : Diagram N T,
      addLeaving ((named s₁ c n).foldl (fun s t => s.addArrivingEdge n t)
        { s₁ with danglingEdges := f }) = (.ok (), s₃) ∧ s₃.toElements = s.insert kind c n ∧
        Edges (s.insert kind c n).Shown s.transitions dst s₃ := by
    by_cases hc : c = none
    · dsimp only [addLeaving]
      rw [if_pos hc, hs₂]
      refine ⟨_, addLeavingEdges_run (d := dst n) (s.transitions n) fun t ht => ?_,
        (toElements_addAll _ _).trans hs₂, ?_⟩
      · rw [hs₂]
        exact hf.found t ht
      · have hall := hattach.addAll (shown_insert.2 (.inr rfl)) (s.transitions n)
          (h.separate.nodup n)
          (fun t ht m hm hmem' => by
            by_cases hmn : m = n
            · rw [hmn, Function.update_self] at hmem'
              cases hmem'
            · rw [Function.update_of_ne hmn] at hmem'
              exact hmn (h.separate.source m n t hmem' ht))
          (fun t ht => by
            rw [edgeListeners_foldl]
            exact (hf.edges t ht).1)
          fun t ht => by
            have hnot : t ∉ named s c n := by
              intro hmem'
              obtain ⟨k, ⟨c', hk⟩, htk, -⟩ := h.edges.mem_dangling c t (mem_named.1 hmem').1
              obtain rfl := h.separate.source k n t htk ht
              exact hnew c' (h.nodes.mem_nodeElements c' k hk)
            rw [target_foldl hnot]
            exact (hf.edges t ht).2
        rwa [Function.update_idem, Function.update_self, List.nil_append,
          Function.update_eq_self] at hall
    · refine ⟨_, if_neg hc, hs₂, ?_⟩
      have hnil := hf.transitions.resolve_left hc
      rwa [← hnil, Function.update_eq_self] at hattach
  have hall : Diagram.nodeElementAdd kind c n s₀ = (.ok (), s₃.addNodeListener n) := by
    rw [Diagram.nodeElementAdd, Throws.bind_run]
    dsimp only [Throws.modify_]
    rw [hs₀, Throws.bind_of_ok hrun]
    exact Throws.bind_of_ok hrun₃ _
  rw [hall]
  have hlisteners : (s₃.addNodeListener n).toElements = { s.insert kind c n with
      nodeListeners := Function.update s.nodeListeners n (s.nodeListeners n + 1) } := by
    have hcount : s₃.nodeListeners = s.nodeListeners := by
      rw [hs₃]
      rfl
    rw [← hs₃, ← hcount]
    rfl
  refine ⟨?_, ?_, ?_⟩
  · dsimp only
    rw [hlisteners]
    exact h.nodes.insert hnew hf.nodeListeners hf.nodes
  · dsimp only
    rw [hlisteners]
    exact h.separate
  · dsimp only
    rw [hlisteners]
    exact { hedges with }

theorem Consistent.addNode (h : Consistent kind s) (hp : Proper s (.addNode c n))
    (hf : Followed kind s (.addNode c n)) :
    Consistent kind (Diagram.addNodeElement kind c n s).2 := by
  obtain ⟨hc, hnew⟩ := hp
  rcases c with _ | p
  · by_cases hkind : kind n = .startState
    · rw [Diagram.addNodeElement, if_pos hkind]
      by_cases hstart : s.startState.isSome
      · rw [if_pos hstart]
        exact h
      · rw [if_neg hstart]
        have hf := hf.resolve_left fun hs => hstart hs.2.2
        refine h.nodeElementAdd hnew hf ?_
        simp only [Elements.insert, hkind, and_self, if_true]
    · have hf := hf.resolve_left fun hs => hkind hs.2.1
      rw [Diagram.addNodeElement, if_neg hkind]
      refine h.nodeElementAdd hnew hf ?_
      simp only [Elements.insert, hkind, and_false, if_false]
  · have hf := hf.resolve_left fun hs => Option.some_ne_none p hs.1
    rw [Diagram.addNodeElement, h.nodes.nodeListeners p (h.nodes.shown (hc p rfl)), fire_one]
    refine h.nodeElementAdd hnew hf ?_
    simp only [Elements.insert, Option.some_ne_none, false_and, if_false]

/-! ## A node that goes -/

theorem removeArrivingEdges_singleton {t : T} (h : s.arrivingEdges n = [t]) :
    s.removeArrivingEdges c n (s.arrivingEdges n).length 0 =
      (s.removeArrivingEdge n t).addDanglingEdge c t := by
  rw [h, List.length_singleton, Diagram.removeArrivingEdges, h]
  rfl

theorem removeLeavingEdges_singleton {t : T} (h : s.leavingEdges n = [t]) :
    s.removeLeavingEdges n (s.leavingEdges n).length 0 =
      ((s.departFrom (s.target t) t).removeLeavingEdge n t).removeEdgeListener t := by
  rw [h, List.length_singleton, Diagram.removeLeavingEdges, h]
  rfl

theorem toElements_removeArrivingEdges (fuel i : ℕ) (s : Diagram N T) :
    (s.removeArrivingEdges c n fuel i).toElements = s.toElements := by
  induction fuel generalizing i s with
  | zero => rfl
  | succ fuel ih =>
    rw [Diagram.removeArrivingEdges]
    split
    · rfl
    · exact ih _ _

theorem toElements_removeLeavingEdges (fuel i : ℕ) (s : Diagram N T) :
    (s.removeLeavingEdges n fuel i).toElements = s.toElements := by
  induction fuel generalizing i s with
  | zero => rfl
  | succ fuel ih =>
    rw [Diagram.removeLeavingEdges]
    split
    · rfl
    · exact (ih _ _).trans (toElements_departFrom _ _ s)

theorem mem_dangling_removeArrivingEdges (hlength : (s.arrivingEdges n).length ≤ 1) {t : T}
    {c' : Option N}
    (h : t ∈ (s.removeArrivingEdges c n (s.arrivingEdges n).length 0).danglingEdges c') :
    t ∈ s.danglingEdges c' ∨ t ∈ s.arrivingEdges n := by
  rcases hlist : s.arrivingEdges n with _ | ⟨u, _ | ⟨v, rest⟩⟩
  · rw [hlist] at h
    exact .inl h
  · rw [removeArrivingEdges_singleton hlist] at h
    change t ∈ Function.update s.danglingEdges c (s.danglingEdges c ++ [u]) c' at h
    by_cases hc : c' = c
    · subst hc
      rw [Function.update_self, List.mem_append] at h
      exact h
    · rw [Function.update_of_ne hc] at h
      exact .inl h
  · rw [hlist] at hlength
    simp at hlength

namespace Edges

variable {shown : N → Prop} {transitions : N → List T} {dst : N → T → Option N}

/-- The loop over the arriving edges, if it meets at most one. -/
theorem removeArrivingEdges (h : Edges shown transitions dst s) (hn : shown n)
    (hlength : (s.arrivingEdges n).length ≤ 1) (c : Option N) :
    Edges shown transitions (fun k t => if dst k t = some n then none else dst k t)
      (s.removeArrivingEdges c n (s.arrivingEdges n).length 0) := by
  rcases hlist : s.arrivingEdges n with _ | ⟨t, _ | ⟨u, rest⟩⟩
  · refine h.congr (fun _ _ => rfl) fun k hk t ht => if_neg fun hd => ?_
    have hmem := (h.mem_arriving n hn t).2 ⟨k, hk, ht, hd⟩
    rw [hlist] at hmem
    cases hmem
  · obtain ⟨k, hk, ht, hd⟩ := (h.mem_arriving n hn t).1 (hlist ▸ List.mem_singleton_self t)
    have hfree : ∀ c', t ∉ s.danglingEdges c' := by
      intro c' hmem
      obtain ⟨k', hk', ht', hnone⟩ := h.mem_dangling c' t hmem
      rw [h.source_unique hk ht hk' ht', hd] at hnone
      cases hnone
    have hdetach := h.detach hk ht
    rw [hd] at hdetach
    have hdangle := hdetach.dangle hk ht (Function.update_self ..) hfree c
    rw [← hlist, removeArrivingEdges_singleton hlist]
    refine hdangle.congr (fun _ _ => rfl) fun k' hk' u hu => ?_
    by_cases hut : u = t
    · subst hut
      rw [Function.update_self, h.source_unique hk ht hk' hu, if_pos hd]
    · rw [Function.update_of_ne hut]
      refine if_neg fun hd' => hut ?_
      have hmem := (h.mem_arriving n hn u).2 ⟨k', hk', hu, hd'⟩
      rwa [hlist, List.mem_singleton] at hmem
  · rw [hlist] at hlength
    simp at hlength

/-- The loop over the leaving edges, if it meets at most one. -/
theorem removeLeavingEdges (h : Edges shown transitions dst s) (hn : shown n)
    (hlength : (transitions n).length ≤ 1)
    (hdangling : ∀ t ∈ transitions n, ∀ c, t ∉ s.danglingEdges c) :
    Edges shown (Function.update transitions n []) dst
      (s.removeLeavingEdges n (s.leavingEdges n).length 0) := by
  have hleaving := h.leaving n hn
  rcases hlist : transitions n with _ | ⟨t, _ | ⟨u, rest⟩⟩
  · rw [← hlist, Function.update_eq_self, hleaving, hlist]
    exact h
  · have ht : t ∈ transitions n := hlist ▸ List.mem_singleton_self t
    rw [removeLeavingEdges_singleton (hleaving.trans hlist)]
    have hremove := h.remove (f := Function.update s.edgeListeners t (s.edgeListeners t - 1)) hn ht
      (by rw [hlist]; exact List.nodup_singleton t) (hdangling t ht)
      fun u hu => Function.update_of_ne hu _ _
    rw [hlist, List.erase_cons_head] at hremove
    have hrun : ((s.departFrom (s.target t) t).removeLeavingEdge n t).removeEdgeListener t =
        { (s.departFrom (s.target t) t).removeLeavingEdge n t with
          edgeListeners := Function.update s.edgeListeners t (s.edgeListeners t - 1) } := by
      rw [departFrom_eq]
      rfl
    rwa [hrun]
  · rw [hlist] at hlength
    simp at hlength

end Edges

/-- `nodeElementRemove`, after the node element has been removed. -/
theorem Consistent.nodeElementRemove (h : Consistent kind s) (hn : n ∈ s.nodes c)
    (hf : RemoveFollowed kind s c n) {e : Elements N T}
    (he : { e with
      nodes := Function.update e.nodes c ((e.nodes c).erase n)
      container := Function.update e.container n none } = s.delete kind c n) :
    Consistent kind (Diagram.nodeElementRemove c n { s with toElements := e }) := by
  have hshown : s.Shown n := ⟨c, hn⟩
  have hregistered : e.registered n = true :=
    (congrFun (congrArg (fun e : Elements N T => e.registered) he) n).trans
      (h.nodes.registered c n hn)
  let s₁ : Diagram N T := ({ s with toElements := e } : Diagram N T).removeNodeListener n
  let s₂ := s₁.removeArrivingEdges c n (s₁.arrivingEdges n).length 0
  let s₃ := if c = none then s₂.removeLeavingEdges n (s₂.leavingEdges n).length 0 else s₂
  -- the edges that arrive in the node dangle
  have h₂ : Edges s.Shown s.transitions
      (fun k t => if s.destination kind k t = some n then none else s.destination kind k t) s₂ :=
    Edges.removeArrivingEdges (s := s₁) { h.edges with } hshown hf.arrivingEdges c
  -- and its own are removed, if there are any
  have h₃ : Edges s.Shown (Function.update s.transitions n [])
      (fun k t => if s.destination kind k t = some n then none else s.destination kind k t) s₃ := by
    have hleaving := hf.leavingEdges
    rw [h.edges.leaving n hshown] at hleaving
    by_cases hc : c = none
    · rw [if_pos hc] at hleaving
      dsimp only [s₃]
      rw [if_pos hc]
      refine h₂.removeLeavingEdges hshown hleaving fun t ht c' hmem => ?_
      exact (mem_dangling_removeArrivingEdges (s := s₁) hf.arrivingEdges hmem).elim
        (hf.dangling t ht c') (hf.loop t ht)
    · rw [if_neg hc] at hleaving
      dsimp only [s₃]
      rw [if_neg hc, ← hleaving, Function.update_eq_self]
      exact h₂
  have hs₃ : s₃.toElements = s₁.toElements := by
    have hs₂ := toElements_removeArrivingEdges (c := c) (n := n) (s₁.arrivingEdges n).length 0 s₁
    dsimp only [s₃]
    split
    · exact (toElements_removeLeavingEdges _ _ _).trans hs₂
    · exact hs₂
  have hrun : Diagram.nodeElementRemove c n { s with toElements := e } = { s₃ with
      nodes := Function.update s₃.nodes c ((s₃.nodes c).erase n)
      container := Function.update s₃.container n none } := if_pos hregistered
  have hlast : (Diagram.nodeElementRemove c n { s with toElements := e }).toElements =
      { s.delete kind c n with
        nodeListeners := Function.update s.nodeListeners n (s.nodeListeners n - 1) } := by
    have hcount := congrArg (fun e : Elements N T => e.nodeListeners) he
    change e.nodeListeners = s.nodeListeners at hcount
    rw [hrun]
    dsimp only
    rw [hs₃, ← he, ← hcount]
    rfl
  refine ⟨?_, ?_, ?_⟩
  · rw [hlast]
    exact h.nodes.delete hn
  · rw [hlast]
    exact h.separate
  · rw [hlast]
    have hhide := h₃.hide (Function.update_self ..)
    have hsame : (s.delete kind c n).Shown = fun k => s.Shown k ∧ k ≠ n :=
      funext fun k => propext (h.nodes.shown_delete hn)
    have hedges : Edges (s.delete kind c n).Shown s.transitions
        ((s.delete kind c n).destination kind) s₃ := by
      rw [hsame]
      refine hhide.congr (fun k hk => (Function.update_of_ne hk.2 _ _).symm) fun k hk t ht => ?_
      rw [Function.update_of_ne hk.2] at ht
      exact hf.destination k hk.1 hk.2 t ht
    rw [hrun]
    exact { hedges with }

theorem Consistent.removeNode (h : Consistent kind s) (hp : Proper s (.removeNode c n))
    (hf : Followed kind s (.removeNode c n)) :
    Consistent kind (Diagram.removeNodeElement kind c n s) := by
  obtain ⟨hc, hmem⟩ := hp
  have hn := (h.nodes.perm hc).mem_iff.2 hmem
  rcases c with _ | p
  · rw [Diagram.removeNodeElement]
    by_cases hkind : kind n = .startState
    · rw [if_pos hkind]
      by_cases hstart : s.startState = some n
      · rw [if_pos hstart]
        obtain ⟨rest, hrest⟩ := List.head?_eq_some_iff.1 (h.nodes.startState n hstart).1
        refine h.nodeElementRemove hn hf ?_
        simp only [Elements.delete, hkind, and_self, if_true, hrest, List.tail_cons,
          List.erase_cons_head]
      · rw [if_neg hstart]
        exact h
    · rw [if_neg hkind]
      refine h.nodeElementRemove hn hf ?_
      simp only [Elements.delete, hkind, and_false, if_false]
  · rw [Diagram.removeNodeElement, h.nodes.nodeListeners p (h.nodes.shown (hc p rfl)), Function.iterate_one]
    refine h.nodeElementRemove hn hf ?_
    simp only [Elements.delete, Option.some_ne_none, false_and, if_false]

/-! ## Runs -/

/-- A new process definition and its diagram.  The elements that there may be have the names and
    destinations that they are created with. -/
def Diagram.new (name : N → Option String) (goesTo : T → Option String) : Diagram N T where
  nodeElements := fun _ => []
  name := name
  container := fun _ => none
  registered := fun _ => false
  startState := none
  transitions := fun _ => []
  goesTo := goesTo
  nodes := fun _ => []
  nodeListeners := fun _ => 0
  danglingEdges := fun _ => []
  leavingEdges := fun _ => []
  arrivingEdges := fun _ => []
  source := fun _ => none
  target := fun _ => none
  edgeListeners := fun _ => 0

omit [DecidableEq T] in
theorem Consistent.new (name : N → Option String) (goesTo : T → Option String) :
    Consistent kind (Diagram.new name goesTo) := by
  have hout : ∀ n, ¬ (Diagram.new name goesTo).Shown n := fun _ ⟨_, hn⟩ => List.not_mem_nil hn
  refine ⟨⟨fun _ => .nil, nofun, fun _ _ => .nil, nofun, nofun, fun n hn => absurd hn (hout n),
    nofun⟩, ⟨fun _ => .nil, nofun⟩, ?_⟩
  exact {
    leaving := fun n hn => absurd hn (hout n)
    source := fun n hn => absurd hn (hout n)
    target := fun n hn => absurd hn (hout n)
    arriving_nodup := fun n hn => absurd hn (hout n)
    mem_arriving := fun n hn => absurd hn (hout n)
    dangling_nodup := fun _ => .nil
    dangling_unique := nofun
    mem_dangling := nofun }

/-- What a change makes of the diagram. -/
def step (kind : N → Kind) (s : Diagram N T) (change : Change N T) : Diagram N T :=
  (change.exec kind s).2

theorem Consistent.step (h : Consistent kind s) {change : Change N T} (hp : Proper s change)
    (hf : Followed kind s change) : Consistent kind (step kind s change) := by
  cases change with
  | addNode c n => exact h.addNode hp hf
  | removeNode c n => exact h.removeNode hp hf
  | addTransition n t => exact h.addTransition hp hf
  | removeTransition n t => exact h.removeTransition hp hf
  | setName n name => exact h.setName hp hf
  | setTo t newTo => exact h.setTo hp hf

/-- **The diagram mirrors the definition** in every state that is reached by changes which its
    listeners follow. -/
theorem mirrors_of_run (kind : N → Kind) (name : N → Option String) (goesTo : T → Option String)
    (changes : List (Change N T))
    (h : Allowed (fun s change => Proper s change ∧ Followed kind s change) (step kind)
      (Diagram.new name goesTo) changes) :
    Mirrors kind (changes.foldl (step kind) (Diagram.new name goesTo)) := by
  have hrun := Run.of_allowed h
  have hconsistent : Consistent kind (changes.foldl (step kind) (Diagram.new name goesTo)) := by
    refine hrun.inv (Consistent.new name goesTo) fun s change s' hs hstep => ?_
    obtain ⟨⟨hp, hf⟩, rfl⟩ := hstep
    exact hs.step hp hf
  exact hconsistent.mirrors

section Decidable

variable [Fintype N]

instance (s : Elements N T) (n : N) : Decidable (s.Shown n) :=
  inferInstanceAs (Decidable (∃ c, n ∈ s.nodes c))

instance (s : Diagram N T) (c : Option N) (n : N) : Decidable (AddFollowed kind s c n) :=
  decidable_of_iff _ (addFollowed_iff kind s c n).symm

instance (s : Diagram N T) (c : Option N) (n : N) : Decidable (RemoveFollowed kind s c n) :=
  decidable_of_iff _ (removeFollowed_iff kind s c n).symm

instance (s : Diagram N T) : ∀ change, Decidable (Followed kind s change)
  | .addNode c n => inferInstanceAs (Decidable (_ ∨ AddFollowed kind s c n))
  | .removeNode c n => inferInstanceAs (Decidable (RemoveFollowed kind s c n))
  | .addTransition _ _ => inferInstanceAs (Decidable (_ ∧ _ ∧ _))
  | .removeTransition _ _ => inferInstanceAs (Decidable (∀ _, _))
  | .setName _ _ => inferInstanceAs (Decidable (_ ∨ ∀ _, _))
  | .setTo _ _ => inferInstanceAs (Decidable (_ ∨ ∀ _, _))

end Decidable

/-- A transition to a node that is removed and added again. -/
def sample : List (Change (Fin 2) (Fin 1)) :=
  [.addNode none 0, .addNode none 1, .addTransition 0 0, .removeNode none 1, .addNode none 1]

theorem sample_mirrors : Mirrors (fun _ => .other) (sample.foldl (step fun _ => .other)
    (Diagram.new (fun n => if n = 0 then some "a" else some "b") fun _ => some "b")) :=
  mirrors_of_run _ _ _ sample
    ⟨⟨⟨nofun, by decide⟩, by decide +kernel⟩, ⟨⟨nofun, by decide⟩, by decide +kernel⟩,
      ⟨⟨.root (by decide), by decide⟩, by decide +kernel⟩,
      ⟨⟨nofun, by decide +kernel⟩, by decide +kernel⟩,
      ⟨⟨nofun, by decide +kernel⟩, by decide +kernel⟩, trivial⟩

/-- Two transitions to a node that is removed: the edge of the second keeps it as its target. -/
theorem removed_target_kept : ¬ ∀ (kind : Fin 3 → Kind) (name : Fin 3 → Option String)
    (goesTo : Fin 2 → Option String) (changes : List (Change (Fin 3) (Fin 2))),
    Allowed Proper (step kind) (Diagram.new name goesTo) changes →
      Mirrors kind (changes.foldl (step kind) (Diagram.new name goesTo)) := by
  intro h
  have hmirrors := h (fun _ => .other) (fun n => if n = 0 then some "a" else some "b")
    (fun _ => some "a")
    [.addNode none 0, .addNode none 1, .addNode none 2, .addTransition 1 0, .addTransition 2 1,
      .removeNode none 0]
    ⟨⟨nofun, by decide⟩, ⟨nofun, by decide⟩, ⟨nofun, by decide⟩,
      ⟨.root (by decide), by decide⟩, ⟨.root (by decide +kernel), by decide +kernel⟩,
      ⟨nofun, by decide +kernel⟩, trivial⟩
  have htarget := hmirrors.target 2 (.root (by decide +kernel)) 1 (by decide +kernel)
  revert htarget
  decide +kernel

end Designer

end Jbpm
