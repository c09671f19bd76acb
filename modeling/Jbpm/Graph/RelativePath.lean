/-
  Paths from one node to another: so many levels up, and down again by names.

  * `Way`: up to the collection where the ways from two nodes meet, and down;
  * `Way.findNode_iff`: when the path of a way is found;
  * `Hierarchy.rename`: another name for a node.
-/
import Jbpm.Graph.HierarchicalName

namespace Jbpm

namespace Graph

open Lib Jpdl

namespace Hierarchy

variable {N : Type} {D : Hierarchy N} {b c : Option N} {l r : List N} {n t : N} {w : String}

/-! ## Up to a common collection -/

theorem above_some (k : N) : D.above (some k) = k :: D.above (D.superState.parent k) :=
  path_of_parent rfl

theorem ancestors_eq (n : N) : D.superState.ancestors n = D.above (D.superState.parent n) :=
  (List.cons.inj (path_of_parent rfl)).2

theorem above_injective (h : D.above b = D.above c) : b = c := by
  cases b with
  | none =>
    cases c with
    | none => rfl
    | some k => cases h
  | some j =>
    cases c with
    | none => cases h
    | some k => rw [(List.cons.inj h).1]

theorem up_of_above (h : D.above b = l ++ D.above c) : D.up l.length b = some c := by
  induction l generalizing b with
  | nil => rw [above_injective h, List.length_nil, up]
  | cons k l ih =>
    cases b with
    | none => cases h
    | some j =>
      rw [above_some] at h
      exact ih (List.cons.inj h).2

/-- The way from a collection to a node: up over `l` to the collection `c`, and down over `r`,
    from the inside out. -/
structure Way (D : Hierarchy N) (b : Option N) (t : N) (l r : List N) (c : Option N) : Prop where
  up : D.above b = l ++ D.above c
  down : D.superState.path t = r ++ D.above c
  left : ∀ m ∈ l, m ∉ D.superState.path t
  right : ∀ m ∈ r, m ∉ D.above b

theorem exists_way (D : Hierarchy N) (b : Option N) (t : N) : ∃ l r c, D.Way b t l r c := by
  cases b with
  | none =>
    exact ⟨[], D.superState.path t, none, rfl, (List.append_nil _).symm,
      fun _ hm => (List.not_mem_nil hm).elim, fun _ _ hm => List.not_mem_nil hm⟩
  | some a =>
    obtain ⟨l, r, s, ha, ht, hl, hr⟩ := D.superState.path_split a t
    cases s with
    | nil => exact ⟨l, r, none, ha, ht, hl, hr⟩
    | cons k s =>
      have hk : D.above (some k) = k :: s := Forest.path_of_suffix ha
      exact ⟨l, r, some k, hk ▸ ha, hk ▸ ht, hl, hr⟩

theorem Way.above_subset (h : D.Way b t l r c) : D.above c ⊆ D.above b := by
  rw [h.up]
  exact List.subset_append_right l _

theorem Way.mem_right (h : D.Way b t l r c) (hn : n ∈ D.superState.path t) (hb : n ∉ D.above b) :
    n ∈ r := by
  rw [h.down] at hn
  exact (List.mem_append.1 hn).resolve_right fun hc => hb (h.above_subset hc)

theorem Way.right_ne_nil (h : D.Way b t l r c) (ht : t ∉ D.above b) : r ≠ [] := by
  rintro rfl
  exact List.not_mem_nil (h.mem_right List.mem_cons_self ht)

/-- A node in the collection itself: the path is its name. -/
theorem Way.eq_singleton (h : D.Way b t l r c) (hparent : D.superState.parent t = b) :
    l = [] ∧ r = [t] ∧ b = c := by
  have hpath : D.superState.path t = t :: D.above b := path_of_parent hparent
  have hnil : l = [] := by
    refine List.eq_nil_iff_forall_not_mem.2 fun m hm => h.left m hm ?_
    rw [hpath, h.up]
    exact List.mem_cons_of_mem t (List.mem_append_left _ hm)
  have hup := h.up
  rw [hnil, List.nil_append] at hup
  have hdown := h.down
  rw [hpath, hup, ← List.singleton_append] at hdown
  exact ⟨hnil, (List.append_cancel_right hdown).symm, above_injective hup⟩

theorem Way.of_parent (h : D.superState.parent t = b) : D.Way b t [] [t] b where
  up := rfl
  down := path_of_parent h
  left _ hm := (List.not_mem_nil hm).elim
  right m hm hb := by
    rw [List.mem_singleton.1 hm] at hb
    have hnodup := D.superState.nodup_path (a := t)
    rw [path_of_parent h] at hnodup
    exact (List.nodup_cons.1 hnodup).1 hb

/-! ## Down by names -/

variable (D) in
/-- A name that a lookup can find: neither null, nor empty, nor `..`. -/
def ProperName (n : N) : Prop := ∃ s, D.name n = some s ∧ s ≠ "" ∧ s ≠ ".."

theorem ProperName.written (h : D.ProperName n) :
    D.name n = some (D.written n) ∧ D.written n ≠ "" ∧ D.written n ≠ ".." := by
  obtain ⟨s, hs, hne, hdots⟩ := h
  rw [Hierarchy.written, hs]
  exact ⟨rfl, hne, hdots⟩

theorem parts_relative (hr : r ≠ []) : parts ((D.qualified r).getD "null") =
    (r.reverse.map D.written).filter (· ≠ "") := by
  obtain ⟨n, ss, rfl⟩ := List.exists_cons_of_ne_nil hr
  exact parts_qualified n ss

theorem parts_proper (hr : r ≠ []) (h : ∀ m ∈ r, D.ProperName m) :
    parts ((D.qualified r).getD "null") = r.reverse.map D.written := by
  rw [parts_relative hr, List.filter_eq_self]
  intro part hpart
  obtain ⟨m, hm, rfl⟩ := List.mem_map.1 hpart
  simpa using (h m (List.mem_reverse.1 hm)).written.2.1

theorem splitOn_relative (hr : r ≠ []) : ((D.qualified r).getD "null").toList.splitOn '/' =
    r.reverse.map fun m => (D.written m).toList := by
  obtain ⟨n, ss, rfl⟩ := List.exists_cons_of_ne_nil hr
  exact splitOn_qualified n ss

/-- A slash at the start is a first name that is empty. -/
theorem exists_empty_of_slash (hr : r ≠ [])
    (h : ((D.qualified r).getD "null").toList.head? = some '/') : ∃ m ∈ r, D.written m = "" := by
  obtain ⟨rest, hw⟩ := List.head?_eq_some_iff.1 h
  have hsplit := splitOn_relative (D := D) hr
  have hcons : ('/' :: rest).splitOn '/' = [] :: rest.splitOn '/' :=
    List.splitOn_append_cons_self (a := '/') [] rest
  rw [hw, hcons] at hsplit
  obtain ⟨m, hm, hempty⟩ := List.mem_map.1 (hsplit ▸ List.mem_cons_self)
  exact ⟨m, List.mem_reverse.1 hm, String.toList_inj.1 hempty⟩

/-- The start `../` is a first name that is `..`. -/
theorem exists_dots_of_upwards (hr : r ≠ []) {rest : List Char}
    (h : ((D.qualified r).getD "null").toList = '.' :: '.' :: '/' :: rest) :
    ∃ m ∈ r, D.written m = ".." := by
  have hcons : ('.' :: '.' :: '/' :: rest).splitOn '/' =
      ['.', '.'].splitOn '/' ++ rest.splitOn '/' :=
    List.splitOn_append_cons_self (a := '/') ['.', '.'] rest
  have hdots : ['.', '.'].splitOn '/' = [['.', '.']] := List.splitOn_eq_singleton (by decide)
  have hsplit := splitOn_relative (D := D) hr
  rw [h, hcons, hdots, List.singleton_append] at hsplit
  obtain ⟨m, hm, hname⟩ := List.mem_map.1 (hsplit ▸ List.mem_cons_self)
  exact ⟨m, List.mem_reverse.1 hm, String.toList_inj.1 hname⟩

/-- A path of several names has a slash in it. -/
theorem not_blank_of_cons (n k : N) (ss : List N) :
    isBlank ((D.qualified (n :: k :: ss)).getD "null") = false := by
  have hslash : '/' ∈ ((D.qualified (n :: k :: ss)).getD "null").toList := by
    rw [qualified, Option.getD_some, String.toList_append, String.toList_append]
    exact List.mem_append_left _ (List.mem_append_right _ (by decide))
  rw [isBlank, List.all_eq_false]
  exact ⟨'/', hslash, by decide⟩

theorem not_blank_upwards (k : ℕ) (w : String) : isBlank (upwards (k + 1) w) = false := by
  rw [isBlank, toList_upwards]
  rfl

theorem head_upwards (k : ℕ) (w : String) : (upwards (k + 1) w).toList.head? = some '.' := by
  rw [toList_upwards]
  rfl

theorem of_findNode (h : D.findNode b (some w) = .ok (some t)) : isBlank w = false ∧
    D.leadsTo (if w.toList.head? = some '/' then none else b) (parts w) = some t := by
  rw [findNode] at h
  by_cases hblank : isBlank w = true
  · rw [if_pos hblank] at h
    cases h
  · rw [if_neg hblank] at h
    exact ⟨Bool.not_eq_true _ ▸ hblank, leadsTo_of_findPart h⟩

theorem findNode_of_leadsTo (hblank : isBlank w = false) (hhead : w.toList.head? ≠ some '/')
    (hl : D.leadsTo b (parts w) = some t) (hf : D.Followed b (parts w)) :
    D.findNode b (some w) = .ok (some t) := by
  rw [findNode, hblank, if_neg Bool.false_ne_true, if_neg hhead]
  exact findPart_of_leadsTo hl hf

theorem leadsTo_of_findNode_upwards {k : ℕ} (h : D.findNode b (some (upwards k w)) = .ok (some t))
    (hslash : k = 0 → w.toList.head? ≠ some '/') :
    D.leadsTo b (List.replicate k ".." ++ parts w) = some t := by
  have hleads := (of_findNode h).2
  rw [parts_upwards] at hleads
  cases k with
  | zero => rwa [upwards, if_neg (hslash rfl)] at hleads
  | succ k => rwa [head_upwards, if_neg (by decide)] at hleads

theorem Way.names_of_findNode (hway : D.Way b t l r c)
    (h : D.findNode b (some (upwards l.length w)) = .ok (some t))
    (hslash : l.length = 0 → w.toList.head? ≠ some '/') (hdots : ".." ∉ parts w) :
    r.reverse.map D.name = (parts w).map some := by
  have hleads := leadsTo_of_findNode_upwards h hslash
  rw [(follow_up (up_of_above hway.up) _).1] at hleads
  have hnames := names_of_leadsTo hleads hdots
  rw [hway.down, List.reverse_append, List.map_append] at hnames
  exact List.append_cancel_left hnames

/-- Were one of the names empty or `..`, the lookup would end too far up. -/
theorem Way.proper_of_findNode (hway : D.Way b t l r c) (hr : r ≠ [])
    (h : D.findNode b (some (upwards l.length ((D.qualified r).getD "null"))) = .ok (some t)) :
    ∀ m ∈ r, D.ProperName m := by
  have hparts := parts_relative (D := D) hr
  have hle := List.length_filter_le (fun s => decide (s ≠ "")) (r.reverse.map D.written)
  rw [← hparts, List.length_map, List.length_reverse] at hle
  have htlength := congrArg List.length hway.down
  rw [List.length_append] at htlength
  have hslash : l.length = 0 → ((D.qualified r).getD "null").toList.head? ≠ some '/' := by
    intro hzero hhead
    obtain ⟨m, hm, hempty⟩ := exists_empty_of_slash hr hhead
    have hlt : (parts ((D.qualified r).getD "null")).length < r.length := by
      have hlt := (List.length_filter_lt_length_iff_exists
        (p := fun s : String => decide (s ≠ "")) (l := r.reverse.map D.written)).2
          ⟨"", List.mem_map.2 ⟨m, List.mem_reverse.2 hm, hempty⟩, by decide⟩
      rwa [← hparts, List.length_map, List.length_reverse] at hlt
    have hleads := (of_findNode h).2
    rw [hzero, upwards, if_pos hhead] at hleads
    have hlevel := length_of_leadsTo hleads
    have habove : (D.above none).length = 0 := rfl
    omega
  have hleads := leadsTo_of_findNode_upwards h hslash
  have hlevel := length_of_leadsTo hleads
  have hblength := congrArg List.length hway.up
  rw [List.length_append] at hblength
  rw [List.count_append, List.count_replicate_self, List.length_append, List.length_replicate]
    at hlevel
  have hdots : ".." ∉ parts ((D.qualified r).getD "null") := List.count_eq_zero.1 (by omega)
  have hall : parts ((D.qualified r).getD "null") = r.reverse.map D.written := by
    rw [hparts]
    refine List.filter_sublist.eq_of_length ?_
    rw [← hparts, List.length_map, List.length_reverse]
    omega
  have hnames := hway.names_of_findNode h hslash hdots
  rw [hall, List.map_map] at hnames
  intro m hm
  have hmem : D.written m ∈ parts ((D.qualified r).getD "null") := by
    rw [hall]
    exact List.mem_map_of_mem (List.mem_reverse.2 hm)
  refine ⟨D.written m, List.map_inj_left.1 hnames m (List.mem_reverse.2 hm), ?_, ?_⟩
  · rw [hparts] at hmem
    simpa using (List.mem_filter.1 hmem).2
  · exact fun hname => hdots (hname ▸ hmem)

theorem Way.not_blank (h : D.Way b t [] r c) (hr : r ≠ [])
    (hblank : D.superState.parent t = b → isBlank (D.written t) = false) :
    isBlank ((D.qualified r).getD "null") = false := by
  have hbc : b = c := above_injective h.up
  obtain ⟨n, ss, rfl⟩ := List.exists_cons_of_ne_nil hr
  cases ss with
  | nil =>
    have hdown := h.down
    obtain rfl : t = n := (List.cons.inj hdown).1
    exact hblank ((parent_of_path (l := []) hdown).trans hbc.symm)
  | cons k ss => exact not_blank_of_cons n k ss

theorem Way.findNode_iff (h : D.Way b t l r c) (hr : r ≠ []) :
    D.findNode b (some (upwards l.length ((D.qualified r).getD "null"))) = .ok (some t) ↔
      (∀ m ∈ r, D.ProperName m) ∧
        (D.superState.parent t = b → isBlank (D.written t) = false) := by
  constructor
  · intro hfind
    refine ⟨h.proper_of_findNode hr hfind, fun hparent => ?_⟩
    obtain ⟨rfl, rfl, -⟩ := h.eq_singleton hparent
    exact (of_findNode hfind).1
  · rintro ⟨hproper, hblank⟩
    obtain ⟨hleads, hfollowed⟩ := leadsTo_of_names r.reverse (by simpa using hr)
      (by rw [List.reverse_reverse, h.down]) fun m hm =>
        have hw := (hproper m (List.mem_reverse.1 hm)).written
        ⟨hw.1, hw.2.2⟩
    have hup := follow_up (up_of_above h.up) (r.reverse.map D.written)
    have hparts := parts_upwards l.length ((D.qualified r).getD "null")
    rw [parts_proper hr hproper] at hparts
    refine findNode_of_leadsTo ?_ ?_ (hparts ▸ hup.1.trans hleads) (hparts ▸ hup.2.2 hfollowed)
    · cases l with
      | nil => exact h.not_blank hr hblank
      | cons k l => exact not_blank_upwards _ _
    · cases l with
      | nil =>
        intro hhead
        obtain ⟨m, hm, hempty⟩ := exists_empty_of_slash hr hhead
        exact (hproper m hm).written.2.1 hempty
      | cons k l =>
        rw [List.length_cons, head_upwards]
        decide

/-! ## Paths that end too far up -/

theorem leadsTo_dots (k : ℕ) : D.leadsTo b (List.replicate k "..") = none := by
  induction k generalizing b with
  | zero => rfl
  | succ k ih =>
    rw [List.replicate_succ, leadsTo, if_pos rfl]
    cases b with
    | none => rfl
    | some j => exact ih

theorem leadsTo_too_far {k : ℕ} (h : (D.above b).length < k) (ps : List String) :
    D.leadsTo b (List.replicate k ".." ++ ps) = none := by
  induction k generalizing b with
  | zero => exact (Nat.not_lt_zero _ h).elim
  | succ k ih =>
    rw [List.replicate_succ, List.cons_append, leadsTo, if_pos rfl]
    cases b with
    | none => rfl
    | some j =>
      rw [above_some, List.length_cons] at h
      exact ih (Nat.lt_of_succ_lt_succ h)

theorem findNode_dots_ne (k : ℕ) : D.findNode b (some (upwards k "")) ≠ .ok (some t) := by
  intro h
  have hleads := leadsTo_of_findNode_upwards h fun _ => by decide
  have hnil : parts "" = [] := by decide
  rw [hnil, List.append_nil, leadsTo_dots] at hleads
  cases hleads

theorem findNode_too_far_ne {k : ℕ} (h : (D.above b).length < k) (w : String) :
    D.findNode b (some (upwards k w)) ≠ .ok (some t) := by
  intro hfind
  have hleads := leadsTo_of_findNode_upwards hfind fun hk => absurd h (by omega)
  rw [leadsTo_too_far h] at hleads
  cases hleads

theorem parts_name (hw : '/' ∉ w.toList) (hne : w ≠ "") : parts w = [w] := by
  rw [parts, List.splitOn_eq_singleton hw,
    List.filter_cons_of_pos (by simpa using hne), List.filter_nil, List.map_singleton,
    String.ofList_toList]

/-- A name is found just in the collection of its node. -/
theorem of_findNode_name (hw : '/' ∉ w.toList) (h : D.findNode b (some w) = .ok (some t)) :
    D.superState.parent t = b ∧ D.name t = some w := by
  obtain ⟨hblank, hleads⟩ := of_findNode h
  have hhead : w.toList.head? ≠ some '/' := fun hhead => hw (List.mem_of_head? hhead)
  have hne : w ≠ "" := by
    rintro rfl
    cases hblank
  rw [if_neg hhead, parts_name hw hne, leadsTo] at hleads
  split at hleads
  · obtain ⟨k, -, hk⟩ := Option.bind_eq_some_iff.1 hleads
    cases hk
  · rw [if_pos rfl] at hleads
    exact child_eq_some.1 hleads

/-! ## Other names -/

/-- A name that no other node of the collection has. -/
structure Renamable (D : Hierarchy N) (n : N) (name : Option String) : Prop where
  distinct : ∀ m, D.superState.parent m = D.superState.parent n → m ≠ n → D.name m ≠ name
  slash_notMem : ∀ s, name = some s → '/' ∉ s.toList

theorem name_injective {m : N} (h : D.superState.parent m = D.superState.parent n)
    (hname : D.name m = D.name n) : m = n :=
  List.inj_on_of_nodup_map (D.distinct (D.superState.parent n)) (D.mem_nodes.2 h)
    (D.mem_nodes.2 rfl) hname

/-- Other names for the nodes. -/
theorem Way.congr {D' : Hierarchy N} (hsuper : D'.superState = D.superState)
    (h : D.Way b t l r c) : D'.Way b t l r c where
  up := by
    rw [above, above, hsuper]
    exact h.up
  down := by
    rw [above, hsuper]
    exact h.down
  left := by
    rw [hsuper]
    exact h.left
  right := by
    rw [above, hsuper]
    exact h.right

theorem qualified_congr {D' : Hierarchy N} (h : ∀ m ∈ r, D'.name m = D.name m) :
    D'.qualified r = D.qualified r := by
  induction r with
  | nil => rfl
  | cons n ss ih =>
    obtain ⟨hn, hss⟩ := List.forall_mem_cons.1 h
    cases ss with
    | nil => exact hn
    | cons s ss => rw [qualified, qualified, ih hss, hn]

variable [DecidableEq N]

def rename (D : Hierarchy N) (n : N) (name : Option String) (h : D.Renamable n name) :
    Hierarchy N :=
  { D with
    name := Function.update D.name n name
    distinct := fun c => by
      have hnodup : ((D.nodes c).getD []).Nodup := (D.distinct c).of_map
      refine List.Nodup.map_on (fun i hi j hj hij => ?_) hnodup
      have hi' := D.mem_nodes.1 hi
      have hj' := D.mem_nodes.1 hj
      by_cases hin : i = n
      · subst hin
        by_cases hjn : j = i
        · exact hjn.symm
        · rw [Function.update_self, Function.update_of_ne hjn] at hij
          exact absurd hij.symm (h.distinct j (hj'.trans hi'.symm) hjn)
      · rw [Function.update_of_ne hin] at hij
        by_cases hjn : j = n
        · subst hjn
          rw [Function.update_self] at hij
          exact absurd hij (h.distinct i (hi'.trans hj'.symm) hin)
        · rw [Function.update_of_ne hjn] at hij
          exact name_injective (hi'.trans hj'.symm) hij
    slash_notMem := fun {m s} hs => by
      by_cases hm : m = n
      · subst hm
        rw [Function.update_self] at hs
        exact h.slash_notMem s hs
      · rw [Function.update_of_ne hm] at hs
        exact D.slash_notMem hs }

end Hierarchy

end Graph

end Jbpm
