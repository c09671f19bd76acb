/-
  A sequence is a chain after any changes.

  * `Connected.frame`: the other structures after a change;
  * `Connected.removeNode`, `Connected.reorderNode`, `Connected.addActivity`: the step lemmas;
  * `Regular`: the changes on which the code keeps the chain;
  * `sequence_chained`: any regular changes.
-/
import Jbpm.Bpel.SequenceChain

namespace Jbpm

open Lib Function

namespace Bpel.Activities

open Bpel.Graph

variable {A : Type} {kind : A → Kind} {x x' : Activities A} {a s : A} {P : A → Prop}

/-! ## Other structures -/

/-- The nodes that transitions leave, of an activity and of some structures with the children
    of those that are sequences. -/
def outlets (kind : A → Kind) (x : Activities A) (a : A) (P : A → Prop) : Set (Mark A) :=
  {m | (∃ p, P p ∧ (m = .begin_ p ∨ m = .loop p)) ∨
    ∃ c, m = exit kind c ∧ (c = a ∨ ∃ p, P p ∧ kind p = .sequence ∧ x.parent c = some p)}

/-- The nodes at which they arrive. -/
def inlets (kind : A → Kind) (x : Activities A) (a : A) (P : A → Prop) : Set (Mark A) :=
  {m | (∃ p, P p ∧ (m = .end_ p ∨ m = .loop p)) ∨
    ∃ c, m = entry kind c ∧ (c = a ∨ ∃ p, P p ∧ kind p = .sequence ∧ x.parent c = some p)}

theorem exit_mem_outlets {c : A} : exit kind c ∈ outlets kind x a P ↔
    c = a ∨ ∃ p, P p ∧ kind p = .sequence ∧ x.parent c = some p := by
  constructor
  · rintro (⟨p, -, hp | hp⟩ | ⟨c', hc, h⟩)
    · exact absurd hp (exit_ne_begin c p)
    · exact absurd hp (exit_ne_loop c p)
    · exact exit_inj hc ▸ h
  · exact fun h => .inr ⟨c, rfl, h⟩

theorem entry_mem_inlets {c : A} : entry kind c ∈ inlets kind x a P ↔
    c = a ∨ ∃ p, P p ∧ kind p = .sequence ∧ x.parent c = some p := by
  constructor
  · rintro (⟨p, -, hp | hp⟩ | ⟨c', hc, h⟩)
    · exact absurd hp (entry_ne_end c p)
    · exact absurd hp (entry_ne_loop c p)
    · exact entry_inj hc ▸ h
  · exact fun h => .inr ⟨c, rfl, h⟩

theorem begin_mem_outlets : .begin_ s ∈ outlets kind x a P ↔ P s := by
  constructor
  · rintro (⟨p, hp, h | h⟩ | ⟨c, hc, -⟩)
    · cases h
      exact hp
    · cases h
    · exact absurd hc.symm (exit_ne_begin c s)
  · exact fun h => .inl ⟨s, h, .inl rfl⟩

theorem end_mem_inlets : .end_ s ∈ inlets kind x a P ↔ P s := by
  constructor
  · rintro (⟨p, hp, h | h⟩ | ⟨c, hc, -⟩)
    · cases h
      exact hp
    · cases h
    · exact absurd hc.symm (entry_ne_end c s)
  · exact fun h => .inl ⟨s, h, .inl rfl⟩

/-- The sequences that a change has nothing to do with stay chains. -/
theorem Chained.frame (h : x.Chained kind s)
    (hkeeps : Keeps (outlets kind x a P) (inlets kind x a P) x.graph x'.graph)
    (hchildren : x'.children s = x.children s) (hs : ¬ P s)
    (hc : ∀ c ∈ x.children s, c ≠ a ∧ ∀ p, P p → x.parent c ≠ some p) : x'.Chained kind s := by
  have hbegin : .begin_ s ∉ outlets kind x a P := fun hmem => hs (begin_mem_outlets.1 hmem)
  have hend : .end_ s ∉ inlets kind x a P := fun hmem => hs (end_mem_inlets.1 hmem)
  rcases h with ⟨hnil, hsource, htarget⟩ | hlinks
  · refine .inl ⟨hchildren.trans hnil, fun t ht => ?_, fun t ht => ?_⟩
    · exact hsource t ((hkeeps.of_source hbegin (.inr ht)).1.symm.trans ht)
    · exact htarget t ((hkeeps.of_target hend (.inr ht)).2.symm.trans ht)
  · rw [Chained, hchildren]
    have hout : ∀ c ∈ x.children s, ¬ (c = a ∨ ∃ p, P p ∧ kind p = .sequence ∧
        x.parent c = some p) := fun c hcs hor =>
      hor.elim (hc c hcs).1 fun ⟨p, hp, _, hpc⟩ => (hc c hcs).2 p hp hpc
    refine .inr (hkeeps.links (fun q hq => ?_) hlinks)
    obtain ⟨hfirst, hsecond⟩ := hops_marks hq
    constructor
    · rcases hfirst with h | ⟨c, hcs, h⟩ <;> rw [h]
      · exact hbegin
      · exact fun hmem => hout c hcs (exit_mem_outlets.1 hmem)
    · rcases hsecond with h | ⟨c, hcs, h⟩ <;> rw [h]
      · exact hend
      · exact fun hmem => hout c hcs (entry_mem_inlets.1 hmem)

/-- The children of other structures keep their transitions. -/
theorem Placed.frame {p c : A} (h : x.Placed kind p c)
    (hkeeps : Keeps (outlets kind x a P) (inlets kind x a P) x.graph x'.graph)
    (hc : ¬ (c = a ∨ ∃ p, P p ∧ kind p = .sequence ∧ x.parent c = some p)) :
    x'.Placed kind p c := by
  have hexit : exit kind c ∉ outlets kind x a P := fun hmem => hc (exit_mem_outlets.1 hmem)
  have hentry : entry kind c ∉ inlets kind x a P := fun hmem => hc (entry_mem_inlets.1 hmem)
  refine ⟨fun t m hs ht => ?_, fun t m hs ht => ?_, fun q hq hqc t t' hs ht hs' ht' => ?_⟩
  · obtain ⟨hs', ht'⟩ := hkeeps.of_target hentry (.inr ht)
    exact h.arriving t m (hs'.symm.trans hs) (ht'.symm.trans ht)
  · obtain ⟨hs', ht'⟩ := hkeeps.of_source hexit (.inr hs)
    exact h.leaving t m (hs'.symm.trans hs) (ht'.symm.trans ht)
  · have hold (t) (hs : x'.graph.source t = some q.1) (ht : x'.graph.target t = some q.2) :
        x.graph.source t = some q.1 ∧ x.graph.target t = some q.2 := by
      have hsame : x'.graph.source t = x.graph.source t ∧ x'.graph.target t = x.graph.target t :=
        hqc.elim (fun h => hkeeps.of_target hentry (.inr (h ▸ ht)))
          fun h => hkeeps.of_source hexit (.inr (h ▸ hs))
      exact ⟨hsame.1.symm.trans hs, hsame.2.symm.trans ht⟩
    exact h.once q hq hqc t t' (hold t hs ht).1 (hold t hs ht).2 (hold t' hs' ht').1
      (hold t' hs' ht').2

/-- A change has to do with an activity, which is in a sequence or without a parent then, and with
    the transitions of some structures. -/
theorem Connected.frame (h : x.Connected kind) (hconsistent : x'.graph.Consistent)
    (hkeeps : Keeps (outlets kind x a P) (inlets kind x a P) x.graph x'.graph)
    (hparent : ∀ p c, c ∈ x'.children p ↔ x'.parent c = some p)
    (hnodup : ∀ p, (x'.children p).Nodup) (hirrefl : x'.parent a ≠ some a)
    (hsame : ∀ c, c ≠ a → x'.parent c = x.parent c)
    (hchildren : ∀ p, ¬ P p → x'.children p = x.children p)
    (hplace : ∀ p, x'.parent a = some p → kind p = .sequence)
    (hP : ∀ p, x.parent a = some p → P p)
    (hsequence : ∀ s, P s → kind s = .sequence → x'.Chained kind s)
    (hroot : x'.parent a = none → (∀ t, x'.graph.target t ≠ some (entry kind a)) ∧
      ∀ t, x'.graph.source t ≠ some (exit kind a)) : x'.Connected kind := by
  refine ⟨hconsistent, hparent, hnodup, fun c hc => ?_, fun s hs => ?_, fun p hp c hc => ?_,
    fun c hc => ?_⟩
  · by_cases hca : c = a
    · exact hirrefl (hca ▸ hc)
    · exact h.irrefl c ((hsame c hca).symm.trans hc)
  · by_cases hPs : P s
    · exact hsequence s hPs hs
    · refine (h.sequence s hs).frame hkeeps (hchildren s hPs) hPs fun c hc => ?_
      have hcs := (h.parent s c).1 hc
      refine ⟨fun hca => hPs (hP s (hca ▸ hcs)), fun p hp hcp => ?_⟩
      exact hPs (Option.some.inj (hcs.symm.trans hcp) ▸ hp)
  · have hcp := (hparent p c).1 hc
    have hca : c ≠ a := fun hca => hp (hplace p (hca ▸ hcp))
    rw [hsame c hca] at hcp
    refine (h.other p hp c ((h.parent p c).2 hcp)).frame hkeeps ?_
    rintro (hca' | ⟨p', -, hp', hcp'⟩)
    · exact hca hca'
    · rw [hcp] at hcp'
      exact hp (Option.some.inj hcp' ▸ hp')
  · by_cases hca : c = a
    · subst hca
      exact hroot hc
    · rw [hsame c hca] at hc
      have hout : ¬ (c = a ∨ ∃ p, P p ∧ kind p = .sequence ∧ x.parent c = some p) := by
        rintro (hca' | ⟨p, -, -, hcp⟩)
        · exact hca hca'
        · rw [hc] at hcp
          cases hcp
      obtain ⟨htarget, hsource⟩ := h.root c hc
      refine ⟨fun t ht => ?_, fun t ht => ?_⟩
      · have hin : entry kind c ∉ inlets kind x a P := fun hmem => hout (entry_mem_inlets.1 hmem)
        exact htarget t ((hkeeps.of_target hin (.inr ht)).2.symm.trans ht)
      · have hin : exit kind c ∉ outlets kind x a P := fun hmem => hout (exit_mem_outlets.1 hmem)
        exact hsource t ((hkeeps.of_source hin (.inr ht)).1.symm.trans ht)

/-! ## Removal -/

variable [DecidableEq A] {place : ℕ → ℕ} {g g' : Graph A} {pre post : List A}

omit [DecidableEq A] in
theorem nodup_around {l l' : List (Mark A)} {m n : Mark A} (h : (l ++ m :: n :: l').Nodup) :
    m ≠ n ∧ ∀ m', m' ∈ l ∨ m' ∈ l' → m' ≠ m ∧ m' ≠ n := by
  have hperm : (l ++ m :: n :: l').Perm (m :: n :: (l ++ l')) :=
    List.perm_middle.trans (List.perm_middle.cons m)
  obtain ⟨hm, hrest⟩ := List.nodup_cons.1 (hperm.nodup_iff.1 h)
  obtain ⟨hn, -⟩ := List.nodup_cons.1 hrest
  refine ⟨fun hmn => hm (hmn ▸ List.mem_cons_self), fun m' hm' => ?_⟩
  have hmem : m' ∈ l ++ l' := List.mem_append.2 hm'
  exact ⟨fun heq => hm (heq ▸ List.mem_cons_of_mem n hmem), fun heq => hn (heq ▸ hmem)⟩

omit [DecidableEq A] in
/-- The nodes of the other transitions of a sequence are not those around an activity. -/
theorem hops_around (kind : A → Kind) (s : A) (hnodup : (pre ++ a :: post).Nodup) :
    lastMark kind (.begin_ s) pre ≠ exit kind a ∧ entry kind a ≠ firstMark kind (.end_ s) post ∧
      ∀ q ∈ front kind (.begin_ s) pre ++ back kind (.end_ s) post,
        (q.1 ≠ lastMark kind (.begin_ s) pre ∧ q.1 ≠ exit kind a) ∧
          q.2 ≠ entry kind a ∧ q.2 ≠ firstMark kind (.end_ s) post := by
  obtain ⟨hfirsts, hseconds⟩ := hops_nodup kind s hnodup
  rw [hops_split_cons, List.map_append, List.map_cons, List.map_cons] at hfirsts hseconds
  obtain ⟨hne, hfirsts⟩ := nodup_around hfirsts
  obtain ⟨hne', hseconds⟩ := nodup_around hseconds
  refine ⟨hne, hne', fun q hq => ?_⟩
  rcases List.mem_append.1 hq with hq | hq
  · exact ⟨hfirsts q.1 (.inl (List.mem_map_of_mem hq)), hseconds q.2 (.inl (List.mem_map_of_mem hq))⟩
  · exact ⟨hfirsts q.1 (.inr (List.mem_map_of_mem hq)), hseconds q.2 (.inr (List.mem_map_of_mem hq))⟩

/-- A chain without one of its activities. -/
theorem unlink (place : ℕ → ℕ) (hg : g.Consistent) (hnodup : (pre ++ a :: post).Nodup)
    (hlinks : g.Links (hops kind (.begin_ s) (pre ++ a :: post) (.end_ s))) :
    ∃ g', removeSequenceTransitions kind place a g = some g' ∧ g'.Consistent ∧
      g'.Links (hops kind (.begin_ s) (pre ++ post) (.end_ s)) ∧
      Keeps {exit kind a, lastMark kind (.begin_ s) pre}
        {entry kind a, firstMark kind (.end_ s) post} g g' ∧
      (∀ t, g'.target t ≠ some (entry kind a)) ∧ ∀ t, g'.source t ≠ some (exit kind a) := by
  obtain ⟨hyx, hez, hothers⟩ := hops_around kind s hnodup
  rw [hops_split_cons] at hlinks
  obtain ⟨u, hu⟩ := hlinks _ (List.mem_append_right _ List.mem_cons_self)
  obtain ⟨v, hv⟩ := hlinks _ (List.mem_append_right _ (List.mem_cons_of_mem _ List.mem_cons_self))
  have hus := (hu.1 u).2 rfl
  have hut := (hu.2 u).2 rfl
  have hvs := (hv.1 v).2 rfl
  have hvt := (hv.2 v).2 rfl
  have huv : u ≠ v := fun heq => hyx (Option.some.inj (hus.symm.trans (heq ▸ hvs)))
  have hleaving : g.defaultLeavingTransition (exit kind a) = some v := by
    rw [defaultLeavingTransition, hg.leaving_eq hv.1, List.head?_cons]
  have harriving : g.defaultArrivingTransition place (entry kind a) = some u := by
    rw [defaultArrivingTransition, hg.arriving_eq hu.2]
    exact List.argmin_singleton
  obtain ⟨g', hg', hspliced⟩ := removeSequenceTransitions_run hg hleaving harriving huv hvt
  have hkeeps := hspliced.keeps huv hus hut hvs hvt
  refine ⟨g', hg', hspliced.consistent, ?_, hkeeps, fun t ht => ?_, fun t ht => ?_⟩
  · have hrest : g'.Links (front kind (.begin_ s) pre ++ back kind (.end_ s) post) := by
      refine hkeeps.links (fun q hq => ?_) fun q hq => hlinks q ?_
      · obtain ⟨⟨h₁, h₂⟩, h₃, h₄⟩ := hothers q hq
        exact ⟨fun hmem => hmem.elim h₂ h₁, fun hmem => hmem.elim h₃ h₄⟩
      · rcases List.mem_append.1 hq with hq | hq
        · exact List.mem_append_left _ hq
        · exact List.mem_append_right _ (List.mem_cons_of_mem _ (List.mem_cons_of_mem _ hq))
    rw [hops_split]
    refine Links.append (fun q hq => hrest q (List.mem_append_left _ hq))
      (Links.cons (hspliced.sole huv hu.1 hv.2) fun q hq => hrest q (List.mem_append_right _ hq))
  · obtain ⟨hold, htu, -⟩ := (hspliced.arriving hez t).1 ht
    exact htu ((hu.2 t).1 hold)
  · obtain ⟨hold, htv⟩ := (hspliced.leaving _ t).1 ht
    exact htv ((hv.1 t).1 hold)

omit [DecidableEq A] in
theorem lastMark_mem_outlets {l : List A} (hP : P s) (hs : kind s = .sequence)
    (hl : ∀ c ∈ l, x.parent c = some s) :
    lastMark kind (.begin_ s) l ∈ outlets kind x a P := by
  rcases lastMark_cases kind (.begin_ s) l with ⟨-, h⟩ | ⟨c, hc, h⟩ <;> rw [h]
  · exact begin_mem_outlets.2 hP
  · exact exit_mem_outlets.2 (.inr ⟨s, hP, hs, hl c hc⟩)

omit [DecidableEq A] in
theorem firstMark_mem_inlets {l : List A} (hP : P s) (hs : kind s = .sequence)
    (hl : ∀ c ∈ l, x.parent c = some s) :
    firstMark kind (.end_ s) l ∈ inlets kind x a P := by
  cases l with
  | nil => exact end_mem_inlets.2 hP
  | cons c l => exact entry_mem_inlets.2 (.inr ⟨s, hP, hs, hl c List.mem_cons_self⟩)

omit [DecidableEq A] in
/-- The nodes around a child of a sequence. -/
theorem keeps_around (hP : P s) (hs : kind s = .sequence)
    (hpre : ∀ c ∈ pre, x.parent c = some s) (hpost : ∀ c ∈ post, x.parent c = some s)
    (h : Keeps {exit kind a, lastMark kind (.begin_ s) pre}
      {entry kind a, firstMark kind (.end_ s) post} g g') :
    Keeps (outlets kind x a P) (inlets kind x a P) g g' := by
  refine h.mono ?_ ?_
  · rintro m (rfl | rfl)
    · exact exit_mem_outlets.2 (.inl rfl)
    · exact lastMark_mem_outlets hP hs hpre
  · rintro m (rfl | rfl)
    · exact entry_mem_inlets.2 (.inl rfl)
    · exact firstMark_mem_inlets hP hs hpost

theorem erase_middle (h : (pre ++ a :: post).Nodup) : (pre ++ a :: post).erase a = pre ++ post := by
  have hpre : a ∉ pre := fun hmem =>
    (List.nodup_append.1 h).2.2 a hmem a List.mem_cons_self rfl
  rw [List.erase_append_right _ hpre, List.erase_cons_head]

theorem Connected.mem_erase (h : x.Connected kind) (p c : A) :
    c ∈ (x.children p).erase a ↔ c ≠ a ∧ x.parent c = some p := by
  rw [(h.nodup p).mem_erase_iff, h.parent]

/-- No other structure has the activity. -/
theorem Connected.update_erase (h : x.Connected kind) (hs : x.parent a = some s) :
    update x.children s ((x.children s).erase a) = fun p => (x.children p).erase a := by
  funext p
  rw [update_apply]
  split
  · rename_i hp
    rw [hp]
  · rename_i hp
    refine (List.erase_of_not_mem fun hmem => hp ?_).symm
    exact Option.some.inj (((h.parent p a).1 hmem).symm.trans hs)

omit [DecidableEq A] in
/-- A sequence with children is a chain. -/
theorem Connected.links (h : x.Connected kind) (hs : kind s = .sequence)
    (hchildren : x.children s ≠ []) :
    x.graph.Links (hops kind (.begin_ s) (x.children s) (.end_ s)) :=
  (h.sequence s hs).resolve_left fun hnil => hchildren hnil.1

/-- The activities after a removal, with the transitions that are left. -/
def removed (a : A) (x : Activities A) (g : Graph A) : Activities A where
  graph := g
  children := fun p => (x.children p).erase a
  parent := update x.parent a none

theorem Connected.removed (h : x.Connected kind) (ha : x.parent a = some s)
    (hconsistent : g'.Consistent)
    (hkeeps : Keeps (outlets kind x a fun p => p = s) (inlets kind x a fun p => p = s) x.graph g')
    (hlinks : g'.Links (hops kind (.begin_ s) ((x.children s).erase a) (.end_ s)))
    (htarget : ∀ t, g'.target t ≠ some (entry kind a))
    (hsource : ∀ t, g'.source t ≠ some (exit kind a)) : (removed a x g').Connected kind := by
  have hnone : (Activities.removed a x g').parent a = none := update_self _ _ _
  refine h.frame (P := fun p => p = s) hconsistent hkeeps (fun p c => ?_)
    (fun p => (h.nodup p).erase a) ?_ (fun c hc => update_of_ne hc _ _) (fun p hp => ?_)
    (fun p hp => ?_) (fun p hp => ?_) (fun p hp _ => ?_) fun _ => ⟨htarget, hsource⟩
  · unfold Activities.removed
    dsimp only
    rw [h.mem_erase, update_apply]
    split
    · rename_i hca
      exact iff_of_false (fun hand => hand.1 hca) fun hnone => nomatch hnone
    · rename_i hca
      exact and_iff_right hca
  · rw [hnone]
    exact fun hnone => nomatch hnone
  · refine List.erase_of_not_mem fun hmem => hp ?_
    exact Option.some.inj (((h.parent p a).1 hmem).symm.trans ha)
  · rw [hnone] at hp
    cases hp
  · exact Option.some.inj (hp.symm.trans ha)
  · subst hp
    exact .inr hlinks

theorem Connected.removeNode (h : x.Connected kind) (hs : kind s = .sequence) (a : A) :
    ∃ x', removeNode kind place s a x = some x' ∧ x'.Connected kind := by
  by_cases hmem : a ∈ x.children s
  · have hparent := (h.parent s a).1 hmem
    have hlinks := h.links hs (List.ne_nil_of_mem hmem)
    have hnodup := h.nodup s
    have herase := h.update_erase hparent
    have hchildren := fun c => (h.parent s c).1
    obtain ⟨pre, post, hsplit⟩ := List.append_of_mem hmem
    rw [hsplit] at hlinks hnodup hchildren
    obtain ⟨g', hg', hconsistent, hlinks', hkeeps, htarget, hsource⟩ :=
      unlink place h.consistent hnodup hlinks
    have hkeeps' := keeps_around (x := x) (P := fun p => p = s) rfl hs
      (fun c hc => hchildren c (List.mem_append_left _ hc))
      (fun c hc => hchildren c (List.mem_append_right _ (List.mem_cons_of_mem a hc))) hkeeps
    rw [← erase_middle hnodup, ← hsplit] at hlinks'
    refine ⟨_, ?_, h.removed hparent hconsistent hkeeps' hlinks' htarget hsource⟩
    unfold Activities.removeNode removeActivity removeImplicitTransitions
    rw [if_pos hmem, if_pos hs, hg', herase]
    rfl
  · exact ⟨x, if_neg hmem, h⟩

/-! ## Reordering -/

omit [DecidableEq A] in
theorem lastMark_take (kind : A → Kind) (m : Mark A) (l : List A) {n : ℕ} (hn : n ≤ l.length) :
    (if n = 0 then some m else (l[n - 1]?).map (exit kind)) =
      some (lastMark kind m (l.take n)) := by
  cases n with
  | zero => rfl
  | succ n =>
    rw [if_neg (Nat.succ_ne_zero n), Nat.add_sub_cancel, List.getElem?_eq_getElem hn,
      List.take_succ_eq_append_getElem hn, lastMark_concat, Option.map_some]

omit [DecidableEq A] in
theorem firstMark_drop (kind : A → Kind) (m' : Mark A) (l : List A) {n : ℕ} (hn : n ≤ l.length) :
    (if n = l.length then some m' else (l[n]?).map (entry kind)) =
      some (firstMark kind m' (l.drop n)) := by
  split
  · rename_i hlen
    rw [hlen, List.drop_length]
    rfl
  · rename_i hlen
    have hlt : n < l.length := Nat.lt_of_le_of_ne hn hlen
    rw [List.getElem?_eq_getElem hlt, List.drop_eq_getElem_cons hlt, Option.map_some]
    rfl

/-- A chain with another activity in it. -/
theorem relink (hg : g.Consistent) (hnodup : (pre ++ a :: post).Nodup)
    (hlinks : g.Links (hops kind (.begin_ s) (pre ++ post) (.end_ s)))
    (htarget : ∀ t, g.target t ≠ some (entry kind a))
    (hsource : ∀ t, g.source t ≠ some (exit kind a)) :
    ∃ w g', g.defaultLeavingTransition (lastMark kind (.begin_ s) pre) = some w ∧
      ((g.removeArrivingTransition w (firstMark kind (.end_ s) post)).addArrivingTransition
        w (entry kind a)).connect (exit kind a) (firstMark kind (.end_ s) post) = g' ∧
      g'.Consistent ∧ g'.Links (hops kind (.begin_ s) (pre ++ a :: post) (.end_ s)) ∧
        Keeps {exit kind a, lastMark kind (.begin_ s) pre}
          {entry kind a, firstMark kind (.end_ s) post} g g' := by
  obtain ⟨hyx, hez, hothers⟩ := hops_around kind s hnodup
  rw [hops_split] at hlinks
  obtain ⟨w, hw⟩ := hlinks _ (List.mem_append_right _ List.mem_cons_self)
  have hws := (hw.1 w).2 rfl
  have hwt := (hw.2 w).2 rfl
  have hinserted := inserted_connect hg hwt (entry kind a) (exit kind a)
  have hkeeps := (hinserted.keeps hg hws hwt).mono (Set.pair_comm _ _).subset
    (Set.pair_comm _ _).subset
  obtain ⟨hfirst, hsecond⟩ := hinserted.sole hg hw hyx hez hsource htarget
  refine ⟨w, _, ?_, rfl, hinserted.consistent, ?_, hkeeps⟩
  · rw [defaultLeavingTransition, hg.leaving_eq hw.1, List.head?_cons]
  · have hrest : Links _ (front kind (.begin_ s) pre ++ back kind (.end_ s) post) :=
      hkeeps.links (fun q hq => ?_) fun q hq => hlinks q ?_
    · rw [hops_split_cons]
      exact Links.append (fun q hq => hrest q (List.mem_append_left _ hq))
        (Links.cons hfirst (Links.cons hsecond fun q hq => hrest q (List.mem_append_right _ hq)))
    · obtain ⟨⟨h₁, h₂⟩, h₃, h₄⟩ := hothers q hq
      exact ⟨fun hmem => hmem.elim h₂ h₁, fun hmem => hmem.elim h₃ h₄⟩
    · rcases List.mem_append.1 hq with hq | hq
      · exact List.mem_append_left _ hq
      · exact List.mem_append_right _ (List.mem_cons_of_mem _ hq)

theorem Connected.reorderNode (h : x.Connected kind) (hs : kind s = .sequence) {i j : ℕ}
    (hi : i < (x.children s).length) (hj : j < (x.children s).length) :
    ∃ x', reorderNode kind place s i j x = some x' ∧ x'.Connected kind := by
  have hlinks := h.links hs (List.ne_nil_of_length_pos (Nat.zero_lt_of_lt hi))
  have hnodup := h.nodup s
  have hchildren := fun c => (h.parent s c).1
  have hold : x.children s = (x.children s).take i ++ (x.children s)[i] :: (x.children s).drop (i + 1) := by
    rw [List.getElem_cons_drop, List.take_append_drop]
  have hget : (x.children s)[i]? = some (x.children s)[i] := List.getElem?_eq_getElem hi
  generalize (x.children s)[i] = a at hold hget
  have hrest : (x.children s).eraseIdx i = (x.children s).take i ++ (x.children s).drop (i + 1) :=
    List.eraseIdx_eq_take_drop_succ _ _
  generalize (x.children s).take i = pre at hold hrest
  generalize (x.children s).drop (i + 1) = post at hold hrest
  have hmem : a ∈ x.children s := List.mem_of_getElem? hget
  have hparent := (h.parent s a).1 hmem
  have hjrest : j ≤ (pre ++ post).length := by
    rw [hold] at hj
    simp only [List.length_append, List.length_cons] at hj ⊢
    omega
  rw [hold] at hlinks hnodup hchildren
  obtain ⟨g₁, hg₁, hconsistent₁, hlinks₁, hkeeps₁, htarget, hsource⟩ :=
    unlink place h.consistent hnodup hlinks
  obtain ⟨pre', post', hsplit, hlen, hinsert⟩ := List.exists_of_modifyTailIdx (List.cons a) hjrest
  have hnew : (pre' ++ a :: post').Perm (x.children s) := by
    rw [hold]
    exact List.perm_middle.trans ((List.Perm.cons a (hsplit ▸ .refl _)).trans
      List.perm_middle.symm)
  have hlast := lastMark_take kind (.begin_ s) (pre ++ post) hjrest
  have hfirst := firstMark_drop kind (.end_ s) (pre ++ post) hjrest
  rw [hsplit, List.take_left' hlen] at hlast
  rw [hsplit, List.drop_left' hlen] at hfirst
  rw [hsplit] at hlinks₁
  obtain ⟨w, g₂, hw, hg₂, hconsistent₂, hlinks₂, hkeeps₂⟩ := relink hconsistent₁
    (hnew.nodup_iff.2 (h.nodup s)) hlinks₁ htarget hsource
  have hmem' (c : A) (hc : c ∈ pre' ++ a :: post') : x.parent c = some s :=
    (h.parent s c).1 (hnew.mem_iff.1 hc)
  have hupdate (p : A) : (update x.children s (pre' ++ a :: post') p).Perm (x.children p) := by
    rw [update_apply]
    split
    · rename_i hp
      rw [hp]
      exact hnew
    · exact .refl _
  refine ⟨⟨_, update x.children s (pre' ++ a :: post'), x.parent⟩, ?_,
    h.frame (a := a) (P := fun p => p = s) hconsistent₂ ?_ (fun p c => ?_) (fun p => ?_) ?_
      (fun _ _ => rfl) (fun p hp => ?_) (fun p hp => ?_) (fun p hp => ?_) (fun p hp _ => ?_)
      fun hnone => ?_⟩
  · unfold Activities.reorderNode
    rw [hget, hrest, hsplit, Option.bind_eq_bind, Option.bind_some]
    dsimp only
    rw [hg₁, Option.bind_eq_bind, Option.bind_some, hlast, Option.bind_eq_bind, Option.bind_some,
      hfirst, Option.bind_some, hw]
    dsimp only [Option.bind_eq_bind, Option.bind_some]
    rw [hg₂]
    rw [hsplit] at hinsert
    exact congrArg (fun l => some (Activities.mk g₂ (update x.children s l) x.parent)) hinsert
  · have hkeeps₁ := keeps_around (x := x) (P := fun p => p = s) rfl hs
      (fun c hc => hchildren c (List.mem_append_left _ hc))
      (fun c hc => hchildren c (List.mem_append_right _ (List.mem_cons_of_mem a hc))) hkeeps₁
    have hkeeps₂ := keeps_around (x := x) (P := fun p => p = s) rfl hs
      (fun c hc => hmem' c (List.mem_append_left _ hc))
      (fun c hc => hmem' c (List.mem_append_right _ (List.mem_cons_of_mem a hc))) hkeeps₂
    exact (hkeeps₁.trans hkeeps₂).mono (Set.union_self _).subset (Set.union_self _).subset
  · exact (hupdate p).mem_iff.trans (h.parent p c)
  · exact (hupdate p).nodup_iff.2 (h.nodup p)
  · exact h.irrefl a
  · exact update_of_ne hp _ _
  · exact Option.some.inj (hp.symm.trans hparent) ▸ hs
  · exact Option.some.inj (hp.symm.trans hparent)
  · subst hp
    refine .inr ?_
    dsimp only
    rw [update_self]
    exact hlinks₂
  · rw [hparent] at hnone
    cases hnone

/-! ## Addition -/

omit [DecidableEq A] in
theorem lastMark_getLast? (kind : A → Kind) (m : Mark A) (l : List A) :
    lastMark kind m l = (l.getLast?).elim m (exit kind) := by
  rcases List.eq_nil_or_concat l with rfl | ⟨l, a, rfl⟩
  · rfl
  · rw [List.concat_eq_append, lastMark_concat, List.getLast?_concat, Option.elim_some]

omit [DecidableEq A] in
/-- The last transition of a sequence, which is not there yet in a new one. -/
theorem Connected.last (h : x.Connected kind) (hs : kind s = .sequence) :
    ((∀ t, x.graph.source t ≠ some (lastMark kind (.begin_ s) (x.children s))) ∧
        ∀ t, x.graph.target t ≠ some (.end_ s)) ∨
      ∃ w, x.graph.Sole w (lastMark kind (.begin_ s) (x.children s)) (.end_ s) := by
  rcases h.sequence s hs with ⟨hnil, hsource, htarget⟩ | hlinks
  · rw [hnil]
    exact .inl ⟨hsource, htarget⟩
  · rw [hops_eq] at hlinks
    exact .inr (hlinks _ (List.mem_append_right _ List.mem_cons_self))

/-- The new activity is behind the last one. -/
theorem Connected.attached (h : x.Connected kind) (hs : kind s = .sequence) (a : A)
    (hempty : x.children s = [] → x.graph.leaving (.begin_ s) = []) :
    Attached x.graph (addImplicitTransitions kind s a x)
      (lastMark kind (.begin_ s) (x.children s)) (entry kind a) (exit kind a) (.end_ s) := by
  have hattached := attached_connect (e := entry kind a) (x := exit kind a) h.consistent
    (entry_ne_end a s) (h.last hs)
  have hlast := lastMark_getLast? kind (.begin_ s) (x.children s)
  unfold addImplicitTransitions
  cases hget : (x.children s).getLast? with
  | some last =>
    rw [hget, Option.elim_some] at hlast
    rw [hlast] at hattached ⊢
    exact hattached
  | none =>
    have hleaving := hempty (List.getLast?_eq_none_iff.1 hget)
    rw [hget, Option.elim_none] at hlast
    rw [hlast] at hattached ⊢
    rw [h.consistent.disconnect_of_none fun t ht => ?_] at hattached
    · exact hattached
    · rw [← h.consistent.leaving, hleaving] at ht
      cases ht

omit [DecidableEq A] in
/-- The nodes of the transitions to the activities are not those at the end. -/
theorem front_end (kind : A → Kind) (s : A) {l : List A} (hnodup : l.Nodup) :
    ∀ q ∈ front kind (.begin_ s) l, q.1 ≠ lastMark kind (.begin_ s) l ∧ q.2 ≠ .end_ s := by
  obtain ⟨hfirsts, -⟩ := hops_nodup kind s hnodup
  rw [hops_eq, List.map_append] at hfirsts
  refine fun q hq => ⟨?_, fun heq => ?_⟩
  · exact (List.nodup_append.1 hfirsts).2.2 q.1 (List.mem_map_of_mem hq) _ List.mem_cons_self
  · obtain ⟨-, a, -, ha⟩ := front_marks hq
    exact entry_ne_end a s (ha.symm.trans heq)

omit [DecidableEq A] in
/-- The other children of a sequence that a change has nothing to do with. -/
theorem Connected.out (h : x.Connected kind) (ha : a ∉ x.children s) (hPs : ¬ P s) :
    ∀ c ∈ x.children s, ¬ (c = a ∨ ∃ p, P p ∧ kind p = .sequence ∧ x.parent c = some p) := by
  rintro c hc (rfl | ⟨p, hp, -, hcp⟩)
  · exact ha hc
  · exact hPs (Option.some.inj (((h.parent s c).1 hc).symm.trans hcp) ▸ hp)

omit [DecidableEq A] in
theorem Connected.lastMark_out (h : x.Connected kind) (ha : a ∉ x.children s) (hPs : ¬ P s) :
    lastMark kind (.begin_ s) (x.children s) ∉ outlets kind x a P := by
  rcases lastMark_cases kind (.begin_ s) (x.children s) with ⟨-, hm⟩ | ⟨c, hc, hm⟩ <;>
    rw [hm]
  · exact fun hmem => hPs (begin_mem_outlets.1 hmem)
  · exact fun hmem => h.out ha hPs c hc (exit_mem_outlets.1 hmem)

/-- The chain with an activity that was elsewhere before. -/
theorem Connected.added_links (h : x.Connected kind) (hs : kind s = .sequence)
    (ha : a ∉ x.children s)
    (hattached : Attached x.graph g (lastMark kind (.begin_ s) (x.children s)) (entry kind a)
      (exit kind a) (.end_ s)) (hPs : ¬ P s)
    (hkeeps : Keeps (outlets kind x a P) (inlets kind x a P) g g')
    (he : ∀ t, g'.target t = some (entry kind a) ↔ t = x.graph.next)
    (hx : ∀ t, g'.source t = some (exit kind a) ↔ t = x.graph.next + 1) :
    g'.Links (hops kind (.begin_ s) (x.children s ++ [a]) (.end_ s)) := by
  have hlast := h.lastMark_out ha hPs
  have hend : .end_ s ∉ inlets kind x a P := fun hmem => hPs (end_mem_inlets.1 hmem)
  have hmx : lastMark kind (.begin_ s) (x.children s) ≠ exit kind a := fun heq =>
    hlast (heq ▸ exit_mem_outlets.2 (.inl rfl))
  have hleaves := hkeeps.leaves hlast (hattached.leaves h.consistent hmx)
  have harrives := hkeeps.arrives hend (hattached.arrives h.consistent (entry_ne_end a s))
  have hfront : g'.Links (front kind (.begin_ s) (x.children s)) := by
    intro q hq
    have hne := front_end kind s (h.nodup s) q hq
    obtain ⟨hfirst, c, hc, hsecond⟩ := front_marks hq
    have hlinks := h.links hs (List.ne_nil_of_mem hc)
    rw [hops_eq] at hlinks
    obtain ⟨t, ht⟩ := hlinks q (List.mem_append_left _ hq)
    have hcout := h.out ha hPs c hc
    have hentry : q.2 ≠ entry kind a := fun heq =>
      hcout (.inl (entry_inj (hsecond.symm.trans heq)))
    have hexit : q.1 ∉ outlets kind x a P := by
      rcases hfirst with h₁ | ⟨b, hb, h₁⟩ <;> rw [h₁]
      · exact fun hmem => hPs (begin_mem_outlets.1 hmem)
      · exact fun hmem => h.out ha hPs b hb (exit_mem_outlets.1 hmem)
    refine ⟨t, hkeeps.sole hexit ?_ ((hattached.keeps h.consistent (h.last hs)).sole ?_ ?_ ht)⟩
    · rw [hsecond]
      exact fun hmem => hcout (entry_mem_inlets.1 hmem)
    · exact fun hmem => hmem.elim hne.1 fun heq => hexit (heq ▸ exit_mem_outlets.2 (.inl rfl))
    · exact fun hmem => hmem.elim hentry hne.2
  rw [hops_split_cons]
  exact hfront.append (Links.cons ⟨hleaves, he⟩ (Links.cons ⟨hx, harrives⟩ fun q hq => nomatch hq))

/-- An activity without a parent has the new transitions only. -/
theorem Connected.attached_root (h : x.Connected kind)
    (hroot : x.parent a = none) {m m' : Mark A} (hmx : m ≠ exit kind a)
    (hattached : Attached x.graph g m (entry kind a) (exit kind a) m') :
    (∀ t, g.target t = some (entry kind a) ↔ t = x.graph.next) ∧
      ∀ t, g.source t = some (exit kind a) ↔ t = x.graph.next + 1 := by
  obtain ⟨htarget, hsource⟩ := h.root a hroot
  refine ⟨fun t => ?_, fun t => ?_⟩
  · rw [hattached.arriving_iff h.consistent]
    exact or_iff_right (htarget t)
  · rw [hattached.leaving_iff h.consistent hmx]
    exact or_iff_right (hsource t)

/-- The implicit transitions of another structure are removed. -/
theorem Connected.detached_other (h : x.Connected kind) {p : A} (hp : kind p ≠ .sequence)
    (hap : x.parent a = some p) {m m' : Mark A}
    (hm : m ∉ outlets kind x a fun q => q = p) (hm' : m' ∉ inlets kind x a fun q => q = p)
    (hattached : Attached x.graph g m (entry kind a) (exit kind a) m') :
    (g.disconnectAll (implicit kind p a)).Consistent ∧
      Keeps (outlets kind x a fun q => q = p) (inlets kind x a fun q => q = p) g
        (g.disconnectAll (implicit kind p a)) ∧
      (∀ t, (g.disconnectAll (implicit kind p a)).target t = some (entry kind a) ↔
        t = x.graph.next) ∧
      ∀ t, (g.disconnectAll (implicit kind p a)).source t = some (exit kind a) ↔
        t = x.graph.next + 1 := by
  obtain ⟨hconsistent, -, hkept, hgone⟩ := hattached.consistent.disconnectAll (implicit kind p a)
  generalize g.disconnectAll (implicit kind p a) = g₂ at hconsistent hkept hgone ⊢
  have hplaced := h.other p hp a ((h.parent p a).2 hap)
  have hentry : entry kind a ∈ inlets kind x a fun q => q = p := entry_mem_inlets.2 (.inl rfl)
  have hexit : exit kind a ∈ outlets kind x a fun q => q = p := exit_mem_outlets.2 (.inl rfl)
  have hmarks (q) (hq : q ∈ implicit kind p a) :
      (q.1 ∈ outlets kind x a fun q => q = p) ∧ q.2 ∈ inlets kind x a fun q => q = p := by
    obtain ⟨h₁ | h₁ | h₁, h₂ | h₂ | h₂⟩ := implicit_marks hq <;> rw [h₁, h₂]
    all_goals first
      | exact ⟨hexit, hentry⟩
      | exact ⟨hexit, .inl ⟨p, rfl, by simp⟩⟩
      | exact ⟨.inl ⟨p, rfl, by simp⟩, hentry⟩
      | exact ⟨.inl ⟨p, rfl, by simp⟩, .inl ⟨p, rfl, by simp⟩⟩
  -- the new transitions are not among the pairs, and the others are from before
  have hstay (t) (ht : g.source t = some m ∨ g.target t = some m') :
      g₂.source t = g.source t ∧ g₂.target t = g.target t := by
    refine (hkept t).resolve_right ?_
    rintro ⟨-, -, q, hq, hqs, hqt⟩
    rcases ht with ht | ht
    · exact hm (Option.some.inj (ht.symm.trans hqs) ▸ (hmarks q hq).1)
    · exact hm' (Option.some.inj (ht.symm.trans hqt) ▸ (hmarks q hq).2)
  have hbefore (t) (m₁ m₂) (h₁ : m₁ ≠ m) (h₂ : m₂ ≠ m') (hs : g.source t = some m₁)
      (ht : g.target t = some m₂) : x.graph.source t = some m₁ ∧ x.graph.target t = some m₂ := by
    have hsame := hattached.before h.consistent (t := t)
      (fun htn => h₁ (Option.some.inj (hs.symm.trans (htn ▸ hattached.first.1))))
      (fun htn => h₂ (Option.some.inj (ht.symm.trans (htn ▸ hattached.second.2))))
      (by rw [hs]; exact Option.some_ne_none m₁)
    exact ⟨hsame.1.symm.trans hs, hsame.2.symm.trans ht⟩
  have hremoved (q) (hq : q ∈ implicit kind p a) (hqa : q.2 = entry kind a ∨ q.1 = exit kind a) :
      ∀ t, g₂.source t = some q.1 → g₂.target t ≠ some q.2 := by
    refine hgone q hq fun t t' hs ht hs' ht' => ?_
    have h₁ : q.1 ≠ m := fun heq => hm (heq ▸ (hmarks q hq).1)
    have h₂ : q.2 ≠ m' := fun heq => hm' (heq ▸ (hmarks q hq).2)
    obtain ⟨hs, ht⟩ := hbefore t q.1 q.2 h₁ h₂ hs ht
    obtain ⟨hs', ht'⟩ := hbefore t' q.1 q.2 h₁ h₂ hs' ht'
    exact hplaced.once q hq hqa t t' hs ht hs' ht'
  have hsame (t) (m₁) (ht : g₂.source t = some m₁) :
      g₂.source t = g.source t ∧ g₂.target t = g.target t :=
    (hkept t).resolve_right fun hnone => nomatch ht.symm.trans hnone.1
  refine ⟨hconsistent, fun t => ?_, fun t => ⟨fun ht => ?_, fun ht => ?_⟩,
    fun t => ⟨fun hs => ?_, fun ht => ?_⟩⟩
  · refine (hkept t).imp_right fun ⟨hs, ht, q, hq, hqs, hqt⟩ => ⟨fun n hn => ?_, fun n hn => ?_⟩
    · rw [hs, hqs] at hn
      exact Option.some.inj (hn.resolve_right fun hnone => nomatch hnone) ▸ (hmarks q hq).1
    · rw [ht, hqt] at hn
      exact Option.some.inj (hn.resolve_right fun hnone => nomatch hnone) ▸ (hmarks q hq).2
  · by_contra hne
    cases hs : g₂.source t with
    | none => exact nomatch ht.symm.trans ((hconsistent.ends t).1 hs)
    | some m₁ =>
      have hold := hsame t m₁ hs
      have h₁ : m₁ ≠ m := fun heq => hne ((hattached.leaves h.consistent
        (fun heq => hm (heq ▸ hexit)) t).1 (hold.1.symm.trans (heq ▸ hs)))
      have hbef := hbefore t m₁ _ h₁ (fun heq => hm' (heq ▸ hentry)) (hold.1.symm.trans hs)
        (hold.2.symm.trans ht)
      exact hremoved _ (hplaced.arriving t m₁ hbef.1 hbef.2) (.inl rfl) t hs ht
  · rw [ht]
    exact (hstay _ (.inl hattached.first.1)).2.trans hattached.first.2
  · by_contra hne
    cases ht : g₂.target t with
    | none => exact nomatch hs.symm.trans ((hconsistent.ends t).2 ht)
    | some m₂ =>
      have hold := hsame t _ hs
      have h₂ : m₂ ≠ m' := fun heq => hne ((hattached.arrives h.consistent
        (fun heq => hm' (heq ▸ hentry)) t).1 (hold.2.symm.trans (heq ▸ ht)))
      have hbef := hbefore t _ m₂ (fun heq => hm (heq ▸ hexit)) h₂ (hold.1.symm.trans hs)
        (hold.2.symm.trans ht)
      exact hremoved _ (hplaced.leaving t m₂ hbef.1 hbef.2) (.inr rfl) t hs ht
  · rw [ht]
    exact (hstay _ (.inr hattached.second.2)).1.trans hattached.second.1

/-- The former transition of an activity is before the new one in the hash set. -/
theorem Attached.defaultArriving {m x m' e : Mark A} {u : ℕ}
    (hattached : Attached g g' m e x m') (hu : g.arriving e = [u])
    (hplace : place u ≤ place g.next) : g'.defaultArrivingTransition place e = some u := by
  rw [defaultArrivingTransition, hattached.arriving, hu, List.argmin_concat, List.argmin_singleton]
  exact if_neg (Nat.not_lt.2 hplace)

/-- An activity with the transitions of two places leaves the first one. -/
theorem unlink_attached (hg : g.Consistent) {g₁ : Graph A} {m m' y z : Mark A} {u v : ℕ}
    (hattached : Attached g g₁ m (entry kind a) (exit kind a) m')
    (hkeeps : Keeps {m, exit kind a} {entry kind a, m'} g g₁)
    (hu : g.Sole u y (entry kind a)) (hv : g.Sole v (exit kind a) z) (hyx : y ≠ exit kind a)
    (hym : y ≠ m) (hez : entry kind a ≠ z) (hzm : z ≠ m') (hmx : m ≠ exit kind a)
    (hplace : place u ≤ place g.next) :
    ∃ g', removeSequenceTransitions kind place a g₁ = some g' ∧ g'.Consistent ∧
      Keeps {exit kind a, y} {entry kind a, z} g₁ g' ∧ g'.Sole u y z ∧
      (∀ t, g'.target t = some (entry kind a) ↔ t = g.next) ∧
      ∀ t, g'.source t = some (exit kind a) ↔ t = g.next + 1 := by
  have hus := (hu.1 u).2 rfl
  have hut := (hu.2 u).2 rfl
  have hvs := (hv.1 v).2 rfl
  have hvt := (hv.2 v).2 rfl
  have huv : u ≠ v := fun heq => hyx (Option.some.inj (hus.symm.trans (heq ▸ hvs)))
  -- what the activity had is still there
  have hy : y ∉ ({m, exit kind a} : Set (Mark A)) := fun hmem => hmem.elim hym hyx
  have hz : z ∉ ({entry kind a, m'} : Set (Mark A)) := fun hmem => hmem.elim hez.symm hzm
  have hleaves := hkeeps.leaves hy hu.1
  have harrives := hkeeps.arrives hz hv.2
  have hu₁ := hkeeps.of_source hy (.inl hus)
  have hv₁ := hkeeps.of_target hz (.inl hvt)
  have hleaving : g₁.defaultLeavingTransition (exit kind a) = some v := by
    rw [defaultLeavingTransition, hattached.leaving, if_neg hmx, hg.leaving_eq hv.1]
    rfl
  have harriving := hattached.defaultArriving (hg.arriving_eq hu.2) hplace
  obtain ⟨g', hg', hspliced⟩ := removeSequenceTransitions_run hattached.consistent hleaving
    harriving huv (hv₁.2.trans hvt)
  have hlt (t) (ht : g.source t ≠ none) : t < g.next :=
    Nat.lt_of_not_le fun hle => ht (hg.fresh t hle)
  have hun := hlt u (by rw [hus]; exact Option.some_ne_none y)
  have hvn := hlt v (by rw [hvs]; exact Option.some_ne_none _)
  refine ⟨g', hg', hspliced.consistent, hspliced.keeps huv (hu₁.1.trans hus) (hu₁.2.trans hut)
    (hv₁.1.trans hvs) (hv₁.2.trans hvt), hspliced.sole huv hleaves harrives, fun t => ?_,
    fun t => ?_⟩
  · rw [hspliced.arriving hez, hattached.arriving_iff hg, hu.2]
    omega
  · rw [hspliced.leaving, hattached.leaving_iff hg hmx, hv.1]
    omega

/-- The activities after an addition, with the transitions that are left. -/
def added (s a : A) (x : Activities A) (g : Graph A) : Activities A where
  graph := g
  children := update (fun p => (x.children p).erase a) s ((x.children s).erase a ++ [a])
  parent := update x.parent a (some s)

theorem added_children (p : A) : (added s a x g).children p =
    if p = s then (x.children s).erase a ++ [a] else (x.children p).erase a :=
  update_apply (fun p => (x.children p).erase a) s _ p

theorem added_parent (c : A) :
    (added s a x g).parent c = if c = a then some s else x.parent c :=
  update_apply _ _ _ _

theorem Connected.addActivity_root (h : x.Connected kind) (ha : x.parent a = none) :
    addActivity kind place s a x = some (added s a x (addImplicitTransitions kind s a x)) := by
  have herase : (fun p => (x.children p).erase a) = x.children := funext fun p =>
    List.erase_of_not_mem fun hmem => nomatch ha.symm.trans ((h.parent p a).1 hmem)
  unfold Activities.addActivity detachFromParent added
  dsimp only
  rw [ha, herase, congrFun herase s]
  rfl

theorem Connected.addActivity_child (h : x.Connected kind) {p : A} (ha : x.parent a = some p)
    (hg' : removeImplicitTransitions kind place p a (addImplicitTransitions kind s a x) = some g') :
    addActivity kind place s a x = some (added s a x g') := by
  have hmem : a ∈ x.children p := (h.parent p a).2 ha
  unfold Activities.addActivity detachFromParent Activities.removeNode removeActivity added
  dsimp only
  rw [ha]
  dsimp only
  rw [if_pos hmem, hg', h.update_erase ha]
  dsimp only [Option.bind_eq_bind, Option.bind_some]
  rw [update_idem, update_idem]

theorem Connected.added (h : x.Connected kind) (hs : kind s = .sequence) (has : a ≠ s)
    (hconsistent : g'.Consistent)
    (hkeeps : Keeps (outlets kind x a fun p => p = s ∨ x.parent a = some p)
      (inlets kind x a fun p => p = s ∨ x.parent a = some p) x.graph g')
    (hlinks : g'.Links (hops kind (.begin_ s) ((x.children s).erase a ++ [a]) (.end_ s)))
    (hold : ∀ p, x.parent a = some p → p ≠ s → kind p = .sequence →
      g'.Links (hops kind (.begin_ p) ((x.children p).erase a) (.end_ p))) :
    (added s a x g').Connected kind := by
  refine h.frame (a := a) (P := fun p => p = s ∨ x.parent a = some p) hconsistent hkeeps
    (fun p c => ?_) (fun p => ?_) ?_ (fun c hc => (added_parent c).trans (if_neg hc)) (fun p hp => ?_)
    (fun p hp => ?_) (fun p hp => .inr hp) (fun p hp hps => ?_) fun hnone => ?_
  · rw [added_children, added_parent]
    by_cases hca : c = a
    · rw [if_pos hca]
      split
      · rename_i hp
        rw [hp, hca]
        exact iff_of_true (List.mem_append_right _ List.mem_cons_self) rfl
      · rename_i hp
        rw [h.mem_erase]
        exact iff_of_false (fun hand => hand.1 hca) fun heq => hp (Option.some.inj heq).symm
    · rw [if_neg hca]
      split
      · rename_i hp
        rw [List.mem_append, List.mem_singleton, or_iff_left hca, h.mem_erase, and_iff_right hca, hp]
      · rw [h.mem_erase, and_iff_right hca]
  · rw [added_children]
    split
    · exact (List.perm_append_singleton a _).nodup_iff.2
        (List.nodup_cons.2 ⟨(h.nodup s).not_mem_erase, (h.nodup s).erase a⟩)
    · exact (h.nodup p).erase a
  · rw [added_parent, if_pos rfl]
    exact fun heq => has (Option.some.inj heq).symm
  · rw [not_or] at hp
    rw [added_children, if_neg hp.1]
    exact List.erase_of_not_mem fun hmem => hp.2 ((h.parent p a).1 hmem)
  · rw [added_parent, if_pos rfl] at hp
    exact Option.some.inj hp ▸ hs
  · refine .inr ?_
    rw [added_children]
    split
    · rename_i hps'
      rw [hps']
      exact hlinks
    · rename_i hps'
      exact hold p (hp.resolve_left hps') hps' hps
  · rw [added_parent, if_pos rfl] at hnone
    cases hnone

omit [DecidableEq A] in
theorem outlets_mono (kind : A → Kind) (x : Activities A) (a : A) {Q : A → Prop} (hPQ : ∀ p, P p → Q p) :
    outlets kind x a P ⊆ outlets kind x a Q ∧ inlets kind x a P ⊆ inlets kind x a Q :=
  ⟨fun _ hm => hm.imp (fun ⟨p, hp, h⟩ => ⟨p, hPQ p hp, h⟩) fun ⟨c, hc, h⟩ =>
      ⟨c, hc, h.imp_right fun ⟨p, hp, h⟩ => ⟨p, hPQ p hp, h⟩⟩,
    fun _ hm => hm.imp (fun ⟨p, hp, h⟩ => ⟨p, hPQ p hp, h⟩) fun ⟨c, hc, h⟩ =>
      ⟨c, hc, h.imp_right fun ⟨p, hp, h⟩ => ⟨p, hPQ p hp, h⟩⟩⟩

omit [DecidableEq A] in
/-- The two halves of an addition. -/
theorem Connected.added_keeps (h : x.Connected kind) (hs : kind s = .sequence)
    (hkeeps₁ : Keeps {lastMark kind (.begin_ s) (x.children s), exit kind a}
      {entry kind a, .end_ s} x.graph g)
    (hkeeps₂ : Keeps (outlets kind x a P) (inlets kind x a P) g g')
    (hP : ∀ p, P p → p = s ∨ x.parent a = some p) :
    Keeps (outlets kind x a fun p => p = s ∨ x.parent a = some p)
      (inlets kind x a fun p => p = s ∨ x.parent a = some p) x.graph g' := by
  have hmono := outlets_mono kind x a hP
  refine (hkeeps₁.trans hkeeps₂).mono (Set.union_subset ?_ hmono.1) (Set.union_subset ?_ hmono.2)
  · rintro m (rfl | rfl)
    · exact lastMark_mem_outlets (.inl rfl) hs fun c hc => (h.parent s c).1 hc
    · exact exit_mem_outlets.2 (.inl rfl)
  · rintro m (rfl | rfl)
    · exact entry_mem_inlets.2 (.inl rfl)
    · exact end_mem_inlets.2 (.inl rfl)

omit [DecidableEq A] in
/-- The nodes of a sequence. -/
theorem hops_mem_outlets {l : List A} (hP : P s) (hs : kind s = .sequence)
    (hl : ∀ c ∈ l, x.parent c = some s) {q : Mark A × Mark A}
    (hq : q ∈ hops kind (.begin_ s) l (.end_ s)) :
    q.1 ∈ outlets kind x a P ∧ q.2 ∈ inlets kind x a P := by
  obtain ⟨h₁, h₂⟩ := hops_marks hq
  constructor
  · rcases h₁ with h₁ | ⟨c, hc, h₁⟩ <;> rw [h₁]
    · exact begin_mem_outlets.2 hP
    · exact exit_mem_outlets.2 (.inr ⟨s, hP, hs, hl c hc⟩)
  · rcases h₂ with h₂ | ⟨c, hc, h₂⟩ <;> rw [h₂]
    · exact end_mem_inlets.2 hP
    · exact entry_mem_inlets.2 (.inr ⟨s, hP, hs, hl c hc⟩)

/-- The place that an activity leaves in another sequence. -/
theorem Connected.added_other (h : x.Connected kind) (hs : kind s = .sequence) (has : a ≠ s)
    (hempty : x.children s = [] → x.graph.leaving (.begin_ s) = []) {p : A}
    (ha : x.parent a = some p) (hps : p ≠ s) (hp : kind p = .sequence)
    (hplace : ∀ t ∈ x.graph.arriving (entry kind a), place t ≤ place x.graph.next) :
    ∃ x', addActivity kind place s a x = some x' ∧ x'.Connected kind := by
  have hmem : a ∈ x.children p := (h.parent p a).2 ha
  have has' : a ∉ x.children s := fun hmem =>
    hps (Option.some.inj (ha.symm.trans ((h.parent s a).1 hmem)))
  have hattached := h.attached hs a hempty
  have hkeeps₁ := hattached.keeps h.consistent (h.last hs)
  have hlast := h.lastMark_out (P := fun q => q = p) has' (Ne.symm hps)
  have hend : .end_ s ∉ inlets kind x a fun q => q = p := fun hmem =>
    hps (end_mem_inlets.1 hmem).symm
  have hmx : lastMark kind (.begin_ s) (x.children s) ≠ exit kind a := fun heq =>
    hlast (heq ▸ exit_mem_outlets.2 (.inl rfl))
  have hlinks := h.links hp (List.ne_nil_of_mem hmem)
  have hnodup := h.nodup p
  have hchildren := fun c => (h.parent p c).1
  obtain ⟨pre, post, hsplit⟩ := List.append_of_mem hmem
  rw [hsplit] at hlinks hnodup hchildren
  obtain ⟨hyx, hez, hothers⟩ := hops_around kind p hnodup
  rw [hops_split_cons] at hlinks
  obtain ⟨u, hu⟩ := hlinks _ (List.mem_append_right _ List.mem_cons_self)
  obtain ⟨v, hv⟩ := hlinks _ (List.mem_append_right _ (List.mem_cons_of_mem _ List.mem_cons_self))
  have hy : lastMark kind (.begin_ p) pre ∈ outlets kind x a fun q => q = p :=
    lastMark_mem_outlets rfl hp fun c hc => hchildren c (List.mem_append_left _ hc)
  have hz : firstMark kind (.end_ p) post ∈ inlets kind x a fun q => q = p :=
    firstMark_mem_inlets rfl hp fun c hc =>
      hchildren c (List.mem_append_right _ (List.mem_cons_of_mem a hc))
  obtain ⟨g', hg', hconsistent, hkeeps₂, hsole, he, hx⟩ := unlink_attached h.consistent hattached
    hkeeps₁ hu hv hyx (fun heq => hlast (heq ▸ hy)) hez (fun heq => hend (heq ▸ hz)) hmx
    (hplace u ((h.consistent.arriving _ u).2 ((hu.2 u).2 rfl)))
  have hkeeps₂' := keeps_around (x := x) (P := fun q => q = p) rfl hp
    (fun c hc => hchildren c (List.mem_append_left _ hc))
    (fun c hc => hchildren c (List.mem_append_right _ (List.mem_cons_of_mem a hc))) hkeeps₂
  refine ⟨_, h.addActivity_child ha ?_, h.added hs has hconsistent ?_ ?_ fun q hq _ _ => ?_⟩
  · rw [removeImplicitTransitions, if_pos hp]
    exact hg'
  · exact h.added_keeps hs hkeeps₁ hkeeps₂' fun q hq => .inr (hq ▸ ha)
  · rw [List.erase_of_not_mem has']
    exact h.added_links hs has' hattached (P := fun q => q = p) (Ne.symm hps) hkeeps₂' he hx
  · obtain rfl : p = q := Option.some.inj (ha.symm.trans hq)
    rw [hsplit, erase_middle hnodup, hops_split]
    have hrest : g'.Links (front kind (.begin_ p) pre ++ back kind (.end_ p) post) := by
      intro q hq
      have hqp : q ∈ front kind (.begin_ p) pre ++ (lastMark kind (.begin_ p) pre, entry kind a) ::
          (exit kind a, firstMark kind (.end_ p) post) :: back kind (.end_ p) post :=
        (List.mem_append.1 hq).elim (List.mem_append_left _) fun hq =>
          List.mem_append_right _ (List.mem_cons_of_mem _ (List.mem_cons_of_mem _ hq))
      obtain ⟨⟨h₁, h₂⟩, h₃, h₄⟩ := hothers q hq
      obtain ⟨t, ht⟩ := hlinks q hqp
      rw [← hops_split_cons] at hqp
      obtain ⟨h₅, h₆⟩ := hops_mem_outlets (x := x) (a := a) (P := fun q => q = p) rfl hp hchildren
        hqp
      refine ⟨t, hkeeps₂.sole (fun hmem => hmem.elim h₂ h₁) (fun hmem => hmem.elim h₃ h₄)
        (hkeeps₁.sole (fun hmem => hmem.elim (fun heq => hlast (heq ▸ h₅)) h₂)
          (fun hmem => hmem.elim h₃ fun heq => hend (heq ▸ h₆)) ht)⟩
    exact Links.append (fun q hq => hrest q (List.mem_append_left _ hq))
      (Links.cons hsole fun q hq => hrest q (List.mem_append_right _ hq))

/-- A child that is not the last one becomes the last one. -/
theorem Connected.added_again (h : x.Connected kind) (hs : kind s = .sequence) (has : a ≠ s)
    {b : A} (hsplit : x.children s = pre ++ a :: b :: post)
    (hplace : ∀ t ∈ x.graph.arriving (entry kind a), place t ≤ place x.graph.next) :
    ∃ x', addActivity kind place s a x = some x' ∧ x'.Connected kind := by
  have hmem : a ∈ x.children s := by
    rw [hsplit]
    exact List.mem_append_right _ List.mem_cons_self
  have ha := (h.parent s a).1 hmem
  have hattached := h.attached hs a fun hnil => absurd hnil (List.ne_nil_of_mem hmem)
  have hkeeps₁ := hattached.keeps h.consistent (h.last hs)
  have hlinks := h.links hs (List.ne_nil_of_mem hmem)
  have hnodup := h.nodup s
  have hchildren := fun c => (h.parent s c).1
  have hfront := front_end kind s (h.nodup s)
  have hm : lastMark kind (.begin_ s) (x.children s) = lastMark kind (exit kind b) post := by
    rw [hsplit, lastMark_append]
    rfl
  rw [hm] at hattached hkeeps₁ hfront
  rw [hsplit] at hlinks hnodup hchildren hfront
  obtain ⟨hyx, hez, hothers⟩ := hops_around kind s hnodup
  rw [front_append] at hfront
  rw [hops_split_cons] at hlinks
  obtain ⟨u, hu⟩ := hlinks _ (List.mem_append_right _ List.mem_cons_self)
  obtain ⟨v, hv⟩ := hlinks _ (List.mem_append_right _ (List.mem_cons_of_mem _ List.mem_cons_self))
  obtain ⟨hym, -⟩ := hfront (lastMark kind (.begin_ s) pre, entry kind a)
    (List.mem_append_right _ List.mem_cons_self)
  obtain ⟨hxm, hzm⟩ := hfront (exit kind a, entry kind b)
    (List.mem_append_right _ (List.mem_cons_of_mem _ List.mem_cons_self))
  dsimp only at hym hxm hzm
  obtain ⟨g', hg', hconsistent, hkeeps₂, hsole, he, hx⟩ := unlink_attached h.consistent hattached
    hkeeps₁ hu hv hyx hym hez hzm (Ne.symm hxm)
    (hplace u ((h.consistent.arriving _ u).2 ((hu.2 u).2 rfl)))
  have hkeeps₂' := keeps_around (x := x) (P := fun q => q = s) rfl hs
    (fun c hc => hchildren c (List.mem_append_left _ hc))
    (fun c hc => hchildren c (List.mem_append_right _ (List.mem_cons_of_mem a hc))) hkeeps₂
  refine ⟨_, h.addActivity_child ha ?_, h.added hs has hconsistent ?_ ?_ fun q hq hqs _ => ?_⟩
  · rw [removeImplicitTransitions, if_pos hs]
    exact hg'
  · exact h.added_keeps hs (hm ▸ hkeeps₁) hkeeps₂' fun q hq => .inl hq
  · have hleaves := hkeeps₂.leaves (fun hmem => hmem.elim (Ne.symm hxm) (Ne.symm hym))
      (hattached.leaves h.consistent (Ne.symm hxm))
    have harrives := hkeeps₂.arrives (fun hmem => hmem.elim (Ne.symm (entry_ne_end a s))
      (Ne.symm hzm)) (hattached.arrives h.consistent (entry_ne_end a s))
    have hrest : g'.Links (front kind (.begin_ s) pre ++ front kind (exit kind b) post) := by
      intro q hq
      have hqf : q ∈ front kind (.begin_ s) pre ++
          front kind (lastMark kind (.begin_ s) pre) (a :: b :: post) :=
        (List.mem_append.1 hq).elim (List.mem_append_left _) fun hq =>
          List.mem_append_right _ (List.mem_cons_of_mem _ (List.mem_cons_of_mem _ hq))
      have hqb : q ∈ front kind (.begin_ s) pre ++ back kind (.end_ s) (b :: post) := by
        refine (List.mem_append.1 hq).elim (List.mem_append_left _) fun hq =>
          List.mem_append_right _ ?_
        rw [back, hops_eq]
        exact List.mem_append_left _ hq
      obtain ⟨⟨h₁, h₂⟩, h₃, h₄⟩ := hothers q hqb
      obtain ⟨h₅, h₆⟩ := hfront q hqf
      obtain ⟨t, ht⟩ := hlinks q ((List.mem_append.1 hqb).elim (List.mem_append_left _) fun hq =>
        List.mem_append_right _ (List.mem_cons_of_mem _ (List.mem_cons_of_mem _ hq)))
      exact ⟨t, hkeeps₂.sole (fun hmem => hmem.elim h₂ h₁) (fun hmem => hmem.elim h₃ h₄)
        (hkeeps₁.sole (fun hmem => hmem.elim h₅ h₂) (fun hmem => hmem.elim h₃ h₆) ht)⟩
    have hlast : lastMark kind (.begin_ s) (pre ++ b :: post) = lastMark kind (exit kind b) post :=
      lastMark_append _ _ _
    rw [hsplit, erase_middle hnodup, hops_split_cons, front_append, hlast, List.append_assoc]
    exact Links.append (fun q hq => hrest q (List.mem_append_left _ hq)) (Links.append
      (Links.cons hsole fun q hq => hrest q (List.mem_append_right _ hq))
      (Links.cons ⟨hleaves, he⟩ (Links.cons ⟨hx, harrives⟩ fun q hq => nomatch hq)))
  · exact absurd (Option.some.inj (hq.symm.trans ha)) hqs

/-- The last child is removed and becomes the last one again: the transition to it stays, and the
    one to the end is another one. -/
theorem Connected.added_last (h : x.Connected kind) (hs : kind s = .sequence) (has : a ≠ s)
    (hsplit : x.children s = pre ++ [a])
    (hplace : ∀ t ∈ x.graph.arriving (entry kind a), place t ≤ place x.graph.next) :
    ∃ x', addActivity kind place s a x = some x' ∧ x'.Connected kind := by
  have hmem : a ∈ x.children s := by
    rw [hsplit]
    exact List.mem_append_right _ List.mem_cons_self
  have ha := (h.parent s a).1 hmem
  have hattached := h.attached hs a fun hnil => absurd hnil (List.ne_nil_of_mem hmem)
  have hkeeps₁ := hattached.keeps h.consistent (h.last hs)
  have hlinks := h.links hs (List.ne_nil_of_mem hmem)
  have hnodup := h.nodup s
  have hchildren := fun c => (h.parent s c).1
  have hm : lastMark kind (.begin_ s) (x.children s) = exit kind a := by
    rw [hsplit, lastMark_concat]
  rw [hm] at hattached hkeeps₁
  rw [hsplit] at hlinks hnodup hchildren
  obtain ⟨hyx, -, hothers⟩ := hops_around kind s hnodup
  rw [hops_split_cons] at hlinks
  obtain ⟨u, hu⟩ := hlinks _ (List.mem_append_right _ List.mem_cons_self)
  have hus := (hu.1 u).2 rfl
  have hut := (hu.2 u).2 rfl
  have hlt : u < x.graph.next := Nat.lt_of_not_le fun hle =>
    nomatch hus.symm.trans (h.consistent.fresh u hle)
  have hun : u ≠ x.graph.next := Nat.ne_of_lt hlt
  have hy : lastMark kind (.begin_ s) pre ∉ ({exit kind a, exit kind a} : Set (Mark A)) :=
    fun hmem => hmem.elim hyx hyx
  have hu₁ := hkeeps₁.of_source hy (.inl hus)
  have hleaving : (addImplicitTransitions kind s a x).defaultLeavingTransition (exit kind a) =
      some x.graph.next := by
    rw [defaultLeavingTransition, hattached.leaving, if_pos rfl]
    rfl
  have harriving := hattached.defaultArriving (h.consistent.arriving_eq hu.2)
    (hplace u ((h.consistent.arriving _ u).2 hut))
  obtain ⟨g', hg', hspliced⟩ := removeSequenceTransitions_run hattached.consistent hleaving
    harriving hun hattached.first.2
  have hkeeps₂ := hspliced.keeps hun (hu₁.1.trans hus) (hu₁.2.trans hut) hattached.first.1
    hattached.first.2
  refine ⟨_, h.addActivity_child ha ?_, h.added hs has hspliced.consistent ?_ ?_
    fun q hq hqs _ => ?_⟩
  · rw [removeImplicitTransitions, if_pos hs]
    exact hg'
  · refine h.added_keeps (P := fun q => q = s) hs (hm ▸ hkeeps₁) (hkeeps₂.mono ?_ ?_) fun q hq =>
      .inl hq
    · rintro m (rfl | rfl)
      · exact exit_mem_outlets.2 (.inl rfl)
      · exact lastMark_mem_outlets rfl hs fun c hc => hchildren c (List.mem_append_left _ hc)
    · rintro m (rfl | rfl) <;> exact entry_mem_inlets.2 (.inl rfl)
  · have hleaves (t) : g'.source t = some (lastMark kind (.begin_ s) pre) ↔ t = u := by
      rw [hspliced.leaving, hkeeps₁.leaves hy hu.1]
      omega
    have he (t) : g'.target t = some (entry kind a) ↔ t = u := by
      rw [hspliced.target, update_apply]
      split
      · rename_i htu
        exact iff_of_true rfl htu
      · rename_i htu
        refine iff_of_false (fun ht => ?_) htu
        rw [update_apply] at ht
        split at ht
        · cases ht
        · rename_i htn
          exact ((hattached.arriving_iff h.consistent t).1 ht).elim (fun ht => htu ((hu.2 t).1 ht))
            htn
    have hx (t) : g'.source t = some (exit kind a) ↔ t = x.graph.next + 1 := by
      rw [hspliced.leaving, ← hattached.consistent.leaving, hattached.leaving, if_pos rfl,
        List.mem_append, List.mem_singleton, List.mem_singleton]
      omega
    have harrives (t) : g'.target t = some (.end_ s) ↔ t = x.graph.next + 1 := by
      rw [hspliced.arriving (Ne.symm (entry_ne_end a s)),
        hattached.arrives h.consistent (entry_ne_end a s)]
      omega
    have hrest : g'.Links (front kind (.begin_ s) pre) := by
      intro q hq
      obtain ⟨⟨h₁, h₂⟩, h₃, h₄⟩ := hothers q (List.mem_append_left _ hq)
      obtain ⟨t, ht⟩ := hlinks q (List.mem_append_left _ hq)
      exact ⟨t, hkeeps₂.sole (fun hmem => hmem.elim h₂ h₁) (fun hmem => hmem.elim h₃ h₃)
        (hkeeps₁.sole (fun hmem => hmem.elim h₂ h₂) (fun hmem => hmem.elim h₃ h₄) ht)⟩
    rw [hsplit, erase_middle hnodup, List.append_nil, hops_split_cons]
    exact hrest.append (Links.cons ⟨hleaves, he⟩ (Links.cons ⟨hx, harrives⟩ fun q hq => nomatch hq))
  · exact absurd (Option.some.inj (hq.symm.trans ha)) hqs

/-- An activity is added to a sequence that has no transition yet if it has no activity, and the
    former transition of the activity is found before the new one. -/
theorem Connected.addActivity (h : x.Connected kind) (hs : kind s = .sequence) (has : a ≠ s)
    (hempty : x.children s = [] → x.graph.leaving (.begin_ s) = [])
    (hplace : ∀ p ∈ x.parent a, kind p = .sequence →
      ∀ t ∈ x.graph.arriving (entry kind a), place t ≤ place x.graph.next) :
    ∃ x', addActivity kind place s a x = some x' ∧ x'.Connected kind := by
  have hattached := h.attached hs a hempty
  have hkeeps₁ := hattached.keeps h.consistent (h.last hs)
  cases ha : x.parent a with
  | none =>
    have has' : a ∉ x.children s := fun hmem => nomatch ha.symm.trans ((h.parent s a).1 hmem)
    have hlast := h.lastMark_out (P := fun _ => False) has' id
    have hmx : lastMark kind (.begin_ s) (x.children s) ≠ exit kind a := fun heq =>
      hlast (heq ▸ exit_mem_outlets.2 (.inl rfl))
    obtain ⟨he, hx⟩ := h.attached_root ha hmx hattached
    refine ⟨_, h.addActivity_root ha, h.added hs has hattached.consistent ?_ ?_ fun p hp => ?_⟩
    · exact h.added_keeps (P := fun _ => False) hs hkeeps₁ (Keeps.refl _) fun p hp => hp.elim
    · rw [List.erase_of_not_mem has']
      exact h.added_links hs has' hattached (P := fun _ => False) id (Keeps.refl _) he hx
    · rw [ha] at hp
      cases hp
  | some p =>
    have hmem : a ∈ x.children p := (h.parent p a).2 ha
    by_cases hps : p = s
    · subst hps
      obtain ⟨pre, post, hsplit⟩ := List.append_of_mem hmem
      cases post with
      | nil => exact h.added_last hs has hsplit (hplace p ha hs)
      | cons b post => exact h.added_again hs has hsplit (hplace p ha hs)
    · by_cases hp : kind p = .sequence
      · exact h.added_other hs has hempty ha hps hp (hplace p ha hp)
      · have has' : a ∉ x.children s := fun hmem =>
          hps (Option.some.inj (ha.symm.trans ((h.parent s a).1 hmem)))
        obtain ⟨hconsistent, hkeeps₂, he, hx⟩ := h.detached_other hp ha
          (h.lastMark_out has' (Ne.symm hps)) (fun hmem => hps (end_mem_inlets.1 hmem).symm)
          hattached
        refine ⟨_, h.addActivity_child ha (if_neg hp), h.added hs has hconsistent ?_ ?_
          fun q hq _ hqs => ?_⟩
        · exact h.added_keeps hs hkeeps₁ hkeeps₂ fun q hq => .inr (hq ▸ ha)
        · rw [List.erase_of_not_mem has']
          exact h.added_links hs has' hattached (P := fun q => q = p) (Ne.symm hps) hkeeps₂ he hx
        · exact absurd (Option.some.inj (ha.symm.trans hq) ▸ hqs) hp

/-! ## Runs -/

/-- The changes after which a sequence is a chain: an activity is added to a sequence that has
    activities or never had one, and if it leaves a sequence, the hash set of its arriving
    transitions gives the former one first. -/
def Regular (kind : A → Kind) (place : ℕ → ℕ) (x : Activities A) : Op A → Prop
  | .addNode s a => kind s = .sequence ∧ a ≠ s ∧
      (x.children s = [] → x.graph.leaving (.begin_ s) = []) ∧
      ∀ p ∈ x.parent a, kind p = .sequence →
        ∀ t ∈ x.graph.arriving (entry kind a), place t ≤ place x.graph.next
  | .removeNode s _ => kind s = .sequence
  | .reorderNode s i j => kind s = .sequence ∧ i < (x.children s).length ∧
      j < (x.children s).length

instance (kind : A → Kind) (place : ℕ → ℕ) (x : Activities A) (op : Op A) :
    Decidable (Regular kind place x op) := by
  cases op <;> unfold Regular <;> infer_instance

theorem Connected.apply (h : x.Connected kind) (op : Op A) (hop : Regular kind place x op) :
    ∃ x', apply kind place x op = some x' ∧ x'.Connected kind := by
  cases op with
  | addNode s a => exact h.addActivity hop.1 hop.2.1 hop.2.2.1 hop.2.2.2
  | removeNode s a => exact h.removeNode hop a
  | reorderNode s i j => exact h.reorderNode hop.1 hop.2.1 hop.2.2

theorem Connected.run (h : x.Connected kind) (ops : List (Op A))
    (hops : Allowed (Regular kind place) (fun x op => (Activities.apply kind place x op).getD x) x
      ops) :
    ∃ x', ops.foldlM (Activities.apply kind place) x = some x' ∧ x'.Connected kind := by
  induction ops generalizing x with
  | nil => exact ⟨x, rfl, h⟩
  | cons op ops ih =>
    obtain ⟨x₁, hx₁, h₁⟩ := h.apply op hops.1
    have hrest := hops.2
    dsimp only at hrest
    rw [hx₁, Option.getD_some] at hrest
    obtain ⟨x', hx', h'⟩ := ih h₁ hrest
    refine ⟨x', ?_, h'⟩
    rw [List.foldlM_cons, hx₁]
    exact hx'

omit [DecidableEq A] in
/-- A child of a sequence has one arriving and one leaving transition. -/
theorem Connected.child (h : x.Connected kind) (hs : kind s = .sequence) (ha : a ∈ x.children s) :
    (∃ t, x.graph.arriving (entry kind a) = [t]) ∧ ∃ t, x.graph.leaving (exit kind a) = [t] := by
  have hlinks := h.links hs (List.ne_nil_of_mem ha)
  obtain ⟨pre, post, hsplit⟩ := List.append_of_mem ha
  rw [hsplit, hops_split_cons] at hlinks
  obtain ⟨u, hu⟩ := hlinks _ (List.mem_append_right _ List.mem_cons_self)
  obtain ⟨v, hv⟩ := hlinks _ (List.mem_append_right _ (List.mem_cons_of_mem _ List.mem_cons_self))
  exact ⟨⟨u, h.consistent.arriving_eq hu.2⟩, v, h.consistent.leaving_eq hv.1⟩

/-- New activities. -/
def blank : Activities A where
  graph := { leaving := fun _ => [], arriving := fun _ => [], source := fun _ => none,
             target := fun _ => none, next := 0 }
  children := fun _ => []
  parent := fun _ => none

omit [DecidableEq A] in
theorem connected_blank : (blank : Activities A).Connected kind where
  consistent :=
    { leaving := fun _ _ => iff_of_false List.not_mem_nil (Option.some_ne_none _).symm
      arriving := fun _ _ => iff_of_false List.not_mem_nil (Option.some_ne_none _).symm
      nodup_leaving := fun _ => List.nodup_nil
      nodup_arriving := fun _ => List.nodup_nil
      ends := fun _ => Iff.rfl
      fresh := fun _ _ => rfl }
  parent := fun _ _ => iff_of_false List.not_mem_nil (Option.some_ne_none _).symm
  nodup := fun _ => List.nodup_nil
  irrefl := fun _ => (Option.some_ne_none _).symm
  sequence := fun _ _ =>
    .inl ⟨rfl, fun _ => (Option.some_ne_none _).symm, fun _ => (Option.some_ne_none _).symm⟩
  other := fun _ _ _ h => absurd h List.not_mem_nil
  root := fun _ _ => ⟨fun _ => (Option.some_ne_none _).symm, fun _ => (Option.some_ne_none _).symm⟩

/-- Two sequences, and basic activities. -/
def orderKind (n : ℕ) : Kind := if n < 2 then .sequence else .basic

omit [DecidableEq A] in
/-- A chain has no second transition from its begin. -/
theorem Chained.begin_unique (h : x.Chained kind s) (t t' : ℕ)
    (ht : x.graph.source t = some (.begin_ s)) (ht' : x.graph.source t' = some (.begin_ s)) :
    t = t' := by
  rcases h with ⟨-, hsource, -⟩ | hlinks
  · exact absurd ht (hsource t)
  · have hfirst : ∃ m, (Mark.begin_ s, m) ∈ hops kind (.begin_ s) (x.children s) (.end_ s) := by
      cases x.children s with
      | nil => exact ⟨_, List.mem_cons_self⟩
      | cons a activities => exact ⟨_, List.mem_cons_self⟩
    obtain ⟨m, hm⟩ := hfirst
    obtain ⟨t₁, ht₁⟩ := hlinks _ hm
    exact ((ht₁.1 t).1 ht).trans ((ht₁.1 t').1 ht').symm

end Bpel.Activities

end Jbpm
