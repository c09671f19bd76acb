/-
  The events of super-states along a run.

  * `Exact`: a step fires the leave events of the super-states that contain the
    node left and not the node entered, from the inside out, and the enter
    events of those that contain the node entered and not the node left, from
    the outside in;
  * `Direct`: the transitions for which it does so, by the places of their ends;
  * `Balanced`: a super-state has been entered once more than left if the token
    is inside it, and as often if not;
  * `superState_events`: both, over the runs of a process definition.
-/
import Jbpm.Graph.SuperState
import Jbpm.Lib.Run

namespace Jbpm

namespace Graph

open Lib

def leaves (evs : List Event) : List ℕ :=
  evs.filterMap fun
    | .superStateLeave s => some s
    | _ => none

def enters (evs : List Event) : List ℕ :=
  evs.filterMap fun
    | .superStateEnter s => some s
    | _ => none

/-- The events of a step. -/
def fired (e e' : Execution) : List Event := e'.events.drop e.events.length

namespace ProcessDefinition

variable (d : ProcessDefinition)

/-- The super-state is the node, or contains it. -/
def Inside (s n : ℕ) : Prop := d.isSuperStateNode s ∧ d.superStates.Within s n

instance (s n : ℕ) : Decidable (d.Inside s n) := inferInstanceAs (Decidable (_ ∧ _))

def around (n : ℕ) : List ℕ := n :: d.superStates.ancestors n

/-- The super-states around `a` and not around `b`, from the inside out. -/
def between (a b : ℕ) : List ℕ :=
  (d.around a).filter fun s => d.isSuperStateNode s && !decide (d.superStates.Within s b)

def Exact (e e' : Execution) : Prop :=
  leaves (fired e e') = d.between e.node e'.node ∧
    enters (fired e e') = (d.between e'.node e.node).reverse

/-- The node at which a token that enters `n` comes to rest. -/
def landingFrom : ℕ → ℕ → Option ℕ
  | 0, _ => none
  | k + 1, n =>
    if d.isAsync n then some n
    else if d.isSuperStateNode n then
      match d.nodes n with
      | [] => none
      | c :: _ => landingFrom k c
    else some n

def landing (n : ℕ) : Option ℕ := d.landingFrom (d.height n + 1) n

/-- A transition from `n` that neither leads to a super-state around `n`, nor
    comes from one around its destination, nor stops on the way at an
    asynchronous super-state more than one level above its destination. -/
def Direct (n : ℕ) (tr : Transition) : Prop :=
  d.containsNode tr.to_ n = false ∧
    ∀ m ∈ d.destination tr.to_, d.containsNode tr.from_ m = false ∧
      ∀ l ∈ d.landing tr.to_, l = m ∨ d.superStates.parent m = some l

instance (n : ℕ) (tr : Transition) : Decidable (d.Direct n tr) := inferInstanceAs (Decidable (_ ∧ _))

/-- The steps that are direct; jobs fire no events of super-states. -/
def Proper (e : Execution) : Act → Prop
  | .signal tr => d.Direct e.node tr
  | .executeJob => True

instance (e : Execution) : ∀ a, Decidable (d.Proper e a)
  | .signal tr => inferInstanceAs (Decidable (d.Direct e.node tr))
  | .executeJob => inferInstanceAs (Decidable True)

def Steps (e : Execution) (a : Act) (e' : Execution) : Prop := d.step e a = some e'

/-- For every super-state, enters minus leaves tell where the token is. -/
def Balanced (e : Execution) : Prop :=
  ∀ s, d.isSuperStateNode s → (enters e.events).count s =
    (leaves e.events).count s + if d.Inside s e.node then 1 else 0

/-- The token starts outside all super-states. -/
def StartsOutside : Prop :=
  d.isSuperStateNode d.startState = false ∧ d.superStates.parent d.startState = none

end ProcessDefinition

/-! ## Events -/

@[simp] theorem leaves_append (l₁ l₂ : List Event) : leaves (l₁ ++ l₂) = leaves l₁ ++ leaves l₂ :=
  List.filterMap_append

@[simp] theorem enters_append (l₁ l₂ : List Event) : enters (l₁ ++ l₂) = enters l₁ ++ enters l₂ :=
  List.filterMap_append

@[simp] theorem leaves_map_superStateLeave (l : List ℕ) : leaves (l.map .superStateLeave) = l := by
  rw [leaves, List.filterMap_map]
  exact List.filterMap_some

@[simp] theorem enters_map_superStateEnter (l : List ℕ) : enters (l.map .superStateEnter) = l := by
  rw [enters, List.filterMap_map]
  exact List.filterMap_some

@[simp] theorem leaves_map_superStateEnter (l : List ℕ) : leaves (l.map .superStateEnter) = [] := by
  simp [leaves, List.filterMap_map]

@[simp] theorem enters_map_superStateLeave (l : List ℕ) : enters (l.map .superStateLeave) = [] := by
  simp [enters, List.filterMap_map]

/-- Events of nodes and transitions. -/
def Plain (evs : List Event) : Prop := leaves evs = [] ∧ enters evs = []

theorem Plain.append {l₁ l₂ : List Event} (h₁ : Plain l₁) (h₂ : Plain l₂) : Plain (l₁ ++ l₂) := by
  simp [Plain, h₁.1, h₁.2, h₂.1, h₂.2]

namespace ProcessDefinition

variable {d : ProcessDefinition}

/-! ## Entering a node -/

theorem within_of_mem {c n : ℕ} (h : c ∈ d.nodes n) {m : ℕ} (hm : d.superStates.Within c m) :
    n ∈ d.superStates.ancestors m :=
  have hc : n ∈ d.superStates.ancestors c :=
    (Forest.mem_ancestors_of_parent (d.parent_of_mem h)).2 (.inl rfl)
  hm.elim (fun h => h ▸ hc) fun hm => Forest.mem_ancestors_trans hc hm

/-- Where the loop of `fireSuperStateEnterEvents` ends. -/
theorem destinationFrom_spec {k n m : ℕ} (h : d.destinationFrom k n = some m) :
    d.isSuperStateNode m = false ∧ d.superStates.Within n m ∧
      ∀ l, d.landingFrom k n = some l → d.superStates.Within n l ∧ d.superStates.Within l m ∧
        (l = m ∨ d.isSuperStateNode l ∧ ∀ c ∈ (d.nodes l).head?, d.superStates.Within c m) := by
  induction k generalizing n with
  | zero => cases h
  | succ k ih =>
    simp only [destinationFrom, landingFrom] at h ⊢
    by_cases hs : d.isSuperStateNode n = true
    · rcases hc : d.nodes n with _ | ⟨c, cs⟩
      · simp [hs, hc] at h
      · simp only [hs, hc, if_true] at h ⊢
        have hmem : c ∈ d.nodes n := hc ▸ List.mem_cons_self
        obtain ⟨hm, hw, hl⟩ := ih h
        refine ⟨hm, .inr (within_of_mem hmem hw), fun l hland => ?_⟩
        split_ifs at hland with ha
        · obtain rfl := Option.some.inj hland
          refine ⟨.inl rfl, .inr (within_of_mem hmem hw), .inr ⟨hs, fun b hb => ?_⟩⟩
          rw [hc, List.head?_cons, Option.mem_some_iff] at hb
          exact hb ▸ hw
        · obtain ⟨h1, h2, h3⟩ := hl l hland
          exact ⟨.inr (within_of_mem hmem h1), h2, h3⟩
    · rw [if_neg hs] at h
      obtain rfl := Option.some.inj h
      refine ⟨by simpa using hs, .inl rfl, fun l hland => ?_⟩
      rw [if_neg hs, ite_self] at hland
      obtain rfl := Option.some.inj hland
      exact ⟨.inl rfl, .inl rfl, .inl rfl⟩

theorem enterFrom_spec {k n : ℕ} {e e' : Execution} (h : d.enterFrom k n e = some e') :
    d.landingFrom k n = some e'.node ∧ (∃ evs, e'.events = e.events ++ evs ∧ Plain evs) ∧
      (d.isSuperStateNode e'.node → e'.isLocked) := by
  induction k generalizing n e with
  | zero => cases h
  | succ k ih =>
    have hplain : Plain [.nodeEnter n] := ⟨rfl, rfl⟩
    simp only [enterFrom, landingFrom] at h ⊢
    by_cases ha : d.isAsync n = true
    · simp only [ha, if_true, Option.some.injEq] at h ⊢
      subst h
      exact ⟨rfl, ⟨_, rfl, hplain⟩, fun _ => rfl⟩
    · by_cases hs : d.isSuperStateNode n = true
      · rcases hc : d.nodes n with _ | ⟨c, cs⟩
        · simp [ha, hs, hc] at h
        · simp only [ha, hs, hc, if_true] at h ⊢
          obtain ⟨h1, ⟨evs, h2, h3⟩, h4⟩ := ih h
          exact ⟨h1, ⟨_, by rw [h2]; exact List.append_assoc .., hplain.append h3⟩, h4⟩
      · rw [if_neg ha, if_neg hs] at h ⊢
        obtain rfl := Option.some.inj h
        exact ⟨rfl, ⟨_, rfl, hplain⟩, fun h => absurd h hs⟩

theorem execute_spec {n : ℕ} {e e' : Execution} (h : d.execute n e = some e') :
    (∃ evs, e'.events = e.events ++ evs ∧ Plain evs) ∧
      (d.isSuperStateNode n = false ∧ e' = e ∨
        ∃ c ∈ (d.nodes n).head?, d.landing c = some e'.node ∧
          (d.isSuperStateNode e'.node → e'.isLocked)) := by
  rw [execute] at h
  split_ifs at h with hs
  · rcases hc : d.nodes n with _ | ⟨c, cs⟩
    · simp [hc] at h
    · simp only [hc] at h
      obtain ⟨h1, h2, h3⟩ := enterFrom_spec h
      exact ⟨h2, .inr ⟨c, rfl, h1, h3⟩⟩
  · obtain rfl := Option.some.inj h
    exact ⟨⟨[], by simp, rfl, rfl⟩, .inl ⟨by simpa using hs, rfl⟩⟩

/-! ## The fired sets -/

section
variable {a t f m l : ℕ}

theorem isSuperStateNode_of_mem {s n : ℕ} (h : s ∈ d.superStates.ancestors n) :
    d.isSuperStateNode s := by
  induction n using d.superStates.induction with
  | root n hn =>
    rw [Forest.ancestors_of_root hn] at h
    cases h
  | child n p hn ih =>
    rcases (Forest.mem_ancestors_of_parent hn).1 h with rfl | h
    · exact d.isSuperStateNode_of_parent hn
    · exact ih h

theorem containsNode_eq_false {s n : ℕ} :
    d.containsNode s n = false ↔ s ∉ d.superStates.ancestors n := by
  simp [containsNode]

theorem collectAllSuperStates_eq (a b : ℕ) : d.collectAllSuperStates a b =
    (d.superStates.ancestors a).filter fun s => !d.containsNode s b := by
  refine Forest.takeWhile_ancestors fun s n hs h => ?_
  simp only [Bool.not_eq_true', containsNode_eq_false] at h ⊢
  exact fun hn => h (Forest.mem_ancestors_trans hs hn)

/-- Around a node that is no super-state there are only its ancestors. -/
theorem between_of_plain (ha : d.isSuperStateNode a = false) (b : ℕ) :
    d.between a b =
      (d.superStates.ancestors a).filter fun s => !decide (d.superStates.Within s b) := by
  rw [between, around, List.filter_cons_of_neg (by simp [ha])]
  exact List.filter_congr fun s hs => by rw [isSuperStateNode_of_mem hs, Bool.true_and]

theorem filter_eq_filter_iff {p q : ℕ → Bool} {xs : List ℕ} :
    xs.filter p = xs.filter q ↔ ∀ x ∈ xs, p x = q x := by
  refine ⟨fun h x hx => ?_, List.filter_congr⟩
  have hmem : x ∈ xs.filter p ↔ x ∈ xs.filter q := by rw [h]
  rw [List.mem_filter, List.mem_filter, and_iff_right hx, and_iff_right hx] at hmem
  exact Bool.eq_iff_iff.2 hmem

/-- The leave events are right unless the declared destination contains the source. -/
theorem leaves_iff (ha : d.isSuperStateNode a = false) (ht : d.superStates.Within t l) :
    d.collectAllSuperStates a t = d.between a l ↔ d.containsNode t a = false := by
  have hiff : (∀ s ∈ d.superStates.ancestors a,
      (!d.containsNode s t) = !decide (d.superStates.Within s l)) ↔
        ∀ s ∈ d.superStates.ancestors a,
          (s ∈ d.superStates.ancestors t ↔ d.superStates.Within s l) :=
    forall₂_congr fun s _ => by rw [Bool.not_inj_iff, containsNode, decide_eq_decide]
  rw [collectAllSuperStates_eq, between_of_plain ha, filter_eq_filter_iff, containsNode_eq_false,
    hiff]
  constructor
  · intro h hta
    exact Forest.notMem_ancestors_self ((h t hta).2 ht)
  · intro hta s hs
    refine ⟨fun hst => .inr (ht.elim (fun h => h ▸ hst) (Forest.mem_ancestors_trans hst)),
      fun hsl => ?_⟩
    rcases Forest.within_total hsl ht with (rfl | hst) | (rfl | hts)
    · exact (hta hs).elim
    · exact hst
    · exact (hta hs).elim
    · exact (hta (Forest.mem_ancestors_trans hts hs)).elim

/-- The enter events are right if the declared source does not contain the
    destination, and the token rests at the destination or right around it. -/
theorem enters_iff (hm : d.isSuperStateNode m = false) (htl : d.superStates.Within t l)
    (hlm : d.superStates.Within l m) (hf : d.superStates.Within f a)
    (hta : t ∉ d.superStates.ancestors a) :
    d.collectAllSuperStates m f = d.between l a ↔
      d.containsNode f m = false ∧ (l = m ∨ d.superStates.parent m = some l) := by
  -- a super-state around the destination contains `f` only if it contains the source
  have hiff (hfm : f ∉ d.superStates.ancestors m) {s : ℕ} (hs : s ∈ d.superStates.ancestors m) :
      s ∈ d.superStates.ancestors f ↔ d.superStates.Within s a := by
    refine ⟨fun h => .inr (hf.elim (fun he => he ▸ h) (Forest.mem_ancestors_trans h)), fun h => ?_⟩
    rcases Forest.within_total h hf with (rfl | hsf) | (rfl | hfs)
    · exact (hfm hs).elim
    · exact hsf
    · exact (hfm hs).elim
    · exact (hfm (Forest.mem_ancestors_trans hfs hs)).elim
  have hbetween (hrest : l = m ∨ d.superStates.parent m = some l) : d.between l a =
      (d.superStates.ancestors m).filter fun s => !decide (d.superStates.Within s a) := by
    rcases hrest with rfl | hp
    · exact between_of_plain hm a
    · rw [between, around, ← Forest.ancestors_of_parent hp]
      exact List.filter_congr fun s hs => by rw [isSuperStateNode_of_mem hs, Bool.true_and]
  rw [collectAllSuperStates_eq, containsNode_eq_false]
  constructor
  · intro h
    have hrest : l = m ∨ d.superStates.parent m = some l := by
      rcases hlm with hlm | hlm
      · exact .inl hlm
      · refine .inr ?_
        rcases hp : d.superStates.parent m with _ | p
        · rw [Forest.ancestors_of_root hp] at hlm
          cases hlm
        · rcases (Forest.mem_ancestors_of_parent hp).1 hlm with rfl | hlp
          · rfl
          -- otherwise the super-state of the destination is entered too soon
          · exfalso
            have hpm : p ∈ d.superStates.ancestors m :=
              (Forest.mem_ancestors_of_parent hp).2 (.inl rfl)
            have hpa : p ∉ d.superStates.ancestors f := by
              intro hpf
              have hpa : p ∈ d.superStates.ancestors a :=
                hf.elim (fun he => he ▸ hpf) (Forest.mem_ancestors_trans hpf)
              rcases htl.trans (.inr hlp) with rfl | htp
              · exact hta hpa
              · exact hta (Forest.mem_ancestors_trans htp hpa)
            have hmem : p ∈ d.between l a := by
              rw [← h, List.mem_filter]
              exact ⟨hpm, by simpa [containsNode] using hpa⟩
            rw [between, List.mem_filter, around, List.mem_cons] at hmem
            rcases hmem.1 with rfl | hpl
            · exact Forest.notMem_ancestors_self hlp
            · exact Forest.notMem_ancestors_self (Forest.mem_ancestors_trans hpl hlp)
    refine ⟨fun hfm => ?_, hrest⟩
    rw [hbetween hrest, filter_eq_filter_iff] at h
    have := h f hfm
    simp [containsNode, Forest.notMem_ancestors_self, hf] at this
  · rintro ⟨hfm, hrest⟩
    rw [hbetween hrest]
    refine List.filter_congr fun s hs => ?_
    simp only [containsNode, hiff hfm hs]

end

/-! ## Steps -/

theorem within_of_mem_availableTransitions {n : ℕ} {tr : Transition}
    (h : tr ∈ d.availableTransitions n) : d.superStates.Within tr.from_ n := by
  obtain ⟨s, hs, htr⟩ := List.mem_flatMap.1 h
  rw [d.from_of_mem htr]
  exact List.mem_cons.1 hs

/-- What a signal does. -/
theorem signal_spec {e e' : Execution} {tr : Transition} (h : d.step e (.signal tr) = some e') :
    e.isLocked = false ∧ d.superStates.Within tr.from_ e.node ∧
      ∃ m, d.destination tr.to_ = some m ∧ d.landing tr.to_ = some e'.node ∧
        (d.isSuperStateNode e'.node → e'.isLocked) ∧
        ∃ evs, e'.events = e.events ++ evs ∧
          leaves evs = d.collectAllSuperStates e.node tr.to_ ∧
          enters evs = (d.collectAllSuperStates m tr.from_).reverse := by
  simp only [step] at h
  split_ifs at h with hc
  obtain ⟨m, hm, henter⟩ := Option.bind_eq_some_iff.1 h
  obtain ⟨hland, ⟨evs, hevs, hplain⟩, hlock⟩ := enterFrom_spec henter
  refine ⟨hc.1, within_of_mem_availableTransitions hc.2, m, hm, hland, hlock,
    [.nodeLeave e.node] ++ (d.collectAllSuperStates e.node tr.to_).map .superStateLeave ++
      [.transition tr] ++ (d.collectAllSuperStates m tr.from_).reverse.map .superStateEnter ++ evs,
    ?_, ?_, ?_⟩
  · simp [hevs, Execution.fire]
  · rw [leaves_append, leaves_append, leaves_append, leaves_append, leaves_map_superStateLeave,
      leaves_map_superStateEnter, hplain.1, List.append_nil, List.append_nil]
    exact List.append_nil _
  · rw [enters_append, enters_append, enters_append, enters_append, enters_map_superStateLeave,
      enters_map_superStateEnter, hplain.2, List.append_nil]
    rfl

/-- A token that rests at a super-state is locked. -/
def Rests (d : ProcessDefinition) (e : Execution) : Prop :=
  d.isSuperStateNode e.node → e.isLocked = true

theorem rests_of_execute {n : ℕ} {e e' : Execution} (h : d.execute n e = some e')
    (hn : n = e.node) : Rests d e' := by
  rcases (execute_spec h).2 with ⟨hs, rfl⟩ | ⟨c, -, -, hr⟩
  · intro hs'
    rw [← hn, hs] at hs'
    cases hs'
  · exact hr

theorem Rests.step {e e' : Execution} {a : Act} (h : d.step e a = some e') : Rests d e' := by
  cases a with
  | signal tr =>
    obtain ⟨-, -, m, -, -, hr, -⟩ := signal_spec h
    exact hr
  | executeJob =>
    simp only [ProcessDefinition.step] at h
    split_ifs at h
    exact rests_of_execute h rfl

theorem rests_of_run {e₀ e : Execution} {as : List Act} (h₀ : d.start = some e₀)
    (h : Run d.Steps e₀ as e) : Rests d e :=
  h.inv (rests_of_execute h₀ rfl) fun _ _ _ _ hs => Rests.step hs

/-- **A signal fires the right events exactly if its transition is direct.** -/
theorem exact_iff_direct {e e' : Execution} {tr : Transition} (hr : Rests d e)
    (h : d.step e (.signal tr) = some e') : d.Exact e e' ↔ d.Direct e.node tr := by
  obtain ⟨hlock, hf, m, hm, hland, -, evs, hevs, hl, he⟩ := signal_spec h
  have ha : d.isSuperStateNode e.node = false := by
    rw [Bool.eq_false_iff]
    intro hs
    rw [hr hs] at hlock
    cases hlock
  obtain ⟨hms, -, hspec⟩ := destinationFrom_spec hm
  obtain ⟨htl, hlm, -⟩ := hspec _ hland
  have hfired : fired e e' = evs := by rw [fired, hevs, List.drop_left]
  rw [Exact, Direct, hfired, hl, he, leaves_iff ha htl, List.reverse_inj]
  simp only [hm, hland, Option.mem_some_iff, forall_eq']
  refine and_congr_right fun hta => ?_
  exact enters_iff hms htl hlm hf (containsNode_eq_false.1 hta)

/-! ## Runs -/

theorem nodup_around (n : ℕ) : (d.around n).Nodup :=
  List.nodup_cons.2 ⟨Forest.notMem_ancestors_self, Forest.nodup_ancestors⟩

theorem count_between (a b s : ℕ) :
    (d.between a b).count s = if d.Inside s a ∧ ¬ d.Inside s b then 1 else 0 := by
  have hmem : s ∈ d.between a b ↔ d.Inside s a ∧ ¬ d.Inside s b := by
    have haround : s ∈ d.around a ↔ d.superStates.Within s a := List.mem_cons
    rw [between, List.mem_filter, haround, Bool.and_eq_true, Bool.not_eq_true',
      decide_eq_false_iff_not, Inside, Inside]
    tauto
  have hnodup : (d.between a b).Nodup := (nodup_around a).filter _
  by_cases h : s ∈ d.between a b
  · rw [List.count_eq_one_of_mem hnodup h, if_pos (hmem.1 h)]
  · rw [List.count_eq_zero_of_not_mem h, if_neg (mt hmem.2 h)]

/-- A balanced token whose super-state, if it waits to enter one, has a first
    node that is none. -/
structure Inv (d : ProcessDefinition) (e : Execution) : Prop where
  balanced : d.Balanced e
  rests : Rests d e
  first : d.isSuperStateNode e.node → ∀ c ∈ (d.nodes e.node).head?, d.isSuperStateNode c = false

theorem balanced_of_exact {e e' : Execution} {evs : List Event} (hb : d.Balanced e)
    (hevs : e'.events = e.events ++ evs) (hex : d.Exact e e') : d.Balanced e' := by
  have hfired : fired e e' = evs := by rw [fired, hevs, List.drop_left]
  rw [Exact, hfired] at hex
  intro s hs
  have hb := hb s hs
  rw [hevs, enters_append, leaves_append, List.count_append, List.count_append, hex.1, hex.2,
    List.count_reverse, count_between, count_between, hb]
  by_cases h : d.Inside s e.node <;> by_cases h' : d.Inside s e'.node <;> simp [h, h']

theorem inside_of_child {s n c : ℕ} (hp : d.superStates.parent c = some n)
    (hc : d.isSuperStateNode c = false) : d.Inside s c ↔ d.Inside s n := by
  refine and_congr_right fun hs => ?_
  rw [Forest.Within, Forest.mem_ancestors_of_parent hp, or_iff_right]
  rintro rfl
  rw [hs] at hc
  cases hc

theorem landing_of_plain {n : ℕ} (h : d.isSuperStateNode n = false) : d.landing n = some n := by
  simp [landing, landingFrom, h]

theorem Inv.signal {e e' : Execution} {tr : Transition} (hi : Inv d e)
    (hd : d.Direct e.node tr) (h : d.step e (.signal tr) = some e') : Inv d e' := by
  have hex := (exact_iff_direct hi.rests h).2 hd
  obtain ⟨-, -, m, hm, hland, -, evs, hevs, -, -⟩ := signal_spec h
  refine ⟨balanced_of_exact hi.balanced hevs hex, Rests.step h, fun hs c hc => ?_⟩
  obtain ⟨hms, -, hspec⟩ := destinationFrom_spec hm
  rcases (hspec _ hland).2.2 with heq | ⟨-, hfirst⟩
  · rw [heq, hms] at hs
    cases hs
  -- the first node of the super-state is the destination
  · have hcl : d.superStates.parent c = some e'.node := d.parent_of_mem (List.mem_of_mem_head? hc)
    rcases (hd.2 m hm).2 _ hland with heq | hp
    · rw [heq, hms] at hs
      cases hs
    · rcases hfirst c hc with rfl | hcm
      · exact hms
      · exfalso
        have hlc : e'.node ∈ d.superStates.ancestors c :=
          (Forest.mem_ancestors_of_parent hcl).2 (.inl rfl)
        rcases (Forest.mem_ancestors_of_parent hp).1 hcm with rfl | hcl
        · exact Forest.notMem_ancestors_self hlc
        · exact Forest.notMem_ancestors_self (Forest.mem_ancestors_trans hlc hcl)

theorem Inv.executeJob {e e' : Execution} (hi : Inv d e) (h : d.step e .executeJob = some e') :
    Inv d e' := by
  have hr := Rests.step h
  simp only [ProcessDefinition.step] at h
  split_ifs at h
  obtain ⟨⟨evs, hevs, hplain⟩, hcase⟩ := execute_spec h
  have hcount : (∀ s, d.Inside s e'.node ↔ d.Inside s e.node) ∧
      d.isSuperStateNode e'.node = false := by
    rcases hcase with ⟨hs, rfl⟩ | ⟨c, hc, hland, -⟩
    · exact ⟨fun _ => .rfl, hs⟩
    · have hp : d.superStates.parent c = some e.node :=
        d.parent_of_mem (List.mem_of_mem_head? hc)
      have hcs := hi.first (d.isSuperStateNode_of_parent hp) c hc
      rw [landing_of_plain hcs, Option.some.injEq] at hland
      rw [← hland]
      exact ⟨fun s => inside_of_child hp hcs, hcs⟩
  refine ⟨fun s hs => ?_, hr, fun hs => ?_⟩
  · rw [hevs, enters_append, leaves_append, hplain.1, hplain.2, List.append_nil, List.append_nil]
    simpa only [hcount.1 s] using hi.balanced s hs
  · rw [hcount.2] at hs
    cases hs

theorem inv_start {e : Execution} (ho : d.StartsOutside) (h : d.start = some e) : Inv d e := by
  have he : e = ⟨d.startState, false, []⟩ := by
    rw [start, execute, ho.1, if_neg Bool.false_ne_true] at h
    exact (Option.some.inj h).symm
  subst he
  refine ⟨fun s hs => ?_, fun hs => ?_, fun hs => ?_⟩
  · have hout : ¬ d.Inside s d.startState := by
      rintro ⟨-, rfl | hw⟩
      · rw [ho.1] at hs
        cases hs
      · rw [Forest.ancestors_of_root ho.2] at hw
        cases hw
    simp [enters, leaves, hout]
  · rw [ho.1] at hs
    cases hs
  · rw [ho.1] at hs
    cases hs

/-- **Super-state events.**  Along every run, a transition fires the events of
    the super-states that the token leaves and enters exactly if it is direct;
    and if all are, and the token starts outside, enters and leaves are
    balanced. -/
theorem superState_events {e₀ : Execution} (h₀ : d.start = some e₀) :
    (∀ as e tr e', Run d.Steps e₀ as e → d.step e (.signal tr) = some e' →
      (d.Exact e e' ↔ d.Direct e.node tr)) ∧
    (d.StartsOutside → ∀ as e, Run (guard d.Proper d.Steps) e₀ as e → d.Balanced e) := by
  refine ⟨fun as e tr e' hrun h => exact_iff_direct (rests_of_run h₀ hrun) h, ?_⟩
  intro ho as e hrun
  refine (hrun.inv (I := Inv d) (inv_start ho h₀) ?_).balanced
  rintro s (tr | _) s' hi ⟨hp, hs⟩
  · exact hi.signal hp hs
  · exact hi.executeJob hs

end ProcessDefinition

/-! ## Two super-states -/

/-- Node 1 is a super-state with the super-state 2 and the state 4; the state 3
    is in 2.  The states 0 and 5 are outside. -/
def nested : ProcessDefinition where
  superStates := {
    parent := fun n => if n = 2 ∨ n = 4 then some 1 else if n = 3 then some 2 else none
    depth := fun n => if n = 3 then 2 else if n = 2 ∨ n = 4 then 1 else 0
    depth_parent := by grind }
  isSuperStateNode n := n = 1 ∨ n = 2
  nodes n := if n = 1 then [2, 4] else if n = 2 then [3] else []
  isAsync _ := false
  leavingTransitions n :=
    if n = 0 then [⟨0, 1⟩] else if n = 3 then [⟨3, 4⟩, ⟨3, 1⟩] else if n = 1 then [⟨1, 5⟩, ⟨1, 4⟩]
    else []
  startState := 0
  height n := if n = 1 then 2 else if n = 2 then 1 else 0
  isSuperStateNode_of_parent := by grind
  parent_of_mem := by grind
  height_of_mem := by grind
  from_of_mem := by grind

theorem superState_events_nested :
    nested.Balanced ⟨5, false, [.nodeLeave 0, .transition ⟨0, 1⟩, .superStateEnter 1,
      .superStateEnter 2, .nodeEnter 1, .nodeEnter 2, .nodeEnter 3, .nodeLeave 3,
      .superStateLeave 2, .transition ⟨3, 4⟩, .nodeEnter 4, .nodeLeave 4, .superStateLeave 1,
      .transition ⟨1, 5⟩, .nodeEnter 5]⟩ := by
  have h₀ : nested.start = some ⟨0, false, []⟩ := rfl
  refine (ProcessDefinition.superState_events h₀).2
    ⟨rfl, rfl⟩ ([] ++ [.signal ⟨0, 1⟩] ++ [.signal ⟨3, 4⟩] ++ [.signal ⟨1, 5⟩]) _ ?_
  refine .snoc (.snoc (.snoc .nil ⟨?_, rfl⟩) ⟨?_, rfl⟩) ⟨?_, rfl⟩
  all_goals decide

/-- **Not balanced.**  A transition to the super-state around its source leaves
    that super-state without entering it again; an inherited transition enters
    the super-state that it comes from, which the token never left. -/
theorem not_balanced :
    (∃ e, Run nested.Steps ⟨0, false, []⟩ [.signal ⟨0, 1⟩, .signal ⟨3, 1⟩] e ∧
      e.node = 3 ∧ ¬ nested.Balanced e) ∧
    (∃ e, Run nested.Steps ⟨0, false, []⟩ [.signal ⟨0, 1⟩, .signal ⟨1, 4⟩] e ∧
      e.node = 4 ∧ ¬ nested.Balanced e) := by
  constructor
  · refine ⟨_, .cons (show nested.Steps _ _ _ from rfl) (.cons (show nested.Steps _ _ _ from rfl)
      .nil), rfl, fun h => absurd (h 1 rfl) (by decide)⟩
  · refine ⟨_, .cons (show nested.Steps _ _ _ from rfl) (.cons (show nested.Steps _ _ _ from rfl)
      .nil), rfl, fun h => absurd (h 1 rfl) (by decide)⟩

end Graph

end Jbpm
