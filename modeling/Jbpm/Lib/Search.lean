/-
  Searches and walks of a graph, depth first and without marks on what has been seen.

  * `search`: the first node that is hit; `Searched`: which successors it comes to;
  * `acc_of_search`, `search_of_acc`: it ends iff there is no endless chain of such successors;
  * `walk`: a state that is changed at each node; `walk_iff`: it ends iff there is no endless
    chain, after all nodes in preorder; `mem_preorder`: these are those that can be reached;
  * `acc_iff_acyclic`: in a finite graph, the endless chains are those to a cycle.
-/
import Mathlib.Data.List.Nodup
import Mathlib.Data.List.Range
import Mathlib.Data.Nat.Notation
import Mathlib.Logic.Relation
import Mathlib.Order.WellFounded
import Mathlib.Data.Fintype.Card

namespace Lib

variable {D E : Type*} (next : D → List D) (hit : D → Option E)

/-! ## Searches -/

/-- The first result of a function on a list, if the function is defined up to there. -/
def firstSome (f : D → Option (Option E)) : List D → Option (Option E)
  | [] => some none
  | d :: ds =>
    match f d with
    | none => none
    | some (some e) => some (some e)
    | some none => firstSome f ds

/-- A search of limited depth. -/
def search : ℕ → D → Option (Option E)
  | 0, _ => none
  | n + 1, d =>
    match hit d with
    | some e => some (some e)
    | none => firstSome (search n) (next d)

/-- The nodes that can be reached. -/
def Reaches : D → D → Prop := Relation.ReflTransGen fun d c => c ∈ next d

/-- No node that can be reached is hit. -/
def Clean (d : D) : Prop := ∀ e, Reaches next d e → hit e = none

/-- A node that is not hit, and its successor after others from which there is nothing. -/
def Searched (d c : D) : Prop :=
  hit d = none ∧ ∃ front rest, next d = front ++ c :: rest ∧ ∀ b ∈ front, Clean next hit b

variable {next hit} {d : D} {n m : ℕ} {r : Option E} {e : E}

theorem Reaches.head {c e : D} (hc : c ∈ next d) (h : Reaches next c e) : Reaches next d e :=
  Relation.ReflTransGen.head hc h

theorem Reaches.cases {e : D} (h : Reaches next d e) :
    d = e ∨ ∃ c ∈ next d, Reaches next c e :=
  Relation.ReflTransGen.cases_head h

theorem firstSome_mono {f g : D → Option (Option E)} {ds : List D}
    (h : ∀ d ∈ ds, ∀ r, f d = some r → g d = some r) (hf : firstSome f ds = some r) :
    firstSome g ds = some r := by
  induction ds with
  | nil => exact hf
  | cons d ds ih =>
    have hrest := ih fun c hc => h c (List.mem_cons_of_mem d hc)
    rw [firstSome] at hf ⊢
    cases hd : f d with
    | none =>
      rw [hd] at hf
      cases hf
    | some o =>
      rw [h d List.mem_cons_self o hd]
      rw [hd] at hf
      cases o with
      | some e => exact hf
      | none => exact hrest hf

theorem search_mono (hnm : n ≤ m) (h : search next hit n d = some r) :
    search next hit m d = some r := by
  induction n generalizing m d r with
  | zero => cases h
  | succ n ih =>
    obtain ⟨m, rfl⟩ : ∃ k, m = k + 1 := ⟨m - 1, by omega⟩
    rw [search] at h ⊢
    cases hd : hit d with
    | some e =>
      rw [hd] at h
      exact h
    | none =>
      rw [hd] at h
      exact firstSome_mono (fun c _ o hc => ih (by omega) hc) h

/-- What is found is at a node that can be reached. -/
theorem firstSome_sound {f : D → Option (Option E)} {ds : List D}
    (h : firstSome f ds = some (some e)) : ∃ d ∈ ds, f d = some (some e) := by
  induction ds with
  | nil => cases h
  | cons d ds ih =>
    rw [firstSome] at h
    cases hd : f d with
    | none =>
      rw [hd] at h
      cases h
    | some o =>
      rw [hd] at h
      cases o with
      | some e' =>
        cases h
        exact ⟨d, List.mem_cons_self, hd⟩
      | none =>
        obtain ⟨c, hc, hf⟩ := ih h
        exact ⟨c, List.mem_cons_of_mem d hc, hf⟩

theorem firstSome_none {f : D → Option (Option E)} {ds : List D}
    (h : firstSome f ds = some none) : ∀ d ∈ ds, f d = some none := by
  induction ds with
  | nil => exact fun d hd => nomatch hd
  | cons d ds ih =>
    rw [firstSome] at h
    cases hd : f d with
    | none =>
      rw [hd] at h
      cases h
    | some o =>
      rw [hd] at h
      cases o with
      | some e' => cases h
      | none =>
        intro c hc
        rcases List.mem_cons.1 hc with rfl | hc
        · exact hd
        · exact ih h c hc

theorem search_sound (h : search next hit n d = some (some e)) :
    ∃ c, Reaches next d c ∧ hit c = some e := by
  induction n generalizing d with
  | zero => cases h
  | succ n ih =>
    rw [search] at h
    cases hd : hit d with
    | some e' =>
      rw [hd] at h
      cases h
      exact ⟨d, .refl, hd⟩
    | none =>
      rw [hd] at h
      obtain ⟨c, hc, hf⟩ := firstSome_sound h
      obtain ⟨b, hb, he⟩ := ih hf
      exact ⟨b, .head hc hb, he⟩

theorem search_none (h : search next hit n d = some none) : Clean next hit d := by
  induction n generalizing d with
  | zero => cases h
  | succ n ih =>
    rw [search] at h
    cases hd : hit d with
    | some e' =>
      rw [hd] at h
      cases h
    | none =>
      rw [hd] at h
      intro e he
      rcases he.cases with rfl | ⟨c, hc, he⟩
      · exact hd
      · exact ih (firstSome_none h c hc) e he

/-- A loop comes to a node if there is nothing at those before it. -/
theorem firstSome_append {f : D → Option (Option E)} {front rest : List D}
    (h : firstSome f (front ++ d :: rest) = some r)
    (hfront : ∀ b ∈ front, ∀ e, f b ≠ some (some e)) : ∃ r', f d = some r' := by
  induction front with
  | nil =>
    rw [List.nil_append, firstSome] at h
    cases hd : f d with
    | none =>
      rw [hd] at h
      cases h
    | some o => exact ⟨o, rfl⟩
  | cons b front ih =>
    rw [List.cons_append, firstSome] at h
    cases hb : f b with
    | none =>
      rw [hb] at h
      cases h
    | some o =>
      rw [hb] at h
      cases o with
      | some e => exact absurd hb (hfront b List.mem_cons_self e)
      | none => exact ih h fun c hc => hfront c (List.mem_cons_of_mem b hc)

theorem acc_of_search (h : search next hit n d = some r) :
    Acc (fun c d => Searched next hit d c) d := by
  induction n generalizing d r with
  | zero => cases h
  | succ n ih =>
    refine Acc.intro d fun c ⟨hd, front, rest, hnext, hclean⟩ => ?_
    rw [search, hd] at h
    dsimp only at h
    rw [hnext] at h
    have hfront : ∀ b ∈ front, ∀ e, search next hit n b ≠ some (some e) := by
      intro b hb e he
      obtain ⟨c, hc, hhit⟩ := search_sound he
      rw [hclean b hb c hc] at hhit
      cases hhit
    obtain ⟨r', hr'⟩ := firstSome_append h hfront
    exact ih hr'

/-- A loop over nodes each of which is searched if it comes to it. -/
theorem firstSome_terminates {f : ℕ → D → Option (Option E)} {P : D → Prop} (ds : List D)
    (hmono : ∀ {n m d r}, n ≤ m → f n d = some r → f m d = some r)
    (hnone : ∀ {n d}, f n d = some none → P d)
    (hsteps : ∀ front d rest, ds = front ++ d :: rest → (∀ b ∈ front, P b) →
      ∃ n r, f n d = some r) : ∃ n r, firstSome (f n) ds = some r := by
  induction ds with
  | nil => exact ⟨0, none, rfl⟩
  | cons d ds ih =>
    obtain ⟨n, r, hr⟩ := hsteps [] d ds rfl fun b hb => nomatch hb
    cases r with
    | some e => exact ⟨n, some e, by rw [firstSome, hr]⟩
    | none =>
      obtain ⟨m, r', hr'⟩ := ih fun front c rest hds hfront => by
        refine hsteps (d :: front) c rest (by rw [hds, List.cons_append]) fun b hb => ?_
        rcases List.mem_cons.1 hb with rfl | hb
        · exact hnone hr
        · exact hfront b hb
      refine ⟨max n m, r', ?_⟩
      rw [firstSome, hmono (Nat.le_max_left n m) hr]
      exact firstSome_mono (fun c _ o hc => hmono (Nat.le_max_right n m) hc) hr'

theorem search_of_acc (h : Acc (fun c d => Searched next hit d c) d) :
    ∃ n r, search next hit n d = some r := by
  induction h with
  | intro d _ ih =>
    cases hd : hit d with
    | some e => exact ⟨1, some e, by rw [search, hd]⟩
    | none =>
      obtain ⟨n, r, hr⟩ := firstSome_terminates (f := search next hit) (P := Clean next hit)
        (next d) search_mono search_none fun front c rest hnext hclean =>
          ih c ⟨hd, front, rest, hnext, hclean⟩
      exact ⟨n + 1, r, by rw [search, hd]; exact hr⟩

/-- In a finite graph, an endless chain leads to a cycle. -/
theorem acc_iff_acyclic [Finite D] (r : D → D → Prop) (d : D) :
    Acc (fun c d => r d c) d ↔
      ∀ e, Relation.ReflTransGen r d e → ¬ Relation.TransGen r e e := by
  constructor
  · intro h e hde
    have hacc : Acc (fun c d => r d c) e := by
      induction hde with
      | refl => exact h
      | tail _ hstep ih => exact ih.inv hstep
    have htrans := hacc.transGen
    induction htrans with
    | intro e _ ih =>
      intro hcycle
      exact ih e (Relation.transGen_swap.1 hcycle) hde hacc hcycle
  · intro h
    -- the transitive closure on what can be reached is irreflexive
    let s : D → D → Prop := fun c d' => Relation.ReflTransGen r d d' ∧ Relation.TransGen r d' c
    have htrans : IsTrans D s := ⟨fun a b c hab hbc => ⟨hbc.1, hbc.2.trans hab.2⟩⟩
    have hirrefl : Std.Irrefl s := ⟨fun a ha => h a ha.1 ha.2⟩
    have hwf : WellFounded s := Finite.wellFounded_of_trans_of_irrefl s
    have hreach : ∀ e, Relation.ReflTransGen r d e → Acc (fun c d => r d c) e := by
      intro e
      induction hwf.apply e with
      | intro e _ ih =>
        intro hde
        exact Acc.intro e fun c hc => ih c ⟨hde, .single hc⟩ (hde.tail hc)
    exact hreach d .refl

/-! ## Walks -/

section
variable {σ ε : Type*} (next) (f : D → σ → Except ε σ) (overflow : ε)

/-- A state is changed at a node, and then by its successors one after the other. -/
def walk : ℕ → D → σ → Except ε σ
  | 0, _, _ => .error overflow
  | n + 1, d, s => do
    let s ← f d s
    (next d).foldlM (fun s c => walk n c s) s

/-- No path from the node is that long. -/
def Shallow : ℕ → D → Prop
  | 0, _ => False
  | n + 1, d => ∀ c ∈ next d, Shallow n c

/-- The nodes of a walk. -/
def preorder : ℕ → D → List D
  | 0, _ => []
  | n + 1, d => d :: (next d).flatMap (preorder n)

variable {next f overflow} {s s' : σ} {ds : List D}

theorem Shallow.mono (hnm : n ≤ m) (h : Shallow next n d) : Shallow next m d := by
  induction n generalizing m d with
  | zero => exact h.elim
  | succ n ih =>
    obtain ⟨m, rfl⟩ : ∃ k, m = k + 1 := ⟨m - 1, by omega⟩
    exact fun c hc => ih (by omega) (h c hc)

theorem acc_iff_shallow : Acc (fun c d => c ∈ next d) d ↔ ∃ n, Shallow next n d := by
  constructor
  · intro h
    induction h with
    | intro d _ ih =>
      have hall : ∀ ds : List D, (∀ c ∈ ds, c ∈ next d) → ∃ n, ∀ c ∈ ds, Shallow next n c := by
        intro ds
        induction ds with
        | nil => exact fun _ => ⟨0, fun c hc => nomatch hc⟩
        | cons c ds ih' =>
          intro hds
          obtain ⟨n, hn⟩ := ih c (hds c List.mem_cons_self)
          obtain ⟨m, hm⟩ := ih' fun b hb => hds b (List.mem_cons_of_mem c hb)
          refine ⟨max n m, fun b hb => ?_⟩
          rcases List.mem_cons.1 hb with rfl | hb
          · exact hn.mono (Nat.le_max_left n m)
          · exact (hm b hb).mono (Nat.le_max_right n m)
      obtain ⟨n, hn⟩ := hall (next d) fun _ hc => hc
      exact ⟨n + 1, hn⟩
  · rintro ⟨n, h⟩
    induction n generalizing d with
    | zero => exact h.elim
    | succ n ih => exact Acc.intro d fun c hc => ih (h c hc)

theorem foldlM_ok_cons {g : σ → D → Except ε σ} :
    (d :: ds).foldlM g s = .ok s' ↔ ∃ s₁, g s d = .ok s₁ ∧ ds.foldlM g s₁ = .ok s' := by
  rw [List.foldlM_cons]
  cases g s d with
  | error e => exact iff_of_false (fun h => nomatch h) fun ⟨_, h, _⟩ => nomatch h
  | ok s₁ => exact ⟨fun h => ⟨s₁, rfl, h⟩, fun ⟨_, h, h'⟩ => by cases h; exact h'⟩

/-- A loop over walks. -/
theorem foldlM_iff {β : Type*} {w : D → σ → Except ε σ} {P : D → Prop} {g : σ → β → Except ε σ}
    {l : D → List β} (h : ∀ d s s', w d s = .ok s' ↔ P d ∧ (l d).foldlM g s = .ok s') (ds : List D)
    (s s' : σ) : ds.foldlM (fun s d => w d s) s = .ok s' ↔
      (∀ d ∈ ds, P d) ∧ (ds.flatMap l).foldlM g s = .ok s' := by
  induction ds generalizing s with
  | nil => exact ⟨fun h => ⟨fun _ hc => absurd hc List.not_mem_nil, h⟩, fun h => h.2⟩
  | cons d ds ih =>
    rw [foldlM_ok_cons, List.flatMap_cons, List.foldlM_append, List.forall_mem_cons]
    constructor
    · rintro ⟨s₁, hd, hds⟩
      obtain ⟨hP, hfold⟩ := (h d s s₁).1 hd
      obtain ⟨hP', hfold'⟩ := (ih s₁).1 hds
      refine ⟨⟨hP, hP'⟩, ?_⟩
      rw [hfold]
      exact hfold'
    · rintro ⟨⟨hP, hP'⟩, hfold⟩
      cases hd : (l d).foldlM g s with
      | error e =>
        rw [hd] at hfold
        cases hfold
      | ok s₁ =>
        rw [hd] at hfold
        exact ⟨s₁, (h d s s₁).2 ⟨hP, hd⟩, (ih s₁).2 ⟨hP', hfold⟩⟩

/-- **Walks.**  A walk ends iff the graph below is not deeper than the limit, after the nodes in
    preorder. -/
theorem walk_iff (d : D) (s s' : σ) : walk next f overflow n d s = .ok s' ↔
    Shallow next n d ∧ (preorder next n d).foldlM (fun s d => f d s) s = .ok s' := by
  induction n generalizing d s s' with
  | zero => exact iff_of_false (fun h => nomatch h) fun h => h.1
  | succ n ih =>
    rw [walk, preorder, foldlM_ok_cons]
    cases hd : f d s with
    | error e => exact iff_of_false (fun h => nomatch h) fun ⟨_, _, h, _⟩ => nomatch h
    | ok s₁ =>
      refine (foldlM_iff ih (next d) s₁ s').trans (and_congr Iff.rfl ?_)
      exact ⟨fun h => ⟨s₁, rfl, h⟩, fun ⟨_, h, h'⟩ => by cases h; exact h'⟩

/-- A search ends within a limit that the graph below does not exceed. -/
theorem search_of_shallow (hit : D → Option E) (h : Shallow next n d) : ∃ r, search next hit n d = some r := by
  induction n generalizing d with
  | zero => exact h.elim
  | succ n ih =>
    rw [search]
    cases hit d with
    | some e => exact ⟨some e, rfl⟩
    | none =>
      obtain ⟨m, r, hr⟩ := firstSome_terminates (f := fun _ => search next hit n)
        (P := fun _ => True) (next d) (fun _ h => h) (fun _ => trivial)
        fun front c rest hnext _ => by
          obtain ⟨r, hr⟩ := ih (h c (by rw [hnext]; exact List.mem_append_right _ List.mem_cons_self))
          exact ⟨0, r, hr⟩
      exact ⟨r, hr⟩

/-- The nodes of a walk that ends are those that can be reached. -/
theorem mem_preorder (h : Shallow next n d) (e : D) : e ∈ preorder next n d ↔ Reaches next d e := by
  induction n generalizing d with
  | zero => exact h.elim
  | succ n ih =>
    rw [preorder, List.mem_cons, List.mem_flatMap]
    constructor
    · rintro (rfl | ⟨c, hc, he⟩)
      · exact .refl
      · exact .head hc ((ih (h c hc)).1 he)
    · intro he
      rcases he.cases with rfl | ⟨c, hc, he⟩
      · exact .inl rfl
      · exact .inr ⟨c, hc, (ih (h c hc)).2 he⟩

end

end Lib
