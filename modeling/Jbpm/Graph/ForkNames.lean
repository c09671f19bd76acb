/-
  The names of forked tokens, over any number of passes through forks.

  * `freshNames_iff`: the names are new exactly if no child of the parent has the
    number that a token over a transition without a name gets;
  * `keepsAll_of_fresh`: then no child is displaced;
  * `fresh_iff`: over whole runs, in which all tokens stay in the maps of their parents.
-/
import Jbpm.Graph.ForkJoinSteps
import Jbpm.Lib.Run

namespace Jbpm

open Lib

namespace Fork

variable {N : Type} {p : ℕ} {s : Tokens N}

/-- The names of the children of a token. -/
def childNames (p : ℕ) (s : Tokens N) : List String := (s.tree.children p).map (·.1)

/-- Each token gets a name that no child of its parent has. -/
def FreshNames (p : ℕ) : List (Option String) → Tokens N → Prop
  | [], _ => True
  | name :: names, s =>
    getTokenName (s.tree.children p) name ∉ childNames p s ∧
      FreshNames p names (createForkedToken p name s)

/-- Whenever a token is forked over a transition without a name, the number of children
    that the parent has then is not the name of one of them. -/
def NumbersFree (p : ℕ) : List (Option String) → Tokens N → Prop
  | [], _ => True
  | name :: names, s =>
    (name = none → Nat.repr ((s.tree.children p).length + 1) ∉ childNames p s) ∧
      NumbersFree p names (createForkedToken p name s)

theorem freshNames_iff {names : List (Option String)} :
    FreshNames p names s ↔ NumbersFree p names s := by
  induction names generalizing s with
  | nil => exact Iff.rfl
  | cons name names ih =>
    refine and_congr ?_ ih
    cases name with
    | none => exact ⟨fun h _ => h, fun h => h rfl⟩
    | some name => exact iff_of_true (notMem_getTokenName _ name) nofun

/-- All children stay in the maps of their parents. -/
def KeepsAll (s s' : Tokens N) : Prop := ∀ q, ∀ c ∈ s.tree.children q, c ∈ s'.tree.children q

theorem keepsAll_create (hp : p < s.tree.size) {name : String} (hname : name ∉ childNames p s) :
    KeepsAll s (s.create p name) := by
  intro q c hc
  obtain ⟨-, -, hchildren⟩ := Tokens.create_tree hp name
  rw [hchildren]
  by_cases hq : q = p
  · subst hq
    rw [Function.update_self]
    exact mem_putChild_of_ne (fun he => hname (List.mem_map.2 ⟨c, hc, he⟩)) hc
  · rw [Function.update_of_ne hq]
    exact hc

/-- With new names no child is displaced. -/
theorem keepsAll_of_fresh (hp : p < s.tree.size) {names : List (Option String)}
    (h : FreshNames p names s) : KeepsAll s (execute p names s).2 := by
  induction names generalizing s with
  | nil => exact fun _ _ hc => hc
  | cons name names ih =>
    obtain ⟨hsize, -, -⟩ := Tokens.create_tree hp (getTokenName (s.tree.children p) name)
    intro q c hc
    exact ih (hsize ▸ Nat.lt_succ_of_lt hp) h.2 q c (keepsAll_create hp h.1 q c hc)

/-- Every token is in the map of its parent. -/
def Attached (s : Tokens N) : Prop :=
  ∀ {t p}, s.tree.parent t = some p → t ∈ (s.tree.children p).map (·.2)

theorem Attached.create (h : Attached s) (hp : p < s.tree.size) {name : String}
    (hname : name ∉ childNames p s) : Attached (s.create p name) := by
  intro t q ht
  obtain ⟨-, hparent, hchildren⟩ := Tokens.create_tree hp name
  rw [hparent] at ht
  by_cases hts : t = s.tree.size
  · subst hts
    rw [Function.update_self] at ht
    obtain rfl : p = q := Option.some.inj ht
    rw [hchildren, Function.update_self]
    exact List.mem_map.2 ⟨_, mem_putChild_self _, rfl⟩
  · rw [Function.update_of_ne hts] at ht
    obtain ⟨c, hc, rfl⟩ := List.mem_map.1 (h ht)
    exact List.mem_map.2 ⟨c, keepsAll_create hp hname q c hc, rfl⟩

theorem Attached.execute (h : Attached s) (hp : p < s.tree.size) {names : List (Option String)}
    (hnames : FreshNames p names s) : Attached (execute p names s).2 := by
  induction names generalizing s with
  | nil => exact h
  | cons name names ih =>
    obtain ⟨hsize, -, -⟩ := Tokens.create_tree hp (getTokenName (s.tree.children p) name)
    exact ih (h.create hp hnames.1) (hsize ▸ Nat.lt_succ_of_lt hp) hnames.2

/-! ## Runs -/

/-- Tokens are forked below a token, or anything else happens to the tokens there are. -/
inductive Op (N : Type)
  | fork (p : ℕ) (transitionNames : List (Option String))
  | other (status : ℕ → TokenStatus N)

def exec (s : Tokens N) : Op N → Tokens N
  | .fork p transitionNames => if p < s.tree.size then (execute p transitionNames s).2 else s
  | .other status => { s with status := status }

/-- The forked tokens get new names, and no child is displaced. -/
def Fresh (s : Tokens N) : Op N → Prop
  | .fork p transitionNames =>
    p < s.tree.size →
      FreshNames p transitionNames s ∧ KeepsAll s (execute p transitionNames s).2
  | .other _ => True

/-- No child has the number of a token without a name. -/
def Numbered (s : Tokens N) : Op N → Prop
  | .fork p transitionNames => p < s.tree.size → NumbersFree p transitionNames s
  | .other _ => True

theorem fresh_iff_numbered (s : Tokens N) (op : Op N) : Fresh s op ↔ Numbered s op := by
  cases op with
  | fork p names =>
    refine forall_congr' fun hp => ?_
    rw [← freshNames_iff]
    exact and_iff_left_of_imp (keepsAll_of_fresh hp)
  | other => exact Iff.rfl

theorem Attached.exec (h : Attached s) {op : Op N} (hop : Fresh s op) : Attached (exec s op) := by
  cases op with
  | fork p names =>
    rw [Fork.exec]
    split
    · next hp => exact h.execute hp (hop hp).1
    · exact h
  | other => exact h

/-- A root token. -/
def start (status : ℕ → TokenStatus N) : Tokens N := ⟨.root, status, []⟩

theorem attached_start (status : ℕ → TokenStatus N) : Attached (start status) := by
  intro t p h
  cases h

theorem attached_of_allowed {ops : List (Op N)} (h : Attached s)
    (hops : Allowed Fresh exec s ops) : Attached (ops.foldl exec s) := by
  induction ops generalizing s with
  | nil => exact h
  | cons op ops ih => exact ih (h.exec hops.1) hops.2

/-- **Names of forked tokens.**  In a run all forked tokens get new names exactly if no
    child ever has the number of a token without a name; and then all tokens are in the
    maps of their parents. -/
theorem fresh_iff (status : ℕ → TokenStatus N) (ops : List (Op N)) :
    (Allowed Fresh exec (start status) ops ↔ Allowed Numbered exec (start status) ops) ∧
      (Allowed Numbered exec (start status) ops → Attached (ops.foldl exec (start status))) := by
  have hiff := Allowed.congr (f := exec) fresh_iff_numbered (start status) ops
  exact ⟨hiff, fun h => attached_of_allowed (attached_start status) (hiff.2 h)⟩

/-- Two passes through a fork with a transition without a name and a transition `3`: the
    second pass displaces the child `3`. -/
theorem displaced_in_second_pass :
    let pass : Op Unit := .fork 0 [none, some "3"]
    let first := exec (start fun _ => ⟨none, false, true⟩) pass
    childNames 0 first = ["1", "3"] ∧ first.tree.getChild 0 "3" = some 2 ∧
      (exec first pass).tree.getChild 0 "3" = some 3 ∧
      ¬ Allowed Fresh exec (start fun _ => ⟨none, false, true⟩) [pass, pass] := by
  have hnames : childNames 0 (exec (start fun _ => (⟨none, false, true⟩ : TokenStatus Unit))
      (.fork 0 [none, some "3"])) = ["1", "3"] := by decide
  refine ⟨hnames, by decide, by decide, fun h => ?_⟩
  refine (h.2.1 (by decide)).1.1 ?_
  rw [hnames]
  decide

end Fork

end Jbpm
