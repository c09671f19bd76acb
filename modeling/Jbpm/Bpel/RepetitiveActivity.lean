/-
  Repetitive activities: `RepetitiveActivity.Loop.execute`, which finds out by a mark of the
  thread whether the body completes in the call.

  * `execute`, `returns`: the two halves of `Loop.execute`, around the call of the body;
  * `step`: what the threads do, where the bodies are arbitrary;
  * `follow`: the naive meaning of while and repeat until;
  * `naive_of_run`: the loops keep to it in all runs in which no token arrives at a loop that is
    marked for another one, and no exception leaves the call of a body.
-/
import Mathlib.Data.Finset.Basic
import Jbpm.Lib.Run

namespace Jbpm

open Lib

namespace Bpel.Loops

/-! ## Naive loops -/

inductive Kind where
  | while_
  | repeatUntil
  deriving DecidableEq

/-- `repeatExecution(token)`, with the value of the condition. -/
def Kind.repeatExecution : Kind → Bool → Bool
  | while_, condition => condition == true
  | repeatUntil, condition => condition == false

/-- What happens to a loop on a token.  A condition that faults has no value. -/
inductive Event where
  | begun
  | body
  | completed
  | condition (value : Option Bool)
  | left
  deriving DecidableEq

/-- What the loop does next on a token: nothing, as it is not executed; the evaluation of the
    condition; the entrance to the body; nothing, as the body is executed; the end. -/
inductive Phase where
  | idle
  | test
  | enter
  | inside
  | leave
  deriving DecidableEq

/-- One event of a naive loop. -/
def Phase.next (k : Kind) : Phase → Event → Option Phase
  | idle, .begun => some (match k with | .while_ => test | .repeatUntil => enter)
  | enter, .body => some inside
  | inside, .completed => some test
  | test, .condition none => some idle
  | test, .condition (some value) => some (if k.repeatExecution value then enter else leave)
  | leave, .left => some idle
  | _, _ => none

/-- The phase after the events, if they are those of a naive loop. -/
def follow (k : Kind) (es : List Event) : Option Phase := es.foldlM (Phase.next k) .idle

theorem follow_snoc (k : Kind) (es : List Event) (e : Event) :
    follow k (es ++ [e]) = (follow k es).bind fun ph => ph.next k e := by
  rw [follow, List.foldlM_append, follow]
  rcases es.foldlM (Phase.next k) Phase.idle with _ | ph
  · rfl
  · simp

/-! ## The code -/

/-- A loop on a token. -/
structure Visit where
  loop : ℕ
  token : ℕ
  deriving DecidableEq

/-- The calls that `execute` is in: it leaves for the body, or for the end of the structure. -/
inductive Frame where
  | body (v : Visit)
  | exit (v : Visit)
  deriving DecidableEq

/-- The entrance marks and the calls of each thread, the innermost first, and what has happened. -/
structure Threads where
  marks : ℕ → Finset ℕ
  stack : ℕ → List Frame
  log : List (Visit × Event)

namespace Threads

def empty : Threads where
  marks _ := ∅
  stack _ := []
  log := []

variable (kind : ℕ → Kind) (s : Threads) (θ : ℕ)

def record (v : Visit) (e : Event) : Threads := { s with log := s.log ++ [(v, e)] }

def mark (loop : ℕ) : Threads :=
  { s with marks := Function.update s.marks θ (insert loop (s.marks θ)) }

def unmark (loop : ℕ) : Threads :=
  { s with marks := Function.update s.marks θ ((s.marks θ).erase loop) }

def setStack (frames : List Frame) : Threads :=
  { s with stack := Function.update s.stack θ frames }

/-- The events of a loop on a token. -/
def trace (v : Visit) : List Event := (s.log.filter fun r => r.1 = v).map Prod.snd

def phase (v : Visit) : Option Phase := follow (kind v.loop) (s.trace v)

/-- `execute` from the evaluation of the condition to the next call. -/
def evaluate (v : Visit) (value : Option Bool) : Threads :=
  match value with
  | none => s.record v (.condition none)
  | some b =>
    let s := s.record v (.condition (some b))
    if (kind v.loop).repeatExecution b then
      ((s.mark θ v.loop).setStack θ (.body v :: s.stack θ)).record v .body
    else (s.setStack θ (.exit v :: s.stack θ)).record v .left

/-- `execute(exeContext)`, with the value of the condition if it is evaluated. -/
def execute (v : Visit) (value : Option Bool) : Threads :=
  -- reentrance detected
  if v.loop ∈ s.marks θ then s.unmark θ v.loop
  else s.evaluate kind θ v value

/-- The innermost call returns. -/
def returns (value : Option Bool) : Threads :=
  match s.stack θ with
  | [] => s
  | .body v :: frames =>
    -- wait state reached
    if v.loop ∈ s.marks θ then (s.unmark θ v.loop).setStack θ frames
    else (s.setStack θ frames).evaluate kind θ v value
  | .exit _ :: frames => s.setStack θ frames

/-- The token leaves the begin mark: for the loop or for the body. -/
def begin_ (v : Visit) (value : Option Bool) : Threads :=
  match kind v.loop with
  | .while_ => (s.record v .begun).execute kind θ v value
  | .repeatUntil => (s.record v .begun).record v .body

end Threads

/-- What the code around the loops does on a thread, with the value of the condition if it is
    evaluated then: it enters a loop, a body completes, the innermost call returns or is left by
    an exception. -/
inductive Act where
  | begin_ (v : Visit) (value : Option Bool)
  | complete (v : Visit) (value : Option Bool)
  | returns (value : Option Bool)
  | throws

/-- A token enters loops that it is not in, and completes bodies that it is in. -/
def step (kind : ℕ → Kind) (s : Threads) : ℕ × Act → Option Threads
  | (θ, .begin_ v value) =>
    if s.phase kind v = some .idle then some (s.begin_ kind θ v value) else none
  | (θ, .complete v value) =>
    if s.phase kind v = some .inside then some ((s.record v .completed).execute kind θ v value)
    else none
  | (θ, .returns value) => if s.stack θ = [] then none else some (s.returns kind θ value)
  | (θ, .throws) => if s.stack θ = [] then none else some (s.setStack θ (s.stack θ).tail)

/-- No token arrives at a loop that is marked, but the one for which it is, and no exception
    leaves the call of a body. -/
def Unmistaken (s : Threads) : ℕ × Act → Prop
  | (θ, .begin_ v _) | (θ, .complete v _) => v.loop ∈ s.marks θ → .body v ∈ s.stack θ
  | (_, .returns _) => True
  | (θ, .throws) => ∀ v, (s.stack θ).head? ≠ some (.body v)

instance decidableUnmistaken (s : Threads) : ∀ a, Decidable (Unmistaken s a)
  | (_, .begin_ _ _) | (_, .complete _ _) => inferInstanceAs (Decidable (_ → _))
  | (_, .returns _) => .isTrue trivial
  | (θ, .throws) =>
    match h : (s.stack θ).head? with
    | some (.body v) => .isFalse fun hno => hno v h
    | some (.exit _) | none => .isTrue fun v => by simp [h]

/-- What has happened to each loop on each token is what happens to a naive loop, and the
    condition is evaluated next only if the call of the body has not returned yet; there are no
    marks without calls, and no two calls of one body. -/
def Naive (kind : ℕ → Kind) (s : Threads) : Prop :=
  (∀ v, s.phase kind v = some .idle ∨ s.phase kind v = some .inside ∨
    s.phase kind v = some .test ∧ ∃ θ, .body v ∈ s.stack θ) ∧
  ∀ θ, (s.stack θ = [] → s.marks θ = ∅) ∧
    ∀ v, (s.stack θ).count (.body v) ≤ 1

/-! ## Marks and calls -/

namespace Threads

variable {kind : ℕ → Kind} {s : Threads} {θ : ℕ} {v v' : Visit} {e : Event} {p : Phase}

theorem phase_record_of_ne (h : v ≠ v') : (s.record v e).phase kind v' = s.phase kind v' := by
  simp [phase, trace, record, h]

theorem phase_record_self (h : s.phase kind v = some p) :
    (s.record v e).phase kind v = p.next (kind v.loop) e := by
  have htrace : (s.record v e).trace v = s.trace v ++ [e] := by simp [trace, record]
  rw [phase, htrace, follow_snoc]
  rw [phase] at h
  rw [h]
  rfl

end Threads

/-- The marks `M` are those of the calls in `frames`, but for those of the calls of the bodies
    `D`, which have completed. -/
inductive Held : Finset ℕ → List Frame → Finset Visit → Prop
  | nil : Held ∅ [] ∅
  | up {M frames D v} : Held M frames D → v.loop ∉ M →
      Held (insert v.loop M) (.body v :: frames) D
  | down {M frames D v} : Held M frames D → v.loop ∉ M → v ∉ D →
      Held M (.body v :: frames) (insert v D)
  | exit {M frames D v} : Held M frames D → Held M (.exit v :: frames) D

namespace Held

variable {M : Finset ℕ} {frames : List Frame} {D : Finset Visit} {v : Visit}

theorem mem_or (h : Held M frames D) (hv : .body v ∈ frames) : v.loop ∈ M ∨ v ∈ D := by
  induction h with
  | nil => simp at hv
  | up _ _ ih =>
    rcases List.mem_cons.1 hv with heq | hrest
    · cases heq
      exact .inl (Finset.mem_insert_self _ _)
    · exact (ih hrest).imp (Finset.mem_insert_of_mem ·) id
  | down _ _ _ ih =>
    rcases List.mem_cons.1 hv with heq | hrest
    · cases heq
      exact .inr (Finset.mem_insert_self _ _)
    · exact (ih hrest).imp id (Finset.mem_insert_of_mem ·)
  | exit _ ih => exact ih (by simpa using hv)

theorem mem_frames (h : Held M frames D) (hv : v ∈ D) : .body v ∈ frames := by
  induction h with
  | nil => simp at hv
  | up _ _ ih => exact List.mem_cons_of_mem _ (ih hv)
  | down _ _ _ ih =>
    rcases Finset.mem_insert.1 hv with rfl | hrest
    · exact List.mem_cons_self
    · exact List.mem_cons_of_mem _ (ih hrest)
  | exit _ ih => exact List.mem_cons_of_mem _ (ih hv)

/-- The mark of a body that completes is taken away. -/
theorem complete (h : Held M frames D) (hM : v.loop ∈ M) (hv : .body v ∈ frames) (hD : v ∉ D) :
    Held (M.erase v.loop) frames (insert v D) := by
  induction h with
  | nil => simp at hv
  | @up M frames D v₀ hrest hv₀ ih =>
    by_cases heq : v₀ = v
    · subst heq
      rw [Finset.erase_insert hv₀]
      exact .down hrest hv₀ hD
    have hmem : .body v ∈ frames := by
      rcases List.mem_cons.1 hv with h | h
      · cases h
        exact absurd rfl heq
      · exact h
    -- the call with the mark of a loop is the innermost one of this loop
    have hloop : v₀.loop ≠ v.loop := by
      intro hloop
      rw [hloop] at hv₀
      exact (hrest.mem_or hmem).elim hv₀ hD
    rw [Finset.erase_insert_of_ne hloop]
    have hM' : v.loop ∈ M := (Finset.mem_insert.1 hM).resolve_left (Ne.symm hloop)
    exact .up (ih hM' hmem hD) fun h => hv₀ (Finset.mem_of_mem_erase h)
  | @down M frames D v₀ hrest hv₀ hD₀ ih =>
    have heq : v₀ ≠ v := by
      rintro rfl
      exact hv₀ hM
    have hmem : .body v ∈ frames := by
      rcases List.mem_cons.1 hv with h | h
      · cases h
        exact absurd rfl heq
      · exact h
    rw [Finset.insert_comm]
    have hD' : v ∉ D := fun h => hD (Finset.mem_insert_of_mem h)
    refine .down (ih hM hmem hD') (fun h => hv₀ (Finset.mem_of_mem_erase h)) ?_
    rw [Finset.mem_insert]
    exact fun h => h.elim heq hD₀
  | exit _ ih => exact .exit (ih hM (by simpa using hv) hD)

/-- The call of a body that reached a wait state. -/
theorem pop_up (h : Held M (.body v :: frames) D) (hM : v.loop ∈ M) :
    Held (M.erase v.loop) frames D := by
  cases h with
  | up hrest hv => rwa [Finset.erase_insert hv]
  | down _ hv _ => exact absurd hM hv

/-- The call of a body that has completed. -/
theorem pop_down (h : Held M (.body v :: frames) D) (hM : v.loop ∉ M) :
    v ∈ D ∧ Held M frames (D.erase v) := by
  cases h with
  | up _ _ => exact absurd (Finset.mem_insert_self _ _) hM
  | down hrest _ hD =>
    refine ⟨Finset.mem_insert_self _ _, ?_⟩
    rwa [Finset.erase_insert hD]

theorem pop_exit (h : Held M (.exit v :: frames) D) : Held M frames D := by
  cases h with
  | exit hrest => exact hrest

end Held

/-! ## Invariant -/

/-- The loop on the token is not executed, or its body is, or its condition is evaluated when
    the call of the body returns. -/
def Settled (kind : ℕ → Kind) (s : Threads) (D : ℕ → Finset Visit) (v : Visit) : Prop :=
  s.phase kind v = some .idle ∨ s.phase kind v = some .inside ∨
    s.phase kind v = some .test ∧ ∃ θ, v ∈ D θ

/-- `D` has the bodies that have completed in the calls of each thread. -/
structure Core (kind : ℕ → Kind) (s : Threads) (D : ℕ → Finset Visit) : Prop where
  held : ∀ θ, Held (s.marks θ) (s.stack θ) (D θ)
  test : ∀ θ, ∀ v ∈ D θ, s.phase kind v = some .test
  thread : ∀ v θ θ', v ∈ D θ → v ∈ D θ' → θ = θ'
  once : ∀ θ v, (s.stack θ).count (.body v) ≤ 1

def Inv (kind : ℕ → Kind) (s : Threads) : Prop :=
  ∃ D, Core kind s D ∧ ∀ v, Settled kind s D v

section
variable {kind : ℕ → Kind} {s : Threads} {D : ℕ → Finset Visit} {θ : ℕ} {v : Visit}

theorem mem_of_update {E : Finset Visit} {θ' : ℕ} (hv : v ∈ Function.update D θ E θ')
    (hE : v ∈ E → v ∈ D θ) : v ∈ D θ' := by
  by_cases hθ : θ' = θ
  · subst hθ
    rw [Function.update_self] at hv
    exact hE hv
  · rwa [Function.update_of_ne hθ] at hv

theorem mem_update {E : Finset Visit} {θ' : ℕ} (hv : v ∈ D θ') (hE : v ∈ D θ → v ∈ E) :
    v ∈ Function.update D θ E θ' := by
  by_cases hθ : θ' = θ
  · subst hθ
    rw [Function.update_self]
    exact hE hv
  · rwa [Function.update_of_ne hθ]

theorem Settled.record {v' : Visit} {e : Event} (h : Settled kind s D v') (hv : v ≠ v') :
    Settled kind (s.record v e) D v' := by
  rwa [Settled, Threads.phase_record_of_ne hv]

theorem Core.record {e : Event} (h : Core kind s D) (hv : ∀ θ, v ∉ D θ) :
    Core kind (s.record v e) D where
  held := h.held
  test θ v' hv' := by
    have hne : v ≠ v' := by
      rintro rfl
      exact hv θ hv'
    rw [Threads.phase_record_of_ne hne]
    exact h.test θ v' hv'
  thread := h.thread
  once := h.once

/-- A call is added to a thread, with its mark. -/
theorem Core.push_body (h : Core kind s D) (hM : v.loop ∉ s.marks θ) (hv : v ∉ D θ) :
    Core kind ((s.mark θ v.loop).setStack θ (.body v :: s.stack θ)) D where
  held θ' := by
    by_cases hθ : θ' = θ
    · subst hθ
      simpa [Threads.setStack, Threads.mark] using (h.held θ').up hM
    · simpa [Threads.setStack, Threads.mark, hθ] using h.held θ'
  test := h.test
  thread := h.thread
  once θ' v' := by
    by_cases hθ : θ' = θ
    · subst hθ
      have hnew : .body v ∉ s.stack θ' := fun hmem => ((h.held θ').mem_or hmem).elim hM hv
      by_cases heq : v = v'
      · subst heq
        simp [Threads.setStack, Threads.mark, List.count_eq_zero.2 hnew]
      · simpa [Threads.setStack, Threads.mark, List.count_cons, heq] using h.once θ' v'
    · simpa [Threads.setStack, Threads.mark, hθ] using h.once θ' v'

theorem Core.push_exit (h : Core kind s D) :
    Core kind (s.setStack θ (.exit v :: s.stack θ)) D where
  held θ' := by
    by_cases hθ : θ' = θ
    · subst hθ
      simpa [Threads.setStack] using (h.held θ').exit
    · simpa [Threads.setStack, hθ] using h.held θ'
  test := h.test
  thread := h.thread
  once θ' v' := by
    by_cases hθ : θ' = θ
    · subst hθ
      simpa [Threads.setStack, List.count_cons] using h.once θ' v'
    · simpa [Threads.setStack, hθ] using h.once θ' v'

/-- The condition is evaluated, where it is to be. -/
theorem Core.evaluate (h : Core kind s D) (hv : ∀ θ, v ∉ D θ) (hM : v.loop ∉ s.marks θ)
    (hph : s.phase kind v = some .test) (hothers : ∀ v', v ≠ v' → Settled kind s D v')
    (value : Option Bool) : Inv kind (s.evaluate kind θ v value) := by
  refine ⟨D, ?_⟩
  cases value with
  | none =>
    refine ⟨h.record hv, fun v' => ?_⟩
    by_cases heq : v = v'
    · subst heq
      exact .inl (Threads.phase_record_self hph)
    · exact (hothers v' heq).record heq
  | some b =>
    have hcond := h.record (e := .condition (some b)) hv
    have hph' := Threads.phase_record_self (e := .condition (some b)) hph
    have hothers' : ∀ v', v ≠ v' → Settled kind (s.record v (.condition (some b))) D v' :=
      fun v' heq => (hothers v' heq).record heq
    unfold Threads.evaluate
    dsimp only
    split
    case isTrue hrep =>
      refine ⟨(hcond.push_body hM (hv θ)).record hv, fun v' => ?_⟩
      by_cases heq : v = v'
      · subst heq
        rw [Phase.next, if_pos hrep] at hph'
        exact .inr (.inl (Threads.phase_record_self (p := .enter) hph'))
      · exact (hothers' v' heq).record heq
    case isFalse hrep =>
      refine ⟨hcond.push_exit.record hv, fun v' => ?_⟩
      by_cases heq : v = v'
      · subst heq
        rw [Phase.next, if_neg hrep] at hph'
        exact .inl (Threads.phase_record_self (p := .leave) hph')
      · exact (hothers' v' heq).record heq

/-- A body that completes in its call, or after a wait state. -/
theorem Core.execute (h : Core kind s D) (hv : ∀ θ, v ∉ D θ)
    (hM : v.loop ∈ s.marks θ → .body v ∈ s.stack θ)
    (hph : s.phase kind v = some .test) (hothers : ∀ v', v ≠ v' → Settled kind s D v')
    (value : Option Bool) : Inv kind (s.execute kind θ v value) := by
  rw [Threads.execute]
  split
  case isFalse hunmarked => exact h.evaluate hv hunmarked hph hothers value
  case isTrue hmarked =>
    refine ⟨Function.update D θ (insert v (D θ)), ⟨fun θ' => ?_, ?_, ?_, h.once⟩, fun v' => ?_⟩
    · by_cases hθ : θ' = θ
      · subst hθ
        simpa [Threads.unmark] using (h.held θ').complete hmarked (hM hmarked) (hv θ')
      · simpa [Threads.unmark, hθ] using h.held θ'
    · intro θ' v' hv'
      by_cases hθ : θ' = θ
      · subst hθ
        rw [Function.update_self] at hv'
        rcases Finset.mem_insert.1 hv' with rfl | hold
        · exact hph
        · exact h.test θ' v' hold
      · rw [Function.update_of_ne hθ] at hv'
        exact h.test θ' v' hv'
    · intro v' θ₁ θ₂ h₁ h₂
      by_cases heq : v = v'
      · subst heq
        have honly : ∀ θ', v ∈ Function.update D θ (insert v (D θ)) θ' → θ' = θ := by
          intro θ' h'
          by_contra hθ
          rw [Function.update_of_ne hθ] at h'
          exact hv θ' h'
        rw [honly θ₁ h₁, honly θ₂ h₂]
      · have hold : v' ∈ insert v (D θ) → v' ∈ D θ :=
          fun hmem => (Finset.mem_insert.1 hmem).resolve_left (Ne.symm heq)
        exact h.thread v' θ₁ θ₂ (mem_of_update h₁ hold) (mem_of_update h₂ hold)
    · by_cases heq : v = v'
      · subst heq
        refine .inr (.inr ⟨hph, θ, ?_⟩)
        rw [Function.update_self]
        exact Finset.mem_insert_self _ _
      · exact (hothers v' heq).imp id (.imp id fun ⟨htest, θ', hmem⟩ =>
          ⟨htest, θ', mem_update hmem (Finset.mem_insert_of_mem ·)⟩)

/-- The calls of a thread without the innermost one. -/
theorem Core.pop {D' : Finset Visit} {M : Finset ℕ} {frame : Frame} {frames : List Frame}
    (h : Core kind s D) (hstack : s.stack θ = frame :: frames) (hheld : Held M frames D')
    (hD' : D' ⊆ D θ) : Core kind
      { s with marks := Function.update s.marks θ M, stack := Function.update s.stack θ frames }
      (Function.update D θ D') where
  held θ' := by
    by_cases hθ : θ' = θ
    · subst hθ
      simpa using hheld
    · simpa [hθ] using h.held θ'
  test θ' v' hv' := h.test θ' v' (mem_of_update hv' (hD' ·))
  thread v' θ₁ θ₂ h₁ h₂ :=
    h.thread v' θ₁ θ₂ (mem_of_update h₁ (hD' ·)) (mem_of_update h₂ (hD' ·))
  once θ' v' := by
    by_cases hθ : θ' = θ
    · subst hθ
      have hcount := h.once θ' v'
      rw [hstack, List.count_cons] at hcount
      simp
      omega
    · simpa [hθ] using h.once θ' v'

end

/-! ## Runs -/

section
variable {kind : ℕ → Kind} {s s' : Threads} {D : ℕ → Finset Visit} {θ : ℕ} {v : Visit}

theorem Core.notMem {ph : Phase} (h : Core kind s D) (hph : s.phase kind v = some ph)
    (hne : ph ≠ .test) (θ : ℕ) : v ∉ D θ := by
  intro hv
  rw [h.test θ v hv] at hph
  exact hne (Option.some.inj hph).symm

theorem Inv.begin_ (h : Inv kind s) (hph : s.phase kind v = some .idle)
    (hM : v.loop ∈ s.marks θ → .body v ∈ s.stack θ) (value : Option Bool) :
    Inv kind (s.begin_ kind θ v value) := by
  obtain ⟨D, hcore, hsettled⟩ := h
  have hv := hcore.notMem hph (by decide)
  have hbegun := Threads.phase_record_self (e := .begun) hph
  have hcore' := hcore.record (e := .begun) hv
  have hothers : ∀ v', v ≠ v' → Settled kind (s.record v .begun) D v' :=
    fun v' heq => (hsettled v').record heq
  unfold Threads.begin_
  cases hkind : kind v.loop with
  | while_ =>
    simp only [Phase.next, hkind] at hbegun
    exact hcore'.execute hv hM hbegun hothers value
  | repeatUntil =>
    simp only [Phase.next, hkind] at hbegun
    refine ⟨D, hcore'.record hv, fun v' => ?_⟩
    by_cases heq : v = v'
    · subst heq
      exact .inr (.inl (Threads.phase_record_self (p := .enter) hbegun))
    · exact (hothers v' heq).record heq

theorem Inv.complete (h : Inv kind s) (hph : s.phase kind v = some .inside)
    (hM : v.loop ∈ s.marks θ → .body v ∈ s.stack θ) (value : Option Bool) :
    Inv kind ((s.record v .completed).execute kind θ v value) := by
  obtain ⟨D, hcore, hsettled⟩ := h
  have hv := hcore.notMem hph (by decide)
  exact (hcore.record hv).execute hv hM (Threads.phase_record_self hph)
    (fun v' heq => (hsettled v').record heq) value

/-- The condition is evaluated again if the body has completed in the call. -/
theorem Inv.returns (h : Inv kind s) (θ : ℕ) (value : Option Bool) :
    Inv kind (s.returns kind θ value) := by
  obtain ⟨D, hcore, hsettled⟩ := h
  unfold Threads.returns
  split
  case h_1 => exact ⟨D, hcore, hsettled⟩
  case h_2 v frames hstack =>
    have hheld := hcore.held θ
    rw [hstack] at hheld
    split
    case isTrue hM =>
      have hpop := hcore.pop hstack (hheld.pop_up hM) (Finset.Subset.refl _)
      rw [Function.update_eq_self] at hpop
      exact ⟨D, hpop, hsettled⟩
    case isFalse hM =>
      obtain ⟨hvD, hrest⟩ := hheld.pop_down hM
      have hpop := hcore.pop hstack hrest (Finset.erase_subset v (D θ))
      rw [Function.update_eq_self] at hpop
      refine hpop.evaluate (fun θ' hmem => ?_) hM (hcore.test θ v hvD) (fun v' heq => ?_) value
      · by_cases hθ : θ' = θ
        · subst hθ
          rw [Function.update_self] at hmem
          exact absurd rfl (Finset.ne_of_mem_erase hmem)
        · rw [Function.update_of_ne hθ] at hmem
          exact hθ (hcore.thread v θ' θ hmem hvD)
      · exact (hsettled v').imp id (.imp id fun ⟨htest, θ', hmem⟩ =>
          ⟨htest, θ', mem_update hmem fun h => Finset.mem_erase.2 ⟨Ne.symm heq, h⟩⟩)
  case h_3 v frames hstack =>
    have hheld := hcore.held θ
    rw [hstack] at hheld
    have hpop := hcore.pop hstack hheld.pop_exit (Finset.Subset.refl _)
    rw [Function.update_eq_self, Function.update_eq_self] at hpop
    exact ⟨D, hpop, hsettled⟩

/-- An exception leaves a call that is not that of a body. -/
theorem Inv.throws (h : Inv kind s) (hne : s.stack θ ≠ [])
    (hhead : ∀ v, (s.stack θ).head? ≠ some (.body v)) :
    Inv kind (s.setStack θ (s.stack θ).tail) := by
  obtain ⟨D, hcore, hsettled⟩ := h
  have hheld := hcore.held θ
  cases hstack : s.stack θ with
  | nil => exact absurd hstack hne
  | cons frame frames =>
    cases frame with
    | body v => exact absurd (by rw [hstack]; rfl) (hhead v)
    | exit v =>
      rw [hstack] at hheld
      have hpop := hcore.pop hstack hheld.pop_exit (Finset.Subset.refl _)
      rw [Function.update_eq_self, Function.update_eq_self] at hpop
      exact ⟨D, hpop, hsettled⟩

theorem Inv.step (h : Inv kind s) {a : ℕ × Act} (hok : Unmistaken s a)
    (hstep : step kind s a = some s') : Inv kind s' := by
  obtain ⟨θ, act⟩ := a
  unfold Loops.step at hstep
  cases act with
  | begin_ v value =>
    obtain ⟨hph, ⟨⟩⟩ := Option.ite_none_right_eq_some.1 hstep
    exact h.begin_ hph hok value
  | complete v value =>
    obtain ⟨hph, ⟨⟩⟩ := Option.ite_none_right_eq_some.1 hstep
    exact h.complete hph hok value
  | returns value =>
    obtain ⟨-, ⟨⟩⟩ := Option.ite_none_left_eq_some.1 hstep
    exact h.returns θ value
  | throws =>
    obtain ⟨hne, ⟨⟩⟩ := Option.ite_none_left_eq_some.1 hstep
    exact h.throws hne hok

theorem inv_empty (kind : ℕ → Kind) : Inv kind .empty :=
  ⟨fun _ => ∅, ⟨fun _ => .nil, fun _ _ h => absurd h (Finset.notMem_empty _),
    fun _ _ _ h => absurd h (Finset.notMem_empty _), fun _ _ => Nat.zero_le _⟩,
    fun _ => .inl rfl⟩

theorem Inv.naive (h : Inv kind s) : Naive kind s := by
  obtain ⟨D, hcore, hsettled⟩ := h
  refine ⟨fun v => ?_, fun θ => ⟨fun hstack => ?_, hcore.once θ⟩⟩
  · exact (hsettled v).imp id
      (.imp id fun ⟨htest, θ, hv⟩ => ⟨htest, θ, (hcore.held θ).mem_frames hv⟩)
  · have hheld := hcore.held θ
    rw [hstack] at hheld
    generalize s.marks θ = M at hheld ⊢
    generalize D θ = E at hheld
    cases hheld
    rfl

end

/-- The body completes in its call, and then reaches a wait state: another thread goes on. -/
def resumed : List (ℕ × Act) :=
  [(0, .begin_ ⟨0, 0⟩ (some true)), (0, .complete ⟨0, 0⟩ none), (0, .returns (some true)),
    (0, .returns none), (1, .complete ⟨0, 0⟩ (some false)), (1, .returns none)]

/-- The state after the steps, where those that are not possible are left out. -/
def after (as : List (ℕ × Act)) : Threads :=
  as.foldl (fun s a => (step (fun _ => .while_) s a).getD s) .empty

/-- An exception leaves the call of the body. -/
def thrown : List (ℕ × Act) := [(0, .begin_ ⟨0, 0⟩ (some true)), (0, .throws)]

/-- The loop is executed on another token in the call of the body: there a fault handler has
    completed a scope, which an outer loop enters again. -/
def nested : List (ℕ × Act) :=
  [(0, .begin_ ⟨0, 0⟩ (some true)), (0, .begin_ ⟨0, 1⟩ (some true)), (0, .returns (some true))]

/-- The steps are possible, and do not leave the loops as they should be. -/
def GoesAstray (as : List (ℕ × Act)) : Prop :=
  Run (fun s a s' => step (fun _ => .while_) s a = some s') .empty as (after as) ∧
    ¬ Naive (fun _ => .while_) (after as)

end Bpel.Loops

end Jbpm
