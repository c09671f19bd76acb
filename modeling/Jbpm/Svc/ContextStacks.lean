/-
  The stacks of a thread: one of the configurations that contexts were created in,
  and for each configuration one of its contexts.

  * `Thread.close`: both stacks are popped at the end of a context, each in its way;
  * `Calls`: properly nested calls, among them further calls of `close`;
  * `Calls.restores_iff`: when the current configuration and the current contexts are
    restored by all of them.
-/
import Mathlib.Data.List.Perm.Basic
import Mathlib.Logic.Function.Basic
import Jbpm.Java.Throws

namespace Jbpm

open Java

namespace Svc

structure Context (κ : Type) where
  configuration : κ
  id : ℕ
  deriving DecidableEq

/-- The tops of the stacks are the last elements. -/
structure Thread (κ : Type) where
  configurations : List κ
  contexts : κ → List (Context κ)

namespace Thread

variable {κ : Type} [DecidableEq κ]

def new : Thread κ := ⟨[], fun _ => []⟩

def getCurrentJbpmConfiguration (s : Thread κ) : Option κ := s.configurations.getLast?

def getCurrentJbpmContext (s : Thread κ) (c : κ) : Option (Context κ) := (s.contexts c).getLast?

def pushJbpmConfiguration (c : κ) (s : Thread κ) : Thread κ :=
  { s with configurations := s.configurations ++ [c] }

def pushJbpmContext (x : Context κ) (s : Thread κ) : Thread κ :=
  { s with contexts :=
      Function.update s.contexts x.configuration (s.contexts x.configuration ++ [x]) }

def jbpmContextCreated (x : Context κ) (s : Thread κ) : Thread κ :=
  pushJbpmContext x (pushJbpmConfiguration x.configuration s)

/-- `Vector.remove(Object)` removes the first occurrence, which is the lowest in the stack. -/
def popJbpmConfiguration (c : κ) : Throws String (Thread κ) Unit :=
  Throws.modify_ fun s => { s with configurations := s.configurations.erase c }

def closedMoreThanOnce : String :=
  "closed JbpmContext more then once... check your try-finally's around JbpmContexts blocks"

def closedInDifferentOrder : String :=
  "closed JbpmContext in different order then they were created... " ++
    "check your try-finally's around JbpmContexts blocks"

/-- The context is compared after it has been popped. -/
def popJbpmContext (x : Context κ) : Throws String (Thread κ) Unit := fun s =>
  match (s.contexts x.configuration).getLast? with
  | none => (.error closedMoreThanOnce, s)
  | some popped =>
    let contexts := Function.update s.contexts x.configuration (s.contexts x.configuration).dropLast
    (if x ≠ popped then .error closedInDifferentOrder else .ok (), { s with contexts := contexts })

def jbpmContextClosed (x : Context κ) : Throws String (Thread κ) Unit := do
  popJbpmConfiguration x.configuration
  popJbpmContext x

/-- `JbpmContext.close`; `services` is what saving and closing the services came to. -/
def close (x : Context κ) (services : Except String Unit) : Throws String (Thread κ) Unit :=
  Throws.tryFinally_ (Throws.ofExcept services) (jbpmContextClosed x)

/-- A call of `close` is refused if the context is not the current one. -/
def Refused (x : Context κ) (s : Thread κ) : Prop := ∃ e, (jbpmContextClosed x s).1 = .error e

/-- The current configuration and the current contexts are the same. -/
def SameCurrent (s s' : Thread κ) : Prop :=
  s.getCurrentJbpmConfiguration = s'.getCurrentJbpmConfiguration ∧
    ∀ c, s.getCurrentJbpmContext c = s'.getCurrentJbpmContext c

end Thread

/-! ## Calls -/

inductive Call (κ : Type) where
  | create (x : Context κ)
  | close (x : Context κ) (services : Except String Unit)

def Call.run {κ : Type} [DecidableEq κ] (s : Thread κ) : Call κ → Thread κ
  | .create x => s.jbpmContextCreated x
  | .close x services => (Thread.close x services s).2

/-- Properly nested calls on one thread, and among them further calls of `close`, which are repeated
or out of order.  An exception in a body or in a `close` leaves out the rest of the bodies around
it, which are shorter then. -/
inductive Calls (κ : Type) where
  | done
  | context (x : Context κ) (body : Calls κ) (services : Except String Unit) (rest : Calls κ)
  | further (x : Context κ) (services : Except String Unit) (rest : Calls κ)

namespace Calls

variable {κ : Type}

/-- The calls in their order. -/
def calls : Calls κ → List (Call κ)
  | done => []
  | context x body services rest =>
    .create x :: (body.calls ++ .close x services :: rest.calls)
  | further x services rest => .close x services :: rest.calls

variable [DecidableEq κ]

def run (p : Calls κ) (s : Thread κ) : Thread κ := p.calls.foldl Call.run s

/-- After each context what is current is the same as before, and a further call leaves the
stacks as they were. -/
def Restores : Calls κ → Thread κ → Prop
  | done, _ => True
  | context x body services rest, s =>
    let s' := body.run (s.jbpmContextCreated x)
    body.Restores (s.jbpmContextCreated x) ∧ (Thread.close x services s').2.SameCurrent s ∧
      rest.Restores (Thread.close x services s').2
  | further x services rest, s =>
    (Thread.close x services s).2 = s ∧ rest.Restores (Thread.close x services s).2

/-- A context is only created in a configuration that is the current one or has no place in the
stack, and further calls are only for configurations that have no context. -/
def Meets : Calls κ → Thread κ → Prop
  | done, _ => True
  | context x body services rest, s =>
    let s' := body.run (s.jbpmContextCreated x)
    (x.configuration ∈ s.configurations →
        s.getCurrentJbpmConfiguration = some x.configuration) ∧
      body.Meets (s.jbpmContextCreated x) ∧ rest.Meets (Thread.close x services s').2
  | further x services rest, s =>
    s.contexts x.configuration = [] ∧ rest.Meets (Thread.close x services s).2

/-! ## One call -/

variable {s s' : Thread κ} {x : Context κ} {services : Except String Unit} {cs : List κ}

theorem jbpmContextClosed_eq (x : Context κ) (s : Thread κ) :
    Thread.jbpmContextClosed x s =
      Thread.popJbpmContext x { s with configurations := s.configurations.erase x.configuration } :=
  rfl

/-- What `close` does to the stacks does not depend on what it throws. -/
theorem close_snd (x : Context κ) (services : Except String Unit) (s : Thread κ) :
    (Thread.close x services s).2 = ⟨s.configurations.erase x.configuration,
      Function.update s.contexts x.configuration (s.contexts x.configuration).dropLast⟩ := by
  have hclosed : (Thread.jbpmContextClosed x s).2 = ⟨s.configurations.erase x.configuration,
      Function.update s.contexts x.configuration (s.contexts x.configuration).dropLast⟩ := by
    rw [jbpmContextClosed_eq, Thread.popJbpmContext]
    rcases h : (s.contexts x.configuration).getLast? with _ | popped
    · rw [List.getLast?_eq_none_iff.1 h, List.dropLast_nil, ← List.getLast?_eq_none_iff.1 h,
        Function.update_eq_self]
    · rfl
  rw [← hclosed, Thread.close, Throws.tryFinally_, Throws.ofExcept_run]
  rcases Thread.jbpmContextClosed x s with ⟨_ | _, s'⟩ <;> rfl

theorem refused_iff : s.Refused x ↔ s.getCurrentJbpmContext x.configuration ≠ some x := by
  rw [Thread.Refused, jbpmContextClosed_eq, Thread.popJbpmContext, Thread.getCurrentJbpmContext]
  rcases (s.contexts x.configuration).getLast? with _ | popped
  · simp
  · by_cases h : x = popped
    · simp [h]
    · simp [h, Ne.symm h]

/-- A call that changes nothing finds no contexts, and is refused. -/
theorem contexts_eq_nil (h : (Thread.close x services s).2 = s) :
    s.contexts x.configuration = [] := by
  rw [close_snd] at h
  have hlast : (s.contexts x.configuration).dropLast = s.contexts x.configuration := by
    simpa only [Function.update_self] using congrFun (congrArg Thread.contexts h) x.configuration
  have hlen := congrArg List.length hlast
  rw [List.length_dropLast] at hlen
  exact List.length_eq_zero_iff.1 (by omega)

/-! ## Stacks of configurations -/

/-- Each configuration has only come directly on top of itself. -/
inductive Grouped : List κ → Prop
  | nil : Grouped []
  | push {cs : List κ} {c : κ} (h : Grouped cs) (hc : c ∈ cs → cs.getLast? = some c) :
    Grouped (cs ++ [c])

/-- The lowest occurrence is as good as the highest. -/
theorem Grouped.erase_push (h : Grouped cs) {c : κ} (hc : c ∈ cs → cs.getLast? = some c) :
    (cs ++ [c]).erase c = cs := by
  induction h generalizing c with
  | nil => exact List.erase_cons_head c []
  | @push cs d h hd ih =>
    by_cases hmem : c ∈ cs ++ [d]
    · obtain rfl : d = c := by simpa using hc hmem
      rw [List.erase_append_left _ hmem, ih hd]
    · rw [List.erase_append_right _ hmem, List.erase_cons_head, List.append_nil]

/-- On top of another one, its lowest occurrence is removed. -/
theorem getLast?_erase_push {rs : List κ} {c : κ} (h : c ∈ rs) :
    ((rs ++ [c]).erase c).getLast? = some c := by
  rw [List.erase_append_left _ h, List.getLast?_concat]

/-! ## Runs -/

theorem run_context {body rest : Calls κ} : (context x body services rest).run s =
    rest.run (Thread.close x services (body.run (s.jbpmContextCreated x))).2 := by
  simp only [run, calls, List.foldl_cons, List.foldl_append, Call.run]

theorem run_further {rest : Calls κ} :
    (further x services rest).run s = rest.run (Thread.close x services s).2 := rfl

/-- A context that is closed right after it was created. -/
theorem close_created (hg : Grouped s.configurations)
    (hc : x.configuration ∈ s.configurations →
      s.getCurrentJbpmConfiguration = some x.configuration) :
    (Thread.close x services (s.jbpmContextCreated x)).2 = s := by
  rw [close_snd]
  simp only [Thread.jbpmContextCreated, Thread.pushJbpmContext, Thread.pushJbpmConfiguration,
    Function.update_self, List.dropLast_concat, Function.update_idem, Function.update_eq_self,
    hg.erase_push hc]

theorem created_held (h : ∀ c ∈ s.configurations, s.contexts c ≠ []) :
    ∀ c ∈ (s.jbpmContextCreated x).configurations, (s.jbpmContextCreated x).contexts c ≠ [] := by
  intro c hc
  by_cases hx : c = x.configuration
  · subst hx
    simp [Thread.jbpmContextCreated, Thread.pushJbpmContext, Thread.pushJbpmConfiguration]
  · have hmem : c ∈ s.configurations := by
      simpa [Thread.jbpmContextCreated, Thread.pushJbpmContext, Thread.pushJbpmConfiguration, hx]
        using hc
    simpa [Thread.jbpmContextCreated, Thread.pushJbpmContext, Thread.pushJbpmConfiguration,
      Function.update_of_ne hx] using h c hmem

/-- If the condition is met, a run ends as it began. -/
theorem Meets.restores {p : Calls κ} (hg : Grouped s.configurations)
    (hheld : ∀ c ∈ s.configurations, s.contexts c ≠ []) (h : p.Meets s) :
    p.Restores s ∧ p.run s = s := by
  induction p generalizing s with
  | done => exact ⟨trivial, rfl⟩
  | context x body services rest ihbody ihrest =>
    obtain ⟨hc, hbody, hrest⟩ := h
    obtain ⟨hrbody, hrun⟩ := ihbody (.push hg hc) (created_held hheld) hbody
    rw [hrun, close_created hg hc] at hrest
    obtain ⟨hrrest, hrunrest⟩ := ihrest hg hheld hrest
    rw [Restores, run_context, hrun, close_created hg hc]
    exact ⟨⟨hrbody, ⟨rfl, fun _ => rfl⟩, hrrest⟩, hrunrest⟩
  | further x services rest ihrest =>
    obtain ⟨hnil, hrest⟩ := h
    have hclose : (Thread.close x services s).2 = s := by
      have hnot : x.configuration ∉ s.configurations := fun hmem => hheld _ hmem hnil
      rw [close_snd, List.erase_of_not_mem hnot, hnil, List.dropLast_nil, ← hnil,
        Function.update_eq_self]
    rw [hclose] at hrest
    rw [Restores, run_further, hclose]
    obtain ⟨hrrest, hrunrest⟩ := ihrest hg hheld hrest
    exact ⟨⟨rfl, hrrest⟩, hrunrest⟩

/-- Calls that restore what is current leave the stacks of contexts as they were, and the same
configurations in their stack, with the same one on top. -/
theorem Restores.meets {p : Calls κ} (h : p.Restores s) :
    p.Meets s ∧ (p.run s).contexts = s.contexts ∧
      (p.run s).configurations.Perm s.configurations ∧
      (p.run s).getCurrentJbpmConfiguration = s.getCurrentJbpmConfiguration := by
  induction p generalizing s with
  | done => exact ⟨trivial, rfl, .refl _, rfl⟩
  | context x body services rest ihbody ihrest =>
    obtain ⟨hbody, hsame, hrest⟩ := h
    obtain ⟨hmbody, hctx, hperm, htop⟩ := ihbody hbody
    obtain ⟨hmrest, hctx', hperm', htop'⟩ := ihrest hrest
    -- the body leaves the configuration of the context on top
    obtain ⟨rs, hrs⟩ : ∃ rs, (body.run (s.jbpmContextCreated x)).configurations =
        rs ++ [x.configuration] :=
      List.getLast?_eq_some_iff.1 (htop.trans (List.getLast?_concat ..))
    have hperm : rs.Perm s.configurations :=
      (List.perm_append_right_iff [x.configuration]).1 (hrs ▸ hperm)
    rw [run_context]
    refine ⟨⟨fun hmem => ?_, hmbody, hmrest⟩, hctx'.trans ?_, hperm'.trans ?_, htop'.trans hsame.1⟩
    · have htop : (Thread.close x services (body.run (s.jbpmContextCreated x))).2.configurations.getLast? =
          some x.configuration := by
        rw [close_snd, hrs]
        exact getLast?_erase_push (hperm.mem_iff.2 hmem)
      exact hsame.1.symm.trans htop
    · rw [close_snd, hctx]
      simp only [Thread.jbpmContextCreated, Thread.pushJbpmContext, Thread.pushJbpmConfiguration,
        Function.update_self, List.dropLast_concat, Function.update_idem, Function.update_eq_self]
    · rw [close_snd, hrs]
      exact ((List.perm_append_singleton _ rs).erase x.configuration).trans
        (by rwa [List.erase_cons_head])
  | further x services rest ihrest =>
    obtain ⟨hclose, hrest⟩ := h
    have hnil := contexts_eq_nil hclose
    obtain ⟨hmrest, hrun⟩ := ihrest hrest
    rw [run_further]
    rw [hclose] at hrun ⊢
    exact ⟨⟨hnil, hmrest⟩, hrun⟩

/-- What is current is restored by all calls of a thread if and only if contexts are only created
in the current configuration or a new one, and `close` is not called once too often within
contexts of the same configuration. -/
theorem restores_iff (p : Calls κ) : p.Restores .new ↔ p.Meets .new :=
  ⟨fun h => h.meets.1, fun h => (h.restores .nil (fun _ hc => absurd hc List.not_mem_nil)).1⟩

/-- After the inner context of the first configuration, that one is taken for the current one; and
a context that is closed a second time, which is refused, takes that around it from the stack. -/
theorem not_restores :
    ¬ (context ⟨0, 0⟩ (context ⟨1, 1⟩ (context ⟨0, 2⟩ done (.ok ()) done) (.ok ()) done)
      (.ok ()) done : Calls ℕ).Restores .new ∧
    ¬ (context ⟨0, 0⟩ (context ⟨0, 1⟩ done (.ok ()) (further ⟨0, 1⟩ (.ok ()) done))
      (.ok ()) done : Calls ℕ).Restores .new ∧
    Thread.Refused ⟨0, 1⟩ ((context ⟨0, 1⟩ done (.ok ()) done : Calls ℕ).run
      (Thread.new.jbpmContextCreated ⟨0, 0⟩)) := by
  refine ⟨fun h => ?_, fun h => ?_, refused_iff.2 (by decide)⟩
  · have hcurrent := h.1.1.2.1.1
    revert hcurrent
    decide
  · have hcontexts := congrArg (fun s => s.contexts 0) h.1.2.2.1
    revert hcontexts
    decide

end Calls

end Svc

end Jbpm
