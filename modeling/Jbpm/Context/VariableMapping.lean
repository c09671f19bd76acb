/-
  Variables that are copied into a task or a sub-process when it starts, and back when it
  ends, as variable accesses say.

  * `setVariables`: several variables of a token are set, one after the other;
  * `setVariables_spec`: if the names are different the order does not matter;
  * `initializeVariables`, `submitParameters`: the controller of a task;
  * `execute`, `leave`: a process state and its sub-process;
  * `task_mapping`, `process_mapping`: what is copied, in any run in between.
-/
import Mathlib.Data.List.Infix
import Mathlib.Data.List.Nodup
import Jbpm.Context.VariableScope

namespace Jbpm

namespace Context

variable {T : Types} {K : Type} {L : Library T}

/-! ## Variable accesses -/

/-- The text of an access: `none` stands for `new Access(null)`. -/
def Access.text (access : Option String) : String :=
  match access with
  | none => "read,write"
  | some access => if access = "" then " " else access

structure VariableAccess where
  variableName : String
  /-- in lower case -/
  access : Option String
  mappedName : Option String

namespace VariableAccess

variable (a : VariableAccess)

def getMappedName : String := a.mappedName.getD a.variableName

def hasAccess (accessLiteral : String) : Bool :=
  decide (accessLiteral.toList <:+: (Access.text a.access).toList)

def isReadable : Bool := a.hasAccess "read"

def isWritable : Bool := a.hasAccess "write"

def isRequired : Bool := a.hasAccess "required"

/-- The values that are copied, with the names they are copied to. -/
def copies (has : VariableAccess → Bool) (name : VariableAccess → String)
    (get : VariableAccess → Obj T) (as : List VariableAccess) : List (String × Obj T) :=
  as.filterMap fun a => if has a && !(get a).isNull then some (name a, get a) else none

section
variable {has : VariableAccess → Bool} {name : VariableAccess → String}
  {get get' : VariableAccess → Obj T} {as : List VariableAccess} {x : String × Obj T}

theorem mem_copies : x ∈ copies has name get as ↔
    ∃ a ∈ as, has a = true ∧ (get a).isNull = false ∧ x = (name a, get a) := by
  rw [copies, List.mem_filterMap]
  refine exists_congr fun a => and_congr_right fun _ => ?_
  rcases has a <;> rcases (get a).isNull
  all_goals simp [eq_comm]

theorem copies_sublist :
    ((copies has name get as).map Prod.fst).Sublist ((as.filter has).map name) := by
  induction as with
  | nil => exact List.Sublist.refl _
  | cons a as ih =>
    rw [copies, List.filterMap_cons, List.filter_cons]
    rcases has a <;> rcases (get a).isNull
    · exact ih
    · exact ih
    · exact ih.cons_cons _
    · exact ih.cons _

theorem copies_cons_of_neg {a : VariableAccess} (h : has a = false) :
    copies has name get (a :: as) = copies has name get as := by
  rw [copies, List.filterMap_cons, h]
  rfl

theorem copies_cons_of_null {a : VariableAccess} (h : (get a).isNull = true) :
    copies has name get (a :: as) = copies has name get as := by
  rw [copies, List.filterMap_cons, h, Bool.not_true, Bool.and_false]
  rfl

theorem copies_cons_of_pos {a : VariableAccess} (h : has a = true) (h' : (get a).isNull = false) :
    copies has name get (a :: as) = (name a, get a) :: copies has name get as := by
  rw [copies, List.filterMap_cons, h, h']
  rfl

end

end VariableAccess

/-! ## Several variables of a token -/

namespace ContextInstance

section
variable [DecidableEq K] (F : Lib.Forest K)

/-- Variables are set until one cannot be. -/
def setVariables (t : K) : List (String × Obj T) → ContextInstance K String L →
    Except Exn Unit × ContextInstance K String L
  | [], c => (.ok (), c)
  | (n, v) :: vs, c =>
    match setVariable F c n v t with
    | (.error e, c) => (.error e, c)
    | (.ok (), c) => setVariables t vs c

variable {F} {c c' c₁ : ContextInstance K String L} {n m : String} {v w : Obj T} {s t u : K}

omit [DecidableEq K] in
theorem held_eq_getD : (c s).getD (fun _ => none) m = held c m s := by
  rw [held]
  rcases hs : c s with _ | x
  · rfl
  · rfl

omit [DecidableEq K] in
theorem SameReads.refl : SameReads F c c m u := ⟨rfl, rfl⟩

omit [DecidableEq K] in
theorem SameReads.trans (h : SameReads F c c₁ m u) (h' : SameReads F c₁ c' m u) :
    SameReads F c c' m u :=
  ⟨h'.1.trans h.1, h'.2.trans h.2⟩

omit [DecidableEq K] in
theorem sameReads_of_held_eq (h : ∀ s, held c' m s = held c m s) : SameReads F c c' m u :=
  sameReads_of_nearest (congrArg ((F.path u).findSome? ·) (funext h))

omit [DecidableEq K] in
theorem holder_of_held_eq (h : ∀ s, held c' m s = held c m s) : holder F c' m t = holder F c m t :=
  congrArg (fun p => (F.path t).find? p) (funext fun s => by rw [h])

theorem typeFor_congr {a b : VariableContainer String L} (h : a m = b m) :
    VariableContainer.typeFor m w a = VariableContainer.typeFor m w b := by
  rw [VariableContainer.typeFor, VariableContainer.typeFor, h]

/-- The nearest map is there once a variable has been set. -/
theorem Writes.isSome_root (hw : Writes F c (setVariable F c n v t) n v (scope F c n t))
    (hholder : holder F (setVariable F c n v t).2 n t = some (scope F c n t))
    (h : (c (F.root t)).isSome = true ∨ ∀ s ∈ F.path t, c s = none) :
    ((setVariable F c n v t).2 (F.root t)).isSome = true := by
  by_cases hs : F.root t = scope F c n t
  · rw [hs]
    exact (mem_path_of_holder hholder).2
  · rcases h with hroot | hnone
    · rwa [hw.changes.maps _ hs]
    · refine absurd ?_ hs
      have hnil : holder F c n t = none := by
        refine List.find?_eq_none.2 fun s hs => ?_
        rw [held, hnone s hs]
        exact Bool.false_ne_true
      rw [scope, hnil, Option.getD_none]

/-- What can be set still can after another variable has been set. -/
theorem Fits.of_writes (h : Fits F c (.set m w t)) (hne : m ≠ n)
    (hw : Writes F c (setVariable F c n v t) n v (scope F c n t))
    (hholder : holder F (setVariable F c n v t).2 n t = some (scope F c n t)) :
    Fits F (setVariable F c n v t).2 (.set m w t) := by
  have hheld : ∀ s, held (setVariable F c n v t).2 m s = held c m s := fun s =>
    hw.changes.held_eq fun hs => hne hs.1
  have hholder' : holder F (setVariable F c n v t).2 m t = holder F c m t :=
    holder_of_held_eq hheld
  have hscope : scope F (setVariable F c n v t).2 m t = scope F c m t := by
    rw [scope, scope, hholder']
  constructor
  · rcases h.1 with hm | hroot
    · exact .inl (by rwa [hholder'])
    · exact .inr (.inl (hw.isSome_root hholder hroot))
  · show (VariableContainer.typeFor m w _).Accepts L w
    rw [hscope, typeFor_congr (held_eq_getD.trans ((hheld _).trans held_eq_getD.symm))]
    exact h.2

/-- Variables of different names: all are set, and nothing else is read differently. -/
theorem setVariables_spec (vs : List (String × Obj T)) (hn : (vs.map Prod.fst).Nodup)
    (h : ∀ v ∈ vs, Fits F c (.set v.1 v.2 t)) :
    (setVariables F t vs c).1 = .ok () ∧
      (∀ v ∈ vs, hasVariable F (setVariables F t vs c).2 v.1 t = true ∧
        getVariable F (setVariables F t vs c).2 v.1 t = v.2) ∧
      ∀ m u, m ∉ vs.map Prod.fst → SameReads F c (setVariables F t vs c).2 m u := by
  induction vs generalizing c with
  | nil => exact ⟨rfl, fun v hv => absurd hv List.not_mem_nil, fun _ _ _ => SameReads.refl⟩
  | cons v vs ih =>
    obtain ⟨n, v⟩ := v
    rw [List.map_cons, List.nodup_cons] at hn
    obtain ⟨hw, hholder⟩ := obeys_set_iff.2 (h (n, v) List.mem_cons_self)
    have hfits : ∀ x ∈ vs, Fits F (setVariable F c n v t).2 (.set x.1 x.2 t) := by
      intro x hx
      refine (h x (List.mem_cons_of_mem _ hx)).of_writes ?_ hw hholder
      rintro rfl
      exact hn.1 (List.mem_map.2 ⟨x, hx, rfl⟩)
    obtain ⟨hok, hread, hsame⟩ := ih hn.2 hfits
    have hset : setVariables F t ((n, v) :: vs) c =
        setVariables F t vs (setVariable F c n v t).2 := by
      have hr := hw.returns
      rcases hc : setVariable F c n v t with ⟨_ | ⟨⟩, c₁⟩
      · rw [hc] at hr
        cases hr
      · simp only [setVariables, hc]
    rw [hset]
    refine ⟨hok, fun x hx => ?_, fun m u hm => ?_⟩
    · rcases List.mem_cons.1 hx with rfl | hx
      · obtain ⟨hhas, hget⟩ := hw.readers t hholder
        obtain ⟨hhas', hget'⟩ := hsame n t hn.1
        exact ⟨hhas'.trans hhas, hget'.trans hget⟩
      · exact hread x hx
    · rw [List.map_cons, List.mem_cons, not_or] at hm
      exact (hw.others u m fun he => hm.1 he.1).trans (hsame m u hm.2)

/-! ## Updates of other names -/

/-- The name that an update is about. -/
def Op.name : Op K String T → String
  | .set n _ _ => n
  | .setLocally n _ _ => n
  | .delete n _ => n

/-- No update changes what is read of another name, whether it succeeds or not. -/
theorem sameReads_exec {op : Op K String T} (h : m ≠ op.name) :
    SameReads F c (exec F c op) m u := by
  cases op with
  | set n v t =>
    obtain ⟨x, -, c₁, hset, hc₁, -⟩ := setVariable_eq (F := F) (c := c) (n := n) (v := v) (t := t)
    refine sameReads_of_held_eq fun s => ?_
    show held (setVariable F c n v t).2 m s = _
    rw [hset]
    exact (hc₁.trans changes_setInMap).held_eq fun he => h he.1
  | setLocally n v t =>
    exact sameReads_of_held_eq fun s =>
      (changes_createTokenVariableMap.trans changes_setInMap).held_eq fun he => h he.1
  | delete n t =>
    show SameReads F c (deleteVariable F c n t) m u
    rcases hs : getTokenVariableMap F c t with _ | s
    · rw [deleteVariable, hs]
      exact SameReads.refl
    · exact (obeys_delete s hs).others u m fun he => h he.1

/-- A token keeps its map. -/
theorem isSome_setInMap (h : (c s).isSome = true) : ((setInMap c n v t).2 s).isSome = true := by
  rw [setInMap]
  split
  · dsimp only
    by_cases hst : s = t
    · rw [hst, Function.update_self]
      rfl
    · rwa [Function.update_of_ne hst]
  · exact h

theorem isSome_exec {op : Op K String T} (h : (c s).isSome = true) :
    (exec F c op s).isSome = true := by
  cases op with
  | set n v t =>
    obtain ⟨x, -, c₁, hset, hc₁, hx, -⟩ :=
      setVariable_eq (F := F) (c := c) (n := n) (v := v) (t := t)
    have hs : (c₁ s).isSome = true := by
      by_cases hsx : s = x
      · rwa [hsx]
      · rwa [hc₁.maps s hsx]
    show ((setVariable F c n v t).2 s).isSome = true
    rw [hset]
    exact isSome_setInMap hs
  | setLocally n v t =>
    refine isSome_setInMap ?_
    by_cases hst : s = t
    · rw [hst]
      exact isSome_createTokenVariableMap
    · rwa [(changes_createTokenVariableMap (n := n)).maps s hst]
  | delete n t =>
    show (deleteVariable F c n t s).isSome = true
    rw [deleteVariable]
    rcases getTokenVariableMap F c t with _ | s'
    · exact h
    · dsimp only
      by_cases hs : s = s'
      · rw [← hs, Function.update_self, Option.isSome_map]
        exact h
      · rwa [Function.update_of_ne hs]

theorem sameReads_run {ops : List (Op K String T)} (h : ∀ op ∈ ops, m ≠ op.name) :
    SameReads F c (ops.foldl (fun c op => exec F c op) c) m u := by
  induction ops generalizing c with
  | nil => exact SameReads.refl
  | cons op ops ih =>
    exact (sameReads_exec (h op List.mem_cons_self)).trans
      (ih fun o ho => h o (List.mem_cons_of_mem _ ho))

end

end ContextInstance

/-! ## The variables of a task -/

/-- A task instance of a token, and the process that it belongs to. -/
structure TaskInstance (K : Type) {T : Types} (L : Library T) where
  variableInstances : VariableContainer String L
  process : ContextInstance K String L

/-- What `TaskController` throws. -/
inductive SubmitException where
  | illegalArgument (message : String)
  | variable (e : Exn)
  deriving DecidableEq

namespace TaskInstance

section
variable [DecidableEq K] (F : Lib.Forest K) (t : K)

/-- The map of the token is made when it is asked for. -/
def getParentVariableContainer (i : TaskInstance K L) : TaskInstance K L :=
  { i with process := (ContextInstance.getOrCreateTokenVariableMap F i.process t).2 }

def getVariable (n : String) (i : TaskInstance K L) : Obj T × TaskInstance K L :=
  if i.variableInstances.hasVariableLocally n then (i.variableInstances.getVariableLocally n, i)
  else
    let i := i.getParentVariableContainer F t
    (ContextInstance.getVariable F i.process n t, i)

def setVariableLocally (n : String) (v : Obj T) (i : TaskInstance K L) : TaskInstance K L :=
  { i with variableInstances := (i.variableInstances.setVariableLocally n v).2 }

/-- `setVariable(name, value)`: what is not local is set in the process, whose map is asked for in
    either case. -/
def setVariable (n : String) (v : Obj T) (i : TaskInstance K L) : TaskInstance K L :=
  let i := i.getParentVariableContainer F t
  if i.variableInstances.hasVariableLocally n then i.setVariableLocally n v
  else { i with process := (ContextInstance.setVariable F i.process n v t).2 }

def deleteVariable (n : String) (i : TaskInstance K L) : TaskInstance K L :=
  { i with variableInstances := i.variableInstances.deleteVariableLocally n }

/-- What happens while the task is open. -/
inductive Op (K : Type) (T : Types) where
  | setVariable (n : String) (v : Obj T)
  | setVariableLocally (n : String) (v : Obj T)
  | deleteVariable (n : String)
  /-- the process goes on -/
  | process (op : ContextInstance.Op K String T)

def exec (i : TaskInstance K L) : Op K T → TaskInstance K L
  | .setVariable n v => i.setVariable F t n v
  | .setVariableLocally n v => i.setVariableLocally n v
  | .deleteVariable n => i.deleteVariable n
  | .process op => { i with process := ContextInstance.exec F i.process op }

end

end TaskInstance

namespace TaskController

section
variable [DecidableEq K] (F : Lib.Forest K) (t : K)

/-- The value that a variable of the task starts with. -/
def initialValue (c : ContextInstance K String L) (a : VariableAccess) : Obj T :=
  if a.isReadable then ContextInstance.getVariable F c a.variableName t else .null

def initializeVariables : List VariableAccess → TaskInstance K L →
    Except Exn Unit × TaskInstance K L
  | [], i => (.ok (), i)
  | a :: variableAccesses, i =>
    match i.variableInstances.setVariableLocally a.getMappedName (initialValue F t i.process a) with
    | (.error e, m) => (.error e, { i with variableInstances := m })
    | (.ok (), m) => initializeVariables variableAccesses { i with variableInstances := m }

/-- The loop that looks for required variables. -/
def missingTaskVariables (m : VariableContainer String L) :
    List VariableAccess → Option String → Option String
  | [], missing => missing
  | a :: variableAccesses, missing =>
    missingTaskVariables m variableAccesses <|
      if a.isRequired && !m.hasVariableLocally a.getMappedName then
        match missing with
        | none => some a.getMappedName
        | some names => some (names ++ (", " ++ a.getMappedName))
      else missing

/-- The loop that writes to the process. -/
def submitAll : List VariableAccess → TaskInstance K L →
    Except SubmitException Unit × TaskInstance K L
  | [], i => (.ok (), i)
  | a :: variableAccesses, i =>
    if a.isWritable then
      let (value, i) := i.getVariable F t a.getMappedName
      if value.isNull then submitAll variableAccesses i
      else
        match ContextInstance.setVariable F i.process a.variableName value t with
        | (.error e, c) => (.error (.variable e), { i with process := c })
        | (.ok (), c) => submitAll variableAccesses { i with process := c }
    else submitAll variableAccesses i

def submitParameters (variableAccesses : List VariableAccess) (i : TaskInstance K L) :
    Except SubmitException Unit × TaskInstance K L :=
  match missingTaskVariables i.variableInstances variableAccesses none with
  | some names => (.error (.illegalArgument ("missing task variables: " ++ names)), i)
  | none => submitAll F t variableAccesses i

end

end TaskController

/-! ## What a task holds -/

namespace VariableContainer

variable {m : VariableContainer String L} {n k : String} {v w : Obj T}

/-- There is a variable of the name, with the value. -/
def Holds (m : VariableContainer String L) (n : String) (v : Obj T) : Prop :=
  ∃ j, m n = some j ∧ j.getValue = v

theorem Holds.hasVariableLocally (h : Holds m n v) : m.hasVariableLocally n = true := by
  obtain ⟨j, hj, -⟩ := h
  rw [VariableContainer.hasVariableLocally, hj]
  rfl

theorem Holds.getVariableLocally (h : Holds m n v) : m.getVariableLocally n = v := by
  obtain ⟨j, hj, hv⟩ := h
  simp only [VariableContainer.getVariableLocally, hj, hv]

theorem setVariableLocally_holds (h : (typeFor n v m).Accepts L v) :
    (setVariableLocally n v m).1 = .ok () ∧ Holds (setVariableLocally n v m).2 n v := by
  have hok := setVariableLocally_ok_iff.2 h
  obtain ⟨j, -, -, hj⟩ := setVariableLocally_spec (n := n) (v := v) (c := m)
  exact ⟨hok, _, hj hok, Variable.getValue_setValue⟩

theorem Holds.of_eq {m' : VariableContainer String L} (h : Holds m n v) (heq : m' n = m n) :
    Holds m' n v := by
  rwa [Holds, heq]

end VariableContainer

namespace TaskController

section
variable [DecidableEq K] {F : Lib.Forest K} {t : K} {i : TaskInstance K L}

omit [DecidableEq K] in
theorem initializeVariables_spec (as : List VariableAccess)
    (hn : (as.map VariableAccess.getMappedName).Nodup)
    (h : ∀ a ∈ as, (VariableContainer.typeFor a.getMappedName (initialValue F t i.process a)
      i.variableInstances).Accepts L (initialValue F t i.process a)) :
    (initializeVariables F t as i).1 = .ok () ∧
      (initializeVariables F t as i).2.process = i.process ∧
      (∀ a ∈ as, (initializeVariables F t as i).2.variableInstances.Holds a.getMappedName
        (initialValue F t i.process a)) ∧
      ∀ n, n ∉ as.map VariableAccess.getMappedName →
        (initializeVariables F t as i).2.variableInstances n = i.variableInstances n := by
  induction as generalizing i with
  | nil => exact ⟨rfl, rfl, fun a ha => absurd ha List.not_mem_nil, fun _ _ => rfl⟩
  | cons a as ih =>
    rw [List.map_cons, List.nodup_cons] at hn
    obtain ⟨hok, hholds⟩ := VariableContainer.setVariableLocally_holds (h a List.mem_cons_self)
    have hne : ∀ b ∈ as, b.getMappedName ≠ a.getMappedName := by
      intro b hb he
      exact hn.1 (he ▸ List.mem_map_of_mem hb)
    rcases hset : i.variableInstances.setVariableLocally a.getMappedName
      (initialValue F t i.process a) with ⟨_ | ⟨⟩, m⟩
    · rw [hset] at hok
      cases hok
    have hm : ∀ n, n ≠ a.getMappedName → m n = i.variableInstances n := by
      intro n hn
      have := VariableContainer.setVariableLocally_of_ne (v := initialValue F t i.process a)
        (c := i.variableInstances) hn
      rwa [hset] at this
    rw [hset] at hholds
    obtain ⟨hok', hprocess, hall, hrest⟩ := ih (i := { i with variableInstances := m }) hn.2
      fun b hb => by
        rw [ContextInstance.typeFor_congr (hm _ (hne b hb))]
        exact h b (List.mem_cons_of_mem _ hb)
    simp only [initializeVariables, hset]
    refine ⟨hok', hprocess, fun b hb => ?_, fun n hn' => ?_⟩
    · rcases List.mem_cons.1 hb with rfl | hb
      · exact hholds.of_eq (hrest _ hn.1)
      · exact hall b hb
    · rw [List.map_cons, List.mem_cons, not_or] at hn'
      exact (hrest n hn'.2).trans (hm n hn'.1)

theorem missingTaskVariables_eq_none {m : VariableContainer String L} (as : List VariableAccess)
    {missing : Option String} : missingTaskVariables m as missing = none ↔
      missing = none ∧
        ∀ a ∈ as, a.isRequired = true → m.hasVariableLocally a.getMappedName = true := by
  induction as generalizing missing with
  | nil => simp [missingTaskVariables]
  | cons a as ih =>
    simp only [missingTaskVariables]
    rw [ih, List.forall_mem_cons]
    rcases hr : a.isRequired <;> rcases hl : m.hasVariableLocally a.getMappedName
    all_goals rcases missing with _ | names
    all_goals simp

/-- What is written to the process, if all that is read is local. -/
def written (m : VariableContainer String L) : List VariableAccess → List (String × Obj T) :=
  VariableAccess.copies VariableAccess.isWritable VariableAccess.variableName fun a =>
    m.getVariableLocally a.getMappedName

theorem submitAll_eq (as : List VariableAccess)
    (h : ∀ a ∈ as, i.variableInstances.hasVariableLocally a.getMappedName = true)
    (hok : (ContextInstance.setVariables F t (written i.variableInstances as) i.process).1 =
      .ok ()) :
    submitAll F t as i = (.ok (), { i with process :=
      (ContextInstance.setVariables F t (written i.variableInstances as) i.process).2 }) := by
  induction as generalizing i with
  | nil => rfl
  | cons a as ih =>
    obtain ⟨ha, has⟩ := List.forall_mem_cons.1 h
    have hget : i.getVariable F t a.getMappedName =
        (i.variableInstances.getVariableLocally a.getMappedName, i) := if_pos ha
    rw [submitAll, hget]
    rcases hw : a.isWritable with _ | _
    · rw [written, VariableAccess.copies_cons_of_neg hw] at hok ⊢
      exact ih has hok
    · rcases hnull : (i.variableInstances.getVariableLocally a.getMappedName).isNull with _ | _
      · rw [written, VariableAccess.copies_cons_of_pos hw hnull,
          ContextInstance.setVariables] at hok ⊢
        rcases hset : ContextInstance.setVariable F i.process a.variableName
          (i.variableInstances.getVariableLocally a.getMappedName) t with ⟨_ | ⟨⟩, c⟩
        · rw [hset] at hok
          cases hok
        · rw [hset] at hok
          simp only [if_true, hnull, Bool.false_eq_true, if_false, hset]
          exact ih (i := { i with process := c }) has hok
      · rw [written, VariableAccess.copies_cons_of_null hnull] at hok ⊢
        simp only [if_true, hnull]
        exact ih has hok

end

end TaskController

/-! ## While a task is open -/

namespace TaskInstance

section
variable [DecidableEq K] {F : Lib.Forest K} {t : K} {i i' : TaskInstance K L} {op : Op K T}
  {ops : List (Op K T)} {names : List String} {n : String} {v : Obj T}

/-- The value of the task variable `n` after an update, if it was `v` before. -/
def Op.assigned (n : String) (v : Obj T) : Op K T → Obj T
  | .setVariable m w => if m = n then w else v
  | .setVariableLocally m w => if m = n then w else v
  | .deleteVariable _ => v
  | .process _ => v

/-- The value assigned last. -/
def lastAssigned (n : String) (v : Obj T) (ops : List (Op K T)) : Obj T :=
  ops.foldl (fun v op => op.assigned n v) v

/-- An update that can be done, and leaves the variables of the names where they are. -/
def Fits (names : List String) (i : TaskInstance K L) : Op K T → Prop
  | .setVariable n v =>
    n ∈ names → (VariableContainer.typeFor n v i.variableInstances).Accepts L v
  | .setVariableLocally n v =>
    n ∈ names → (VariableContainer.typeFor n v i.variableInstances).Accepts L v
  | .deleteVariable n => n ∉ names
  | .process _ => True

/-- The assignments to the names. -/
def Op.isInside (names : List String) : Op K T → Bool
  | .setVariable n _ => decide (n ∈ names)
  | .setVariableLocally n _ => decide (n ∈ names)
  | .deleteVariable _ => false
  | .process _ => false

theorem setVariable_of_local (h : i.variableInstances.hasVariableLocally n = true) (v : Obj T) :
    i.setVariable F t n v = (i.getParentVariableContainer F t).setVariableLocally n v := if_pos h

theorem setVariable_of_not_local (h : ¬ i.variableInstances.hasVariableLocally n = true)
    (v : Obj T) : i.setVariable F t n v = { i.getParentVariableContainer F t with
      process := (ContextInstance.setVariable F
        (i.getParentVariableContainer F t).process n v t).2 } := if_neg h

variable (F t) in
/-- What the process notices of an assignment to one of the names. -/
def Op.noticed (i : TaskInstance K L) : Op K T → TaskInstance K L
  | .setVariable _ _ => i.getParentVariableContainer F t
  | _ => i

variable (F t) in
/-- The update, without the value of an assignment to one of the names. -/
def execOutside (names : List String) (i : TaskInstance K L) (op : Op K T) : TaskInstance K L :=
  if op.isInside names then op.noticed F t i else exec F t i op

variable (F t) in
/-- A token on the way to the root has a map. -/
def Mapped (i : TaskInstance K L) : Prop := ∃ s ∈ F.path t, (i.process s).isSome = true

omit [DecidableEq K] in
theorem setVariableLocally_holds (h : i.variableInstances.Holds n v) {m : String} {w : Obj T}
    (hw : m = n → (VariableContainer.typeFor m w i.variableInstances).Accepts L w) :
    (i.setVariableLocally m w).variableInstances.Holds n (if m = n then w else v) := by
  split
  · rename_i he
    subst he
    exact (VariableContainer.setVariableLocally_holds (hw rfl)).2
  · rename_i hne
    exact h.of_eq (VariableContainer.setVariableLocally_of_ne fun he => hne he.symm)

theorem exec_holds (h : i.variableInstances.Holds n v) (hn : n ∈ names) (hop : Fits names i op) :
    (exec F t i op).variableInstances.Holds n (op.assigned n v) := by
  cases op with
  | setVariable m w =>
    rw [exec]
    by_cases hm : i.variableInstances.hasVariableLocally m = true
    · rw [setVariable_of_local hm]
      exact setVariableLocally_holds (i := i.getParentVariableContainer F t) h
        fun he => hop (he ▸ hn)
    · rw [setVariable_of_not_local hm]
      refine Eq.mp (congrArg (i.variableInstances.Holds n) (if_neg ?_).symm) h
      rintro rfl
      exact hm h.hasVariableLocally
  | setVariableLocally m w => exact setVariableLocally_holds h fun he => hop (he ▸ hn)
  | deleteVariable m =>
    refine h.of_eq (Function.update_of_ne ?_ _ _)
    rintro rfl
    exact hop hn
  | process op => exact h

/-- While the updates fit, the task keeps its variables, with the values assigned last. -/
theorem run_holds (h : i.variableInstances.Holds n v) (hn : n ∈ names)
    (hops : Lib.Allowed (Fits names) (exec F t) i ops) :
    (ops.foldl (exec F t) i).variableInstances.Holds n (lastAssigned n v ops) := by
  induction ops generalizing i v with
  | nil => exact h
  | cons op ops ih => exact ih (exec_holds h hn hops.1) hops.2

/-- The same process, and the same task but for the variables of the names. -/
structure Outside (names : List String) (i i' : TaskInstance K L) : Prop where
  process : i.process = i'.process
  others : ∀ n, n ∉ names → i.variableInstances n = i'.variableInstances n

omit [DecidableEq K] in
theorem Outside.hasVariableLocally (h : Outside names i i') (hn : n ∉ names) :
    i.variableInstances.hasVariableLocally n = i'.variableInstances.hasVariableLocally n := by
  rw [VariableContainer.hasVariableLocally, VariableContainer.hasVariableLocally, h.others n hn]

/-- What an assignment leaves in the variable depends on the old variable only. -/
theorem setVariableLocally_congr {c c' : VariableContainer String L} (h : c n = c' n) :
    (c.setVariableLocally n v).2 n = (c'.setVariableLocally n v).2 n := by
  have hd : VariableContainer.deleteUnsupported n v c n =
      VariableContainer.deleteUnsupported n v c' n := by
    rw [VariableContainer.deleteUnsupported, VariableContainer.deleteUnsupported, ← h]
    rcases hc : c n with _ | j
    · exact h
    · by_cases hs : j.1.type.supports v = true
      · simp only [hs, if_true]
        exact h
      · simp only [hs, Bool.false_eq_true, if_false, VariableContainer.deleteVariableLocally,
          Function.update_self]
  rw [VariableContainer.setVariableLocally, VariableContainer.setVariableLocally, ← hd]
  rcases hdc : VariableContainer.deleteUnsupported n v c n with _ | j
  · rcases (Variable.create v : Except Exn (Variable L)) with e | j
    · dsimp only
      rw [← hd, hdc]
    · simp only [Function.update_self]
  · simp only [Function.update_self]

omit [DecidableEq K] in
theorem Outside.setVariableLocally (h : Outside names i i') :
    Outside names (i.setVariableLocally n v) (i'.setVariableLocally n v) := by
  refine ⟨h.process, fun k hk => ?_⟩
  by_cases he : k = n
  · subst he
    exact setVariableLocally_congr (h.others k hk)
  · exact (VariableContainer.setVariableLocally_of_ne he).trans
      ((h.others k hk).trans (VariableContainer.setVariableLocally_of_ne he).symm)

theorem Outside.getParentVariableContainer (h : Outside names i i') :
    Outside names (i.getParentVariableContainer F t) (i'.getParentVariableContainer F t) :=
  ⟨congrArg (fun c => (ContextInstance.getOrCreateTokenVariableMap F c t).2) h.process, h.others⟩

theorem Outside.exec (h : Outside names i i') (hop : op.isInside names = false) :
    Outside names (exec F t i op) (TaskInstance.exec F t i' op) := by
  cases op with
  | setVariable n v =>
    have hn : n ∉ names := of_decide_eq_false hop
    have hmade := h.getParentVariableContainer (F := F) (t := t)
    simp only [TaskInstance.exec, setVariable, hmade.hasVariableLocally hn]
    split
    · exact hmade.setVariableLocally
    · exact ⟨by rw [hmade.process], hmade.others⟩
  | setVariableLocally n v => exact h.setVariableLocally
  | deleteVariable n =>
    refine ⟨h.process, fun k hk => ?_⟩
    by_cases he : k = n
    · subst he
      simp only [TaskInstance.exec, deleteVariable, VariableContainer.deleteVariableLocally,
        Function.update_self]
    · exact (Function.update_of_ne he _ _).trans
        ((h.others k hk).trans (Function.update_of_ne he _ _).symm)
  | process op => exact ⟨congrArg (ContextInstance.exec F · op) h.process, h.others⟩

/-- Of an assignment to one of the names the process notices that its map is asked for. -/
theorem Outside.inside (h : Outside names i i') (hop : op.isInside names = true)
    (hheld : ∀ n ∈ names, i.variableInstances.hasVariableLocally n = true) :
    Outside names (TaskInstance.exec F t i op) (op.noticed F t i') := by
  have hset {j j' : TaskInstance K L} (hj : Outside names j j') (n : String) (v : Obj T)
      (hn : n ∈ names) : Outside names (j.setVariableLocally n v) j' :=
    ⟨hj.process, fun k hk => (VariableContainer.setVariableLocally_of_ne fun he : k = n =>
      hk (he ▸ hn)).trans (hj.others k hk)⟩
  cases op with
  | setVariable n v =>
    have hn : n ∈ names := of_decide_eq_true hop
    rw [TaskInstance.exec, setVariable_of_local (hheld n hn)]
    exact hset (h.getParentVariableContainer (F := F) (t := t)) n v hn
  | setVariableLocally n v => exact hset h n v (of_decide_eq_true hop)
  | deleteVariable n => cases hop
  | process op => cases hop

/-- **Isolation.**  The process does not notice what is assigned to the variables of the task. -/
theorem run_outside (h : Outside names i i')
    (hheld : ∀ n ∈ names, ∃ v, i.variableInstances.Holds n v)
    (hops : Lib.Allowed (Fits names) (exec F t) i ops) :
    Outside names (ops.foldl (exec F t) i) (ops.foldl (execOutside F t names) i') := by
  induction ops generalizing i i' with
  | nil => exact h
  | cons op ops ih =>
    have hheld' : ∀ n ∈ names, ∃ v, (exec F t i op).variableInstances.Holds n v := fun n hn =>
      (hheld n hn).elim fun v hv => ⟨_, exec_holds hv hn hops.1⟩
    rw [List.foldl_cons, List.foldl_cons, execOutside]
    rcases hop : op.isInside names with _ | _
    · rw [if_neg Bool.false_ne_true]
      exact ih (h.exec hop) hheld' hops.2
    · rw [if_pos rfl]
      exact ih (h.inside hop fun n hn => (hheld n hn).elim fun v hv => hv.hasVariableLocally)
        hheld' hops.2

/-! ### Where there is a map already -/

theorem getParentVariableContainer_of_mapped (h : Mapped F t i) :
    i.getParentVariableContainer F t = i := by
  obtain ⟨s, hs, hmap⟩ := h
  rw [getParentVariableContainer, ContextInstance.getOrCreateTokenVariableMap]
  rcases hfind : ContextInstance.getTokenVariableMap F i.process t with _ | s'
  · refine absurd hmap ?_
    rw [ContextInstance.getTokenVariableMap, List.find?_eq_none] at hfind
    exact hfind s hs
  · rfl

theorem Mapped.exec (h : Mapped F t i) (op : Op K T) : Mapped F t (exec F t i op) := by
  obtain ⟨s, hs, hmap⟩ := h
  cases op with
  | setVariable n v =>
    have hmade := getParentVariableContainer_of_mapped ⟨s, hs, hmap⟩
    rw [TaskInstance.exec]
    by_cases hn : i.variableInstances.hasVariableLocally n = true
    · rw [setVariable_of_local hn, hmade]
      exact ⟨s, hs, hmap⟩
    · rw [setVariable_of_not_local hn, hmade]
      have hset : (ContextInstance.exec F i.process (.set n v t) s).isSome = true :=
        ContextInstance.isSome_exec hmap
      exact ⟨s, hs, hset⟩
  | setVariableLocally n v => exact ⟨s, hs, hmap⟩
  | deleteVariable n => exact ⟨s, hs, hmap⟩
  | process op => exact ⟨s, hs, ContextInstance.isSome_exec hmap⟩

/-- The run without the assignments to the names. -/
theorem foldl_execOutside (h : Mapped F t i) : ops.foldl (execOutside F t names) i =
    (ops.filter fun op => !op.isInside names).foldl (exec F t) i := by
  induction ops generalizing i with
  | nil => rfl
  | cons op ops ih =>
    rw [List.foldl_cons, execOutside]
    rcases hop : op.isInside names with _ | _
    · rw [if_neg Bool.false_ne_true, List.filter_cons_of_pos (by rw [hop]; rfl), List.foldl_cons]
      exact ih (h.exec op)
    · rw [if_pos rfl, List.filter_cons_of_neg (by rw [hop]; exact Bool.false_ne_true)]
      have hnoticed : op.noticed F t i = i := by
        cases op with
        | setVariable n v => exact getParentVariableContainer_of_mapped h
        | _ => rfl
      rw [hnoticed]
      exact ih h

end

end TaskInstance

/-! ## There and back -/

namespace TaskController

section
variable [DecidableEq K]

/-- **Task variables.**  A task starts with copies of what it may read, its process does not
    notice what the task assigns to them, only that its map is asked for, and when the task is
    submitted, the variables that it may write have the values assigned last; nothing else is
    read differently, and nothing is missing. -/
theorem task_mapping (F : Lib.Forest K) (t : K) (as : List VariableAccess)
    (i₀ : TaskInstance K L) (ops : List (TaskInstance.Op K T))
    (hmapped : (as.map VariableAccess.getMappedName).Nodup)
    (hnames : ((as.filter VariableAccess.isWritable).map VariableAccess.variableName).Nodup)
    (hinit : ∀ a ∈ as, (VariableContainer.typeFor a.getMappedName (initialValue F t i₀.process a)
      i₀.variableInstances).Accepts L (initialValue F t i₀.process a))
    (hrun : Lib.Allowed (TaskInstance.Fits (as.map VariableAccess.getMappedName))
      (TaskInstance.exec F t) (initializeVariables F t as i₀).2 ops) :
    let i₁ := (initializeVariables F t as i₀).2
    let i := ops.foldl (TaskInstance.exec F t) i₁
    let names := as.map VariableAccess.getMappedName
    let value := fun a : VariableAccess =>
      TaskInstance.lastAssigned a.getMappedName (initialValue F t i₀.process a) ops
    let r := submitParameters F t as i
    (initializeVariables F t as i₀).1 = .ok () ∧ i₁.process = i₀.process ∧
      i.process = (ops.foldl (TaskInstance.execOutside F t names) i₁).process ∧
      (TaskInstance.Mapped F t i₀ → i.process =
        ((ops.filter fun op => !op.isInside names).foldl (TaskInstance.exec F t) i₁).process) ∧
      (∀ a ∈ as, i.getVariable F t a.getMappedName = (value a, i)) ∧
      ((∀ a ∈ as, a.isWritable = true → (value a).isNull = false →
          ContextInstance.Fits F i.process (.set a.variableName (value a) t)) →
        r.1 = .ok () ∧ r.2.variableInstances = i.variableInstances ∧
          (∀ a ∈ as, a.isWritable = true → (value a).isNull = false →
            ContextInstance.hasVariable F r.2.process a.variableName t = true ∧
              ContextInstance.getVariable F r.2.process a.variableName t = value a) ∧
          ∀ n u, (∀ a ∈ as, a.isWritable = true → (value a).isNull = false →
              a.variableName ≠ n) →
            ContextInstance.SameReads F i.process r.2.process n u) := by
  intro i₁ i names value r
  obtain ⟨hok, hprocess, hall, -⟩ := initializeVariables_spec as hmapped hinit
  have hholds : ∀ a ∈ as, i.variableInstances.Holds a.getMappedName (value a) := fun a ha =>
    TaskInstance.run_holds (hall a ha) (List.mem_map_of_mem ha) hrun
  have hheld : ∀ n ∈ names, ∃ v, i₁.variableInstances.Holds n v := by
    intro n hn
    obtain ⟨a, ha, rfl⟩ := List.mem_map.1 hn
    exact ⟨_, hall a ha⟩
  have hsame : TaskInstance.Outside names i₁ i₁ := ⟨rfl, fun _ _ => rfl⟩
  have houtside := TaskInstance.run_outside hsame hheld hrun
  refine ⟨hok, hprocess, houtside.process, fun hmapped₀ => ?_, fun a ha => ?_, fun hfits => ?_⟩
  · have hmapped₁ : TaskInstance.Mapped F t i₁ := by
      rw [TaskInstance.Mapped, hprocess]
      exact hmapped₀
    rw [← TaskInstance.foldl_execOutside hmapped₁]
    exact houtside.process
  · rw [TaskInstance.getVariable, if_pos (hholds a ha).hasVariableLocally,
      (hholds a ha).getVariableLocally]
  · have hlocal : ∀ a ∈ as, i.variableInstances.getVariableLocally a.getMappedName = value a :=
      fun a ha => (hholds a ha).getVariableLocally
    have hwritten : ∀ x ∈ written i.variableInstances as,
        ContextInstance.Fits F i.process (.set x.1 x.2 t) := by
      intro x hx
      obtain ⟨a, ha, hw, hnull, rfl⟩ := VariableAccess.mem_copies.1 hx
      rw [hlocal a ha] at hnull ⊢
      exact hfits a ha hw hnull
    obtain ⟨hset, hread, hsame⟩ := ContextInstance.setVariables_spec
      (written i.variableInstances as) (VariableAccess.copies_sublist.nodup hnames) hwritten
    have hmissing : missingTaskVariables i.variableInstances as none = none :=
      (missingTaskVariables_eq_none as).2
        ⟨rfl, fun a ha _ => (hholds a ha).hasVariableLocally⟩
    have hr : r = (.ok (), { i with process :=
        (ContextInstance.setVariables F t (written i.variableInstances as) i.process).2 }) := by
      show submitParameters F t as i = _
      rw [submitParameters, hmissing]
      exact submitAll_eq as (fun a ha => (hholds a ha).hasVariableLocally) hset
    rw [hr]
    refine ⟨rfl, rfl, fun a ha hw hnull => ?_, fun n u hn => hsame n u fun hmem => ?_⟩
    · exact hread _ (VariableAccess.mem_copies.2
        ⟨a, ha, hw, by rwa [hlocal a ha], by rw [hlocal a ha]⟩)
    · obtain ⟨x, hx, rfl⟩ := List.mem_map.1 hmem
      obtain ⟨a, ha, hw, hnull, rfl⟩ := VariableAccess.mem_copies.1 hx
      rw [hlocal a ha] at hnull
      exact hn a ha hw hnull rfl

end

/-- A task of a grandchild of the root copies the order, and changes it. -/
theorem task_mapping_ordered :
    ContextInstance.getVariable ContextInstance.line
      (submitParameters ContextInstance.line 2 [⟨"order", some "read,write", some "mine"⟩]
        (TaskInstance.exec ContextInstance.line 2
          (initializeVariables ContextInstance.line 2 [⟨"order", some "read,write", some "mine"⟩]
            ⟨fun _ => none, ContextInstance.ordered⟩).2
          (.setVariable "mine" (.long 8)))).2.process "order" 2 = .long 8 :=
  ((task_mapping ContextInstance.line 2 [⟨"order", some "read,write", some "mine"⟩]
    ⟨fun _ => none, ContextInstance.ordered⟩ [.setVariable "mine" (.long 8)]
    (List.nodup_singleton _) (by decide) (List.forall_mem_singleton.2 trivial)
    ⟨fun _ => trivial, trivial⟩).2.2.2.2.2
      (List.forall_mem_singleton.2 fun _ _ => ⟨.inl (by decide), trivial⟩)).2.2.1 _
    List.mem_cons_self (by decide) rfl |>.2

end TaskController

/-! ## The variables of a sub-process -/

/-- A process that waits for its sub-process: the token that waits, and the variables of
    both. -/
structure SubProcess (K K' : Type) {T : Types} (L : Library T) where
  superContext : ContextInstance K String L
  subContext : ContextInstance K' String L

namespace ProcessState

section
variable {K' : Type} [DecidableEq K] [DecidableEq K'] (F : Lib.Forest K) (F' : Lib.Forest K')
  (t : K) (root : K')

/-- The loop of `execute`, over the accesses in any order. -/
def feed : List VariableAccess → SubProcess K K' L → Except Exn Unit × SubProcess K K' L
  | [], p => (.ok (), p)
  | a :: variableAccesses, p =>
    if a.isReadable then
      let value := ContextInstance.getVariable F p.superContext a.variableName t
      if value.isNull then feed variableAccesses p
      else
        match ContextInstance.setVariable F' p.subContext a.getMappedName value root with
        | (.error e, c) => (.error e, { p with subContext := c })
        | (.ok (), c) => feed variableAccesses { p with subContext := c }
    else feed variableAccesses p

/-- The loop of `leave`. -/
def collect : List VariableAccess → SubProcess K K' L → Except Exn Unit × SubProcess K K' L
  | [], p => (.ok (), p)
  | a :: variableAccesses, p =>
    if a.isWritable then
      let value := ContextInstance.getVariable F' p.subContext a.getMappedName root
      if value.isNull then collect variableAccesses p
      else
        match ContextInstance.setVariable F p.superContext a.variableName value t with
        | (.error e, c) => (.error e, { p with superContext := c })
        | (.ok (), c) => collect variableAccesses { p with superContext := c }
    else collect variableAccesses p

/-- What happens while the sub-process runs. -/
inductive Op (K K' : Type) (T : Types) where
  | superProcess (op : ContextInstance.Op K String T)
  | subProcess (op : ContextInstance.Op K' String T)

def exec (p : SubProcess K K' L) : Op K K' T → SubProcess K K' L
  | .superProcess op => { p with superContext := ContextInstance.exec F p.superContext op }
  | .subProcess op => { p with subContext := ContextInstance.exec F' p.subContext op }

end

section
variable {K' : Type} [DecidableEq K] [DecidableEq K'] {F : Lib.Forest K} {F' : Lib.Forest K'}
  {t : K} {root : K'} {p : SubProcess K K' L}

/-- What `execute` copies. -/
def fed (F : Lib.Forest K) (t : K) (p : SubProcess K K' L) :
    List VariableAccess → List (String × Obj T) :=
  VariableAccess.copies VariableAccess.isReadable VariableAccess.getMappedName fun a =>
    ContextInstance.getVariable F p.superContext a.variableName t

/-- What `leave` copies. -/
def collected (F' : Lib.Forest K') (root : K') (p : SubProcess K K' L) :
    List VariableAccess → List (String × Obj T) :=
  VariableAccess.copies VariableAccess.isWritable VariableAccess.variableName fun a =>
    ContextInstance.getVariable F' p.subContext a.getMappedName root

omit [DecidableEq K] in
theorem feed_eq (as : List VariableAccess) : feed F F' t root as p =
    ((ContextInstance.setVariables F' root (fed F t p as) p.subContext).1,
      { p with
        subContext := (ContextInstance.setVariables F' root (fed F t p as) p.subContext).2 }) := by
  induction as generalizing p with
  | nil => rfl
  | cons a as ih =>
    rw [feed]
    rcases hr : a.isReadable with _ | _
    · rw [fed, VariableAccess.copies_cons_of_neg hr]
      exact ih
    · rcases hnull : (ContextInstance.getVariable F p.superContext a.variableName t).isNull
        with _ | _
      · rw [fed, VariableAccess.copies_cons_of_pos hr hnull, ContextInstance.setVariables]
        simp only [if_true, hnull, Bool.false_eq_true, if_false]
        rcases ContextInstance.setVariable F' p.subContext a.getMappedName
          (ContextInstance.getVariable F p.superContext a.variableName t) root with ⟨_ | ⟨⟩, c⟩
        · rfl
        · exact ih
      · rw [fed, VariableAccess.copies_cons_of_null hnull]
        simp only [if_true, hnull]
        exact ih

omit [DecidableEq K'] in
theorem collect_eq (as : List VariableAccess) : collect F F' t root as p =
    ((ContextInstance.setVariables F t (collected F' root p as) p.superContext).1,
      { p with superContext :=
          (ContextInstance.setVariables F t (collected F' root p as) p.superContext).2 }) := by
  induction as generalizing p with
  | nil => rfl
  | cons a as ih =>
    rw [collect]
    rcases hw : a.isWritable with _ | _
    · rw [collected, VariableAccess.copies_cons_of_neg hw]
      exact ih
    · rcases hnull : (ContextInstance.getVariable F' p.subContext a.getMappedName root).isNull
        with _ | _
      · rw [collected, VariableAccess.copies_cons_of_pos hw hnull, ContextInstance.setVariables]
        simp only [if_true, hnull, Bool.false_eq_true, if_false]
        rcases ContextInstance.setVariable F p.superContext a.variableName
          (ContextInstance.getVariable F' p.subContext a.getMappedName root) t with ⟨_ | ⟨⟩, c⟩
        · rfl
        · exact ih
      · rw [collected, VariableAccess.copies_cons_of_null hnull]
        simp only [if_true, hnull]
        exact ih

/-- The updates of the sub-process. -/
def Op.inSub : Op K K' T → Option (ContextInstance.Op K' String T)
  | .superProcess _ => none
  | .subProcess op => some op

/-- The two processes do not share variables. -/
theorem run_subContext (ops : List (Op K K' T)) : (ops.foldl (exec F F') p).subContext =
    (ops.filterMap Op.inSub).foldl (fun c op => ContextInstance.exec F' c op) p.subContext := by
  induction ops generalizing p with
  | nil => rfl
  | cons op ops ih =>
    cases op with
    | superProcess op => exact ih
    | subProcess op => exact ih

/-- **Sub-process variables.**  In whatever order the accesses come, the sub-process starts
    with the values that it may read, and the process that waited for it goes on with the
    values that the sub-process may write; nothing else is read differently.  A variable that
    is copied there and back, and that the sub-process leaves alone, is again what it was,
    whatever happened to it in between. -/
theorem process_mapping (F : Lib.Forest K) (F' : Lib.Forest K') (t : K) (root : K')
    {as as' : List VariableAccess} (p₀ : SubProcess K K' L) (ops : List (Op K K' T))
    (hperm : as'.Perm as)
    (hmapped : ((as.filter VariableAccess.isReadable).map VariableAccess.getMappedName).Nodup)
    (hnames : ((as.filter VariableAccess.isWritable).map VariableAccess.variableName).Nodup)
    (hfeed : ∀ a ∈ as, a.isReadable = true →
      (ContextInstance.getVariable F p₀.superContext a.variableName t).isNull = false →
        ContextInstance.Fits F' p₀.subContext (.set a.getMappedName
          (ContextInstance.getVariable F p₀.superContext a.variableName t) root)) :
    let start := fun a : VariableAccess =>
      ContextInstance.getVariable F p₀.superContext a.variableName t
    let p₁ := (feed F F' t root as p₀).2
    let p := ops.foldl (exec F F') p₁
    let value := fun a : VariableAccess =>
      ContextInstance.getVariable F' p.subContext a.getMappedName root
    let r := collect F F' t root as' p
    (feed F F' t root as p₀).1 = .ok () ∧ p₁.superContext = p₀.superContext ∧
      (∀ a ∈ as, a.isReadable = true → (start a).isNull = false →
        ContextInstance.getVariable F' p₁.subContext a.getMappedName root = start a) ∧
      (∀ n u, (∀ a ∈ as, a.isReadable = true → (start a).isNull = false → a.getMappedName ≠ n) →
        ContextInstance.SameReads F' p₀.subContext p₁.subContext n u) ∧
      ((∀ a ∈ as, a.isWritable = true → (value a).isNull = false →
          ContextInstance.Fits F p.superContext (.set a.variableName (value a) t)) →
        r.1 = .ok () ∧ r.2.subContext = p.subContext ∧
          (∀ a ∈ as, a.isWritable = true → (value a).isNull = false →
            ContextInstance.getVariable F r.2.superContext a.variableName t = value a) ∧
          (∀ n u, (∀ a ∈ as, a.isWritable = true → (value a).isNull = false →
              a.variableName ≠ n) →
            ContextInstance.SameReads F p.superContext r.2.superContext n u) ∧
          ∀ a ∈ as, a.isReadable = true → a.isWritable = true → (start a).isNull = false →
            (∀ op ∈ ops.filterMap Op.inSub, a.getMappedName ≠ op.name) →
              ContextInstance.getVariable F r.2.superContext a.variableName t = start a) := by
  intro start p₁ p value r
  obtain ⟨hok, hread, hsame⟩ := ContextInstance.setVariables_spec (fed F t p₀ as)
    (VariableAccess.copies_sublist.nodup hmapped) (t := root) (F := F') (c := p₀.subContext)
    fun x hx => by
      obtain ⟨a, ha, hr, hnull, rfl⟩ := VariableAccess.mem_copies.1 hx
      exact hfeed a ha hr hnull
  have hp₁ : p₁ = { p₀ with subContext :=
      (ContextInstance.setVariables F' root (fed F t p₀ as) p₀.subContext).2 } :=
    congrArg Prod.snd (feed_eq as)
  have hstart : ∀ a ∈ as, a.isReadable = true → (start a).isNull = false →
      ContextInstance.getVariable F' p₁.subContext a.getMappedName root = start a := by
    intro a ha hr hnull
    rw [hp₁]
    exact (hread _ (VariableAccess.mem_copies.2 ⟨a, ha, hr, hnull, rfl⟩)).2
  refine ⟨(congrArg Prod.fst (feed_eq as)).trans hok, by rw [hp₁], hstart, fun n u hn => ?_,
    fun hfits => ?_⟩
  · rw [hp₁]
    refine hsame n u fun hmem => ?_
    obtain ⟨x, hx, rfl⟩ := List.mem_map.1 hmem
    obtain ⟨a, ha, hr, hnull, rfl⟩ := VariableAccess.mem_copies.1 hx
    exact hn a ha hr hnull rfl
  · have hnames' : ((as'.filter VariableAccess.isWritable).map
        VariableAccess.variableName).Nodup :=
      (((hperm.filter _).map _).nodup_iff).2 hnames
    obtain ⟨hok', hread', hsame'⟩ := ContextInstance.setVariables_spec (collected F' root p as')
      (VariableAccess.copies_sublist.nodup hnames') (t := t) (F := F) (c := p.superContext)
      fun x hx => by
        obtain ⟨a, ha, hw, hnull, rfl⟩ := VariableAccess.mem_copies.1 hx
        exact hfits a (hperm.mem_iff.1 ha) hw hnull
    have hr : r = (.ok (), { p with superContext :=
        (ContextInstance.setVariables F t (collected F' root p as') p.superContext).2 }) := by
      show collect F F' t root as' p = _
      rw [collect_eq, hok']
    have hvalue : ∀ a ∈ as, a.isWritable = true → (value a).isNull = false →
        ContextInstance.getVariable F r.2.superContext a.variableName t = value a := by
      intro a ha hw hnull
      rw [hr]
      exact (hread' _ (VariableAccess.mem_copies.2
        ⟨a, hperm.mem_iff.2 ha, hw, hnull, rfl⟩)).2
    refine ⟨by rw [hr], by rw [hr], hvalue, fun n u hn => ?_, fun a ha hread hw hnull hops => ?_⟩
    · rw [hr]
      refine hsame' n u fun hmem => ?_
      obtain ⟨x, hx, rfl⟩ := List.mem_map.1 hmem
      obtain ⟨a, ha, hw, hnull, rfl⟩ := VariableAccess.mem_copies.1 hx
      exact hn a (hperm.mem_iff.1 ha) hw hnull rfl
    · have hkept : value a = start a := by
        rw [← hstart a ha hread hnull]
        show ContextInstance.getVariable F' p.subContext a.getMappedName root = _
        rw [run_subContext]
        exact (ContextInstance.sameReads_run hops).2
      rw [← hkept]
      exact hvalue a ha hw (by rw [hkept]; exact hnull)

end

/-- The order is copied to the sub-process, overwritten in the meantime, and copied back. -/
theorem process_mapping_ordered :
    ContextInstance.getVariable ContextInstance.line
      (collect ContextInstance.line ContextInstance.line 2 0
        [⟨"order", some "read,write", some "mine"⟩]
        (exec ContextInstance.line ContextInstance.line
          (feed ContextInstance.line ContextInstance.line 2 0
            [⟨"order", some "read,write", some "mine"⟩]
            ⟨ContextInstance.ordered, fun _ => none⟩).2
          (.superProcess (.set "order" (.long 8) 1)))).2.superContext "order" 2 = .long 7 :=
  ((@process_mapping _ _ _ _ _ _ ContextInstance.line ContextInstance.line 2 0
    [⟨"order", some "read,write", some "mine"⟩] _
    ⟨ContextInstance.ordered, fun _ => none⟩ [.superProcess (.set "order" (.long 8) 1)]
    (List.Perm.refl _) (by decide) (by decide)
    (List.forall_mem_singleton.2 fun _ _ => ⟨.inr (.inr (by decide)), trivial⟩)).2.2.2.2
      (List.forall_mem_singleton.2 fun _ _ => ⟨.inl (by decide), trivial⟩)).2.2.2.2 _
    List.mem_cons_self (by decide) (by decide) rfl (fun _ h => absurd h List.not_mem_nil)

end ProcessState

end Context

end Jbpm
