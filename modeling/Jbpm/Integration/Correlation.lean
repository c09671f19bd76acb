/-
  Correlation sets: initialising and validating them from the messages of
  receives, replies and invokes.

  `ensureConstraint` walks the correlations of a message, in the order of a
  hash map, and initialises or validates one correlation set instance after the
  other.  Extraction of a property may fault at any point of the walk; what was
  written before stays written.

  * `Passes` tells from the state before the walk whether a correlation holds;
  * `Intact` says that the walk writes nothing unless all that follows passes,
    and `unchanged_iff` that this is exactly when a fault leaves all instances
    alone;
  * `correlation_sets_write_once`: the runs whose steps are `Intact`.
-/
import Jbpm.Lib.Run
import Mathlib.Data.Nat.Notation
import Mathlib.Logic.Function.Basic

namespace Jbpm

open Lib

structure QName where
  namespaceURI : String
  localPart : String
  deriving DecidableEq

/-- What a correlation raises: the BPEL faults, and the exception for a part
    that the message does not define. -/
inductive CorrelationRaise
  | selectionFailure
  | correlationViolation
  | uninitializedVariable
  | undefinedPart
  /-- a fault of the query language -/
  | queryFault
  deriving DecidableEq

/-- Where a message of a type keeps a property: a part, and a query over it. -/
structure PropertyAlias (Part Value : Type) where
  part : String
  query : Option (Part → Except CorrelationRaise Value)

/-- The type of a message: the parts that its WSDL message defines, its property
    aliases, and the text that `DatatypeUtil` makes of a bare part. -/
structure MessageType (Part Value : Type) where
  parts : List String
  propertyAliases : QName → Option (PropertyAlias Part Value)
  text : Part → Value

structure MessageValue (Part Value : Type) where
  type : MessageType Part Value
  parts : String → Option Part

namespace MessageValue

variable {Part Value : Type} (m : MessageValue Part Value)

def getPart (partName : String) : Except CorrelationRaise Part :=
  match m.parts partName with
  | some part => .ok part
  | none => if partName ∈ m.type.parts then .error .uninitializedVariable else .error .undefinedPart

def evaluateProperty (alias_ : PropertyAlias Part Value) : Except CorrelationRaise Value := do
  let part ← m.getPart alias_.part
  match alias_.query with
  | some query => query part
  | none => pure (m.type.text part)

def getPropertyValue (propertyName : QName) : Except CorrelationRaise Value :=
  match m.type.propertyAliases propertyName with
  | none => .error .selectionFailure
  | some alias_ => m.evaluateProperty alias_

end MessageValue

structure CorrelationSetDefinition where
  properties : List QName

/-- An instance.  The property map is null at first; null and empty maps are
    told apart nowhere. -/
structure CorrelationSetInstance (Value : Type) where
  definition : CorrelationSetDefinition
  properties : List (QName × Value)

/-- `yes`, `no` or `join`. -/
inductive Initiate
  | yes
  | no
  | join
  deriving DecidableEq

namespace CorrelationSetInstance

variable {Part Value : Type}

def isInitialized (i : CorrelationSetInstance Value) : Bool := !i.properties.isEmpty

/-- `HashMap.put` -/
def put (p : QName) (v : Value) (m : List (QName × Value)) : List (QName × Value) :=
  (p, v) :: m.filter (·.1 ≠ p)

/-- The loop of `initialize`: the values extracted before a fault stay. -/
def fill (m : MessageValue Part Value) :
    List QName → List (QName × Value) → Except CorrelationRaise Unit × List (QName × Value)
  | [], acc => (.ok (), acc)
  | p :: ps, acc =>
    match m.getPropertyValue p with
    | .ok v => fill m ps (put p v acc)
    | .error e => (.error e, acc)

def initialize_ (m : MessageValue Part Value) (i : CorrelationSetInstance Value) :
    Except CorrelationRaise Unit × CorrelationSetInstance Value :=
  if i.isInitialized then (.error .correlationViolation, i)
  else ((fill m i.definition.properties []).1,
    { i with properties := (fill m i.definition.properties []).2 })

section
variable [DecidableEq Value]

/-- The loop of `validateConstraint`. -/
def compareValues (m : MessageValue Part Value) : List (QName × Value) → Except CorrelationRaise Unit
  | [] => .ok ()
  | (p, v) :: es =>
    match m.getPropertyValue p with
    | .ok v' => if v = v' then compareValues m es else .error .correlationViolation
    | .error e => .error e

def validateConstraint (m : MessageValue Part Value) (i : CorrelationSetInstance Value) :
    Except CorrelationRaise Unit :=
  if i.isInitialized then compareValues m i.properties else .error .correlationViolation

theorem compareValues_ok_iff (m : MessageValue Part Value) (es : List (QName × Value)) :
    compareValues m es = .ok () ↔ ∀ e ∈ es, m.getPropertyValue e.1 = .ok e.2 := by
  induction es with
  | nil => simp [compareValues]
  | cons e es ih =>
    rcases hp : m.getPropertyValue e.1 with f | v
    · simp [compareValues, hp]
    · by_cases hv : e.2 = v
      · simp [compareValues, hp, hv, ih]
      · have hv' : ¬ v = e.2 := fun h => hv h.symm
        simp [compareValues, hp, hv, hv']

end

/-- The value of every property can be read from the message. -/
def Readable (m : MessageValue Part Value) (ps : List QName) : Prop :=
  ∀ p ∈ ps, ∃ v, m.getPropertyValue p = .ok v

theorem isInitialized_eq_false {i : CorrelationSetInstance Value} :
    i.isInitialized = false ↔ i.properties = [] := by
  simp [isInitialized]

theorem fill_ok_iff (m : MessageValue Part Value) (ps : List QName) (acc : List (QName × Value)) :
    (fill m ps acc).1 = .ok () ↔ Readable m ps := by
  induction ps generalizing acc with
  | nil => simp [fill, Readable]
  | cons p ps ih =>
    rcases hp : m.getPropertyValue p with e | v
    · simp [fill, hp, Readable]
    · simp only [fill, hp, ih]
      simp [Readable, hp]

theorem mem_put {p : QName} {v : Value} {acc : List (QName × Value)} {e : QName × Value} :
    e ∈ put p v acc ↔ e = (p, v) ∨ e ∈ acc ∧ e.1 ≠ p := by
  simp [put]

/-- The values of a filled map are those of the message. -/
theorem fill_values (m : MessageValue Part Value) (ps : List QName) (acc : List (QName × Value))
    (h : ∀ e ∈ acc, m.getPropertyValue e.1 = .ok e.2) :
    ∀ e ∈ (fill m ps acc).2, m.getPropertyValue e.1 = .ok e.2 := by
  induction ps generalizing acc with
  | nil => exact h
  | cons p ps ih =>
    rcases hp : m.getPropertyValue p with e | v
    · simpa only [fill, hp] using h
    · simp only [fill, hp]
      refine ih _ fun e he => ?_
      rcases mem_put.1 he with rfl | ⟨he, -⟩
      · exact hp
      · exact h e he

/-- Nothing that has a value loses it. -/
theorem fill_mono (m : MessageValue Part Value) (ps : List QName) (acc : List (QName × Value))
    {p : QName} (h : ∃ v, (p, v) ∈ acc) : ∃ v, (p, v) ∈ (fill m ps acc).2 := by
  induction ps generalizing acc with
  | nil => exact h
  | cons q ps ih =>
    rcases hq : m.getPropertyValue q with e | v
    · simpa only [fill, hq] using h
    · simp only [fill, hq]
      refine ih _ ?_
      by_cases hpq : p = q
      · exact ⟨v, mem_put.2 (.inl (by rw [hpq]))⟩
      · obtain ⟨w, hw⟩ := h
        exact ⟨w, mem_put.2 (.inr ⟨hw, hpq⟩)⟩

theorem fill_covers (m : MessageValue Part Value) (ps : List QName) (acc : List (QName × Value))
    (h : Readable m ps) : ∀ p ∈ ps, ∃ v, (p, v) ∈ (fill m ps acc).2 := by
  induction ps generalizing acc with
  | nil => simp
  | cons p ps ih =>
    obtain ⟨v, hv⟩ := h p List.mem_cons_self
    simp only [fill, hv]
    intro q hq
    rcases List.mem_cons.1 hq with rfl | hq
    · exact fill_mono m ps _ ⟨v, mem_put.2 (.inl rfl)⟩
    · exact ih _ (fun r hr => h r (List.mem_cons_of_mem p hr)) q hq

/-- The first property decides whether a fresh map gets any value. -/
theorem fill_eq_nil_iff (m : MessageValue Part Value) (ps : List QName) :
    (fill m ps []).2 = [] ↔ ¬ ∃ p ∈ ps.head?, ∃ v, m.getPropertyValue p = .ok v := by
  cases ps with
  | nil => simp [fill]
  | cons p ps =>
    rcases hp : m.getPropertyValue p with e | v
    · simp [fill, hp]
    · have hne : (fill m ps (put p v [])).2 ≠ [] := by
        obtain ⟨w, hw⟩ := fill_mono m ps (put p v []) (p := p) ⟨v, mem_put.2 (.inl rfl)⟩
        exact List.ne_nil_of_mem hw
      simpa [fill, hp] using hne

end CorrelationSetInstance

open CorrelationSetInstance

/-- The correlations of a message: the instances of their sets, as the scope of
    the token gives them, and their initiate modes, in the order of the hash
    map.  The map is keyed by set name, so no instance occurs twice. -/
structure Correlations where
  entries : List (ℕ × Initiate)
  nodup : (entries.map Prod.fst).Nodup

/-- All correlation set instances of a process. -/
abbrev CorrelationStore (Value : Type) := ℕ → CorrelationSetInstance Value

namespace Correlations

variable {Part Value : Type} [DecidableEq Value]

/-- The body of the loop of `ensureConstraint`. -/
def ensureOne (m : MessageValue Part Value) (initiate : Initiate)
    (i : CorrelationSetInstance Value) :
    Except CorrelationRaise Unit × CorrelationSetInstance Value :=
  match initiate with
  | .yes => i.initialize_ m
  | .no => (i.validateConstraint m, i)
  | .join => if i.isInitialized then (i.validateConstraint m, i) else i.initialize_ m

def ensureLoop (m : MessageValue Part Value) :
    List (ℕ × Initiate) → CorrelationStore Value →
      Except CorrelationRaise Unit × CorrelationStore Value
  | [], s => (.ok (), s)
  | (id, initiate) :: cs, s =>
    match ensureOne m initiate (s id) with
    | (.ok (), i) => ensureLoop m cs (Function.update s id i)
    | (.error e, i) => (.error e, Function.update s id i)

def ensureConstraint (c : Correlations) (m : MessageValue Part Value)
    (s : CorrelationStore Value) : Except CorrelationRaise Unit × CorrelationStore Value :=
  ensureLoop m c.entries s

/-- `getReceptionProperties`: the values a later message must carry.  A set
    that must be initialised already raises a violation if it is not. -/
def getReceptionProperties (s : CorrelationStore Value) :
    List (ℕ × Initiate) → List (QName × Value) → Except CorrelationRaise (List (QName × Value))
  | [], acc => .ok acc
  | (id, initiate) :: cs, acc =>
    if initiate ≠ .yes ∧ (initiate = .no ∨ (s id).isInitialized) then
      if (s id).isInitialized then
        getReceptionProperties s cs ((s id).properties.foldl (fun acc e => put e.1 e.2 acc) acc)
      else .error .correlationViolation
    else getReceptionProperties s cs acc

/-! ## What a correlation does, from the state before it -/

/-- The message gives the instance its values. -/
def Opens (initiate : Initiate) (i : CorrelationSetInstance Value) : Prop :=
  initiate ≠ .no ∧ i.isInitialized = false

def Passes (m : MessageValue Part Value) (initiate : Initiate)
    (i : CorrelationSetInstance Value) : Prop :=
  Opens initiate i ∧ Readable m i.definition.properties ∨
    initiate ≠ .yes ∧ i.isInitialized = true ∧
      ∀ e ∈ i.properties, m.getPropertyValue e.1 = .ok e.2

/-- The instance gets a value, be it that the message lacks the next one. -/
def Writes (m : MessageValue Part Value) (initiate : Initiate)
    (i : CorrelationSetInstance Value) : Prop :=
  Opens initiate i ∧ ∃ p ∈ i.definition.properties.head?, ∃ v, m.getPropertyValue p = .ok v

/-- A correlation that writes, and all correlations after it, pass. -/
def IntactWalk (m : MessageValue Part Value) (s : CorrelationStore Value) :
    List (ℕ × Initiate) → Prop
  | [] => True
  | c :: cs =>
    (Writes m c.2 (s c.1) → ∀ c' ∈ c :: cs, Passes m c'.2 (s c'.1)) ∧
      (Passes m c.2 (s c.1) → IntactWalk m s cs)

theorem ensureOne_ok_iff (m : MessageValue Part Value) (initiate : Initiate)
    (i : CorrelationSetInstance Value) :
    (ensureOne m initiate i).1 = .ok () ↔ Passes m initiate i := by
  cases hi : i.isInitialized <;> cases initiate <;>
    simp [ensureOne, Passes, Opens, initialize_, validateConstraint, hi, fill_ok_iff,
      compareValues_ok_iff]

/-- What a correlation leaves in its instance. -/
theorem ensureOne_snd (m : MessageValue Part Value) (initiate : Initiate)
    (i : CorrelationSetInstance Value) :
    (Opens initiate i ∧ (ensureOne m initiate i).2 =
        { i with properties := (fill m i.definition.properties []).2 }) ∨
      ¬ Opens initiate i ∧ (ensureOne m initiate i).2 = i := by
  cases hi : i.isInitialized <;> cases initiate <;> simp [ensureOne, Opens, initialize_, hi]

theorem ensureOne_eq_self_iff (m : MessageValue Part Value) (initiate : Initiate)
    (i : CorrelationSetInstance Value) :
    (ensureOne m initiate i).2 = i ↔ ¬ Writes m initiate i := by
  rcases ensureOne_snd m initiate i with ⟨ho, h⟩ | ⟨ho, h⟩
  · have hi := isInitialized_eq_false.1 ho.2
    rw [h, Writes, and_iff_right ho, ← fill_eq_nil_iff]
    constructor
    · intro he
      exact (congrArg CorrelationSetInstance.properties he).trans hi
    · intro he
      rw [he, ← hi]
  · exact iff_of_true h fun hw => ho hw.1

/-! ## The walk -/

section
variable {m : MessageValue Part Value} {s : CorrelationStore Value} {cs : List (ℕ × Initiate)}

theorem ensureLoop_of_notMem {id : ℕ} (h : id ∉ cs.map Prod.fst) :
    (ensureLoop m cs s).2 id = s id := by
  induction cs generalizing s with
  | nil => rfl
  | cons c cs ih =>
    obtain ⟨hne, hcs⟩ := List.ne_and_not_mem_of_not_mem_cons h
    rcases hr : ensureOne m c.2 (s c.1) with ⟨_ | ⟨⟩, i⟩
    · simp only [ensureLoop, hr, Function.update_of_ne hne]
    · simp only [ensureLoop, hr]
      rw [ih hcs, Function.update_of_ne hne]

/-- The walk leaves an initialised instance alone, also when it faults. -/
theorem ensureLoop_of_isInitialized {id : ℕ} (h : (s id).isInitialized = true) :
    (ensureLoop m cs s).2 id = s id := by
  induction cs generalizing s with
  | nil => rfl
  | cons c cs ih =>
    have hup : Function.update s c.1 (ensureOne m c.2 (s c.1)).2 id = s id := by
      by_cases hid : id = c.1
      · subst hid
        rcases ensureOne_snd m c.2 (s c.1) with ⟨ho, -⟩ | ⟨-, he⟩
        · simp [ho.2] at h
        · rw [Function.update_self, he]
      · exact Function.update_of_ne hid ..
    rcases hr : ensureOne m c.2 (s c.1) with ⟨_ | ⟨⟩, i⟩
    · simpa only [ensureLoop, hr] using hup
    · simp only [ensureLoop, hr]
      rw [hr] at hup
      rw [ih (hup ▸ h), hup]

omit [DecidableEq Value] in
theorem passes_update (c : ℕ × Initiate) (i : CorrelationSetInstance Value)
    (hn : c.1 ∉ cs.map Prod.fst) :
    (∀ c' ∈ cs, Passes m c'.2 (Function.update s c.1 i c'.1)) ↔
      ∀ c' ∈ cs, Passes m c'.2 (s c'.1) := by
  refine forall₂_congr fun c' hc' => ?_
  have hne : c'.1 ≠ c.1 := fun h => hn (h ▸ List.mem_map_of_mem hc')
  rw [Function.update_of_ne hne]

theorem ensureLoop_ok_iff (hn : (cs.map Prod.fst).Nodup) :
    (ensureLoop m cs s).1 = .ok () ↔ ∀ c ∈ cs, Passes m c.2 (s c.1) := by
  induction cs generalizing s with
  | nil => simp [ensureLoop]
  | cons c cs ih =>
    obtain ⟨hc, hcs⟩ := List.nodup_cons.1 hn
    have hone := ensureOne_ok_iff m c.2 (s c.1)
    rw [List.forall_mem_cons]
    rcases hr : ensureOne m c.2 (s c.1) with ⟨_ | ⟨⟩, i⟩
    · rw [hr] at hone
      simp [ensureLoop, hr, ← hone]
    · rw [hr] at hone
      simp only [ensureLoop, hr, ih hcs, passes_update c i hc]
      simp [← hone]

/-- After an accepted message every instance is what its correlation made of
    it. -/
theorem ensureLoop_of_mem (hn : (cs.map Prod.fst).Nodup) (hok : (ensureLoop m cs s).1 = .ok ())
    {c : ℕ × Initiate} (hc : c ∈ cs) :
    (ensureLoop m cs s).2 c.1 = (ensureOne m c.2 (s c.1)).2 := by
  induction cs generalizing s with
  | nil => cases hc
  | cons d cs ih =>
    obtain ⟨hd, hcs⟩ := List.nodup_cons.1 hn
    rcases hr : ensureOne m d.2 (s d.1) with ⟨_ | ⟨⟩, i⟩
    · simp [ensureLoop, hr] at hok
    · simp only [ensureLoop, hr] at hok ⊢
      rcases List.mem_cons.1 hc with rfl | hc
      · rw [ensureLoop_of_notMem hd, Function.update_self, hr]
      · have hne : c.1 ≠ d.1 := fun h => hd (h ▸ List.mem_map_of_mem hc)
        rw [ih hcs hok hc, Function.update_of_ne hne]

omit [DecidableEq Value] in
theorem intactWalk_of_passes (h : ∀ c ∈ cs, Passes m c.2 (s c.1)) : IntactWalk m s cs := by
  induction cs with
  | nil => trivial
  | cons c cs ih => exact ⟨fun _ => h, fun _ => ih fun c' hc' => h c' (List.mem_cons_of_mem c hc')⟩

/-- **All or nothing.**  A walk that faults leaves every instance alone exactly
    when it is intact. -/
theorem unchanged_iff (hn : (cs.map Prod.fst).Nodup) :
    ((ensureLoop m cs s).1 ≠ .ok () → (ensureLoop m cs s).2 = s) ↔ IntactWalk m s cs := by
  induction cs generalizing s with
  | nil => simp [ensureLoop, IntactWalk]
  | cons c cs ih =>
    obtain ⟨hc, hcs⟩ := List.nodup_cons.1 hn
    have hone := ensureOne_ok_iff m c.2 (s c.1)
    have hself := ensureOne_eq_self_iff m c.2 (s c.1)
    rcases hr : ensureOne m c.2 (s c.1) with ⟨e | ⟨⟩, i⟩
    · -- the fault is raised here: only this instance can have changed
      rw [hr] at hone hself
      have hp : ¬ Passes m c.2 (s c.1) := fun h => by simpa using hone.2 h
      simp [ensureLoop, hr, IntactWalk, hp, Function.update_eq_self_iff, hself]
    · rw [hr] at hone hself
      have hp : Passes m c.2 (s c.1) := hone.1 rfl
      simp only [ensureLoop, hr, IntactWalk, List.forall_mem_cons, hp, true_and, true_imp_iff]
      by_cases hw : Writes m c.2 (s c.1)
      · -- this instance has changed, so nothing after it may fail
        have hne : (ensureLoop m cs (Function.update s c.1 i)).2 ≠ s := fun h => by
          have h' := congrFun h c.1
          rw [ensureLoop_of_notMem hc, Function.update_self] at h'
          exact hself.1 h' hw
        rw [← passes_update c i hc, ← ensureLoop_ok_iff hcs]
        constructor
        · intro h
          have hok := not_not.1 fun hbad => hne (h hbad)
          exact ⟨fun _ => hok, intactWalk_of_passes
            ((passes_update c i hc).1 ((ensureLoop_ok_iff hcs).1 hok))⟩
        · exact fun h hbad => absurd (h.1 hw) hbad
      · rw [Function.update_eq_self_iff.2 (hself.2 hw)]
        simp [hw, ih hcs]

end

end Correlations

/-! ## Runs -/

namespace CorrelationStore

open Correlations

variable {Part Value : Type} [DecidableEq Value]

/-- A receive, reply or invoke brings a message under its correlations. -/
structure Use (Part Value : Type) where
  correlations : Correlations
  message : MessageValue Part Value

def step (s : CorrelationStore Value) (u : Use Part Value) : CorrelationStore Value :=
  (u.correlations.ensureConstraint u.message s).2

/-- No fault is raised for the message. -/
def Accepts (s : CorrelationStore Value) (u : Use Part Value) : Prop :=
  (u.correlations.ensureConstraint u.message s).1 = .ok ()

instance (s : CorrelationStore Value) (u : Use Part Value) : Decidable (Accepts s u) :=
  match h : (u.correlations.ensureConstraint u.message s).1 with
  | .ok () => .isTrue h
  | .error _ => .isFalse fun h' => nomatch h.symm.trans h'

def init (definitions : ℕ → CorrelationSetDefinition) : CorrelationStore Value :=
  fun id => ⟨definitions id, []⟩

abbrev Steps : CorrelationStore Value → Use Part Value → CorrelationStore Value → Prop :=
  fun s u s' => s' = step s u

def Intact (s : CorrelationStore Value) (u : Use Part Value) : Prop :=
  IntactWalk u.message s u.correlations.entries

/-- The instance has a value for every property of its set. -/
def Covered (i : CorrelationSetInstance Value) : Prop :=
  ∀ p ∈ i.definition.properties, ∃ v, (p, v) ∈ i.properties

/-- The values of the instance are those of the message. -/
def Agrees (m : MessageValue Part Value) (i : CorrelationSetInstance Value) : Prop :=
  ∀ e ∈ i.properties, m.getPropertyValue e.1 = .ok e.2

/-- The invariant of intact runs. -/
def Inv (s : CorrelationStore Value) : Prop :=
  ∀ id, (s id).isInitialized = true → Covered (s id)

variable {s s' : CorrelationStore Value} {u : Use Part Value}

omit [DecidableEq Value] in
theorem inv_init (definitions : ℕ → CorrelationSetDefinition) :
    Inv (init definitions : CorrelationStore Value) := by
  intro id h
  simp [init, isInitialized] at h

/-- An accepted message agrees with all the sets it is correlated by, and these
    are covered. -/
theorem Inv.accepted (h : Inv s) (ha : Accepts s u) {c : ℕ × Initiate}
    (hc : c ∈ u.correlations.entries) :
    Covered (step s u c.1) ∧ Agrees u.message (step s u c.1) := by
  have hn := u.correlations.nodup
  have hstep : step s u c.1 = (ensureOne u.message c.2 (s c.1)).2 := ensureLoop_of_mem hn ha hc
  rw [hstep]
  rcases (ensureLoop_ok_iff hn).1 ha c hc with ⟨ho, hr⟩ | ⟨-, hi, he⟩
  · rcases ensureOne_snd u.message c.2 (s c.1) with ⟨-, hs⟩ | ⟨hno, -⟩
    · rw [hs]
      exact ⟨fill_covers _ _ _ hr, fill_values _ _ _ (by simp)⟩
    · exact absurd ho hno
  · rcases ensureOne_snd u.message c.2 (s c.1) with ⟨ho, -⟩ | ⟨-, hs⟩
    · simp [ho.2] at hi
    · rw [hs]
      exact ⟨h c.1 hi, he⟩

/-- **The step lemma.** -/
theorem Inv.step (h : Inv s) (hu : Intact s u) : Inv (step s u) := by
  by_cases ha : Accepts s u
  · intro id hi
    by_cases hid : id ∈ u.correlations.entries.map Prod.fst
    · obtain ⟨c, hc, rfl⟩ := List.mem_map.1 hid
      exact (h.accepted ha hc).1
    · have hs : CorrelationStore.step s u id = s id := ensureLoop_of_notMem hid
      rw [hs] at hi ⊢
      exact h id hi
  · have hs : CorrelationStore.step s u = s := (unchanged_iff u.correlations.nodup).2 hu ha
    rw [hs]
    exact h

/-- What is accepted passes at every place. -/
theorem intact_of_accepts (h : Accepts s u) : Intact s u :=
  intactWalk_of_passes ((ensureLoop_ok_iff u.correlations.nodup).1 h)

/-- An initialised instance keeps its values, whatever comes. -/
theorem isInitialized_of_run {us : List (Use Part Value)} (h : Run Steps s us s') {id : ℕ}
    (hi : (s id).isInitialized = true) : s' id = s id := by
  induction h with
  | nil => rfl
  | snoc _ hl ih =>
    rw [hl, ← ih]
    exact ensureLoop_of_isInitialized (ih ▸ hi)

/-- **Correlation sets are written once, and all or nothing.**  In every run of
    intact steps the initialised instances have a value for every property and
    keep their values from then on; a message is accepted only if it agrees with
    the sets it is correlated by; and a fault leaves every instance alone exactly
    when the walk that raises it is intact. -/
theorem correlation_sets_write_once {definitions : ℕ → CorrelationSetDefinition}
    {us : List (Use Part Value)} (h : Run (guard Intact Steps) (init definitions) us s) :
    (∀ id, (s id).isInitialized = true → Covered (s id)) ∧
      (∀ (us' : List (Use Part Value)) s', Run Steps s us' s' →
        ∀ id, (s id).isInitialized = true → s' id = s id) ∧
      (∀ u : Use Part Value, Accepts s u → ∀ c ∈ u.correlations.entries,
        Covered (step s u c.1) ∧ Agrees u.message (step s u c.1)) ∧
      ∀ u : Use Part Value, (¬ Accepts s u → step s u = s) ↔ Intact s u := by
  have hi : Inv s := by
    refine h.inv (inv_init definitions) ?_
    rintro t u _ ht ⟨hu, rfl⟩
    exact ht.step hu
  refine ⟨hi, fun _ _ h' _ => isInitialized_of_run h', ?_, ?_⟩
  · exact fun u ha c hc => hi.accepted ha hc
  · exact fun u => unchanged_iff u.correlations.nodup

/-! ## A process with two sets -/

/-- Messages whose properties are their parts: `part p` is the alias of `p`. -/
def plainType (parts : List String) : MessageType String String where
  parts := parts
  propertyAliases p := if p.localPart ∈ parts then some ⟨p.localPart, none⟩ else none
  text v := v

def message (parts : List (String × String)) : MessageValue String String :=
  ⟨plainType (parts.map Prod.fst), fun p => parts.lookup p⟩

/-- A set for an order, and one for the customer and the item of an order. -/
def definitions : ℕ → CorrelationSetDefinition
  | 0 => ⟨[⟨"", "order"⟩]⟩
  | _ => ⟨[⟨"", "customer"⟩, ⟨"", "item"⟩]⟩

/-- The first message of a conversation, and the second. -/
def conversation : List (Use String String) :=
  [⟨⟨[(0, .yes), (1, .join)], by decide⟩,
      message [("order", "17"), ("customer", "c"), ("item", "i")]⟩,
    ⟨⟨[(1, .join), (0, .no)], by decide⟩,
      message [("order", "17"), ("customer", "c"), ("item", "i")]⟩]

theorem correlation_sets_write_once_conversation :
    Covered (conversation.foldl step (init definitions) 1) := by
  have h : Run (guard Intact Steps) (init definitions) conversation
      (conversation.foldl step (init definitions)) :=
    .of_allowed ⟨intact_of_accepts (by decide), intact_of_accepts (by decide), trivial⟩
  exact (correlation_sets_write_once h).1 1 rfl

/-- A first message that lacks the item. -/
def partialUse : Use String String :=
  ⟨⟨[(1, .yes)], by decide⟩, message [("customer", "c")]⟩

/-- A first message that must open one set and satisfy another. -/
def mixedUse : Use String String :=
  ⟨⟨[(0, .yes), (1, .no)], by decide⟩,
    message [("order", "17"), ("customer", "c"), ("item", "i")]⟩

/-- **Neither written once nor all or nothing.**  A missing alias leaves an
    instance that counts as initialised and lacks a property, for good; and a
    violation of one set leaves the set before it initialised. -/
theorem not_all_or_nothing :
    (∃ s, Run Steps (init definitions) [partialUse] s ∧
      (s 1).isInitialized = true ∧ ¬ Covered (s 1)) ∧
    ¬ Accepts (init definitions) partialUse ∧
    step (init definitions) partialUse ≠ init definitions ∧
    ¬ Accepts (init definitions) mixedUse ∧
    step (init definitions) mixedUse ≠ init definitions := by
  refine ⟨⟨step (init definitions) partialUse, .snoc .nil rfl, rfl, ?_⟩, ?_, ?_, ?_, ?_⟩
  · intro h
    obtain ⟨v, hv⟩ := h ⟨"", "item"⟩ (by decide)
    have hp : (step (init definitions) partialUse 1).properties = [(⟨"", "customer"⟩, "c")] := rfl
    simp [hp] at hv
  · intro h
    cases h
  · intro h
    cases congrArg CorrelationSetInstance.properties (congrFun h 1)
  · intro h
    cases h
  · intro h
    cases congrArg CorrelationSetInstance.properties (congrFun h 0)

end CorrelationStore

end Jbpm
