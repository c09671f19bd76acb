/-
  Variable instances, and the variables of one container.

  * `JbpmType.of`: the type that a new variable gets, from its first value;
  * `VariableInstance.setValue`, `getValue`: a variable with its value cache;
  * `VariableContainer.setVariableLocally`: an instance that does not support the
    value is replaced;
  * `assigns_iff`, `lastWriteWins_iff`: whether a variable is a register that
    survives the loss of its cache.
-/
import Mathlib.Logic.Function.Basic
import Jbpm.Lib.Run
import Jbpm.Context.Converter

namespace Jbpm

namespace Context

/-! ## Types of variables -/

/-- The subclasses of `VariableInstance`. -/
inductive InstanceType where
  | string
  | long
  | double
  | date
  | byteArray
  | null
  | unpersistable
  deriving DecidableEq

/-- The `jbpm-type`s of `jbpm.varmapping.xml` that do not need a session, and the
    two types outside of that list. -/
inductive JbpmType where
  | string
  | boolean
  | character
  | long
  | byte
  | short
  | integer
  | double
  | float
  | date
  | bytes
  | serializable
  /-- `NullInstance`, for a first value that is `null` -/
  | null
  /-- `UnpersistableInstance`, if no type matches -/
  | unpersistable
  deriving DecidableEq

variable {T : Types}

def Obj.isNull : Obj T → Bool
  | .null => true
  | _ => false

def InstanceType.isStorable : InstanceType → Obj T → Bool
  | .unpersistable, _ => true
  | _, .null => true
  | .string, .string _ => true
  | .long, .long _ => true
  | .double, .double _ => true
  | .date, .date _ => true
  | .byteArray, .byteArray _ => true
  | _, _ => false

namespace JbpmType

def converter : JbpmType → Option Converter
  | boolean => some .booleanToString
  | character => some .characterToString
  | byte => some .byteToLong
  | short => some .shortToLong
  | integer => some .integerToLong
  | float => some .floatToDouble
  | bytes => some .bytesToByteArray
  | serializable => some .serializableToByteArray
  | _ => none

def instanceType : JbpmType → InstanceType
  | string | boolean | character => .string
  | long | byte | short | integer => .long
  | double | float => .double
  | date => .date
  | bytes | serializable => .byteArray
  | null => .null
  | unpersistable => .unpersistable

/-- `create` and `createVariableInstance`: the first type that matches the value. -/
def of : Obj T → JbpmType
  | .null => null
  | .string _ => string
  | .boolean _ => boolean
  | .character _ => character
  | .long _ => long
  | .byte _ => byte
  | .short _ => short
  | .integer _ => integer
  | .double _ => double
  | .float _ => float
  | .date _ => date
  | .bytes _ => bytes
  | .byteArray _ | .serializable _ => serializable
  | .object _ => unpersistable

def supports (t : JbpmType) (v : Obj T) : Bool :=
  match t.converter with
  | some c => c.supports v
  | none => t.instanceType.isStorable v

theorem supports_of (v : Obj T) : (of v).supports v = true := by
  cases v <;> rfl

/-- What the converter of a type returns is storable in its instances. -/
theorem isStorable_convert {t : JbpmType} {L : Library T} {c : Converter} {v o : Obj T}
    (ht : t.converter = some c) (h : c.convert L v = .ok o) :
    t.instanceType.isStorable o = true := by
  cases c with
  | serializableToByteArray =>
    cases t <;> cases ht
    rw [Converter.convert] at h
    split at h <;> cases h
    rfl
  | _ =>
    cases t <;> cases ht
    cases v <;> cases h <;> rfl

end JbpmType

/-! ## Variable instances -/

/-- A variable instance.  `object` is the field `value` of the subclass. -/
structure VariableInstance (T : Types) where
  type : JbpmType
  object : Obj T
  /-- `none` if `isValueCached` is false -/
  valueCache : Option (Obj T)

namespace VariableInstance

variable (L : Library T)

/-- Null and unpersistable instances have no field to return. -/
def getObject (i : VariableInstance T) : Obj T :=
  match i.type.instanceType with
  | .null | .unpersistable => .null
  | _ => i.object

/-- What `getValue` makes of the object, if it does not throw. -/
def revertObject (i : VariableInstance T) : Option (Obj T) :=
  if i.getObject.isNull then some .null
  else
    match i.type.converter with
    | some c => c.revert L i.getObject
    | none => some i.getObject

/-- The value to be stored: the value itself, or what the converter makes of it. -/
def convertValue (t : JbpmType) (v : Obj T) : Except Exn (Obj T) :=
  match t.converter with
  | some c => if c.supports v then c.convert L v else .error .notSupportedByConverter
  | none => .ok v

/-- The state after the call is returned also if it throws. -/
def setValue (v : Obj T) (i : VariableInstance T) : Except Exn Unit × VariableInstance T :=
  let i := { i with valueCache := some v }
  match convertValue L i.type v with
  | .error e => (.error e, i)
  | .ok o =>
    if !o.isNull && !i.type.instanceType.isStorable o then (.error .notSupportedByInstance, i)
    else (.ok (), { i with object := o })

variable {L} {i : VariableInstance T} {v : Obj T}

/-- What is stored reads back as something. -/
def Readable (L : Library T) (i : VariableInstance T) : Prop := (i.revertObject L).isSome = true

theorem readable_new (t : JbpmType) : Readable L ⟨t, .null, none⟩ := by
  cases t <;> rfl

theorem readable_setValue (h : i.Readable L) (v : Obj T) : (i.setValue L v).2.Readable L := by
  rw [setValue]
  rcases hc : convertValue L i.type v with e | o
  · exact h
  simp only []
  split
  · exact h
  · simp only [Readable, revertObject]
    split
    · rfl
    · split
      · rename_i c ht
        rw [convertValue, ht] at hc
        have hobj : ({ i with valueCache := some v, object := o } : VariableInstance T).getObject
            = o := by
          rcases i with ⟨t, _, _⟩
          cases t <;> first | rfl | cases ht
        simp only [] at hc
        rw [hobj]
        split at hc
        · exact Converter.isSome_revert_convert hc
        · cases hc
      · rfl

theorem valueCache_setValue : (i.setValue L v).2.valueCache = some v := by
  rw [setValue]
  split
  · rfl
  · simp only []
    split <;> rfl

theorem type_setValue : (i.setValue L v).2.type = i.type := by
  rw [setValue]
  split
  · rfl
  · simp only []
    split <;> rfl

end VariableInstance

/-- A variable that can be read. -/
abbrev Variable (L : Library T) := { i : VariableInstance T // i.Readable L }

namespace Variable

variable {L : Library T}

def getValue (i : Variable L) : Obj T :=
  match i.1.valueCache with
  | some v => v
  | none => (i.1.revertObject L).get i.2

def setValue (v : Obj T) (i : Variable L) : Except Exn Unit × Variable L :=
  ((i.1.setValue L v).1, ⟨(i.1.setValue L v).2, VariableInstance.readable_setValue i.2 v⟩)

/-- `VariableInstance.create`, up to the token and the name. -/
def create (v : Obj T) : Except Exn (Variable L) :=
  match setValue v ⟨⟨.of v, .null, none⟩, VariableInstance.readable_new _⟩ with
  | (.ok (), i) => .ok i
  | (.error e, _) => .error e

/-- The instance as it is loaded from the database. -/
def discardCache (i : Variable L) : Variable L := ⟨{ i.1 with valueCache := none }, i.2⟩

variable {i : Variable L} {v w : Obj T}

@[simp] theorem getValue_setValue : (setValue v i).2.getValue = v := by
  have h : (setValue v i).2.1.valueCache = some v := VariableInstance.valueCache_setValue
  rw [getValue]
  split
  · rename_i w hw
    exact Option.some.inj (hw.symm.trans h)
  · rename_i hw
    rw [h] at hw
    cases hw

@[simp] theorem type_setValue : (setValue v i).2.1.type = i.1.type :=
  VariableInstance.type_setValue

theorem getValue_discardCache_eq :
    i.discardCache.getValue = w ↔ i.1.revertObject L = some w := by
  show (i.1.revertObject L).get i.2 = w ↔ _
  constructor
  · rintro rfl
    exact (Option.some_get _).symm
  · exact Option.get_of_eq_some _

end Variable

/-! ## What a type of variables stores -/

namespace JbpmType

variable (L : Library T) (t : JbpmType) (v : Obj T)

/-- The supported values that can be assigned. -/
def Accepts : Prop :=
  match t.converter with
  | some c => c.Accepts L v
  | none => True

/-- The supported values that can be assigned, and read back from what is stored. -/
def Keeps : Prop :=
  match t.converter with
  | some c => c.Converts L v
  | none => t = unpersistable → v = .null

end JbpmType

namespace Variable

variable {L : Library T} {i : Variable L} {v : Obj T}

theorem setValue_ok_iff (hs : i.1.type.supports v = true) :
    (setValue v i).1 = .ok () ↔ i.1.type.Accepts L v := by
  rcases ht : i.1.type.converter with _ | c
  · simp only [JbpmType.supports, ht] at hs
    simp [setValue, VariableInstance.setValue, VariableInstance.convertValue, ht, hs,
      JbpmType.Accepts]
  · simp only [JbpmType.supports, ht] at hs
    simp only [JbpmType.Accepts, ht, Converter.accepts_iff hs]
    rcases hc : c.convert L v with e | o
    · simp [setValue, VariableInstance.setValue, VariableInstance.convertValue, ht, hs, hc]
    · simp [setValue, VariableInstance.setValue, VariableInstance.convertValue, ht, hs, hc,
        JbpmType.isStorable_convert ht hc]

theorem revertObject_of_converter {c : Converter} {o : Obj T} {w : Option (Obj T)} {t : JbpmType}
    (ht : t.converter = some c) (ho : o ≠ .null) :
    VariableInstance.revertObject L ⟨t, o, w⟩ = c.revert L o := by
  have hobj : VariableInstance.getObject ⟨t, o, w⟩ = o := by
    cases t <;> first | rfl | cases ht
  have hnull : o.isNull = false := by
    cases o <;> first | rfl | exact absurd rfl ho
  simp [VariableInstance.revertObject, hobj, hnull, ht]

theorem revertObject_of_no_converter {w : Option (Obj T)} {t : JbpmType}
    (ht : t.converter = none) (hs : t.instanceType.isStorable v = true) :
    VariableInstance.revertObject L ⟨t, v, w⟩ = some v ↔ (t = .unpersistable → v = .null) := by
  cases t <;> cases ht <;> cases v <;>
    first
    | exact absurd hs Bool.false_ne_true
    | simp [VariableInstance.revertObject, VariableInstance.getObject, JbpmType.instanceType,
        JbpmType.converter, Obj.isNull]

/-- An assignment is read back, from the cache and from what is stored. -/
theorem setValue_keeps_iff (hs : i.1.type.supports v = true) :
    (setValue v i).1 = .ok () ∧ (setValue v i).2.discardCache.getValue = v ↔
      i.1.type.Keeps L v := by
  rw [getValue_discardCache_eq]
  rcases ht : i.1.type.converter with _ | c
  · simp only [JbpmType.supports, ht] at hs
    have hset : i.1.setValue L v = (.ok (), ⟨i.1.type, v, some v⟩) := by
      simp [VariableInstance.setValue, VariableInstance.convertValue, ht, hs]
    simp only [setValue, hset, true_and, JbpmType.Keeps, ht]
    exact revertObject_of_no_converter ht hs
  · have hsc : c.supports v = true := by simpa only [JbpmType.supports, ht] using hs
    simp only [JbpmType.Keeps, ht, Converter.converts_iff hsc]
    rcases hc : c.convert L v with e | o
    · simp [setValue, VariableInstance.setValue, VariableInstance.convertValue, ht, hsc, hc]
    · have hset : i.1.setValue L v = (.ok (), ⟨i.1.type, o, some v⟩) := by
        simp [VariableInstance.setValue, VariableInstance.convertValue, ht, hsc, hc,
          JbpmType.isStorable_convert ht hc]
      simp only [setValue, hset, true_and,
        revertObject_of_converter ht (Converter.convert_ne_null hc)]
      constructor
      · exact fun h => ⟨o, rfl, h⟩
      · rintro ⟨o', ho', h⟩
        obtain rfl := Except.ok.inj ho'
        exact h

end Variable

/-! ## The variables of a container -/

/-- `variableInstances` of a variable container, without the entries that map to nothing. -/
abbrev VariableContainer (N : Type) (L : Library T) := N → Option (Variable L)

namespace VariableContainer

variable {N : Type} {L : Library T}

def hasVariableLocally (n : N) (c : VariableContainer N L) : Bool := (c n).isSome

def getVariableLocally (n : N) (c : VariableContainer N L) : Obj T :=
  match c n with
  | some i => i.getValue
  | none => .null

/-- All variables as they are loaded from the database. -/
def discardCaches (c : VariableContainer N L) : VariableContainer N L :=
  fun n => (c n).map Variable.discardCache

/-- The type of the variable that a value is assigned to. -/
def typeFor (n : N) (v : Obj T) (c : VariableContainer N L) : JbpmType :=
  match c n with
  | some i => if i.1.type.supports v then i.1.type else .of v
  | none => .of v

variable {n m : N} {v : Obj T} {c : VariableContainer N L}

theorem supports_typeFor : (typeFor n v c).supports v = true := by
  rw [typeFor]
  split
  · split
    · assumption
    · exact JbpmType.supports_of v
  · exact JbpmType.supports_of v

variable [DecidableEq N]

def deleteVariableLocally (n : N) (c : VariableContainer N L) : VariableContainer N L :=
  Function.update c n none

/-- The first part of `setVariableLocally`: a variable of another type is deleted. -/
def deleteUnsupported (n : N) (v : Obj T) (c : VariableContainer N L) : VariableContainer N L :=
  match c n with
  | some i => if i.1.type.supports v then c else deleteVariableLocally n c
  | none => c

def setVariableLocally (n : N) (v : Obj T) (c : VariableContainer N L) :
    Except Exn Unit × VariableContainer N L :=
  let c := deleteUnsupported n v c
  match c n with
  | none =>
    match Variable.create v with
    | .ok i => (.ok (), Function.update c n (some i))
    | .error e => (.error e, c)
  | some i => ((Variable.setValue v i).1, Function.update c n (some (Variable.setValue v i).2))

theorem setVariableLocally_of_ne (h : m ≠ n) : (setVariableLocally n v c).2 m = c m := by
  have hd : deleteUnsupported n v c m = c m := by
    rcases hc : c n with _ | i
    · simp [deleteUnsupported, hc]
    · by_cases hs : i.1.type.supports v = true
      · simp [deleteUnsupported, hc, hs]
      · simp [deleteUnsupported, hc, hs, deleteVariableLocally, Function.update_of_ne h]
  rw [← hd, setVariableLocally]
  rcases deleteUnsupported n v c n with _ | i
  · rcases (Variable.create v : Except Exn (Variable L)) with e | i
    · rfl
    · exact Function.update_of_ne h _ _
  · exact Function.update_of_ne h _ _

/-- An assignment is an assignment to some instance of the type for it; if that
    instance is new, it is kept only if the assignment succeeds. -/
theorem setVariableLocally_spec : ∃ i : Variable L, i.1.type = typeFor n v c ∧
    (setVariableLocally n v c).1 = (Variable.setValue v i).1 ∧
    ((setVariableLocally n v c).1 = .ok () →
      (setVariableLocally n v c).2 n = some (Variable.setValue v i).2) := by
  have hnew (c' : VariableContainer N L) (hd : deleteUnsupported n v c = c') (hn : c' n = none)
      (ht : typeFor n v c = .of v) : ∃ i : Variable L, i.1.type = typeFor n v c ∧
      (setVariableLocally n v c).1 = (Variable.setValue v i).1 ∧
      ((setVariableLocally n v c).1 = .ok () →
        (setVariableLocally n v c).2 n = some (Variable.setValue v i).2) := by
    refine ⟨⟨⟨.of v, .null, none⟩, VariableInstance.readable_new _⟩, ht.symm, ?_⟩
    simp only [setVariableLocally, hd, hn, Variable.create]
    rcases Variable.setValue v (⟨⟨.of v, .null, none⟩, VariableInstance.readable_new _⟩ :
      Variable L) with ⟨_ | _, i⟩
    · simp
    · simp
  rcases hc : c n with _ | i
  · exact hnew c (by rw [deleteUnsupported, hc]) hc (by rw [typeFor, hc])
  · by_cases hs : i.1.type.supports v = true
    · refine ⟨i, by rw [typeFor, hc]; exact (if_pos hs).symm, ?_⟩
      have hd : deleteUnsupported n v c = c := by
        rw [deleteUnsupported, hc]
        exact if_pos hs
      simp [setVariableLocally, hd, hc]
    · refine hnew (deleteVariableLocally n c) ?_ (Function.update_self _ _ _) ?_
      · rw [deleteUnsupported, hc]
        exact if_neg hs
      · rw [typeFor, hc]
        exact if_neg hs

theorem setVariableLocally_ok_iff :
    (setVariableLocally n v c).1 = .ok () ↔ (typeFor n v c).Accepts L v := by
  obtain ⟨i, ht, h₁, -⟩ := setVariableLocally_spec (n := n) (v := v) (c := c)
  rw [h₁, Variable.setValue_ok_iff (ht ▸ supports_typeFor), ht]

/-- The value assigned last reads back, before and after the cache is discarded. -/
def Assigns (n : N) (c : VariableContainer N L) (v : Obj T) : Prop :=
  (setVariableLocally n v c).1 = .ok () ∧
    getVariableLocally n (setVariableLocally n v c).2 = v ∧
      getVariableLocally n (discardCaches (setVariableLocally n v c).2) = v

theorem assigns_iff : Assigns n c v ↔ (typeFor n v c).Keeps L v := by
  obtain ⟨i, ht, h₁, h₂⟩ := setVariableLocally_spec (n := n) (v := v) (c := c)
  rw [← ht, ← Variable.setValue_keeps_iff (ht ▸ supports_typeFor), Assigns, h₁]
  refine and_congr_right fun hok => ?_
  have hn := h₂ (h₁.trans hok)
  simp [getVariableLocally, discardCaches, hn]

/-- Every assignment of the sequence is read back. -/
def LastWriteWins (n : N) (c : VariableContainer N L) (vs : List (Obj T)) : Prop :=
  Lib.Allowed (Assigns n) (fun c v => (setVariableLocally n v c).2) c vs

/-- **Variables are registers** exactly as long as the type of the variable, old or
    new, keeps the values assigned to it. -/
theorem lastWriteWins_iff (n : N) (c : VariableContainer N L) (vs : List (Obj T)) :
    LastWriteWins n c vs ↔
      Lib.Allowed (fun c v => (typeFor n v c).Keeps L v)
        (fun c v => (setVariableLocally n v c).2) c vs :=
  Lib.Allowed.congr (fun _ _ => assigns_iff) c vs

/-- A library for values that need neither streams nor floating point numbers. -/
def simpleLibrary : Library ⟨Unit, Unit, Empty, Empty⟩ where
  doubleValue := id
  floatValue := id
  floatValue_doubleValue _ := rfl
  writeObject _ := none
  readObject _ := none
  readObject_writeObject h := nomatch h
  writeObject_ne_nil h := nomatch h
  blockSize := 1024
  blockSize_pos := by decide

/-- A Boolean cannot be set to `null`: the converter says that it supports `null`, and
    throws.  An empty array is `null` once it is loaded again. -/
theorem not_lastWriteWins :
    ¬ LastWriteWins (L := simpleLibrary) "approved" (fun _ => none) [.boolean true, .null] ∧
      ¬ LastWriteWins (L := simpleLibrary) "attachment" (fun _ => none) [.bytes []] := by
  constructor
  · rintro ⟨-, ⟨h, -⟩, -⟩
    cases h
  · rintro ⟨⟨-, -, h⟩, -⟩
    cases h

end VariableContainer

end Context

end Jbpm
