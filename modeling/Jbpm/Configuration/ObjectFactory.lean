/-
  The object factory: descriptions of objects by name, and the objects that are made from them.

  * `ObjectInfo`: descriptions, which refer to each other by name;
  * `getObject`: the object of a description, from the registry or made anew;
  * `createObject`, `addObjectInfo`: what is asked of a factory.
-/
import Mathlib.Logic.Function.Basic
import Jbpm.Java.Contract

namespace Jbpm

namespace Configuration

open Java

/-- Objects: those that are made go by numbers, and the other ones are of a type `C`. -/
inductive Value (C : Type) where
  | null
  | constant (c : C)
  | object (id : ℕ)
  deriving DecidableEq

structure Header (K : Type) where
  name : Option K
  isSingleton : Bool

/-- The descriptions: names `K`, classes with a constructor or a factory method `B`, fields and
    setters `P`. -/
inductive ObjectInfo (K C B P : Type) where
  /-- strings, numbers and `null` -/
  | value (header : Header K) (v : Value C)
  | ref (header : Header K) (bean : K)
  | list (header : Header K) (elementInfos : List (ObjectInfo K C B P))
  /-- the keys and the values by turns -/
  | map (header : Header K) (entryInfos : List (ObjectInfo K C B P))
  | bean (header : Header K) (bean : B) (factory : Option K)
      (parameterInfos : List (ObjectInfo K C B P))
      (properties : List P) (propertyValueInfos : List (ObjectInfo K C B P))

/-- What is done to objects. -/
inductive Event (C B P : Type) where
  | list (id : ℕ) (elements : List (Value C))
  | map (id : ℕ) (entries : List (Value C))
  | bean (bean : B) (factory : Option (Value C)) (args : List (Value C)) (object : Value C)
  | injected (object : Value C) (property : P) (value : Value C)

inductive Exn (K : Type) where
  /-- `name .. is not defined in the configuration` -/
  | undefined (name : K)
  /-- `circular object dependency on bean ..` -/
  | circular (name : K)
  /-- a class, constructor, method, field or setter that is missing or throws -/
  | failed
  /-- the recursion is deeper than it was allowed to be -/
  | exhausted

/-- The classes, after what has been done so far: the object that a constructor or factory method
    returns, where the number is the one of a new object, and whether a value can be injected. -/
structure Classes (C B P : Type) where
  create : List (Event C B P) → B → Option (Value C) → List (Value C) → ℕ → Option (Value C)
  accepts : List (Event C B P) → Value C → P → Value C → Bool

variable {K C B P : Type}

namespace ObjectInfo

def header : ObjectInfo K C B P → Header K
  | value header _ | ref header _ | list header _ | map header _ | bean header _ _ _ _ _ => header

def name (info : ObjectInfo K C B P) : Option K := info.header.name

/-- The descriptions inside of a description, of which objects are made for it. -/
def parts : ObjectInfo K C B P → List (ObjectInfo K C B P)
  | value _ _ | ref _ _ => []
  | list _ elementInfos => elementInfos
  | map _ entryInfos => entryInfos
  | bean _ _ _ parameterInfos properties propertyValueInfos =>
    parameterInfos ++ (properties.zip propertyValueInfos).map Prod.snd

/-- The names that a description refers to. -/
def refs : ObjectInfo K C B P → List K
  | ref _ b => [b]
  | bean _ _ factory _ _ _ => factory.toList
  | value _ _ | list _ _ | map _ _ => []

mutual

/-- How deep the descriptions are nested. -/
def depth : ObjectInfo K C B P → ℕ
  | value _ _ | ref _ _ => 1
  | list _ elementInfos => depths elementInfos + 1
  | map _ entryInfos => depths entryInfos + 1
  | bean _ _ _ parameterInfos _ propertyValueInfos =>
    max (depths parameterInfos) (depths propertyValueInfos) + 1

def depths : List (ObjectInfo K C B P) → ℕ
  | [] => 0
  | info :: infos => max info.depth (depths infos)

end

end ObjectInfo

/-- The objects by name, those that are made, each with its description, and what was done. -/
structure Registry (K C B P : Type) where
  singletons : K → Option (Value C)
  objects : K → Option (Value C)
  made : List (ObjectInfo K C B P × Value C)
  events : List (Event C B P)

namespace Registry

variable (s : Registry K C B P)

def isInRegistry (key : K) : Bool := (s.objects key).isSome || (s.singletons key).isSome

def findInRegistry [DecidableEq C] (key : K) : Value C :=
  let object := (s.objects key).getD .null
  if object = .null then (s.singletons key).getD .null else object

/-- What was made is noted. -/
def note (info : ObjectInfo K C B P) (object : Value C) : Registry K C B P :=
  { s with made := s.made ++ [(info, object)] }

variable [DecidableEq K]

def putInRegistry (isSingleton : Bool) (key : K) (object : Value C) : Registry K C B P :=
  if isSingleton then { s with singletons := Function.update s.singletons key (some object) }
  else { s with objects := Function.update s.objects key (some object) }

/-- The objects that are no singletons are forgotten. -/
def clearRegistry : Registry K C B P := { s with objects := fun _ => none }

end Registry

/-! ## Making objects -/

/-- A statement about a registry. -/
abbrev Make (K C B P : Type) := Throws (Exn K) (Registry K C B P)

namespace ObjectInfo

variable (classes : Classes C B P)

/-- A new list or map. -/
def allocate (event : ℕ → Event C B P) : Make K C B P (Value C) := fun s =>
  (.ok (.object s.events.length), { s with events := s.events ++ [event s.events.length] })

/-- A factory that is null has no class. -/
def construct (bean : B) (factory : Option (Value C)) (args : List (Value C)) :
    Make K C B P (Value C) := fun s =>
  match factory, classes.create s.events bean factory args s.events.length with
  | some .null, _ | _, none => (.error .failed, s)
  | _, some object =>
    (.ok object, { s with events := s.events ++ [.bean bean factory args object] })

/-- `injectProperty`, with a value. -/
def inject (object : Value C) (property : P) (value : Value C) : Make K C B P Unit := fun s =>
  if classes.accepts s.events object property value then
    (.ok (), { s with events := s.events ++ [.injected object property value] })
  else (.error .failed, s)

/-- `injectProperty`, for each property -/
def injectAll (getObject : ObjectInfo K C B P → Make K C B P (Value C)) (object : Value C) :
    List P → List (ObjectInfo K C B P) → Make K C B P Unit
  | property :: properties, info :: infos => do
    let value ← getObject info
    inject classes object property value
    injectAll getObject object properties infos
  | _, _ => pure ()

/-- `createObject` of the descriptions, with the calls back to the factory. -/
def createObject (getObject : ObjectInfo K C B P → Make K C B P (Value C))
    (getNamed : K → Make K C B P (Value C)) : ObjectInfo K C B P → Make K C B P (Value C)
  | value _ v => pure v
  | ref _ b => getNamed b
  | list _ elementInfos => do
    let elements ← Throws.mapAll getObject elementInfos
    allocate fun id => .list id elements
  | map _ entryInfos => do
    let entries ← Throws.mapAll getObject entryInfos
    allocate fun id => .map id entries
  | bean _ b factory parameterInfos properties propertyValueInfos => do
    let args ← Throws.mapAll getObject parameterInfos
    let factories ← Throws.mapAll getNamed factory.toList
    let object ← construct classes b factories.head? args
    injectAll classes getObject object properties propertyValueInfos
    pure object

end ObjectInfo

/-- `namedObjectInfos.get(name)` -/
def find [DecidableEq K] (namedObjectInfos : List (ObjectInfo K C B P)) (name : K) :
    Option (ObjectInfo K C B P) :=
  namedObjectInfos.find? fun info => decide (info.name = some name)

section

variable [DecidableEq K] [DecidableEq C] (classes : Classes C B P)
  (namedObjectInfos : List (ObjectInfo K C B P))

/-- `getObject` of a name -/
def getNamed (getObject : ObjectInfo K C B P → Make K C B P (Value C)) (name : K) :
    Make K C B P (Value C) :=
  match find namedObjectInfos name with
  | none => pure .null
  | some info => getObject info

/-- `getObject`, so many calls deep.  The names under construction are those of the calls around
    it, since each call takes its name out again in a `finally`. -/
def getObject : (fuel : ℕ) → (objectsUnderConstruction : List K) →
    ObjectInfo K C B P → Make K C B P (Value C)
  | 0, _, _ => Throws.throw_ .exhausted
  | fuel + 1, objectsUnderConstruction, info =>
    match info.name with
    | none => do
      let object ← info.createObject classes (getObject fuel objectsUnderConstruction)
        (getNamed namedObjectInfos (getObject fuel objectsUnderConstruction))
      Throws.modify_ fun s => s.note info object
      pure object
    | some key => fun s =>
      if s.isInRegistry key then (.ok (s.findInRegistry key), s)
      else if key ∈ objectsUnderConstruction then (.error (.circular key), s)
      else
        (do
          let object ← info.createObject classes (getObject fuel (key :: objectsUnderConstruction))
            (getNamed namedObjectInfos (getObject fuel (key :: objectsUnderConstruction)))
          Throws.modify_ fun s =>
            (s.note info object).putInRegistry info.header.isSingleton key object
          pure object : Make K C B P (Value C)) s

end

/-! ## Factories -/

structure ObjectFactory (K C B P : Type) where
  namedObjectInfos : List (ObjectInfo K C B P)
  registry : Registry K C B P

namespace ObjectFactory

variable [DecidableEq K] (f : ObjectFactory K C B P)

/-- `addObjectInfo`: a description of a name replaces the one that was there. -/
def addObjectInfo (info : ObjectInfo K C B P) : ObjectFactory K C B P :=
  if info.name = none then f
  else { f with
    namedObjectInfos := f.namedObjectInfos.filter (fun i => decide (i.name ≠ info.name)) ++ [info] }

/-- No calls are deeper than this (`getObject_enough`). -/
def fuel : ℕ := (f.namedObjectInfos.length + 1) * (ObjectInfo.depths f.namedObjectInfos + 1)

variable [DecidableEq C]

/-- `createObject` -/
def createObject (classes : Classes C B P) (name : K) :
    Except (Exn K) (Value C) × ObjectFactory K C B P :=
  match find f.namedObjectInfos name with
  | none => (.error (.undefined name), f)
  | some info =>
    let r := getObject classes f.namedObjectInfos f.fuel [] info f.registry.clearRegistry
    (r.1, { f with registry := r.2 })

end ObjectFactory

end Configuration

end Jbpm
