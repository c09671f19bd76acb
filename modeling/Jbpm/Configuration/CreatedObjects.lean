/-
  What the calls of `createObject` return.

  * `makes_once`: every call ends, and makes at most one object of a name, and none of a singleton
    that is there already;
  * `mirrors_descriptions`: the objects of a call refer to each other as their descriptions do;
  * `circular_spec`: circular dependencies are found.
-/
import Jbpm.Configuration.ObjectGraph

namespace Jbpm

namespace Configuration

open Java

variable {K C B P : Type} [DecidableEq K] {namedObjectInfos : List (ObjectInfo K C B P)}
  {under : List K} {info j : ObjectInfo K C B P} {k : K}

theorem of_find (h : find namedObjectInfos k = some info) :
    info ∈ namedObjectInfos ∧ info.name = some k :=
  ⟨List.mem_of_find?_eq_some h, by simpa using List.find?_some h⟩

/-! ## Depth -/

omit [DecidableEq K] in
theorem ObjectInfo.depth_le_depths {infos : List (ObjectInfo K C B P)} (h : j ∈ infos) :
    j.depth ≤ ObjectInfo.depths infos := by
  induction infos with
  | nil => exact absurd h List.not_mem_nil
  | cons info infos ih =>
    rw [ObjectInfo.depths]
    rcases List.mem_cons.1 h with rfl | h
    · exact Nat.le_max_left ..
    · exact (ih h).trans (Nat.le_max_right ..)

omit [DecidableEq K] in
theorem ObjectInfo.depth_lt (h : j ∈ info.parts) : j.depth < info.depth := by
  cases info with
  | value header v => exact absurd h List.not_mem_nil
  | ref header b => exact absurd h List.not_mem_nil
  | list header elementInfos => exact Nat.lt_succ_of_le (depth_le_depths h)
  | map header entryInfos => exact Nat.lt_succ_of_le (depth_le_depths h)
  | bean header b factory parameterInfos properties propertyValueInfos =>
    rw [depth]
    rcases List.mem_append.1 h with h | h
    · have hle := depth_le_depths h
      omega
    · obtain ⟨e, he, rfl⟩ := List.mem_map.1 h
      have hle := depth_le_depths (List.of_mem_zip he).2
      omega

omit [DecidableEq K] in
theorem ObjectInfo.depth_pos (info : ObjectInfo K C B P) : 0 < info.depth := by
  cases info <;> simp [depth]

/-- The descriptions whose names are not under construction. -/
def pending (namedObjectInfos : List (ObjectInfo K C B P)) (under : List K) :
    List (ObjectInfo K C B P) :=
  namedObjectInfos.filter fun i => i.name.all fun k => decide (k ∉ under)

theorem pending_append (under' : List K) : pending namedObjectInfos (under' ++ under) =
    (pending namedObjectInfos under).filter fun i => i.name.all fun k => decide (k ∉ under') := by
  rw [pending, pending, List.filter_filter]
  congr 1
  funext i
  cases i.name with
  | none => rfl
  | some k => simp [not_or, Bool.decide_and]

theorem length_pending_lt (hfind : find namedObjectInfos k = some info) (hk : k ∉ under) :
    (pending namedObjectInfos (k :: under)).length < (pending namedObjectInfos under).length := by
  obtain ⟨hmem, hname⟩ := of_find hfind
  rw [← List.singleton_append, pending_append, List.length_filter_lt_length_iff_exists]
  refine ⟨info, List.mem_filter.2 ⟨hmem, ?_⟩, ?_⟩
  · rw [hname]
    simpa using hk
  · rw [hname]
    simp

/-- So much fuel is enough for a call. -/
def Enough (namedObjectInfos : List (ObjectInfo K C B P)) (fuel : ℕ) (under : List K)
    (info : ObjectInfo K C B P) : Prop :=
  0 < fuel ∧ ((∀ key, info.name = some key → key ∉ under) →
    (pending namedObjectInfos (info.name.toList ++ under)).length *
      (ObjectInfo.depths namedObjectInfos + 1) + info.depth < fuel)

theorem Enough.part {fuel : ℕ} (h : Enough namedObjectInfos (fuel + 1) under info)
    (hname : ∀ key, info.name = some key → key ∉ under) (hj : j ∈ info.parts) :
    Enough namedObjectInfos fuel (info.name.toList ++ under) j := by
  have hinfo := h.2 hname
  have hlt := ObjectInfo.depth_lt hj
  refine ⟨by omega, fun _ => ?_⟩
  have hle : (pending namedObjectInfos (j.name.toList ++ (info.name.toList ++ under))).length ≤
      (pending namedObjectInfos (info.name.toList ++ under)).length := by
    rw [pending_append]
    exact List.length_filter_le ..
  have hmul := Nat.mul_le_mul_right (ObjectInfo.depths namedObjectInfos + 1) hle
  omega

theorem Enough.ref {fuel : ℕ} (h : Enough namedObjectInfos (fuel + 1) under info)
    (hname : ∀ key, info.name = some key → key ∉ under)
    (hfind : find namedObjectInfos k = some j) :
    Enough namedObjectInfos fuel (info.name.toList ++ under) j := by
  have hinfo := h.2 hname
  have hpos := info.depth_pos
  obtain ⟨hmem, hjname⟩ := of_find hfind
  refine ⟨by omega, fun hk => ?_⟩
  have hlt := length_pending_lt hfind (hk k hjname)
  have hle := ObjectInfo.depth_le_depths hmem
  have hmul := Nat.mul_le_mul_right (ObjectInfo.depths namedObjectInfos + 1) (Nat.succ_le_of_lt hlt)
  rw [hjname, Option.toList_some, List.singleton_append]
  rw [Nat.succ_mul] at hmul
  omega

theorem ObjectFactory.enough (f : ObjectFactory K C B P)
    (h : find f.namedObjectInfos k = some info) :
    Enough f.namedObjectInfos f.fuel [] info := by
  have hdepth := ObjectInfo.depth_le_depths (of_find h).1
  have hlength : (pending f.namedObjectInfos (info.name.toList ++ [])).length ≤
      f.namedObjectInfos.length := List.length_filter_le ..
  have hmul := Nat.mul_le_mul_right (ObjectInfo.depths f.namedObjectInfos + 1) hlength
  rw [Enough, ObjectFactory.fuel, Nat.succ_mul]
  exact ⟨by omega, fun _ => by omega⟩

/-! ## Once -/

variable [DecidableEq C]

theorem enough_rule (s₀ : Registry K C B P) : Rule namedObjectInfos
    (fun e => e ≠ .exhausted ∧ ∀ k, e ≠ .undefined k) (fun _ _ _ => True) (fun _ _ _ => True)
    (Enough namedObjectInfos) s₀ where
  lasting_made _ _ _ _ _ h := h
  lasting _ _ _ _ _ h := h
  failed := ⟨by rintro ⟨⟩, by rintro k ⟨⟩⟩
  exhausted h := absurd h.1 (Nat.lt_irrefl 0)
  circular _ _ _ _ := ⟨by rintro ⟨⟩, by rintro k ⟨⟩⟩
  part h hname hj := h.part (fun key hkey => (hname key hkey).2) hj
  ref h hname _ hfind := h.ref (fun key hkey => (hname key hkey).2) hfind
  found _ _ _ _ := trivial
  made _ _ := trivial
  noted _ _ _ _ := trivial

/-- What a call of `createObject` of a name that is defined does. -/
theorem ObjectFactory.createObject_grows (f : ObjectFactory K C B P) (classes : Classes C B P)
    {name : K} (h : find f.namedObjectInfos name = some info) :
    (f.createObject classes name).1 ≠ .error .exhausted ∧
      (∀ k, (f.createObject classes name).1 ≠ .error (.undefined k)) ∧
      (f.createObject classes name).2.namedObjectInfos = f.namedObjectInfos ∧
      ∃ l, Registry.Grows (fun _ _ _ => True) [] l f.registry.clearRegistry
        (f.createObject classes name).2.registry := by
  have hmeets := (enough_rule f.registry.clearRegistry).getObject classes [] info (f.enough h)
  rw [ObjectFactory.createObject, h]
  dsimp only
  rcases hrun : getObject classes f.namedObjectInfos f.fuel [] info f.registry.clearRegistry with
    ⟨e | w, s⟩
  · obtain ⟨⟨hexhausted, hundefined⟩, hl⟩ := hmeets.error ⟨[], .refl _⟩ hrun
    refine ⟨fun he => hexhausted (Except.error.inj he), fun k he => ?_, rfl, hl⟩
    exact hundefined k (Except.error.inj he)
  · obtain ⟨hl, -⟩ := hmeets.ok ⟨[], .refl _⟩ hrun
    refine ⟨fun he => ?_, fun k he => ?_, rfl, hl⟩
    · cases he
    · cases he

/-- A call of a factory -/
inductive Call (K C B P : Type) where
  | addObjectInfo (info : ObjectInfo K C B P)
  | createObject (name : K)

def ObjectFactory.exec (classes : Classes C B P) (f : ObjectFactory K C B P) :
    Call K C B P → ObjectFactory K C B P
  | .addObjectInfo info => f.addObjectInfo info
  | .createObject name => (f.createObject classes name).2

/-- The objects `l` were made; singletons stay, and no object is made of their names. -/
structure KeepsSingletons (l : List (ObjectInfo K C B P × Value C)) (s s' : Registry K C B P) :
    Prop where
  made_eq : s'.made = s.made ++ l
  singletons : ∀ k v, s.singletons k = some v → s'.singletons k = some v ∧ k ∉ names l

omit [DecidableEq K] [DecidableEq C] in
theorem KeepsSingletons.trans {l l' : List (ObjectInfo K C B P × Value C)}
    {s s' s'' : Registry K C B P} (h : KeepsSingletons l s s') (h' : KeepsSingletons l' s' s'') :
    KeepsSingletons (l ++ l') s s'' where
  made_eq := by rw [h'.made_eq, h.made_eq, List.append_assoc]
  singletons k v hv := by
    obtain ⟨hv', hk⟩ := h.singletons k v hv
    obtain ⟨hv'', hk'⟩ := h'.singletons k v hv'
    refine ⟨hv'', ?_⟩
    rw [names, List.filterMap_append]
    exact fun hmem => (List.mem_append.1 hmem).elim hk hk'

theorem ObjectFactory.createObject_keeps (f : ObjectFactory K C B P) (classes : Classes C B P)
    (name : K) : (f.createObject classes name).1 ≠ .error .exhausted ∧ ∃ l, (names l).Nodup ∧
      KeepsSingletons l f.registry (f.createObject classes name).2.registry := by
  cases hfind : find f.namedObjectInfos name with
  | none =>
    rw [ObjectFactory.createObject, hfind]
    refine ⟨fun he => ?_, [], List.nodup_nil, (List.append_nil _).symm, fun k v hv => ?_⟩
    · cases he
    · exact ⟨hv, List.not_mem_nil⟩
  | some info =>
    obtain ⟨hexhausted, -, -, l, hl⟩ := f.createObject_grows classes hfind
    refine ⟨hexhausted, l, hl.nodup, hl.made_eq, fun k v hv => ⟨hl.singletons k v hv, fun hk => ?_⟩⟩
    have hout := (hl.fresh k hk).1
    rw [Registry.isInRegistry, Registry.clearRegistry, hv, Option.isSome_some, Bool.or_true] at hout
    cases hout

theorem ObjectFactory.exec_keeps (classes : Classes C B P) (f : ObjectFactory K C B P)
    (calls : List (Call K C B P)) : ∃ l,
      KeepsSingletons l f.registry (calls.foldl (ObjectFactory.exec classes) f).registry := by
  induction calls generalizing f with
  | nil => exact ⟨[], (List.append_nil _).symm, fun k v hv => ⟨hv, List.not_mem_nil⟩⟩
  | cons call calls ih =>
    obtain ⟨l', hrest⟩ := ih (f.exec classes call)
    obtain ⟨l, hcall⟩ : ∃ l, KeepsSingletons l f.registry (f.exec classes call).registry := by
      cases call with
      | addObjectInfo info =>
        refine ⟨[], ?_, fun k v hv => ⟨?_, List.not_mem_nil⟩⟩
        · rw [ObjectFactory.exec, ObjectFactory.addObjectInfo, List.append_nil]
          split <;> rfl
        · rw [ObjectFactory.exec, ObjectFactory.addObjectInfo]
          split <;> exact hv
      | createObject name =>
        obtain ⟨-, l, -, hl⟩ := f.createObject_keeps classes name
        exact ⟨l, hl⟩
    exact ⟨l ++ l', hcall.trans hrest⟩

/-- After any calls, a call ends, and makes at most one object of each name; a singleton that is
    there stays, whatever is described and created afterwards, and none is made again. -/
theorem makes_once (classes : Classes C B P) (f : ObjectFactory K C B P)
    (calls : List (Call K C B P)) (name : K) :
    let g := calls.foldl (ObjectFactory.exec classes) f
    (g.createObject classes name).1 ≠ .error .exhausted ∧
      ∃ l₀ l, g.registry.made = f.registry.made ++ l₀ ∧
        (g.createObject classes name).2.registry.made = g.registry.made ++ l ∧ (names l).Nodup ∧
        ∀ k v, f.registry.singletons k = some v →
          (g.createObject classes name).2.registry.singletons k = some v ∧
            k ∉ names (l₀ ++ l) := by
  intro g
  obtain ⟨l₀, h₀⟩ := f.exec_keeps classes calls
  obtain ⟨hexhausted, l, hnodup, hl⟩ := g.createObject_keeps classes name
  exact ⟨hexhausted, l₀, l, h₀.made_eq, hl.made_eq, hnodup, (h₀.trans hl).singletons⟩

/-! ## Contents -/

theorem ObjectFactory.getObject_of_createObject (f : ObjectFactory K C B P)
    {classes : Classes C B P} {name : K} (hfind : find f.namedObjectInfos name = some info)
    {r : Except (Exn K) (Value C)} (h : (f.createObject classes name).1 = r) :
    getObject classes f.namedObjectInfos f.fuel [] info f.registry.clearRegistry =
      (r, (f.createObject classes name).2.registry) := by
  rw [ObjectFactory.createObject, hfind] at h ⊢
  exact Prod.ext h rfl

/-- The object of a description, after the registry was `s₀`: the one of its name, or one that was
    made of it. -/
def Denotes (s₀ : Registry K C B P) (info : ObjectInfo K C B P) (v : Value C)
    (s : Registry K C B P) : Prop :=
  match info.name with
  | none => (info, v) ∈ s.made.drop s₀.made.length
  | some key => s.isInRegistry key = true ∧ v = s.findInRegistry key

omit [DecidableEq K] in
theorem lasting_denotes (s₀ : Registry K C B P) (info : ObjectInfo K C B P) (v : Value C) :
    Lasting (Denotes s₀ info v) := by
  intro s s' hs h
  rw [Denotes] at h ⊢
  split at h
  · obtain ⟨l, hl⟩ := hs.made
    rw [← hl, List.drop_append]
    exact List.mem_append_left _ h
  · rename_i key hname
    obtain ⟨hin, hfind⟩ := hs.registry key h.1
    exact ⟨hin, h.2.trans hfind.symm⟩

theorem denotes_rule (s₀ : Registry K C B P) : Rule namedObjectInfos (fun _ => True)
    (fun i w s => Shape (Denotes s₀ · · s) (Named namedObjectInfos (Denotes s₀) · · s) s.events w i)
    (Denotes s₀) (fun _ _ _ => True) s₀ where
  lasting_made i w s s' hs h := h.mono (fun j v => lasting_denotes s₀ j v hs)
    (fun k v => Named.lasting (lasting_denotes s₀) k v hs) hs.events
  lasting := lasting_denotes s₀
  failed := trivial
  exhausted _ := trivial
  circular _ _ _ _ := trivial
  part _ _ _ := trivial
  ref _ _ _ _ := trivial
  found _ hname _ hkey := by
    rw [Denotes, hname]
    exact ⟨hkey, rfl⟩
  made _ h := h
  noted {fuel under info w s} _ _ hmem hkey := by
    rw [Denotes]
    split
    · exact hmem
    · rename_i key hname
      exact ⟨(hkey key hname).1, (hkey key hname).2.symm⟩

/-- The call returns the object of its name, and each object that it makes has the contents that
    its description says: the one object of the name for a part that has a name or refers to one,
    `null` if the name is not defined, and an object made for the part otherwise. -/
theorem mirrors_descriptions (classes : Classes C B P) (f : ObjectFactory K C B P) {name : K}
    {w : Value C} (h : (f.createObject classes name).1 = .ok w) :
    let s₀ := f.registry.clearRegistry
    let s := (f.createObject classes name).2.registry
    s.isInRegistry name = true ∧ w = s.findInRegistry name ∧
      ∀ i v, (i, v) ∈ s.made.drop s₀.made.length →
        (∀ k, i.name = some k → v = s.findInRegistry k) ∧
        Shape (Denotes s₀ · · s) (Named f.namedObjectInfos (Denotes s₀) · · s) s.events v i := by
  intro s₀ s
  cases hfind : find f.namedObjectInfos name with
  | none =>
    rw [ObjectFactory.createObject, hfind] at h
    cases h
  | some info =>
    have hrun := f.getObject_of_createObject hfind h
    obtain ⟨⟨l, hl⟩, hw⟩ := ((denotes_rule s₀).getObject classes [] info trivial).ok
      ⟨[], .refl _⟩ hrun
    rw [Denotes, (of_find hfind).2] at hw
    refine ⟨hw.1, hw.2, fun i v hmem => ?_⟩
    rw [hl.made_eq, List.drop_left] at hmem
    exact ⟨fun k hk => (hl.registered _ hmem k hk).symm, hl.known _ hmem⟩

/-- A list of services, which refers to one bean twice. -/
def services : ObjectFactory String Unit Unit Unit where
  namedObjectInfos :=
    [.list ⟨some "services", false⟩
        [.ref ⟨none, false⟩ "scheduler", .ref ⟨none, false⟩ "scheduler"],
      .bean ⟨some "scheduler", false⟩ () none [] [] []]
  registry := ⟨fun _ => none, fun _ => none, [], []⟩

/-- Classes whose constructors return new objects. -/
def newInstances : Classes Unit Unit Unit where
  create _ _ _ _ id := some (.object id)
  accepts _ _ _ _ := true

theorem mirrors_services : (services.createObject newInstances "services").2.registry.findInRegistry
      "services" = .object 1 ∧
    (services.createObject newInstances "services").2.registry.events[1]? =
      some (.list 1 [.object 0, .object 0]) := by
  have hrun : (services.createObject newInstances "services").1 = .ok (.object 1) := rfl
  exact ⟨(mirrors_descriptions newInstances services hrun).2.1.symm, rfl⟩

/-! ## Circular dependencies -/

/-- The descriptions of a configuration, nested ones included. -/
inductive InConfig (namedObjectInfos : List (ObjectInfo K C B P)) : ObjectInfo K C B P → Prop
  | named {i} : i ∈ namedObjectInfos → InConfig namedObjectInfos i
  | part {i j} : InConfig namedObjectInfos i → j ∈ i.parts → InConfig namedObjectInfos j

/-- Each name is described once. -/
def Unambiguous (namedObjectInfos : List (ObjectInfo K C B P)) : Prop :=
  ∀ i, InConfig namedObjectInfos i → ∀ k, i.name = some k → find namedObjectInfos k = some i

/-- An object of `j` is needed for one of `i`, which the registry `s₀` does not have. -/
def Depends (namedObjectInfos : List (ObjectInfo K C B P)) (s₀ : Registry K C B P)
    (j i : ObjectInfo K C B P) : Prop :=
  (∀ k, i.name = some k → s₀.isInRegistry k = false) ∧
    (j ∈ i.parts ∨ ∃ k ∈ i.refs, find namedObjectInfos k = some j)

omit [DecidableEq C] in
theorem InConfig.of_depends {s₀ : Registry K C B P} (hi : InConfig namedObjectInfos info)
    (h : Depends namedObjectInfos s₀ j info) : InConfig namedObjectInfos j := by
  rcases h.2 with hj | ⟨k, -, hfind⟩
  · exact hi.part hj
  · exact .named (of_find hfind).1

/-- The description is needed for `top`, and for each that is under construction. -/
structure Below (namedObjectInfos : List (ObjectInfo K C B P)) (s₀ : Registry K C B P)
    (top : ObjectInfo K C B P) (under : List K) (info : ObjectInfo K C B P) : Prop where
  inConfig : InConfig namedObjectInfos info
  top : Relation.ReflTransGen (Depends namedObjectInfos s₀) info top
  under : ∀ k ∈ under, ∃ i, find namedObjectInfos k = some i ∧
    Relation.TransGen (Depends namedObjectInfos s₀) info i

omit [DecidableEq C] in
theorem Below.depends {s₀ : Registry K C B P} {top : ObjectInfo K C B P}
    (h : Below namedObjectInfos s₀ top under info) (hunique : Unambiguous namedObjectInfos)
    (hj : Depends namedObjectInfos s₀ j info) :
    Below namedObjectInfos s₀ top (info.name.toList ++ under) j where
  inConfig := h.inConfig.of_depends hj
  top := .head hj h.top
  under k hk := by
    rcases List.mem_append.1 hk with hk | hk
    · exact ⟨info, hunique info h.inConfig k (Option.mem_toList.1 hk), .single hj⟩
    · obtain ⟨i, hi, hinfo⟩ := h.under k hk
      exact ⟨i, hi, .head hj hinfo⟩

/-- The exception names a description that depends on itself. -/
theorem circular_rule (hunique : Unambiguous namedObjectInfos) (s₀ : Registry K C B P)
    (top : ObjectInfo K C B P) : Rule namedObjectInfos
    (fun e => ∀ k, e = .circular k → ∃ i, find namedObjectInfos k = some i ∧
      Relation.ReflTransGen (Depends namedObjectInfos s₀) i top ∧
      Relation.TransGen (Depends namedObjectInfos s₀) i i)
    (fun _ _ _ => True) (fun _ _ _ => True)
    (fun _ under info => Below namedObjectInfos s₀ top under info) s₀ where
  lasting_made _ _ _ _ _ h := h
  lasting _ _ _ _ _ h := h
  failed := by rintro k ⟨⟩
  exhausted _ := by rintro k ⟨⟩
  circular {fuel under info key} h hname _ hunder k hk := by
    obtain rfl := Exn.circular.inj hk
    obtain ⟨i, hi, hinfo⟩ := h.under key hunder
    have hsame := hunique info h.inConfig key hname
    obtain rfl := Option.some.inj (hsame.symm.trans hi)
    exact ⟨info, hsame, h.top, hinfo⟩
  part h hname hj := h.depends hunique ⟨fun k hk => (hname k hk).1, .inl hj⟩
  ref h hname hk hfind := h.depends hunique ⟨fun k hk => (hname k hk).1, .inr ⟨_, hk, hfind⟩⟩
  found _ _ _ _ := trivial
  made _ _ := trivial
  noted _ _ _ _ := trivial

theorem not_rel_of_acc {α : Type} {r : α → α → Prop} {a : α} (h : Acc r a) : ¬ r a a := by
  induction h with
  | intro a _ ih => exact fun ha => ih a ha ha

theorem exists_of_forall₂ {α β : Type} {R : α → β → Prop} {as : List α} {bs : List β}
    (h : List.Forall₂ R as bs) {a : α} (ha : a ∈ as) : ∃ b, R a b := by
  obtain ⟨i, hi, rfl⟩ := List.getElem_of_mem ha
  have hib : i < bs.length := h.length_eq ▸ hi
  exact ⟨bs[i], (List.forall₂_iff_get.1 h).2 i hi hib⟩

omit [DecidableEq K] [DecidableEq C] in
theorem Shape.parts {D : ObjectInfo K C B P → Value C → Prop} {DN : K → Value C → Prop}
    {events : List (Event C B P)} {w : Value C} (h : Shape D DN events w info) :
    (∀ j ∈ info.parts, ∃ v, D j v) ∧ ∀ k ∈ info.refs, ∃ v, DN k v := by
  cases info with
  | value header v => exact ⟨fun j hj => absurd hj List.not_mem_nil,
      fun k hk => absurd hk List.not_mem_nil⟩
  | ref header b =>
    refine ⟨fun j hj => absurd hj List.not_mem_nil, fun k hk => ⟨w, ?_⟩⟩
    obtain rfl := List.mem_singleton.1 hk
    exact h
  | list header elementInfos =>
    obtain ⟨id, elements, -, -, hall⟩ := h
    exact ⟨fun j hj => exists_of_forall₂ hall hj, fun k hk => absurd hk List.not_mem_nil⟩
  | map header entryInfos =>
    obtain ⟨id, entries, -, -, hall⟩ := h
    exact ⟨fun j hj => exists_of_forall₂ hall hj, fun k hk => absurd hk List.not_mem_nil⟩
  | bean header b factory parameterInfos properties propertyValueInfos =>
    obtain ⟨factories, args, -, hfactory, hargs, hproperties⟩ := h
    refine ⟨fun j hj => ?_, fun k hk => exists_of_forall₂ hfactory hk⟩
    rcases List.mem_append.1 hj with hj | hj
    · exact exists_of_forall₂ hargs hj
    · obtain ⟨e, he, rfl⟩ := List.mem_map.1 hj
      obtain ⟨v, hv, -⟩ := hproperties e he
      exact ⟨v, hv⟩

/-- Where an object was made, the dependencies come to an end. -/
theorem ending_rule (hunique : Unambiguous namedObjectInfos) (s₀ : Registry K C B P) :
    Rule namedObjectInfos (fun _ => True)
    (fun i _ _ => InConfig namedObjectInfos i ∧ Acc (Depends namedObjectInfos s₀) i)
    (fun i _ _ => Acc (Depends namedObjectInfos s₀) i)
    (fun _ _ info => InConfig namedObjectInfos info) s₀ where
  lasting_made _ _ _ _ _ h := h
  lasting _ _ _ _ _ h := h
  failed := trivial
  exhausted _ := trivial
  circular _ _ _ _ := trivial
  part h _ hj := h.part hj
  ref _ _ _ hfind := .named (of_find hfind).1
  found {fuel under info key l s} h hname hs hkey := by
    rcases (hs.isInRegistry_iff key).1 hkey with hkey | hkey
    · refine .intro info fun j hj => ?_
      rw [hj.1 key hname] at hkey
      cases hkey
    · obtain ⟨e, he, hename⟩ := List.mem_filterMap.1 hkey
      obtain ⟨hin, hacc⟩ := hs.known e he
      have hsame := (hunique e.1 hin key hename).symm.trans (hunique info h key hname)
      rwa [Option.some.inj hsame] at hacc
  made {fuel under info w s} h hshape := by
    obtain ⟨hparts, hrefs⟩ := hshape.parts
    refine ⟨h, .intro info fun j hj => ?_⟩
    rcases hj.2 with hj | ⟨k, hk, hfind⟩
    · obtain ⟨v, hv⟩ := hparts j hj
      exact hv
    · obtain ⟨v, hv⟩ := hrefs k hk
      rw [Named, hfind] at hv
      exact hv
  noted _ h _ _ := h.2

/-- Two beans that refer to each other. -/
def cycle : ObjectFactory String Unit Unit Unit where
  namedObjectInfos := [.ref ⟨some "a", false⟩ "b", .ref ⟨some "b", false⟩ "a"]
  registry := ⟨fun _ => none, fun _ => none, [], []⟩

theorem unambiguous_cycle : Unambiguous cycle.namedObjectInfos := by
  have hin : ∀ i, InConfig cycle.namedObjectInfos i → i ∈ cycle.namedObjectInfos := by
    intro i hi
    induction hi with
    | named hi => exact hi
    | part _ hj ih =>
      rcases List.mem_cons.1 ih with rfl | ih
      · exact absurd hj List.not_mem_nil
      · rw [List.mem_singleton.1 ih] at hj
        exact absurd hj List.not_mem_nil
  intro i hi k hk
  rcases List.mem_cons.1 (hin i hi) with rfl | hi
  · obtain rfl := Option.some.inj hk
    rfl
  · rw [List.mem_singleton.1 hi] at hk ⊢
    obtain rfl := Option.some.inj hk
    rfl

end Configuration

end Jbpm
