/-
  The objects that a factory makes.

  * `Shape`: an object has the contents that its description says;
  * `Grows`, `making`: what calls of the factory do to the registry;
  * `Rule.getObject`: the induction over the calls;
  * `makes_once`: every call ends, and makes each named object at most once;
  * `mirrors_descriptions`: the objects of a call refer to each other as their descriptions do;
  * `ends_iff`: a circular dependency is found if there is one, and only then.
-/
import Mathlib.Data.List.Infix
import Mathlib.Data.List.Nodup
import Mathlib.Logic.Relation
import Jbpm.Configuration.ObjectFactory

namespace Jbpm

namespace Configuration

open Java

variable {K C B P : Type}

/-! ## Contents of objects -/

/-- The object `w` was made as its description says, where `D` tells the objects of the parts and
    `DN` those of the names. -/
def Shape (D : ObjectInfo K C B P → Value C → Prop) (DN : K → Value C → Prop)
    (events : List (Event C B P)) (w : Value C) : ObjectInfo K C B P → Prop
  | .value _ v => w = v
  | .ref _ b => DN b w
  | .list _ elementInfos => ∃ id elements, w = .object id ∧
      events[id]? = some (.list id elements) ∧ List.Forall₂ D elementInfos elements
  | .map _ entryInfos => ∃ id entries, w = .object id ∧
      events[id]? = some (.map id entries) ∧ List.Forall₂ D entryInfos entries
  | .bean _ b factory parameterInfos properties propertyValueInfos => ∃ factories args,
      .bean b factories.head? args w ∈ events ∧ List.Forall₂ DN factory.toList factories ∧
        List.Forall₂ D parameterInfos args ∧
          ∀ e ∈ properties.zip propertyValueInfos, ∃ v, D e.2 v ∧ .injected w e.1 v ∈ events

theorem Shape.mono {D D' : ObjectInfo K C B P → Value C → Prop} {DN DN' : K → Value C → Prop}
    {events events' : List (Event C B P)} {w : Value C} {info : ObjectInfo K C B P}
    (h : Shape D DN events w info) (hD : ∀ j v, D j v → D' j v) (hDN : ∀ k v, DN k v → DN' k v)
    (hevents : events <+: events') : Shape D' DN' events' w info := by
  have hget : ∀ {i : ℕ} {e : Event C B P}, events[i]? = some e → events'[i]? = some e := by
    intro i e he
    obtain ⟨l, rfl⟩ := hevents
    rw [List.getElem?_append_left (List.getElem?_eq_some_iff.1 he).1, he]
  cases info with
  | value header v => exact h
  | ref header b => exact hDN b w h
  | list header elementInfos =>
    obtain ⟨id, elements, hw, hevent, hall⟩ := h
    exact ⟨id, elements, hw, hget hevent, hall.imp hD⟩
  | map header entryInfos =>
    obtain ⟨id, entries, hw, hevent, hall⟩ := h
    exact ⟨id, entries, hw, hget hevent, hall.imp hD⟩
  | bean header b factory parameterInfos properties propertyValueInfos =>
    obtain ⟨factories, args, hevent, hfactory, hargs, hproperties⟩ := h
    refine ⟨factories, args, hevents.subset hevent, hfactory.imp hDN, hargs.imp hD, ?_⟩
    intro e he
    obtain ⟨v, hv, hinjected⟩ := hproperties e he
    exact ⟨v, hD _ _ hv, hevents.subset hinjected⟩

/-! ## What a description makes -/

theorem ObjectInfo.construct_run (classes : Classes C B P) (b : B) (factory : Option (Value C))
    (args : List (Value C)) (s : Registry K C B P) :
    ObjectInfo.construct classes b factory args s = (.error .failed, s) ∨
      ∃ w, ObjectInfo.construct classes b factory args s =
        (.ok w, { s with events := s.events ++ [.bean b factory args w] }) := by
  unfold ObjectInfo.construct
  split
  · exact .inl rfl
  · exact .inl rfl
  · exact .inr ⟨_, rfl⟩

/-- A contract under which objects can be made, with assertions about them. -/
structure Makes (G : Contract (Exn K) (Registry K C B P)) (I : Registry K C B P → Prop)
    (D : ObjectInfo K C B P → Value C → Registry K C B P → Prop)
    (DN : K → Value C → Registry K C B P → Prop) : Prop where
  events : ∀ {s s'}, G.keeps s s' → s.events <+: s'.events
  append : ∀ s e, G.keeps s { s with events := s.events ++ [e] }
  failed : ∀ s, G.fails s .failed s
  stable : G.Stable I
  stable_part : ∀ j v, G.Stable (D j v)
  stable_ref : ∀ k v, G.Stable (DN k v)

namespace Makes

variable {G : Contract (Exn K) (Registry K C B P)} {I : Registry K C B P → Prop}
  {D : ObjectInfo K C B P → Value C → Registry K C B P → Prop}
  {DN : K → Value C → Registry K C B P → Prop} {classes : Classes C B P}
  {getObject : ObjectInfo K C B P → Make K C B P (Value C)}
  {getNamed : K → Make K C B P (Value C)}

theorem allocate (h : Makes G I D DN) (event : ℕ → Event C B P)
    {A : Registry K C B P → Prop} (hA : G.Stable A) :
    G.Meets A (ObjectInfo.allocate event) fun w s => A s ∧
      ∃ id, w = .object id ∧ s.events[id]? = some (event id) := by
  intro s hs
  have hkeeps := h.append s (event s.events.length)
  exact ⟨hkeeps, hA hkeeps hs, _, rfl, by rw [List.getElem?_concat_length]⟩

theorem construct (h : Makes G I D DN) (b : B) (factory : Option (Value C)) (args : List (Value C))
    {A : Registry K C B P → Prop} (hA : G.Stable A) :
    G.Meets A (ObjectInfo.construct classes b factory args) fun w s => A s ∧
      .bean b factory args w ∈ s.events := by
  intro s hs
  rcases ObjectInfo.construct_run classes b factory args s with hrun | ⟨w, hrun⟩
  · rw [hrun]
    exact h.failed s
  · rw [hrun]
    have hkeeps := h.append s (.bean b factory args w)
    exact ⟨hkeeps, hA hkeeps hs, List.mem_append_right _ List.mem_cons_self⟩

theorem inject (h : Makes G I D DN) (w : Value C) (property : P) (v : Value C)
    {A : Registry K C B P → Prop} (hA : G.Stable A) :
    G.Meets A (ObjectInfo.inject classes w property v) fun _ s => A s ∧
      .injected w property v ∈ s.events := by
  intro s hs
  rw [ObjectInfo.inject]
  by_cases haccepts : classes.accepts s.events w property v = true
  · rw [if_pos haccepts]
    have hkeeps := h.append s (.injected w property v)
    exact ⟨hkeeps, hA hkeeps hs, List.mem_append_right _ List.mem_cons_self⟩
  · rw [if_neg haccepts]
    exact h.failed s

/-- The values of the properties are made and injected, one after the other. -/
theorem injectAll (h : Makes G I D DN) (w : Value C) {infos : List (ObjectInfo K C B P)}
    {properties : List P} (hget : ∀ e ∈ properties.zip infos, G.Meets I (getObject e.2) (D e.2)) :
    G.Meets I (ObjectInfo.injectAll classes getObject w properties infos) fun _ s => I s ∧
      ∀ e ∈ properties.zip infos, ∃ v, D e.2 v s ∧ .injected w e.1 v ∈ s.events := by
  induction properties generalizing infos with
  | nil =>
    unfold ObjectInfo.injectAll
    exact Contract.meets_pure fun s hs => ⟨hs, fun e he => absurd he List.not_mem_nil⟩
  | cons property properties ih =>
    cases infos with
    | nil =>
      unfold ObjectInfo.injectAll
      exact Contract.meets_pure fun s hs => ⟨hs, fun e he => absurd he List.not_mem_nil⟩
    | cons info infos =>
      obtain ⟨hinfo, hinfos⟩ := List.forall_mem_cons.1 hget
      dsimp only at hinfo
      have hevent : ∀ v : Value C, G.Stable fun s => .injected w property v ∈ s.events :=
        fun v _ _ hkeeps hv => (h.events hkeeps).subset hv
      rw [ObjectInfo.injectAll]
      refine (hinfo.frame h.stable |>.mono (fun s hs => ⟨hs, hs⟩) fun _ _ hq => hq).bind fun v => ?_
      have hstable : G.Stable fun s => D info v s ∧ I s := fun _ _ hkeeps hs =>
        ⟨h.stable_part info v hkeeps hs.1, h.stable hkeeps hs.2⟩
      refine (h.inject w property v hstable).bind fun _ => ?_
      refine (((ih hinfos).frame (h.stable_part info v)).frame (hevent v)).mono
        (fun s hs => ⟨⟨hs.1.2, hs.1.1⟩, hs.2⟩) fun _ s hs => ?_
      obtain ⟨⟨⟨hI, hrest⟩, hv⟩, hinjected⟩ := hs
      refine ⟨hI, fun e he => ?_⟩
      rw [List.zip_cons_cons] at he
      rcases List.mem_cons.1 he with rfl | he
      · exact ⟨v, hv, hinjected⟩
      · exact hrest e he

/-- If the calls back make objects for the parts and the names, the description makes one with
    these as its contents. -/
theorem createObject (h : Makes G I D DN) {info : ObjectInfo K C B P}
    (hget : ∀ j ∈ info.parts, G.Meets I (getObject j) (D j))
    (hnamed : ∀ k ∈ info.refs, G.Meets I (getNamed k) (DN k)) :
    G.Meets I (info.createObject classes getObject getNamed) fun w s => I s ∧
      Shape (D · · s) (DN · · s) s.events w info := by
  have hall : ∀ (js : List (ObjectInfo K C B P)) (vs : List (Value C)),
      G.Stable fun s => List.Forall₂ (D · · s) js vs := fun _ _ _ _ hkeeps hs =>
    hs.imp fun j v => h.stable_part j v hkeeps
  have hrefs : ∀ (ks : List K) (vs : List (Value C)),
      G.Stable fun s => List.Forall₂ (DN · · s) ks vs := fun _ _ _ _ hkeeps hs =>
    hs.imp fun k v => h.stable_ref k v hkeeps
  cases info with
  | value header v => exact Contract.meets_pure fun s hs => ⟨hs, rfl⟩
  | ref header b =>
    exact ((hnamed b List.mem_cons_self).frame h.stable).mono (fun s hs => ⟨hs, hs⟩)
      fun w s hs => ⟨hs.2, hs.1⟩
  | list header elementInfos =>
    refine (Contract.meets_mapAll h.stable h.stable_part hget).bind fun elements => ?_
    have hstable : G.Stable fun s => I s ∧ List.Forall₂ (D · · s) elementInfos elements :=
      fun _ _ hkeeps hs => ⟨h.stable hkeeps hs.1, hall _ _ hkeeps hs.2⟩
    refine (h.allocate _ hstable).mono (fun s hs => hs) fun w s hs => ?_
    obtain ⟨⟨hI, helements⟩, id, hw, hevent⟩ := hs
    exact ⟨hI, id, elements, hw, hevent, helements⟩
  | map header entryInfos =>
    refine (Contract.meets_mapAll h.stable h.stable_part hget).bind fun entries => ?_
    have hstable : G.Stable fun s => I s ∧ List.Forall₂ (D · · s) entryInfos entries :=
      fun _ _ hkeeps hs => ⟨h.stable hkeeps hs.1, hall _ _ hkeeps hs.2⟩
    refine (h.allocate _ hstable).mono (fun s hs => hs) fun w s hs => ?_
    obtain ⟨⟨hI, hentries⟩, id, hw, hevent⟩ := hs
    exact ⟨hI, id, entries, hw, hevent, hentries⟩
  | bean header b factory parameterInfos properties propertyValueInfos =>
    have hparameters : ∀ j ∈ parameterInfos, G.Meets I (getObject j) (D j) :=
      fun j hj => hget j (List.mem_append_left _ hj)
    have hvalues : ∀ e ∈ properties.zip propertyValueInfos,
        G.Meets I (getObject e.2) (D e.2) :=
      fun e he => hget e.2 (List.mem_append_right _ (List.mem_map_of_mem he))
    refine (Contract.meets_mapAll h.stable h.stable_part hparameters).bind fun args => ?_
    refine ((Contract.meets_mapAll h.stable h.stable_ref hnamed).frame (hall _ args)).bind
      fun factories => ?_
    have hstable : G.Stable fun s => (I s ∧ List.Forall₂ (DN · · s) factory.toList factories) ∧
        List.Forall₂ (D · · s) parameterInfos args := fun _ _ hkeeps hs =>
      ⟨⟨h.stable hkeeps hs.1.1, hrefs _ _ hkeeps hs.1.2⟩, hall _ _ hkeeps hs.2⟩
    refine (h.construct b factories.head? args hstable).bind fun w => ?_
    have hmade : G.Stable fun s => (List.Forall₂ (DN · · s) factory.toList factories ∧
        List.Forall₂ (D · · s) parameterInfos args) ∧
          Event.bean b factories.head? args w ∈ s.events := fun _ _ hkeeps hs =>
      ⟨⟨hrefs _ _ hkeeps hs.1.1, hall _ _ hkeeps hs.1.2⟩, (h.events hkeeps).subset hs.2⟩
    refine (((h.injectAll w hvalues).frame hmade).mono
      (fun s hs => ⟨hs.1.1.1, ⟨hs.1.1.2, hs.1.2⟩, hs.2⟩) fun _ _ hs => hs).bind fun _ => ?_
    refine Contract.meets_pure fun s hs => ?_
    obtain ⟨⟨hI, hproperties⟩, ⟨hfactories, hargs⟩, hevent⟩ := hs
    exact ⟨hI, factories, args, hevent, hfactories, hargs, hproperties⟩

end Makes

/-! ## What calls do to the registry -/

section

variable [DecidableEq C]

/-- Nothing is forgotten. -/
structure Registry.Extends (s s' : Registry K C B P) : Prop where
  registry : ∀ k, s.isInRegistry k = true →
    s'.isInRegistry k = true ∧ s'.findInRegistry k = s.findInRegistry k
  singletons : ∀ k v, s.singletons k = some v → s'.singletons k = some v
  made : s.made <+: s'.made
  events : s.events <+: s'.events

theorem Registry.Extends.refl (s : Registry K C B P) : s.Extends s where
  registry _ hk := ⟨hk, rfl⟩
  singletons _ _ hv := hv
  made := List.prefix_rfl
  events := List.prefix_rfl

theorem Registry.Extends.trans {s s' s'' : Registry K C B P} (h : s.Extends s')
    (h' : s'.Extends s'') : s.Extends s'' where
  registry k hk := by
    obtain ⟨hk', hfind⟩ := h.registry k hk
    obtain ⟨hk'', hfind'⟩ := h'.registry k hk'
    exact ⟨hk'', hfind'.trans hfind⟩
  singletons k v hv := h'.singletons k v (h.singletons k v hv)
  made := h.made.trans h'.made
  events := h.events.trans h'.events

def names (l : List (ObjectInfo K C B P × Value C)) : List K := l.filterMap fun e => e.1.name

/-- The objects `l` were made: the named ones are in the registry now, one for each name, and
    there is none of a name that was there before or was under construction.  `W` tells what is
    known of each of them. -/
structure Registry.Grows (W : ObjectInfo K C B P → Value C → Registry K C B P → Prop)
    (under : List K) (l : List (ObjectInfo K C B P × Value C)) (s s' : Registry K C B P) :
    Prop extends s.Extends s' where
  made_eq : s'.made = s.made ++ l
  nodup : (names l).Nodup
  fresh : ∀ k ∈ names l, s.isInRegistry k = false ∧ k ∉ under
  isInRegistry_iff : ∀ k, s'.isInRegistry k = true ↔ s.isInRegistry k = true ∨ k ∈ names l
  registered : ∀ e ∈ l, ∀ k, e.1.name = some k → s'.findInRegistry k = e.2
  known : ∀ e ∈ l, W e.1 e.2 s'

variable {W : ObjectInfo K C B P → Value C → Registry K C B P → Prop} {under : List K}
  {l l' : List (ObjectInfo K C B P × Value C)} {s s' s'' : Registry K C B P}

/-- What is known stays known. -/
def Lasting (A : Registry K C B P → Prop) : Prop := ∀ ⦃s s'⦄, s.Extends s' → A s → A s'

theorem Registry.Grows.refl (s : Registry K C B P) : Registry.Grows W under [] s s where
  toExtends := .refl s
  made_eq := (List.append_nil _).symm
  nodup := List.nodup_nil
  fresh _ hk := absurd hk List.not_mem_nil
  isInRegistry_iff _ := (or_iff_left List.not_mem_nil).symm
  registered _ he := absurd he List.not_mem_nil
  known _ he := absurd he List.not_mem_nil

theorem Registry.Grows.trans (hW : ∀ i v, Lasting (W i v)) (h : Registry.Grows W under l s s')
    (h' : Registry.Grows W under l' s' s'') : Registry.Grows W under (l ++ l') s s'' where
  toExtends := h.toExtends.trans h'.toExtends
  made_eq := by rw [h'.made_eq, h.made_eq, List.append_assoc]
  nodup := by
    rw [names, List.filterMap_append]
    refine List.Nodup.append h.nodup h'.nodup fun k hk hk' => ?_
    have hin := (h.isInRegistry_iff k).2 (.inr hk)
    rw [(h'.fresh k hk').1] at hin
    cases hin
  fresh k hk := by
    rw [names, List.filterMap_append] at hk
    rcases List.mem_append.1 hk with hk | hk
    · exact h.fresh k hk
    · obtain ⟨hout, hunder⟩ := h'.fresh k hk
      refine ⟨Bool.eq_false_iff.2 fun hin => ?_, hunder⟩
      rw [(h.registry k hin).1] at hout
      cases hout
  isInRegistry_iff k := by
    rw [h'.isInRegistry_iff, h.isInRegistry_iff, names, names, names, List.filterMap_append,
      List.mem_append, or_assoc]
  registered e he k hk := by
    rcases List.mem_append.1 he with he | he
    · have hin := (h.isInRegistry_iff k).2 (.inr (List.mem_filterMap.2 ⟨e, he, hk⟩))
      exact (h'.registry k hin).2.trans (h.registered e he k hk)
    · exact h'.registered e he k hk
  known e he := by
    rcases List.mem_append.1 he with he | he
    · exact hW _ _ h'.toExtends (h.known e he)
    · exact h'.known e he

/-- More names under construction leave less to be made. -/
theorem Registry.Grows.weaken {under' : List K} (h : Registry.Grows W under l s s')
    (hsub : under' ⊆ under) : Registry.Grows W under' l s s' :=
  { h with fresh := fun k hk => ⟨(h.fresh k hk).1, fun hu => (h.fresh k hk).2 (hsub hu)⟩ }

/-- What was made last is among what was made since some time. -/
theorem Registry.Grows.mem_drop {e : ObjectInfo K C B P × Value C}
    (h : Registry.Grows W under [e] s s') {s₀ : Registry K C B P}
    (h₀ : ∃ l, Registry.Grows W [] l s₀ s) : e ∈ s'.made.drop s₀.made.length := by
  obtain ⟨l₀, h₀⟩ := h₀
  rw [h.made_eq, h₀.made_eq, List.append_assoc, List.drop_left]
  exact List.mem_append_right _ List.mem_cons_self

/-- The contract of calls with some names under construction: exceptions are of the kind `E`. -/
def making (E : Exn K → Prop) (W : ObjectInfo K C B P → Value C → Registry K C B P → Prop)
    (hW : ∀ i v, Lasting (W i v)) (under : List K) : Contract (Exn K) (Registry K C B P) where
  keeps s s' := ∃ l, Registry.Grows W under l s s'
  fails s e s' := E e ∧ ∃ l, Registry.Grows W under l s s'
  refl s := ⟨[], .refl s⟩
  trans := by
    rintro s s' s'' ⟨l, h⟩ ⟨l', h'⟩
    exact ⟨l ++ l', h.trans hW h'⟩
  trans_fails := by
    rintro s s' s'' e ⟨l, h⟩ ⟨he, l', h'⟩
    exact ⟨he, l ++ l', h.trans hW h'⟩

theorem Registry.grows_append (s : Registry K C B P) (e : Event C B P) :
    Registry.Grows W under [] s { s with events := s.events ++ [e] } where
  registry _ hk := ⟨hk, rfl⟩
  singletons _ _ hv := hv
  made := List.prefix_rfl
  events := List.prefix_append _ _
  made_eq := (List.append_nil _).symm
  nodup := List.nodup_nil
  fresh _ hk := absurd hk List.not_mem_nil
  isInRegistry_iff _ := (or_iff_left List.not_mem_nil).symm
  registered _ he := absurd he List.not_mem_nil
  known _ he := absurd he List.not_mem_nil

omit [DecidableEq C] in
theorem names_singleton (info : ObjectInfo K C B P) (v : Value C) :
    names [(info, v)] = info.name.toList := by
  cases hname : info.name <;> simp [names, hname]

omit [DecidableEq C] in
theorem Registry.isInRegistry_put [DecidableEq K] (s : Registry K C B P) (isSingleton : Bool)
    (key k : K) (v : Value C) : (s.putInRegistry isSingleton key v).isInRegistry k = true ↔
      s.isInRegistry k = true ∨ k = key := by
  unfold Registry.putInRegistry
  by_cases hk : k = key
  · subst hk
    cases isSingleton <;> simp [isInRegistry]
  · cases isSingleton <;> simp [isInRegistry, hk]

theorem Registry.findInRegistry_put_of_ne [DecidableEq K] (s : Registry K C B P)
    (isSingleton : Bool) {key k : K} (hk : k ≠ key) (v : Value C) :
    (s.putInRegistry isSingleton key v).findInRegistry k = s.findInRegistry k := by
  unfold Registry.putInRegistry
  cases isSingleton <;> simp [findInRegistry, hk]

theorem Registry.findInRegistry_put [DecidableEq K] (s : Registry K C B P) (isSingleton : Bool)
    {key : K} (h : s.isInRegistry key = false) (v : Value C) :
    (s.putInRegistry isSingleton key v).findInRegistry key = v := by
  rw [isInRegistry, Bool.or_eq_false_iff, Option.isSome_eq_false_iff, Option.isSome_eq_false_iff,
    Option.isNone_iff_eq_none, Option.isNone_iff_eq_none] at h
  unfold Registry.putInRegistry
  cases isSingleton
  · by_cases hv : v = .null
    · simp [findInRegistry, h.2, hv]
    · simp [findInRegistry, hv]
  · simp [findInRegistry, h.1]

theorem Registry.extends_note (s : Registry K C B P) (info : ObjectInfo K C B P) (v : Value C) :
    s.Extends (s.note info v) where
  registry _ hk := ⟨hk, rfl⟩
  singletons _ _ hv := hv
  made := List.prefix_append _ _
  events := List.prefix_rfl

theorem Registry.grows_note {info : ObjectInfo K C B P} (hname : info.name = none) (v : Value C)
    (s : Registry K C B P) (hW : W info v (s.note info v)) :
    Registry.Grows W under [(info, v)] s (s.note info v) where
  toExtends := s.extends_note info v
  made_eq := rfl
  nodup := by
    rw [names_singleton, hname]
    exact List.nodup_nil
  fresh k hk := by
    rw [names_singleton, hname] at hk
    exact absurd hk List.not_mem_nil
  isInRegistry_iff k := by
    rw [names_singleton, hname]
    exact (or_iff_left List.not_mem_nil).symm
  registered e he k hk := by
    rw [List.mem_singleton.1 he, hname] at hk
    cases hk
  known e he := by
    rw [List.mem_singleton.1 he]
    exact hW

omit [DecidableEq C] in
theorem Registry.made_put [DecidableEq K] (s : Registry K C B P) (isSingleton : Bool) (key : K)
    (v : Value C) : (s.putInRegistry isSingleton key v).made = s.made := by
  unfold Registry.putInRegistry
  cases isSingleton <;> rfl

theorem Registry.extends_put [DecidableEq K] {s : Registry K C B P} {key : K}
    (hkey : s.isInRegistry key = false) (isSingleton : Bool) (v : Value C) :
    s.Extends (s.putInRegistry isSingleton key v) where
  registry k hk := by
    have hne : k ≠ key := by
      rintro rfl
      rw [hkey] at hk
      cases hk
    exact ⟨(isInRegistry_put s isSingleton key k v).2 (.inl hk),
      findInRegistry_put_of_ne s isSingleton hne v⟩
  singletons k w hw := by
    have hne : k ≠ key := by
      rintro rfl
      rw [isInRegistry, hw, Option.isSome_some, Bool.or_true] at hkey
      cases hkey
    unfold Registry.putInRegistry
    cases isSingleton
    · exact hw
    · exact (Function.update_of_ne hne ..).trans hw
  made := by rw [made_put]
  events := by
    unfold Registry.putInRegistry
    cases isSingleton <;> exact List.prefix_rfl

theorem Registry.grows_put [DecidableEq K] {info : ObjectInfo K C B P} {key : K}
    (hname : info.name = some key) (v : Value C) {s : Registry K C B P}
    (hkey : s.isInRegistry key = false) (hunder : key ∉ under) (isSingleton : Bool)
    (hW : W info v ((s.note info v).putInRegistry isSingleton key v)) :
    Registry.Grows W under [(info, v)] s ((s.note info v).putInRegistry isSingleton key v) where
  toExtends := (s.extends_note info v).trans (extends_put (s := s.note info v) hkey isSingleton v)
  made_eq := made_put ..
  nodup := by
    rw [names_singleton, hname]
    exact List.nodup_singleton key
  fresh k hk := by
    rw [names_singleton, hname] at hk
    rw [List.mem_singleton.1 hk]
    exact ⟨hkey, hunder⟩
  isInRegistry_iff k := by
    rw [isInRegistry_put, names_singleton, hname, Option.toList_some, List.mem_singleton]
    rfl
  registered e he k hk := by
    rw [List.mem_singleton.1 he, hname] at hk
    rw [List.mem_singleton.1 he, ← Option.some.inj hk]
    exact findInRegistry_put (s.note info v) isSingleton hkey v
  known e he := by
    rw [List.mem_singleton.1 he]
    exact hW

/-! ## The induction over the calls -/

variable [DecidableEq K] (namedObjectInfos : List (ObjectInfo K C B P))

/-- What holds of the object of a name. -/
def Named (D : ObjectInfo K C B P → Value C → Registry K C B P → Prop) (k : K) (v : Value C)
    (s : Registry K C B P) : Prop :=
  match find namedObjectInfos k with
  | none => v = .null
  | some info => D info v s

/-- What is to be shown about calls of `getObject` that `A` admits, after the registry was `s₀`:
    that objects which are made have the property `W`, the objects that are returned `D`, and
    exceptions are of the kind `E`. -/
structure Rule (E : Exn K → Prop) (W D : ObjectInfo K C B P → Value C → Registry K C B P → Prop)
    (A : ℕ → List K → ObjectInfo K C B P → Prop) (s₀ : Registry K C B P) : Prop where
  lasting_made : ∀ i v, Lasting (W i v)
  lasting : ∀ i v, Lasting (D i v)
  failed : E .failed
  exhausted : ∀ {under info}, A 0 under info → E .exhausted
  circular : ∀ {fuel under info key}, A (fuel + 1) under info → info.name = some key →
    s₀.isInRegistry key = false → key ∈ under → E (.circular key)
  part : ∀ {fuel under info j}, A (fuel + 1) under info →
    (∀ key, info.name = some key → s₀.isInRegistry key = false ∧ key ∉ under) →
    j ∈ info.parts → A fuel (info.name.toList ++ under) j
  ref : ∀ {fuel under info k j}, A (fuel + 1) under info →
    (∀ key, info.name = some key → s₀.isInRegistry key = false ∧ key ∉ under) →
    k ∈ info.refs → find namedObjectInfos k = some j → A fuel (info.name.toList ++ under) j
  found : ∀ {fuel under info key l s}, A (fuel + 1) under info → info.name = some key →
    Registry.Grows W [] l s₀ s → s.isInRegistry key = true → D info (s.findInRegistry key) s
  made : ∀ {fuel under info w s}, A (fuel + 1) under info →
    Shape (D · · s) (Named namedObjectInfos D · · s) s.events w info → W info w s
  noted : ∀ {fuel under info w s}, A (fuel + 1) under info → W info w s →
    (info, w) ∈ s.made.drop s₀.made.length →
    (∀ key, info.name = some key → s.isInRegistry key = true ∧ s.findInRegistry key = w) →
    D info w s

variable {namedObjectInfos} {E : Exn K → Prop}
  {D : ObjectInfo K C B P → Value C → Registry K C B P → Prop}
  {A : ℕ → List K → ObjectInfo K C B P → Prop} {s₀ : Registry K C B P} {classes : Classes C B P}

theorem Named.lasting (hD : ∀ i v, Lasting (D i v)) (k : K) (v : Value C) :
    Lasting (Named namedObjectInfos D k v) := by
  intro s s' hs h
  rw [Named] at h ⊢
  split at h
  · exact h
  · exact hD _ v hs h

namespace Rule

theorem makes (h : Rule namedObjectInfos E W D A s₀) (under : List K) :
    Makes (making E W h.lasting_made under) (fun s => ∃ l, Registry.Grows W [] l s₀ s) D
      (Named namedObjectInfos D) where
  events := by
    rintro s s' ⟨l, hl⟩
    exact hl.events
  append s e := ⟨[], Registry.grows_append s e⟩
  failed s := ⟨h.failed, [], .refl s⟩
  stable := by
    rintro s s' ⟨l, hl⟩ ⟨l', hl'⟩
    exact ⟨l' ++ l, hl'.trans h.lasting_made (hl.weaken (List.nil_subset under))⟩
  stable_part j v := by
    rintro s s' ⟨l, hl⟩
    exact h.lasting j v hl.toExtends
  stable_ref k v := by
    rintro s s' ⟨l, hl⟩
    exact Named.lasting h.lasting k v hl.toExtends

/-- The call of `createObject`, with the name of the description under construction. -/
theorem createObject (h : Rule namedObjectInfos E W D A s₀) {fuel : ℕ}
    (ih : ∀ under info, A fuel under info → (making E W h.lasting_made under).Meets
      (fun s => ∃ l, Registry.Grows W [] l s₀ s)
      (getObject classes namedObjectInfos fuel under info) (D info))
    {under : List K} {info : ObjectInfo K C B P} (hA : A (fuel + 1) under info)
    (hname : ∀ key, info.name = some key → s₀.isInRegistry key = false ∧ key ∉ under) :
    (making E W h.lasting_made (info.name.toList ++ under)).Meets
      (fun s => ∃ l, Registry.Grows W [] l s₀ s)
      (info.createObject classes
        (getObject classes namedObjectInfos fuel (info.name.toList ++ under))
        (getNamed namedObjectInfos
          (getObject classes namedObjectInfos fuel (info.name.toList ++ under))))
      fun w s => (∃ l, Registry.Grows W [] l s₀ s) ∧ W info w s := by
  refine Contract.Meets.mono ((h.makes (info.name.toList ++ under)).createObject ?_ ?_)
    (fun s hs => hs) fun w s hs => ⟨hs.1, h.made hA hs.2⟩
  · exact fun j hj => ih _ j (h.part hA hname hj)
  · intro k hk
    rw [getNamed]
    cases hfind : find namedObjectInfos k with
    | none =>
      refine Contract.meets_pure fun s _ => ?_
      rw [Named, hfind]
    | some j =>
      refine (ih _ j (h.ref hA hname hk hfind)).mono (fun s hs => hs) fun v s hv => ?_
      rw [Named, hfind]
      exact hv

/-- The object of a name is noted and put into the registry. -/
theorem put (h : Rule namedObjectInfos E W D A s₀) {fuel : ℕ} {under : List K}
    {info : ObjectInfo K C B P} (hA : A (fuel + 1) under info) {key : K}
    (hname : info.name = some key) {s : Registry K C B P} (hkey : s.isInRegistry key = false)
    (hunder : key ∉ under) (hs : ∃ l, Registry.Grows W [] l s₀ s) {m : Make K C B P (Value C)}
    (hm : (making E W h.lasting_made (key :: under)).Meets
      (fun s => ∃ l, Registry.Grows W [] l s₀ s) m
      fun w s => (∃ l, Registry.Grows W [] l s₀ s) ∧ W info w s) :
    (making E W h.lasting_made under).Meets (· = s) (do
      let object ← m
      Throws.modify_ fun s => (s.note info object).putInRegistry info.header.isSingleton key object
      pure object) (D info) := by
  rintro s rfl
  rcases hrun : m s with ⟨e | w, s'⟩
  · rw [Throws.bind_of_error hrun]
    obtain ⟨he, l, hl⟩ := hm.error hs hrun
    exact ⟨he, l, hl.weaken (List.subset_cons_self key under)⟩
  · rw [Throws.bind_of_ok hrun]
    obtain ⟨⟨l, hl⟩, hs', hw⟩ := hm.ok hs hrun
    have hkey' : s'.isInRegistry key = false := by
      refine Bool.eq_false_iff.2 fun hin => ?_
      rcases (hl.isInRegistry_iff key).1 hin with hin | hin
      · rw [hin] at hkey
        cases hkey
      · exact (hl.fresh key hin).2 List.mem_cons_self
    have hextends : s'.Extends ((s'.note info w).putInRegistry info.header.isSingleton key w) :=
      (s'.extends_note info w).trans (Registry.extends_put (s := s'.note info w) hkey' _ w)
    have hput := h.lasting_made info w hextends hw
    have hgrows := Registry.grows_put hname w hkey' hunder info.header.isSingleton hput
    refine ⟨⟨l ++ [(info, w)], (hl.weaken (List.subset_cons_self key under)).trans h.lasting_made
      hgrows⟩, h.noted hA hput (hgrows.mem_drop hs') fun k hk => ?_⟩
    · rw [hname] at hk
      rw [← Option.some.inj hk]
      exact ⟨(Registry.isInRegistry_put ..).2 (.inr rfl),
        Registry.findInRegistry_put (s'.note info w) _ hkey' w⟩

/-- **Rule of the calls.** -/
theorem getObject (h : Rule namedObjectInfos E W D A s₀) (classes : Classes C B P) {fuel : ℕ} :
    ∀ under info, A fuel under info → (making E W h.lasting_made under).Meets
      (fun s => ∃ l, Registry.Grows W [] l s₀ s)
      (getObject classes namedObjectInfos fuel under info) (D info) := by
  induction fuel with
  | zero => exact fun under info hA s _ => ⟨h.exhausted hA, [], .refl s⟩
  | succ fuel ih =>
    intro under info hA
    rw [Configuration.getObject]
    cases hname : info.name with
    | none =>
      have hcreate := h.createObject ih hA fun key hkey => by
        rw [hname] at hkey
        cases hkey
      rw [hname] at hcreate
      refine hcreate.bind fun w => ?_
      rintro s ⟨hs, hw⟩
      have hnoted : W info w (s.note info w) := h.lasting_made info w (s.extends_note info w) hw
      have hgrows : Registry.Grows W under _ _ _ := Registry.grows_note hname w s hnoted
      refine ⟨⟨_, hgrows⟩, h.noted hA hnoted (hgrows.mem_drop hs) fun key hkey => ?_⟩
      rw [hname] at hkey
      cases hkey
    | some key =>
      rintro s ⟨l₀, hs⟩
      dsimp only
      cases hkey : s.isInRegistry key with
      | true =>
        rw [if_pos rfl]
        exact ⟨⟨[], .refl s⟩, h.found hA hname hs hkey⟩
      | false =>
        rw [if_neg Bool.false_ne_true]
        have hkey₀ : s₀.isInRegistry key = false := by
          refine Bool.eq_false_iff.2 fun hin => ?_
          rw [(hs.registry key hin).1] at hkey
          cases hkey
        by_cases hunder : key ∈ under
        · rw [if_pos hunder]
          exact ⟨h.circular hA hname hkey₀ hunder, [], .refl s⟩
        · rw [if_neg hunder]
          have hcreate := h.createObject ih hA fun k hk => by
            rw [hname] at hk
            rw [← Option.some.inj hk]
            exact ⟨hkey₀, hunder⟩
          rw [hname, Option.toList_some, List.singleton_append] at hcreate
          exact h.put hA hname hkey hunder ⟨l₀, hs⟩ hcreate s rfl

end Rule

end

end Configuration

end Jbpm
