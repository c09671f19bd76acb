/-
  The registration of property aliases with the types that they are for.

  * `registerPropertyAlias`, `registerPropertyAliases`: an alias, and those of the documents and of
    all that they import;
  * `Registers`: the registration ends, and has registered each alias once;
  * `registers_iff`: when it does.

  A type keeps its aliases by their properties, so that one alias replaces another.
-/
import Jbpm.Lib.Lists
import Jbpm.Wsdl.ImportDefinition

namespace Jbpm

open Lib

namespace Wsdl

/-- The type that an alias is registered with. -/
inductive TypeName
  | message (name : QName)
  | element (name : QName)
  | schemaType (name : QName)
  deriving DecidableEq

structure Problem where
  description : String
  resource : Option String

/-- What a registration has done.  The aliases are those of all types, by the type and the name of
    the property. -/
structure Registration (D : Type) where
  importDefinition : ImportDefinition D
  propertyAliases : TypeName × QName → Option PropertyAlias
  problems : List Problem

/-- The ways in which a registration ends early: the calls are too deep, or a message type is
    missing. -/
inductive Failure
  | stackOverflow
  | nullPointer

/-- The type of an alias: a message that is defined, an element or a schema type. -/
def PropertyAlias.typeName (alias_ : PropertyAlias) : Option TypeName :=
  match alias_.message with
  | some message => if message.isUndefined then none else some (.message message.qName)
  | none =>
    match alias_.element with
    | some element => some (.element element)
    | none => alias_.type.map .schemaType

/-- What tells an alias from others, if it has a type. -/
def PropertyAlias.key (alias_ : PropertyAlias) : Option (TypeName × QName) :=
  alias_.typeName.map fun type => (type, alias_.property.qName)

namespace Registration

variable {D : Type} (W : Definitions D) (parse : PropertyQuery → Bool)
  (queryLanguage : Option String)

/-- The resource is the document of the definitions. -/
def addProblem (d : D) (description : String) (s : Registration D) : Registration D :=
  { s with problems := s.problems ++ [⟨description, W.documentBaseURI d⟩] }

def addPropertyAlias (alias_ : PropertyAlias) (type : TypeName) (s : Registration D) :
    Registration D :=
  { s with propertyAliases :=
      Function.update s.propertyAliases (type, alias_.property.qName) (some alias_) }

def registerProperty (d : D) (property : Property) (s : Registration D) : Registration D :=
  if property.isUndefined then
    addProblem W d ("property not found: " ++ property.qName.text) s
  else { s with importDefinition := s.importDefinition.addProperty property }

def registerType (n : ℕ) (d : D) (alias_ : PropertyAlias) (s : Registration D) :
    Except Failure (Registration D) :=
  match alias_.message with
  | some message =>
    if message.isUndefined then
      .ok (addProblem W d ("message not found: " ++ message.qName.text) s)
    else
      match s.importDefinition.getMessageType W n message.qName with
      | none => .error .stackOverflow
      | some (none, _) => .error .nullPointer
      | some (some _, importDefinition) =>
        .ok (addPropertyAlias alias_ (.message message.qName) { s with importDefinition })
  | none =>
    match alias_.element with
    | some element => .ok (addPropertyAlias alias_ (.element element) s)
    | none =>
      match alias_.type with
      | some type => .ok (addPropertyAlias alias_ (.schemaType type) s)
      | none => .ok (addProblem W d
          "neither message, element nor type specified in property alias" s)

/-- A query without a language has that of the process. -/
def registerQuery (d : D) (query : PropertyQuery) (s : Registration D) : Registration D :=
  if parse { query with language := query.language <|> queryLanguage } then s
  else addProblem W d ("could not parse query: " ++ query.text) s

def registerPropertyAlias (n : ℕ) (d : D) (alias_ : PropertyAlias) (s : Registration D) :
    Except Failure (Registration D) := do
  let s ← registerType W n d alias_ (registerProperty W d alias_.property s)
  .ok (alias_.query.elim s fun query => registerQuery W parse queryLanguage d query s)

/-- The aliases of a definition, and those of its imports. -/
def registerPropertyAliasesOf (n : ℕ) (d : D) (s : Registration D) :
    Except Failure (Registration D) :=
  walk W.imported
    (fun d s => (W.propertyAliases d).foldlM
      (fun s alias_ => registerPropertyAlias W parse queryLanguage n d alias_ s) s)
    .stackOverflow n d s

def registerPropertyAliases (n : ℕ) (documents : List D) (s : Registration D) :
    Except Failure (Registration D) :=
  documents.foldlM (fun s d => registerPropertyAliasesOf W parse queryLanguage n d s) s

/-- A registration of what a process imports. -/
def ofImports (imports : List (Import D)) : Registration D where
  importDefinition := .ofImports imports
  propertyAliases := fun _ => none
  problems := []

/-! ## Aliases that are registered -/

/-- An alias of a definition that the documents are or import. -/
def Declares (documents : List D) (alias_ : PropertyAlias) : Prop :=
  ∃ document ∈ documents, ∃ d, W.Reaches document d ∧ alias_ ∈ W.propertyAliases d

/-- The registration ends, and each alias with a type is registered once. -/
def Registers (imports : List (Import D)) : Prop :=
  ∃ n s, registerPropertyAliases W parse queryLanguage n
      (ImportDefinition.ofImports imports).documents (ofImports imports) = .ok s ∧
    ∀ alias_, Declares W (ImportDefinition.ofImports imports).documents alias_ →
      alias_.key ≠ none → ∃! key, s.propertyAliases key = some alias_

/-- The message of an alias is undefined, or visible from the documents. -/
def Typed (documents : List D) (alias_ : PropertyAlias) : Prop :=
  ∀ message, alias_.message = some message → message.isUndefined = false →
    ∃ document ∈ documents, ¬ W.Hidden W.messages message.qName document

/-- The documents do not come to a cycle of imports, no two aliases are for one property of one
    type, and the messages of aliases are not hidden from the documents. -/
structure Registrable (documents : List D) : Prop where
  ends : ∀ document ∈ documents, ∀ d, W.Reaches document d →
    ¬ Relation.TransGen (fun d c => c ∈ W.imported d) d d
  distinct : ∀ alias_ alias', Declares W documents alias_ → Declares W documents alias' →
    alias_.key ≠ none → alias_.key = alias'.key → alias_ = alias'
  visible : ∀ alias_, Declares W documents alias_ → Typed W documents alias_

variable {W parse queryLanguage} {n : ℕ} {documents : List D} {s s' : Registration D} {d : D}
  {name : QName}

/-- The messages that are kept are visible. -/
structure Visible (W : Definitions D) (s : ImportDefinition D) : Prop where
  messages : ∀ name message, s.messages name = some message → message.qName = name ∧
    ∃ document ∈ s.documents, ¬ W.Hidden W.messages name document
  messageTypes : ∀ name, s.messageTypes name ≠ none →
    ∃ document ∈ s.documents, ¬ W.Hidden W.messages name document

theorem getElementOf_of_shallow {E : Type} {getLocalElement : D → QName → Option E}
    (h : ∀ document ∈ documents, Shallow W.imported n document) :
    ∃ found, W.getElementOf getLocalElement name n documents = some found := by
  obtain ⟨m, r, hr⟩ := firstSome_terminates
    (f := fun _ => W.getElement getLocalElement name n) (P := fun _ => True)
    documents (fun _ h => h) (fun _ => trivial) fun front d rest hsplit _ => by
      have hd := h d (by rw [hsplit]; exact List.mem_append_right _ List.mem_cons_self)
      unfold Definitions.getElement
      cases getLocalElement d name with
      | some element => exact ⟨0, some element, rfl⟩
      | none =>
        obtain ⟨r, hr⟩ := search_of_shallow (W.getMatchingElement getLocalElement name) hd
        exact ⟨0, r, (Definitions.getImportedElement_eq n d).trans hr⟩
  exact ⟨r, hr⟩

/-- What is found is visible, and what is visible is found. -/
theorem getElementOf_isSome {E : Type} {getLocalElement : D → QName → Option E} {found : Option E}
    (h : W.getElementOf getLocalElement name n documents = some found) :
    found ≠ none ↔ ∃ document ∈ documents, ¬ W.Hidden getLocalElement name document := by
  cases found with
  | some element =>
    refine iff_of_true (Option.some_ne_none element) ?_
    obtain ⟨document, hdocument, he⟩ := firstSome_sound h
    exact ⟨document, hdocument, (Definitions.declared_of_getElement he).1⟩
  | none =>
    refine iff_of_false (fun hne => hne rfl) fun ⟨document, hdocument, hidden⟩ => hidden ?_
    exact Definitions.hidden_of_getElement (firstSome_none h document hdocument)

theorem Visible.addMessageType {s : ImportDefinition D} (hs : Visible W s) {message : Message}
    (h : ∃ document ∈ s.documents, ¬ W.Hidden W.messages message.qName document) :
    Visible W (s.addMessageType message) where
  messages := hs.messages
  messageTypes name hname := by
    change Function.update s.messageTypes message.qName (some message) name ≠ none at hname
    rw [Function.update_apply] at hname
    split at hname
    · rename_i heq
      exact heq ▸ h
    · exact hs.messageTypes name hname

/-- A message type is found iff its message is visible. -/
theorem getMessageType_run (hW : W.Resolved) {s : ImportDefinition D} (hs : Visible W s)
    (h : ∀ document ∈ s.documents, Shallow W.imported n document) (name : QName) :
    ∃ found s', s.getMessageType W n name = some (found, s') ∧ Visible W s' ∧
      s'.imports = s.imports ∧
      (found ≠ none ↔ ∃ document ∈ s.documents, ¬ W.Hidden W.messages name document) := by
  unfold ImportDefinition.getMessageType
  cases htype : s.messageTypes name with
  | some message =>
    refine ⟨some message, s, rfl, hs, rfl, iff_of_true (Option.some_ne_none message) ?_⟩
    exact hs.messageTypes name (by rw [htype]; exact Option.some_ne_none message)
  | none =>
    unfold ImportDefinition.getMessage ImportDefinition.lookup
    cases hkept : s.messages name with
    | some message =>
      obtain ⟨hname, hvisible⟩ := hs.messages name message hkept
      refine ⟨some message, s.addMessageType message, rfl, hs.addMessageType (hname ▸ hvisible),
        rfl, iff_of_true (Option.some_ne_none message) hvisible⟩
    | none =>
      have hends : ∃ found, W.getElementOf W.messages name n s.documents = some found :=
        getElementOf_of_shallow h
      obtain ⟨found, hfound⟩ := hends
      have hiff := getElementOf_isSome hfound
      dsimp only
      rw [hfound]
      cases found with
      | none => exact ⟨none, s, rfl, hs, rfl, hiff⟩
      | some message =>
        have hvisible := hiff.1 (Option.some_ne_none message)
        obtain ⟨document, hdocument, he⟩ := firstSome_sound hfound
        obtain ⟨-, d, -, hd⟩ := Definitions.declared_of_getElement he
        have hname := hW.messageName d name message hd
        have hkeeps : Visible W { s with
            messages := Function.update s.messages name (some message) } := by
          refine ⟨fun name' message' hm => ?_, hs.messageTypes⟩
          dsimp only at hm
          rw [Function.update_apply] at hm
          split at hm
          · rename_i heq
            cases hm
            exact ⟨hname.trans heq.symm, heq ▸ hvisible⟩
          · exact hs.messages name' message' hm
        exact ⟨some message, _, rfl, hkeeps.addMessageType (hname ▸ hvisible), rfl, hiff⟩

/-- What a step of the registration keeps. -/
structure Stays (W : Definitions D) (s s' : Registration D) : Prop where
  visible : Visible W s'.importDefinition
  imports : s'.importDefinition.imports = s.importDefinition.imports

theorem registerProperty_stays (hs : Visible W s.importDefinition) (property : Property) :
    Stays W s (registerProperty W d property s) ∧
      (registerProperty W d property s).propertyAliases = s.propertyAliases := by
  unfold registerProperty
  split
  · exact ⟨⟨hs, rfl⟩, rfl⟩
  · exact ⟨⟨⟨hs.messages, hs.messageTypes⟩, rfl⟩, rfl⟩

theorem registerQuery_stays (parse : PropertyQuery → Bool) (queryLanguage : Option String) (d : D)
    (hs : Visible W s.importDefinition) (query : Option PropertyQuery) :
    Stays W s (query.elim s fun query => registerQuery W parse queryLanguage d query s) ∧
      (query.elim s fun query =>
        registerQuery W parse queryLanguage d query s).propertyAliases = s.propertyAliases := by
  cases query with
  | none => exact ⟨⟨hs, rfl⟩, rfl⟩
  | some query =>
    rw [Option.elim_some]
    unfold registerQuery
    split <;> exact ⟨⟨hs, rfl⟩, rfl⟩

theorem registerType_ok (hW : W.Resolved) (hs : Visible W s.importDefinition)
    (h : ∀ document ∈ s.importDefinition.documents, Shallow W.imported n document)
    {alias_ : PropertyAlias} (htyped : Typed W s.importDefinition.documents alias_) :
    ∃ s', registerType W n d alias_ s = .ok s' ∧ Stays W s s' ∧
      s'.propertyAliases = putKey PropertyAlias.key s.propertyAliases alias_ := by
  have hskip (htype : alias_.typeName = none) :
      s.propertyAliases = putKey PropertyAlias.key s.propertyAliases alias_ :=
    (putKey_of_none (by rw [PropertyAlias.key, htype]; rfl)).symm
  have hadd {type : TypeName} (htype : alias_.typeName = some type) :
      Function.update s.propertyAliases (type, alias_.property.qName) (some alias_) =
        putKey PropertyAlias.key s.propertyAliases alias_ :=
    (putKey_of_some (by rw [PropertyAlias.key, htype]; rfl)).symm
  unfold registerType
  cases hmessage : alias_.message with
  | some message =>
    dsimp only
    by_cases hundefined : message.isUndefined = true
    · rw [if_pos hundefined]
      refine ⟨_, rfl, ⟨hs, rfl⟩, hskip ?_⟩
      rw [PropertyAlias.typeName, hmessage]
      exact if_pos hundefined
    · rw [if_neg hundefined]
      have hdefined := Bool.eq_false_of_not_eq_true hundefined
      obtain ⟨found, s₁, hfound, hvisible, himports, hiff⟩ :=
        getMessageType_run hW hs h message.qName
      obtain ⟨m, rfl⟩ := Option.ne_none_iff_exists'.1 (hiff.2 (htyped message hmessage hdefined))
      rw [hfound]
      refine ⟨_, rfl, ⟨hvisible, himports⟩, hadd ?_⟩
      rw [PropertyAlias.typeName, hmessage]
      exact if_neg hundefined
  | none =>
    dsimp only
    cases helement : alias_.element with
    | some element =>
      refine ⟨_, rfl, ⟨hs, rfl⟩, hadd ?_⟩
      rw [PropertyAlias.typeName, hmessage, helement]
    | none =>
      cases htype : alias_.type with
      | some type =>
        refine ⟨_, rfl, ⟨hs, rfl⟩, hadd ?_⟩
        rw [PropertyAlias.typeName, hmessage, helement, htype]
        rfl
      | none =>
        refine ⟨_, rfl, ⟨hs, rfl⟩, hskip ?_⟩
        rw [PropertyAlias.typeName, hmessage, helement, htype]
        rfl

/-- A message that is not visible has no type to register the alias with. -/
theorem typed_of_registerType (hW : W.Resolved) (hs : Visible W s.importDefinition)
    (h : ∀ document ∈ s.importDefinition.documents, Shallow W.imported n document)
    {alias_ : PropertyAlias} (hok : registerType W n d alias_ s = .ok s') :
    Typed W s.importDefinition.documents alias_ := by
  intro message hmessage hdefined
  obtain ⟨found, s₁, hfound, -, -, hiff⟩ := getMessageType_run hW hs h message.qName
  unfold registerType at hok
  rw [hmessage] at hok
  dsimp only at hok
  rw [if_neg (by rw [hdefined]; exact Bool.false_ne_true), hfound] at hok
  cases found with
  | none => cases hok
  | some m => exact hiff.1 (Option.some_ne_none m)

theorem registerPropertyAlias_ok (parse : PropertyQuery → Bool) (queryLanguage : Option String)
    (d : D) (hW : W.Resolved) (hs : Visible W s.importDefinition)
    (h : ∀ document ∈ s.importDefinition.documents, Shallow W.imported n document)
    {alias_ : PropertyAlias} (htyped : Typed W s.importDefinition.documents alias_) :
    ∃ s', registerPropertyAlias W parse queryLanguage n d alias_ s = .ok s' ∧ Stays W s s' ∧
      s'.propertyAliases = putKey PropertyAlias.key s.propertyAliases alias_ := by
  obtain ⟨h₁, hregistered₁⟩ := registerProperty_stays (d := d) hs alias_.property
  have hdocuments := ImportDefinition.documents_congr h₁.imports
  obtain ⟨s₂, hs₂, h₂, hregistered₂⟩ := registerType_ok (d := d) hW h₁.visible
    (by rwa [hdocuments]) (by rwa [hdocuments])
  obtain ⟨h₃, hregistered₃⟩ := registerQuery_stays parse queryLanguage d h₂.visible
    alias_.query
  refine ⟨_, ?_, ⟨h₃.visible, h₃.imports.trans (h₂.imports.trans h₁.imports)⟩, ?_⟩
  · unfold registerPropertyAlias
    rw [hs₂]
    rfl
  · rw [hregistered₃, hregistered₂, hregistered₁]

theorem typed_of_registerPropertyAlias (hW : W.Resolved) (hs : Visible W s.importDefinition)
    (h : ∀ document ∈ s.importDefinition.documents, Shallow W.imported n document)
    {alias_ : PropertyAlias}
    (hok : registerPropertyAlias W parse queryLanguage n d alias_ s = .ok s') :
    Typed W s.importDefinition.documents alias_ := by
  obtain ⟨h₁, -⟩ := registerProperty_stays (d := d) hs alias_.property
  have hdocuments := ImportDefinition.documents_congr h₁.imports
  unfold registerPropertyAlias at hok
  cases hs₂ : registerType W n d alias_ (registerProperty W d alias_.property s) with
  | error e =>
    rw [hs₂] at hok
    cases hok
  | ok s₂ =>
    have htyped := typed_of_registerType hW h₁.visible (by rwa [hdocuments]) hs₂
    rwa [hdocuments] at htyped

/-- The aliases one after the other. -/
theorem registerAliases_run (parse : PropertyQuery → Bool) (queryLanguage : Option String)
    (hW : W.Resolved) (hs : Visible W s.importDefinition)
    (h : ∀ document ∈ s.importDefinition.documents, Shallow W.imported n document)
    (aliases : List (D × PropertyAlias)) :
    (∀ s', aliases.foldlM (fun s q => registerPropertyAlias W parse queryLanguage n q.1 q.2 s) s =
        .ok s' → s'.propertyAliases =
          (aliases.map Prod.snd).foldl (putKey PropertyAlias.key) s.propertyAliases) ∧
      ((∃ s', aliases.foldlM (fun s q => registerPropertyAlias W parse queryLanguage n q.1 q.2 s) s =
        .ok s') ↔ ∀ q ∈ aliases, Typed W s.importDefinition.documents q.2) := by
  induction aliases generalizing s with
  | nil =>
    refine ⟨fun s' hs' => ?_, iff_of_true ⟨s, rfl⟩ fun q hq => absurd hq List.not_mem_nil⟩
    cases hs'
    rfl
  | cons q aliases ih =>
    by_cases htyped : Typed W s.importDefinition.documents q.2
    · obtain ⟨s₁, hs₁, h₁, hregistered⟩ := registerPropertyAlias_ok parse queryLanguage q.1
        hW hs h htyped
      have hdocuments := ImportDefinition.documents_congr h₁.imports
      obtain ⟨hrun, hiff⟩ := ih h₁.visible (by rwa [hdocuments])
      simp only [foldlM_ok_cons]
      constructor
      · rintro s' ⟨s₂, hs₂, hs'⟩
        obtain rfl : s₁ = s₂ := Except.ok.inj (hs₁.symm.trans hs₂)
        rw [hrun s' hs', hregistered, List.map_cons, List.foldl_cons]
      · rw [hdocuments] at hiff
        rw [List.forall_mem_cons, and_iff_right htyped, ← hiff]
        constructor
        · rintro ⟨s', s₂, hs₂, hs'⟩
          obtain rfl : s₁ = s₂ := Except.ok.inj (hs₁.symm.trans hs₂)
          exact ⟨s', hs'⟩
        · rintro ⟨s', hs'⟩
          exact ⟨s', s₁, hs₁, hs'⟩
    · simp only [foldlM_ok_cons]
      constructor
      · rintro s' ⟨s₂, hs₂, -⟩
        exact absurd (typed_of_registerPropertyAlias hW hs h hs₂) htyped
      · refine iff_of_false ?_ fun hall => htyped (hall q List.mem_cons_self)
        rintro ⟨s', s₂, hs₂, -⟩
        exact htyped (typed_of_registerPropertyAlias hW hs h hs₂)

variable (W) in
/-- The aliases of a definition, with it. -/
def aliasesOf (d : D) : List (D × PropertyAlias) := (W.propertyAliases d).map fun a => (d, a)

/-- The registration ends with the aliases of all definitions of the walks. -/
theorem registerPropertyAliases_iff (n : ℕ) (documents : List D) (s s' : Registration D) :
    registerPropertyAliases W parse queryLanguage n documents s = .ok s' ↔
      (∀ d ∈ documents, Shallow W.imported n d) ∧
        ((documents.flatMap (preorder W.imported n)).flatMap (aliasesOf W)).foldlM
          (fun s q => registerPropertyAlias W parse queryLanguage n q.1 q.2 s) s = .ok s' := by
  rw [List.flatMap_assoc]
  refine foldlM_iff (fun d s s' => (walk_iff d s s').trans (and_congr Iff.rfl ?_)) documents s s'
  have hloop := foldlM_iff (P := fun _ => True) (l := aliasesOf W)
    (w := fun d s => (W.propertyAliases d).foldlM
      (fun s alias_ => registerPropertyAlias W parse queryLanguage n d alias_ s) s)
    (g := fun s q => registerPropertyAlias W parse queryLanguage n q.1 q.2 s)
    (fun d s s' => by rw [aliasesOf, List.foldlM_map]; exact (and_iff_right trivial).symm)
    (preorder W.imported n d) s s'
  exact hloop.trans (and_iff_right fun _ _ => trivial)

/-- The aliases of the definitions of the walks are those that the documents declare. -/
theorem mem_aliases (h : ∀ document ∈ documents, Shallow W.imported n document)
    (alias_ : PropertyAlias) :
    alias_ ∈ ((documents.flatMap (preorder W.imported n)).flatMap (aliasesOf W)).map Prod.snd ↔
      Declares W documents alias_ := by
  constructor
  · intro hmem
    obtain ⟨q, hq, rfl⟩ := List.mem_map.1 hmem
    obtain ⟨d, hd, hq⟩ := List.mem_flatMap.1 hq
    obtain ⟨document, hdocument, hd⟩ := List.mem_flatMap.1 hd
    obtain ⟨alias_, ha, rfl⟩ := List.mem_map.1 hq
    exact ⟨document, hdocument, d, (mem_preorder (h document hdocument) d).1 hd, ha⟩
  · rintro ⟨document, hdocument, d, hd, ha⟩
    refine List.mem_map.2 ⟨(d, alias_), List.mem_flatMap.2 ⟨d, ?_, List.mem_map_of_mem ha⟩, rfl⟩
    exact List.mem_flatMap.2
      ⟨document, hdocument, (mem_preorder (h document hdocument) d).2 hd⟩

theorem visible_ofImports (imports : List (Import D)) : Visible W (.ofImports imports) where
  messages _ _ h := nomatch h
  messageTypes _ h := absurd rfl h

theorem exists_shallow (h : ∀ document ∈ documents, Acc (fun c d => c ∈ W.imported d) document) :
    ∃ n, ∀ document ∈ documents, Shallow W.imported n document := by
  induction documents with
  | nil => exact ⟨0, fun _ hc => absurd hc List.not_mem_nil⟩
  | cons document documents ih =>
    obtain ⟨n, hn⟩ := acc_iff_shallow.1 (h document List.mem_cons_self)
    obtain ⟨m, hm⟩ := ih fun c hc => h c (List.mem_cons_of_mem document hc)
    refine ⟨max n m, List.forall_mem_cons.2 ⟨hn.mono (Nat.le_max_left n m), fun c hc => ?_⟩⟩
    exact (hm c hc).mono (Nat.le_max_right n m)

variable (parse queryLanguage) in
/-- A registration within a limit that the imports do not exceed. -/
theorem registerPropertyAliases_run (hW : W.Resolved) {imports : List (Import D)}
    (h : ∀ document ∈ (ImportDefinition.ofImports imports).documents,
      Shallow W.imported n document) :
    (∀ s, registerPropertyAliases W parse queryLanguage n
        (ImportDefinition.ofImports imports).documents (ofImports imports) = .ok s →
      ((∀ alias_, Declares W (ImportDefinition.ofImports imports).documents alias_ →
          alias_.key ≠ none → ∃! key, s.propertyAliases key = some alias_) ↔
        ∀ alias_ alias', Declares W (ImportDefinition.ofImports imports).documents alias_ →
          Declares W (ImportDefinition.ofImports imports).documents alias' →
          alias_.key ≠ none → alias_.key = alias'.key → alias_ = alias')) ∧
    ((∃ s, registerPropertyAliases W parse queryLanguage n
        (ImportDefinition.ofImports imports).documents (ofImports imports) = .ok s) ↔
      ∀ alias_, Declares W (ImportDefinition.ofImports imports).documents alias_ →
        Typed W (ImportDefinition.ofImports imports).documents alias_) := by
  obtain ⟨hrun, hiff⟩ := registerAliases_run (s := ofImports imports) parse queryLanguage hW
    (visible_ofImports imports) h
    (((ImportDefinition.ofImports imports).documents.flatMap (preorder W.imported n)).flatMap
      (aliasesOf W))
  simp only [registerPropertyAliases_iff, and_iff_right h, ← mem_aliases h]
  refine ⟨fun s hs => ?_, hiff.trans List.forall_mem_map.symm⟩
  have haliases := foldl_putKey_iff PropertyAlias.key
    ((((ImportDefinition.ofImports imports).documents.flatMap (preorder W.imported n)).flatMap
      (aliasesOf W)).map Prod.snd)
  rw [hrun s hs]
  exact haliases.trans ⟨fun hall a b ha hb => hall a ha b hb, fun hall a ha b hb => hall a b ha hb⟩

/-- **Registrations.** -/
theorem registers_iff [Finite D] (hW : W.Resolved) (imports : List (Import D)) :
    Registers W parse queryLanguage imports ↔
      Registrable W (ImportDefinition.ofImports imports).documents := by
  have hacyclic (document : D) := acc_iff_acyclic (fun d c => c ∈ W.imported d) document
  constructor
  · rintro ⟨n, s, hok, honce⟩
    obtain ⟨hshallow, -⟩ := (registerPropertyAliases_iff n _ _ s).1 hok
    obtain ⟨hrun, hiff⟩ := registerPropertyAliases_run parse queryLanguage hW hshallow
    refine ⟨fun document hdocument => ?_, (hrun s hok).1 honce, hiff.1 ⟨s, hok⟩⟩
    exact (hacyclic document).1 (acc_iff_shallow.2 ⟨n, hshallow document hdocument⟩)
  · rintro ⟨hends, hdistinct, hvisible⟩
    obtain ⟨n, hshallow⟩ := exists_shallow fun document hdocument =>
      (hacyclic document).2 (hends document hdocument)
    obtain ⟨hrun, hiff⟩ := registerPropertyAliases_run parse queryLanguage hW hshallow
    obtain ⟨s, hok⟩ := hiff.2 hvisible
    exact ⟨n, s, hok, (hrun s hok).2 hdistinct⟩

end Registration

end Wsdl

end Jbpm
