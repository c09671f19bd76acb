/-
  Routing of requests: the selector of a request listener, and the message that
  the SOAP handler makes of a request.

  The listener writes property names and required values into the selector; the
  handler writes the properties that it can extract into the message.  Names lose
  their namespaces on both sides, and values get no escapes.

  * `formatSelector` and `sendRequest` are the two encoders;
  * `Routed`: the selector is one, and it selects the message exactly when the
    request is the one the listener waits for (`Required`);
  * `routed_of_distinguishable`: the names and values for which it is so.
-/
import Jbpm.Lib.Selector
import Jbpm.Integration.Correlation

namespace Jbpm

open Lib.Selector

/-! ## The listener -/

namespace RequestListener

/-- A receive action, with the identifiers that its WSDL operation and partner
    link are known by. -/
structure ReceiveAction where
  partnerLinkId : BitVec 64
  operationName : String
  correlations : Option Correlations

def partnerLinkIdProp : String := "JbpmPartnerLink"

def operationNameProp : String := "JbpmOperation"

variable (r : ReceiveAction) (s : CorrelationStore String)

/-- The values that the correlation sets require. -/
def receptionProperties : Except CorrelationRaise (List (QName × String)) :=
  match r.correlations with
  | none => .ok []
  | some c => Correlations.getReceptionProperties s c.entries []

/-- The loop of `formatSelector`. -/
def appendProperties (selector : String) : List (QName × String) → String
  | [] => selector
  | (name, value) :: es =>
    appendProperties (selector ++ " AND " ++ name.localPart ++ "='" ++ value ++ "'") es

def formatSelector : Except CorrelationRaise String := do
  let selector := partnerLinkIdProp ++ "=" ++ toString r.partnerLinkId.toInt
  let selector := selector ++ " AND " ++ operationNameProp ++ "='" ++ r.operationName ++ "'"
  let properties ← receptionProperties r s
  return appendProperties selector properties

end RequestListener

/-! ## The handler -/

/-- A message: the header fields and provider properties that sending fills in,
    and the properties of the application. -/
structure JmsMessage where
  header : String → Option Value
  property : String → Option Value

namespace JmsMessage

/-- Names that begin with `JMS` are not for applications. -/
def isReserved (name : String) : Bool := "JMS".toList.isPrefixOf name.toList

def isPropertyName (A : Alphabet) (name : String) : Bool :=
  A.isIdentifier name.toList && !isReserved name

/-- What an identifier of a selector refers to. -/
def env (m : JmsMessage) (name : String) : Option Value :=
  if isReserved name then m.header name else m.property name

/-- `setObjectProperty` and its typed variants; `none` is the exception for a
    name that is no identifier. -/
def setProperty (A : Alphabet) (m : JmsMessage) (name : String) (value : Value) :
    Option JmsMessage :=
  if isPropertyName A name then some { m with property := Function.update m.property name value }
  else none

end JmsMessage

/-- A message type with the aliases of its map in the order of iteration. -/
structure RequestType (Part : Type) where
  parts : List String
  propertyAliases : List (QName × PropertyAlias Part String)
  nodup : (propertyAliases.map Prod.fst).Nodup
  text : Part → String

def RequestType.toMessageType {Part : Type} (t : RequestType Part) : MessageType Part String where
  parts := t.parts
  propertyAliases p := t.propertyAliases.lookup p
  text := t.text

/-- What the handler makes of a SOAP message: the partner link of its port, the
    operation, and the parts that the formatter reads. -/
structure Request (Part : Type) where
  partnerLinkId : BitVec 64
  operationName : String
  type : RequestType Part
  requestParts : String → Option Part

namespace SoapHandler

variable {Part : Type} (A : Alphabet) (q : Request Part)

/-- The value of the request, as the receiving variable gets it. -/
def messageValue : MessageValue Part String := ⟨q.type.toMessageType, q.requestParts⟩

/-- Properties whose part is missing or whose query faults are skipped. -/
def fillCorrelationProperties :
    List (QName × PropertyAlias Part String) → JmsMessage → Option JmsMessage
  | [], jmsRequest => some jmsRequest
  | (propertyName, alias_) :: as, jmsRequest =>
    match q.requestParts alias_.part with
    | none => fillCorrelationProperties as jmsRequest
    | some part =>
      match alias_.query with
      | none =>
        (jmsRequest.setProperty A propertyName.localPart (.str (q.type.text part))).bind
          (fillCorrelationProperties as)
      | some query =>
        match query part with
        | .error _ => fillCorrelationProperties as jmsRequest
        | .ok value =>
          (jmsRequest.setProperty A propertyName.localPart (.str value)).bind
            (fillCorrelationProperties as)

/-- The message as it is delivered; the header is up to the provider. -/
def sendRequest (header : String → Option Value) : Option JmsMessage := do
  let jmsRequest : JmsMessage := ⟨header, fun _ => none⟩
  let jmsRequest ← jmsRequest.setProperty A RequestListener.partnerLinkIdProp
    (.num q.partnerLinkId.toInt)
  let jmsRequest ← jmsRequest.setProperty A RequestListener.operationNameProp
    (.str q.operationName)
  fillCorrelationProperties A q q.type.propertyAliases jmsRequest

end SoapHandler

open RequestListener SoapHandler

section
variable {Part : Type} (A : Alphabet) (header : String → Option Value)
  (r : RequestListener.ReceiveAction) (es : List (QName × String)) (q : Request Part)

/-- The request has the partner link and the operation of the receive action. -/
def Addressed : Prop := q.partnerLinkId = r.partnerLinkId ∧ q.operationName = r.operationName

/-- The listener waits for this request: `es` are the values it requires. -/
def Required : Prop :=
  Addressed r q ∧ ∀ e ∈ es, (messageValue q).getPropertyValue e.1 = .ok e.2

/-- The message of the request is selected. -/
def Delivered (selector : String) : Prop :=
  ∃ m ∈ sendRequest A q header, Selects A selector m.env

/-- The two encoders agree on a receive action, which waits for the values `es`,
    and a request. -/
def Routed (s : CorrelationStore String) : Prop :=
  ∃ selector, formatSelector r s = .ok selector ∧ Valid A selector ∧
    (Delivered A header q selector ↔ Required r es q)

/-- The names and values that both encoders treat alike. -/
structure Distinguishable : Prop where
  /-- no text that goes between quotes has one -/
  operation : '\'' ∉ r.operationName.toList
  values : ∀ e ∈ es, '\'' ∉ e.2.toList
  /-- required properties are known by property names, other than those in use -/
  names : ∀ e ∈ es, JmsMessage.isPropertyName A e.1.localPart ∧
    e.1.localPart ≠ partnerLinkIdProp ∧ e.1.localPart ≠ operationNameProp
  /-- no property of the request takes the place of the partner link or operation -/
  builtin : ∀ p v, (messageValue q).getPropertyValue p = .ok v →
    p.localPart ≠ partnerLinkIdProp ∧ p.localPart ≠ operationNameProp
  /-- what the addressed request carries are property names, too -/
  carried : Addressed r q → ∀ p v, (messageValue q).getPropertyValue p = .ok v →
    JmsMessage.isPropertyName A p.localPart
  /-- and none of them is known by the name of another one that is required -/
  distinct : Addressed r q → ∀ e ∈ es, ∀ p v, p.localPart = e.1.localPart →
    (messageValue q).getPropertyValue p = .ok v → (messageValue q).getPropertyValue e.1 = .ok v

end

/-! ## The text of the selector -/

section
variable {A : Alphabet} {r : RequestListener.ReceiveAction} {es : List (QName × String)}
  {s : CorrelationStore String}

def linkTest (id : BitVec 64) : Test := (partnerLinkIdProp.toList, .int id.toInt)

def operationTest (operationName : String) : Test := (operationNameProp.toList, .str operationName)

def propertyTest (e : QName × String) : Test := (e.1.localPart.toList, .str e.2)

theorem toList_appendProperties (selector : String) (es : List (QName × String)) :
    (appendProperties selector es).toList =
      selector.toList ++ (es.map propertyTest).flatMap fun t =>
        ' ' :: 'A' :: 'N' :: 'D' :: ' ' :: t.chars := by
  induction es generalizing selector with
  | nil => simp [appendProperties]
  | cons e es ih =>
    rw [appendProperties, ih]
    simp [propertyTest, Test.chars, Literal.chars]

/-- The selector is a conjunction of tests for equality, as long as it can be
    read as one. -/
theorem formatSelector_eq (h : receptionProperties r s = .ok es) :
    ∃ selector, formatSelector r s = .ok selector ∧
      selector.toList = conjunctionChars (linkTest r.partnerLinkId)
        (operationTest r.operationName :: es.map propertyTest) := by
  refine ⟨_, by rw [formatSelector, h]; rfl, ?_⟩
  rw [toList_appendProperties]
  simp [conjunctionChars, linkTest, operationTest, Test.chars, Literal.chars, operationNameProp]

theorem isPropertyName_partnerLinkIdProp : JmsMessage.isPropertyName A partnerLinkIdProp := rfl

theorem isPropertyName_operationNameProp : JmsMessage.isPropertyName A operationNameProp := rfl

theorem wellFormed_tests {Part : Type} {q : Request Part} (h : Distinguishable A r es q) :
    ∀ t ∈ linkTest r.partnerLinkId :: operationTest r.operationName :: es.map propertyTest,
      t.WellFormed A := by
  simp only [List.forall_mem_cons, List.forall_mem_map]
  refine ⟨⟨rfl, trivial⟩, ⟨rfl, h.operation⟩, fun e he => ⟨?_, h.values e he⟩⟩
  have hn := (h.names e he).1
  rw [JmsMessage.isPropertyName, Bool.and_eq_true] at hn
  exact hn.1

end

/-! ## The properties of the message -/

section
variable {Part : Type} {A : Alphabet} {q : Request Part}

theorem fillCorrelationProperties_cons (p : QName) (a : PropertyAlias Part String)
    (as : List (QName × PropertyAlias Part String)) (j : JmsMessage) :
    fillCorrelationProperties A q ((p, a) :: as) j =
      match (messageValue q).evaluateProperty a with
      | .ok v => (j.setProperty A p.localPart (.str v)).bind (fillCorrelationProperties A q as)
      | .error _ => fillCorrelationProperties A q as j := by
  rcases hp : q.requestParts a.part with _ | part
  · by_cases hd : a.part ∈ q.type.parts <;>
      simp [fillCorrelationProperties, hp, MessageValue.evaluateProperty, MessageValue.getPart,
        messageValue, RequestType.toMessageType, hd, bind, Except.bind]
  · rcases hq : a.query with _ | query
    · simp [fillCorrelationProperties, hp, hq, MessageValue.evaluateProperty,
        MessageValue.getPart, messageValue, RequestType.toMessageType, bind, Except.bind, pure,
        Except.pure]
    · rcases hv : query part with e | v <;>
        simp [fillCorrelationProperties, hp, hq, hv, MessageValue.evaluateProperty,
          MessageValue.getPart, messageValue, bind, Except.bind]

/-- The aliases of `as` that give a property of this local name a value. -/
def Carries (q : Request Part) (as : List (QName × PropertyAlias Part String)) (name v : String) :
    Prop :=
  ∃ a ∈ as, (messageValue q).evaluateProperty a.2 = .ok v ∧ a.1.localPart = name

/-- A property is as it was, or comes from one of the aliases of its name. -/
theorem fillCorrelationProperties_spec {as : List (QName × PropertyAlias Part String)}
    {j j' : JmsMessage} (h : fillCorrelationProperties A q as j = some j') (name : String) :
    (∀ v, ¬ Carries q as name v) ∧ j'.property name = j.property name ∨
      ∃ v, Carries q as name v ∧ j'.property name = some (.str v) := by
  induction as generalizing j with
  | nil =>
    obtain rfl : j = j' := Option.some.inj h
    exact .inl ⟨fun v ⟨a, ha, _⟩ => (List.not_mem_nil ha).elim, rfl⟩
  | cons a as ih =>
    have hcons (v : String) : Carries q (a :: as) name v ↔
        ((messageValue q).evaluateProperty a.2 = .ok v ∧ a.1.localPart = name) ∨
          Carries q as name v := by
      simp [Carries]
    rw [fillCorrelationProperties_cons] at h
    rcases hv : (messageValue q).evaluateProperty a.2 with e | v
    · rw [hv] at h
      simpa [hcons, hv] using ih h
    · rw [hv] at h
      obtain ⟨j₁, hset, hfill⟩ := Option.bind_eq_some_iff.1 h
      have hj₁ : j₁.property = Function.update j.property a.1.localPart (some (.str v)) := by
        rw [JmsMessage.setProperty] at hset
        split at hset
        · rw [← Option.some.inj hset]
        · cases hset
      rcases ih hfill with ⟨hno, hp⟩ | ⟨w, hw, hp⟩
      · by_cases hn : a.1.localPart = name
        · refine .inr ⟨v, (hcons v).2 (.inl ⟨hv, hn⟩), ?_⟩
          rw [hp, hj₁, hn, Function.update_self]
        · refine .inl ⟨fun w hw => ?_, ?_⟩
          · rcases (hcons w).1 hw with ⟨-, hn'⟩ | hw
            · exact hn hn'
            · exact hno w hw
          · rw [hp, hj₁, Function.update_of_ne (Ne.symm hn)]
      · exact .inr ⟨w, (hcons w).2 (.inr hw), hp⟩

theorem fillCorrelationProperties_isSome {as : List (QName × PropertyAlias Part String)}
    (h : ∀ name v, Carries q as name v → JmsMessage.isPropertyName A name) (j : JmsMessage) :
    ∃ j', fillCorrelationProperties A q as j = some j' := by
  induction as generalizing j with
  | nil => exact ⟨j, rfl⟩
  | cons a as ih =>
    have has : ∀ name v, Carries q as name v → JmsMessage.isPropertyName A name :=
      fun name v ⟨b, hb, hv⟩ => h name v ⟨b, List.mem_cons_of_mem _ hb, hv⟩
    rw [fillCorrelationProperties_cons]
    rcases hv : (messageValue q).evaluateProperty a.2 with e | v
    · exact ih has j
    · have hn := h a.1.localPart v ⟨a, List.mem_cons_self, hv, rfl⟩
      simp only [JmsMessage.setProperty, hn, if_true, Option.bind_some]
      exact ih has _

theorem lookup_of_mem {as : List (QName × PropertyAlias Part String)}
    (hn : (as.map Prod.fst).Nodup) {a : QName × PropertyAlias Part String} (ha : a ∈ as) :
    as.lookup a.1 = some a.2 := by
  induction as with
  | nil => cases ha
  | cons b as ih =>
    obtain ⟨hb, has⟩ := List.nodup_cons.1 hn
    rcases List.mem_cons.1 ha with rfl | hmem
    · exact List.lookup_cons_self
    · have hne : a.1 ≠ b.1 := fun h => hb (h ▸ List.mem_map_of_mem hmem)
      obtain ⟨k, v⟩ := b
      rw [List.lookup_cons, beq_eq_false_iff_ne.2 hne]
      exact ih has hmem

/-- The aliases carry the values that the receiving variable gets. -/
theorem carries_iff (name v : String) :
    Carries q q.type.propertyAliases name v ↔
      ∃ p, p.localPart = name ∧ (messageValue q).getPropertyValue p = .ok v := by
  constructor
  · rintro ⟨a, ha, hv, rfl⟩
    refine ⟨a.1, rfl, ?_⟩
    rw [MessageValue.getPropertyValue]
    have hl : (messageValue q).type.propertyAliases a.1 = some a.2 := lookup_of_mem q.type.nodup ha
    rw [hl]
    exact hv
  · rintro ⟨p, rfl, hv⟩
    rw [MessageValue.getPropertyValue] at hv
    rcases hl : (messageValue q).type.propertyAliases p with _ | a
    · rw [hl] at hv
      cases hv
    · rw [hl] at hv
      have hmem : (p, a) ∈ q.type.propertyAliases := by
        obtain ⟨l₁, l₂, h, -⟩ := List.lookup_eq_some_iff.1 hl
        rw [h]
        simp
      exact ⟨(p, a), hmem, hv, rfl⟩

end

/-! ## The two encoders together -/

section
variable {Part : Type} {A : Alphabet} {header : String → Option Value}
  {r : RequestListener.ReceiveAction} {es : List (QName × String)} {q : Request Part}

theorem JmsMessage.env_of_isPropertyName {name : String}
    (h : JmsMessage.isPropertyName A name) (m : JmsMessage) : m.env name = m.property name := by
  rw [JmsMessage.isPropertyName, Bool.and_eq_true, Bool.not_eq_true'] at h
  rw [JmsMessage.env, h.2, if_neg Bool.false_ne_true]

/-- The message before the correlation properties. -/
def basicMessage (header : String → Option Value) (q : Request Part) : JmsMessage where
  header := header
  property := Function.update
    (Function.update (fun _ => none) partnerLinkIdProp (some (.num q.partnerLinkId.toInt)))
    operationNameProp (some (.str q.operationName))

theorem sendRequest_eq : sendRequest A q header =
    fillCorrelationProperties A q q.type.propertyAliases (basicMessage header q) := by
  simp [sendRequest, JmsMessage.setProperty, isPropertyName_partnerLinkIdProp,
    isPropertyName_operationNameProp, basicMessage]

/-- What the tests of the selector say of a message that was sent. -/
theorem sendRequest_spec (hd : Distinguishable A r es q) {m : JmsMessage}
    (hm : sendRequest A q header = some m) :
    m.env partnerLinkIdProp = some (.num q.partnerLinkId.toInt) ∧
      m.env operationNameProp = some (.str q.operationName) ∧
      ∀ e ∈ es, ∀ v, m.env e.1.localPart = some (.str v) →
        ∃ p, p.localPart = e.1.localPart ∧ (messageValue q).getPropertyValue p = .ok v := by
  rw [sendRequest_eq] at hm
  have hspec := fillCorrelationProperties_spec hm
  have hbasic {name : String} (hn : name = partnerLinkIdProp ∨ name = operationNameProp) :
      m.property name = (basicMessage header q).property name := by
    rcases hspec name with ⟨-, h⟩ | ⟨v, hv, -⟩
    · exact h
    · obtain ⟨p, rfl, hp⟩ := (carries_iff _ _).1 hv
      have hne := hd.builtin p v hp
      exact (hn.elim hne.1 hne.2).elim
  have hlinkProp : m.env partnerLinkIdProp = m.property partnerLinkIdProp :=
    JmsMessage.env_of_isPropertyName (A := A) rfl m
  have hopProp : m.env operationNameProp = m.property operationNameProp :=
    JmsMessage.env_of_isPropertyName (A := A) rfl m
  refine ⟨?_, ?_, fun e he v h => ?_⟩
  · rw [hlinkProp, hbasic (.inl rfl)]
    rfl
  · rw [hopProp, hbasic (.inr rfl)]
    rfl
  · obtain ⟨hn, hlink, hop⟩ := hd.names e he
    rw [JmsMessage.env_of_isPropertyName hn] at h
    rcases hspec e.1.localPart with ⟨-, hp⟩ | ⟨w, hw, hp⟩
    · have hnone : (basicMessage header q).property e.1.localPart = none := by
        simp only [basicMessage, Function.update_of_ne hop, Function.update_of_ne hlink]
      rw [hp, hnone] at h
      cases h
    · rw [hp] at h
      injection h with h
      injection h with h
      exact h ▸ (carries_iff _ _).1 hw

/-- The tests of the selector, on the environment of a message. -/
theorem holds_tests_iff (env : String → Option Value) :
    (∀ t ∈ linkTest r.partnerLinkId :: operationTest r.operationName :: es.map propertyTest,
        t.Holds env) ↔
      env partnerLinkIdProp = some (.num r.partnerLinkId.toInt) ∧
        env operationNameProp = some (.str r.operationName) ∧
        ∀ e ∈ es, env e.1.localPart = some (.str e.2) := by
  simp only [List.forall_mem_cons, List.forall_mem_map]
  simp [linkTest, operationTest, propertyTest, Test.Holds, Literal.value]

theorem delivered_iff_required (hd : Distinguishable A r es q) {selector : String}
    (hsel : ∀ env, Selects A selector env ↔
      ∀ t ∈ linkTest r.partnerLinkId :: operationTest r.operationName :: es.map propertyTest,
        t.Holds env) :
    Delivered A header q selector ↔ Required r es q := by
  constructor
  · rintro ⟨m, hm, hs⟩
    obtain ⟨hlink, hop, hprops⟩ := (holds_tests_iff _).1 ((hsel _).1 hs)
    obtain ⟨hlink', hop', hprops'⟩ := sendRequest_spec hd hm
    have haddr : Addressed r q := by
      rw [hlink'] at hlink
      rw [hop'] at hop
      refine ⟨BitVec.toInt_inj.1 ?_, ?_⟩
      · simpa using hlink
      · simpa using hop
    refine ⟨haddr, fun e he => ?_⟩
    obtain ⟨p, hp, hv⟩ := hprops' e he e.2 (hprops e he)
    exact hd.distinct haddr e he p e.2 hp hv
  · rintro ⟨haddr, hvalues⟩
    obtain ⟨m, hfill⟩ : ∃ m, fillCorrelationProperties A q q.type.propertyAliases
        (basicMessage header q) = some m := by
      refine fillCorrelationProperties_isSome (fun name v hc => ?_) _
      obtain ⟨p, rfl, hp⟩ := (carries_iff _ _).1 hc
      exact hd.carried haddr p v hp
    have hm : sendRequest A q header = some m := by rw [sendRequest_eq, hfill]
    obtain ⟨hlink, hop, -⟩ := sendRequest_spec hd hm
    refine ⟨m, hm, (hsel _).2 ((holds_tests_iff _).2 ⟨?_, ?_, fun e he => ?_⟩)⟩
    · rw [hlink, haddr.1]
    · rw [hop, haddr.2]
    · rw [JmsMessage.env_of_isPropertyName (hd.names e he).1]
      rcases fillCorrelationProperties_spec hfill e.1.localPart with ⟨hno, -⟩ | ⟨w, hw, hp⟩
      · exact (hno e.2 ((carries_iff _ _).2 ⟨e.1, rfl, hvalues e he⟩)).elim
      -- another alias of the name may have been the last to write it
      · obtain ⟨p, hpn, hv⟩ := (carries_iff _ _).1 hw
        have heq := (hd.distinct haddr e he p w hpn hv).symm.trans (hvalues e he)
        rw [hp, Except.ok.inj heq]

/-- **Requests are routed exactly**, where names and values are distinguishable. -/
theorem routed_of_distinguishable {s : CorrelationStore String}
    (h : receptionProperties r s = .ok es) (hd : Distinguishable A r es q) :
    Routed A header r es q s := by
  obtain ⟨selector, hformat, htext⟩ := formatSelector_eq h
  refine ⟨selector, hformat, valid_conjunction htext (wellFormed_tests hd), ?_⟩
  exact delivered_iff_required hd (selects_conjunction htext (wellFormed_tests hd))

end

/-- The names and values that go into the selector. -/
def splicedTexts (r : RequestListener.ReceiveAction) (es : List (QName × String)) : List Char :=
  r.operationName.toList ++ es.flatMap fun e => e.1.localPart.toList ++ e.2.toList

theorem count_quotes_conjuncts (es : List (QName × String)) :
    ((es.map propertyTest).flatMap fun t => ' ' :: 'A' :: 'N' :: 'D' :: ' ' :: t.chars).count '\'' =
      (es.flatMap fun e => e.1.localPart.toList ++ e.2.toList).count '\'' + 2 * es.length := by
  induction es with
  | nil => rfl
  | cons e es ih =>
    simp only [List.map_cons, List.flatMap_cons, List.count_append, ih, List.length_cons]
    simp [propertyTest, Test.chars, Literal.chars]
    omega

/-- Quotes that do not even pair up make the selector none. -/
theorem not_routed_of_odd_quotes {Part : Type} {A : Alphabet} {header : String → Option Value}
    {r : RequestListener.ReceiveAction} {es : List (QName × String)} {q : Request Part}
    {s : CorrelationStore String} (h : receptionProperties r s = .ok es)
    (hodd : ¬ Even ((splicedTexts r es).count '\'')) : ¬ Routed A header r es q s := by
  rintro ⟨selector, hformat, hvalid, -⟩
  obtain ⟨selector', hformat', htext⟩ := formatSelector_eq h
  obtain rfl : selector' = selector := Except.ok.inj (hformat'.symm.trans hformat)
  have heven := even_quotes_of_valid hvalid
  have hlink : (linkTest r.partnerLinkId).chars.count '\'' = 0 := by
    have hint := Literal.quote_notMem_int r.partnerLinkId.toInt
    simpa [List.count_eq_zero, linkTest, partnerLinkIdProp, Test.chars] using hint
  rw [htext, conjunctionChars, List.count_append, hlink, List.flatMap_cons, List.count_append,
    count_quotes_conjuncts] at heven
  refine hodd ?_
  rw [splicedTexts, List.count_append]
  simp [operationTest, Test.chars, Literal.chars, operationNameProp] at heven
  grind

/-! ## Orders -/

section
variable {Part : Type} {A : Alphabet} {r : RequestListener.ReceiveAction}
  {es : List (QName × String)} {q : Request Part}

theorem mem_propertyAliases {p : QName} {v : String}
    (h : (messageValue q).getPropertyValue p = .ok v) :
    p ∈ q.type.propertyAliases.map Prod.fst := by
  rw [MessageValue.getPropertyValue] at h
  rcases hl : (messageValue q).type.propertyAliases p with _ | a
  · rw [hl] at h
    cases h
  · obtain ⟨l₁, l₂, hl, -⟩ := List.lookup_eq_some_iff.1 hl
    rw [hl]
    simp

/-- A message type whose properties have names of their own. -/
theorem Distinguishable.of_names (hop : '\'' ∉ r.operationName.toList)
    (hvalues : ∀ e ∈ es, '\'' ∉ e.2.toList)
    (hnames : ∀ p ∈ es.map Prod.fst ++ q.type.propertyAliases.map Prod.fst,
      JmsMessage.isPropertyName A p.localPart ∧
        p.localPart ≠ partnerLinkIdProp ∧ p.localPart ≠ operationNameProp)
    (hdistinct : ∀ e ∈ es, ∀ p ∈ q.type.propertyAliases.map Prod.fst,
      p.localPart = e.1.localPart → p = e.1) : Distinguishable A r es q where
  operation := hop
  values := hvalues
  names e he := hnames e.1 (List.mem_append_left _ (List.mem_map_of_mem he))
  builtin p _ h := (hnames p (List.mem_append_right _ (mem_propertyAliases h))).2
  carried _ p _ h := (hnames p (List.mem_append_right _ (mem_propertyAliases h))).1
  distinct _ e he p _ hp h := hdistinct e he p (mem_propertyAliases h) hp ▸ h

end

def ascii : Alphabet := ⟨fun _ => false, fun _ => false⟩

/-- Messages whose parts are strings, and which have a property for every part. -/
def orderType (names : List QName) (h : names.Nodup) : RequestType String where
  parts := names.map QName.namespaceURI
  propertyAliases := names.map fun p => (p, ⟨p.namespaceURI, none⟩)
  nodup := by simpa [Function.comp_def] using h
  text v := v

def confirmAction : RequestListener.ReceiveAction := ⟨7, "confirm", some ⟨[(0, .no)], by decide⟩⟩

def confirmRequest (names : List QName) (h : names.Nodup) (parts : List (String × String)) :
    Request String :=
  ⟨7, "confirm", orderType names h, fun part => parts.lookup part⟩

/-- The store of a process that knows its customer. -/
def customerStore (customer : String) : CorrelationStore String :=
  fun _ => ⟨⟨[⟨"crm", "name"⟩]⟩, [(⟨"crm", "name"⟩, customer)]⟩

theorem routed_of_distinguishable_confirm :
    Routed ascii (fun _ => none) confirmAction [(⟨"crm", "name"⟩, "Hara")]
      (confirmRequest [⟨"crm", "name"⟩, ⟨"shop", "item"⟩] (by decide)
        [("crm", "Hara"), ("shop", "it's")])
      (customerStore "Hara") :=
  routed_of_distinguishable rfl
    (.of_names (by decide) (by decide) (by decide +kernel) (by decide))

/-- **Not routed exactly.**  A quote in a value ends the literal; and of two
    properties with one local name only one gets into the message. -/
theorem not_routed :
    ¬ Routed ascii (fun _ => none) confirmAction [(⟨"crm", "name"⟩, "O'Hara")]
      (confirmRequest [⟨"crm", "name"⟩] (by decide) [("crm", "O'Hara")])
      (customerStore "O'Hara") ∧
    ¬ Routed ascii (fun _ => none) confirmAction [(⟨"crm", "name"⟩, "Hara")]
      (confirmRequest [⟨"crm", "name"⟩, ⟨"shop", "name"⟩] (by decide)
        [("crm", "Hara"), ("shop", "Corner")])
      (customerStore "Hara") := by
  constructor
  · rintro ⟨selector, hformat, hvalid, -⟩
    obtain rfl := Except.ok.inj hformat
    revert hvalid
    decide +kernel
  · rintro ⟨selector, hformat, -, hiff⟩
    obtain rfl := Except.ok.inj hformat
    obtain ⟨m, hm, hs⟩ := hiff.2 ⟨⟨rfl, rfl⟩, by decide +kernel⟩
    obtain rfl := Option.some.inj hm
    revert hs
    decide +kernel

end Jbpm
