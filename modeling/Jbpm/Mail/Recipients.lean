/-
  Mails and those who receive them.

  * `fill`: the fields that a template gives;
  * `getRecipients`, `getBccRecipients`: the two lists of addresses;
  * `tokens_join`: what is joined by separators is taken apart again;
  * `recipients_iff`: the mails of which both lists are right.
-/
import Mathlib.Data.List.Basic

namespace Jbpm

namespace Mail

inductive Failure
  | nullPointer
  /-- `Address resolver .. returned .. instead of a String, Collection or String-array` -/
  | notAnAddress
  deriving DecidableEq

/-- What an address resolver returns for an actor. -/
inductive Resolved
  | null
  | string (address : String)
  | collection (addresses : List String)
  | array (addresses : List String)
  | other
  deriving DecidableEq

/-- The properties of a template. -/
structure Template where
  actors : Option String
  to_ : Option String
  bccActors : Option String
  bcc : Option String

structure Message where
  template : Option String
  actors : Option String
  to_ : Option String
  bccActors : Option String
  bcc : Option String

/-- What mails are evaluated and resolved with; an expression may be null, and
    `jbpm.mail.bcc.address` need not be configured. -/
structure Environment where
  templates : String → Option Template
  evaluate : String → Option String
  resolveAddress : String → Resolved
  bccAddress : Option String
  /-- The resolver keeps to its interface. -/
  resolves : ∀ actorId, resolveAddress actorId ≠ .other

def isSeparator (c : Char) : Bool := c = ';' || c = ':'

/-- `StringTokenizer` with the delimiters `;` and `:` -/
def tokens (text : String) : List String :=
  ((text.toList.splitOnP isSeparator).filter (· ≠ [])).map String.ofList

/-- `null` for null -/
def tokenize (text : Option String) : Option (List String) := text.map tokens

/-- `addAll`, which null cannot be given to -/
def addAll (recipients : List String) : Option (List String) → Except Failure (List String)
  | none => .error .nullPointer
  | some addresses => .ok (recipients ++ addresses)

variable (env : Environment)

def resolveAddresses : List String → Except Failure (List String)
  | [] => .ok []
  | actorId :: actorIds =>
    match env.resolveAddress actorId with
    | .null => resolveAddresses actorIds
    | .string address => return address :: (← resolveAddresses actorIds)
    | .collection addresses => return addresses ++ (← resolveAddresses actorIds)
    | .array addresses => return addresses ++ (← resolveAddresses actorIds)
    | .other => .error .notAnAddress

/-- The addresses of actors, of both lists. -/
def addActors (actors : Option String) (recipients : List String) :
    Except Failure (List String) :=
  match actors with
  | none => .ok recipients
  | some actors =>
    match tokenize (env.evaluate actors) with
    | none => .ok recipients
    | some tokenizedActors => return recipients ++ (← resolveAddresses env tokenizedActors)

def Message.getRecipients (m : Message) : Except Failure (List String) := do
  let recipients ← addActors env m.actors []
  match m.to_ with
  | none => pure recipients
  | some expression => addAll recipients (tokenize (env.evaluate expression))

/-- If there is a `bcc`, `to` is evaluated. -/
def Message.getBccRecipients (m : Message) : Except Failure (List String) := do
  let recipients ← addActors env m.bccActors []
  let recipients ← match m.bcc with
    | none => pure recipients
    | some _ => addAll recipients (tokenize (m.to_.bind env.evaluate))
  match env.bccAddress with
  | none => pure recipients
  | some address => addAll recipients (tokenize (some address))

/-- A field that is null is taken from the template. -/
def Message.fill (m : Message) : Except Failure Message :=
  match m.template with
  | none => .ok m
  | some template =>
    match env.templates template with
    | none => .error .nullPointer
    | some properties => .ok
        { template := some template
          actors := m.actors.or properties.actors
          to_ := m.to_.or properties.to_
          bccActors := m.bccActors.or properties.bccActors
          bcc := m.bcc.or properties.bcc }

/-! ## What mails mean -/

/-- The value of a field: its own, or that of the template. -/
def Message.value (m : Message) (own : Message → Option String)
    (given : Template → Option String) : Option String :=
  (own m).or ((m.template.bind env.templates).bind given)

/-- The texts in the value of a field, if there is one. -/
def listed (field : Option String) : List String :=
  ((field.bind env.evaluate).map tokens).getD []

def Resolved.addresses : Resolved → List String
  | .string address => [address]
  | .collection addresses | .array addresses => addresses
  | .null | .other => []

def addressesOf (actors : Option String) : List String :=
  (listed env actors).flatMap fun actorId => (env.resolveAddress actorId).addresses

/-- With a template that exists, if any, both lists are built, of the addresses of the actors, those
    that are given, and the one that is configured. -/
structure Exact (m : Message) : Prop where
  recipients : ∀ filled, m.fill env = .ok filled → filled.getRecipients env =
    .ok (addressesOf env (m.value env (·.actors) (·.actors)) ++
      listed env (m.value env (·.to_) (·.to_)))
  bccRecipients : ∀ filled, m.fill env = .ok filled → filled.getBccRecipients env =
    .ok (addressesOf env (m.value env (·.bccActors) (·.bccActors)) ++
      listed env (m.value env (·.bcc) (·.bcc)) ++ env.bccAddress.elim [] tokens)
  hidden : ∀ filled addresses, m.fill env = .ok filled →
    filled.getRecipients env = .ok addresses → ∀ address ∈ addresses,
      address ∈ addressesOf env (m.value env (·.actors) (·.actors)) ∨
        address ∈ listed env (m.value env (·.to_) (·.to_))

/-- `to` is not evaluated to null; and if there is a `bcc`, there is a `to`, in which the same is
    listed. -/
structure Sound (filled : Message) : Prop where
  to_ : ∀ expression, filled.to_ = some expression → env.evaluate expression ≠ none
  bcc : filled.bcc ≠ none →
    filled.to_ ≠ none ∧ listed env filled.to_ = listed env filled.bcc

/-! ## Texts of several addresses -/

/-- The texts with a separator after each. -/
def join (separator : Char) : List String → List Char
  | [] => []
  | address :: addresses => address.toList ++ separator :: join separator addresses

theorem tokens_join {separator : Char} (hseparator : isSeparator separator = true)
    {addresses : List String}
    (h : ∀ address ∈ addresses, address ≠ "" ∧ ∀ c ∈ address.toList, isSeparator c = false) :
    tokens (String.ofList (join separator addresses)) = addresses := by
  rw [tokens, String.toList_ofList]
  induction addresses with
  | nil => rfl
  | cons address addresses ih =>
    obtain ⟨⟨hne, hplain⟩, hrest⟩ := List.forall_mem_cons.mp h
    have htext : address.toList ≠ [] := fun htext => hne (by
      rw [← String.ofList_toList (s := address), htext])
    rw [join, List.splitOnP_append_cons_of_forall_mem hplain _ hseparator,
      List.filter_cons_of_pos (by simpa using htext), List.map_cons, ih hrest,
      String.ofList_toList]

/-! ## The lists -/

section Lists

variable {env} {m filled : Message} {recipients : List String}

theorem resolveAddresses_eq (actorIds : List String) : resolveAddresses env actorIds =
    .ok (actorIds.flatMap fun actorId => (env.resolveAddress actorId).addresses) := by
  induction actorIds with
  | nil => rfl
  | cons actorId actorIds ih =>
    have hresolves := env.resolves actorId
    rw [resolveAddresses, List.flatMap_cons]
    cases h : env.resolveAddress actorId with
    | null => exact ih
    | string address | collection addresses | array addresses =>
      dsimp only
      rw [ih]
      rfl
    | other => exact absurd h hresolves

theorem addActors_eq (actors : Option String) (recipients : List String) :
    addActors env actors recipients = .ok (recipients ++ addressesOf env actors) := by
  unfold addActors addressesOf listed
  cases actors with
  | none => exact congrArg Except.ok (List.append_nil _).symm
  | some actors =>
    dsimp only [Option.bind_some]
    cases env.evaluate actors with
    | none => exact congrArg Except.ok (List.append_nil _).symm
    | some text =>
      dsimp only [tokenize, Option.map_some, Option.getD_some]
      rw [resolveAddresses_eq]
      rfl

theorem getRecipients_eq_iff : filled.getRecipients env =
      .ok (addressesOf env filled.actors ++ listed env filled.to_) ↔
    ∀ expression, filled.to_ = some expression → env.evaluate expression ≠ none := by
  rw [Message.getRecipients, addActors_eq, listed]
  cases filled.to_ with
  | none =>
    refine iff_of_true ?_ nofun
    exact congrArg Except.ok (List.append_nil _).symm
  | some expression =>
    dsimp only [Option.bind_some]
    cases h : env.evaluate expression with
    | none => exact iff_of_false nofun fun hne => hne expression rfl h
    | some text =>
      refine iff_of_true rfl ?_
      rintro _ ⟨rfl⟩
      rw [h]
      exact Option.some_ne_none _

/-- What is listed in `to` takes the place of what is listed in `bcc`. -/
theorem getBccRecipients_eq_iff
    (h : ∀ expression, filled.to_ = some expression → env.evaluate expression ≠ none) :
    filled.getBccRecipients env = .ok (addressesOf env filled.bccActors ++
        listed env filled.bcc ++ env.bccAddress.elim [] tokens) ↔
      (filled.bcc ≠ none → filled.to_ ≠ none ∧ listed env filled.to_ = listed env filled.bcc) := by
  have hconfigured : ∀ recipients, (match env.bccAddress with
      | none => pure recipients
      | some address => addAll recipients (tokenize (some address))) =
        Except.ok (recipients ++ env.bccAddress.elim [] tokens) := fun recipients => by
    cases env.bccAddress with
    | none => exact congrArg Except.ok (List.append_nil _).symm
    | some address => rfl
  rw [Message.getBccRecipients, addActors_eq]
  cases hbcc : filled.bcc with
  | none =>
    refine iff_of_true ?_ fun hne => absurd rfl hne
    refine (hconfigured _).trans ?_
    rw [listed, Option.bind_none, Option.map_none, Option.getD_none, List.append_nil]
    rfl
  | some expression =>
    rw [imp_iff_right (Option.some_ne_none _)]
    cases hto : filled.to_ with
    | none => exact iff_of_false nofun fun hne => hne.1 rfl
    | some toExpression =>
      cases htext : env.evaluate toExpression with
      | none => exact absurd htext (h toExpression hto)
      | some text =>
        have hlisted : listed env (some toExpression) = tokens text := by
          rw [listed, Option.bind_some, htext]
          rfl
        rw [and_iff_right (Option.some_ne_none _), Option.bind_some, htext, hlisted]
        refine (iff_of_eq (congrArg (· = _) (hconfigured _))).trans ?_
        rw [Except.ok.injEq, List.append_cancel_right_eq, List.nil_append,
          List.append_cancel_left_eq]

theorem value_of_fill (h : m.fill env = .ok filled) :
    m.value env (·.actors) (·.actors) = filled.actors ∧
      m.value env (·.to_) (·.to_) = filled.to_ ∧
        m.value env (·.bccActors) (·.bccActors) = filled.bccActors ∧
          m.value env (·.bcc) (·.bcc) = filled.bcc := by
  rw [Message.fill] at h
  simp only [Message.value]
  cases htemplate : m.template with
  | none =>
    rw [htemplate] at h
    obtain rfl := Except.ok.inj h
    simp only [Option.bind_none, Option.or_none, and_self]
  | some template =>
    rw [htemplate] at h
    rw [Option.bind_some]
    dsimp only at h
    cases hproperties : env.templates template with
    | none =>
      rw [hproperties] at h
      cases h
    | some properties =>
      rw [hproperties] at h
      obtain rfl := Except.ok.inj h
      exact ⟨rfl, rfl, rfl, rfl⟩

/-- Both lists are right if the filled mail is sound. -/
theorem recipients_iff : Exact env m ↔ ∀ filled, m.fill env = .ok filled → Sound env filled := by
  constructor
  · intro h filled hfill
    obtain ⟨hactors, hto, hbccActors, hbcc⟩ := value_of_fill hfill
    have hrecipients := h.recipients filled hfill
    have hbccs := h.bccRecipients filled hfill
    rw [hactors, hto] at hrecipients
    rw [hbccActors, hbcc] at hbccs
    have hsound := getRecipients_eq_iff.mp hrecipients
    exact ⟨hsound, (getBccRecipients_eq_iff hsound).mp hbccs⟩
  · intro h
    have hrecipients : ∀ filled, m.fill env = .ok filled → filled.getRecipients env =
        .ok (addressesOf env (m.value env (·.actors) (·.actors)) ++
          listed env (m.value env (·.to_) (·.to_))) := fun filled hfill => by
      obtain ⟨hactors, hto, -⟩ := value_of_fill hfill
      rw [hactors, hto]
      exact getRecipients_eq_iff.mpr (h filled hfill).to_
    refine ⟨hrecipients, fun filled hfill => ?_, fun filled addresses hfill haddresses => ?_⟩
    · obtain ⟨-, -, hbccActors, hbcc⟩ := value_of_fill hfill
      rw [hbccActors, hbcc]
      exact (getBccRecipients_eq_iff (h filled hfill).to_).mpr (h filled hfill).bcc
    · obtain rfl := Except.ok.inj ((hrecipients filled hfill).symm.trans haddresses)
      exact fun address => List.mem_append.mp

end Lists

/-! ## An example -/

/-- Expressions are texts, and actors have an address each. -/
def plainTexts : Environment where
  templates _ := none
  evaluate := some
  resolveAddress actorId := .string (actorId ++ "@example")
  bccAddress := none
  resolves _ := nofun

/-- A mail to a clerk, of which the boss gets a blind copy. -/
def blindCopy : Message where
  template := none
  actors := some "clerk"
  to_ := none
  bccActors := none
  bcc := some "boss@example"

theorem blindCopy_not_exact : ¬ Exact plainTexts blindCopy := by
  intro h
  cases h.bccRecipients blindCopy rfl

end Mail

end Jbpm
